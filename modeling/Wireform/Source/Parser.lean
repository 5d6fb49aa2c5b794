import Wireform.Source.Lexer
import Wireform.Source.Tree

/-!
# From tokens to syntax trees

A parser keeps its place when it fails, so that the next call goes on from there. Types descend at
most `maxTypeNesting` levels; lists end with the tokens that are left.
-/

namespace Wireform.Source

/-- Levels of types inside types that are followed. -/
def maxTypeNesting : Nat := 64

/-- A place in a source text: the tokens ahead, and the end of the token behind. -/
structure Cursor where
  source : List Char
  ahead : List Token
  behind : Nat

abbrev Parser := EStateM SourceError Cursor

/-- The characters in a range of bytes; `pos` is the offset of the first of `cs`. -/
def sliceFrom (start stop pos : Nat) : List Char → List Char
  | [] => []
  | c :: cs =>
    let rest := sliceFrom start stop (pos + c.utf8Size) cs
    if start ≤ pos && pos < stop then c :: rest else rest

namespace Cursor

def ofSource (src : String) : Except SourceError Cursor := do
  return ⟨src.toList, ← tokenize src, 0⟩

def token (c : Cursor) : Token := c.ahead.headD ⟨.eof, c.behind, c.behind⟩

/-- The token after the next, or the last one. -/
def second (c : Cursor) : Token :=
  match c.ahead with
  | _ :: t :: _ => t
  | _ => c.token

/-- Nothing moves past the end. -/
def advance (c : Cursor) : Cursor :=
  match c.ahead with
  | t :: ts => if t.kind = .eof then c else ⟨c.source, ts, t.stop⟩
  | [] => c

def textSince (c : Cursor) (start : Nat) : String :=
  String.ofList (sliceFrom start c.behind 0 c.source)

end Cursor

def peek : Parser TokenKind := do return (← get).token.kind

def advance : Parser Unit := modify Cursor.advance

def fail {α : Type} (why : Complaint) : Parser α := do
  let t := (← get).token
  throw (.parse t.start t.kind.shown why)

def atEnd : Parser Bool := do return (← peek) = .eof

def eat (kind : TokenKind) : Parser Bool := do
  if (← peek) = kind then
    advance
    return true
  else return false

def expect (kind : TokenKind) : Parser Unit := do
  unless ← eat kind do fail (.expected kind.shown)

def ident : Parser String := do
  match ← peek with
  | .ident name =>
    advance
    return name
  | _ => fail .expectedIdent

def expectWord (word : String) : Parser Unit := do
  unless ← eat (.ident word) do fail (.expected word)

/-- Items as long as `more` says so, at most `fuel` of them. -/
def whileSome {α : Type} (more : Parser Bool) (item : Parser α) : Nat → Parser (List α)
  | 0 => return []
  | fuel + 1 => do
    if ← more then
      let x ← item
      return x :: (← whileSome more item fuel)
    else return []

/-- An item takes a token at least, so there are no more items than tokens ahead. -/
def many {α : Type} (more : Parser Bool) (item : Parser α) : Parser (List α) := do
  whileSome more item (← get).ahead.length

/-- Items with commas between them up to a closing token, and whether every item has its comma. -/
def untilClose {α : Type} (close : TokenKind) (item : Parser α) : Nat → Parser (List α × Bool)
  | 0 => return ([], true)
  | fuel + 1 => do
    if ← eat close then return ([], true)
    let x ← item
    if ← eat .comma then
      let (xs, allCommas) ← untilClose close item fuel
      return (x :: xs, allCommas)
    else
      expect close
      return ([x], false)

def delimited {α : Type} (close : TokenKind) (item : Parser α) : Parser (List α × Bool) := do
  untilClose close item (← get).ahead.length

/-! ### Types -/

def parseField (type : Parser TypeExpr) : Parser FieldExpr := do
  match (← get).token.kind, (← get).second.kind with
  | .ident name, .colons =>
    advance
    advance
    return (some name, ← type)
  | _, _ => return (none, ← type)

def parseFields (type : Parser TypeExpr) (close : TokenKind) : Parser (List FieldExpr) := do
  return (← delimited close (parseField type)).1

/-- A string, or a type. -/
def parseArg (type : Parser TypeExpr) : Parser TypeArg := do
  match ← peek with
  | .str doc =>
    advance
    return .doc doc
  | _ => return .type (← type)

/-- One level of a type, its parts with `type`. -/
def parseTypeWith (type : Parser TypeExpr) : Parser TypeExpr := do
  let start := (← get).token.start
  match ← peek with
  | .ident head =>
    advance
    if ← eat .lparen then
      let (args, _) ← delimited .rparen (parseArg type)
      return .apply head args start ((← get).textSince start)
    let segments ← many (eat .dot) ident
    return .path (head :: segments) start
  | .lparen =>
    advance
    match ← delimited .rparen type with
    -- Without a comma the parentheses only group.
    | ([t], false) => return t
    | (elems, _) => return .tuple elems
  | .lbrace =>
    advance
    return .record (← parseFields type .rbrace)
  | _ => fail .expectedType

def parseTypeWithin : Nat → Parser TypeExpr
  | 0 => fail (.nestedTypes maxTypeNesting)
  | levels + 1 => parseTypeWith (parseTypeWithin levels)

def parseType : Parser TypeExpr := parseTypeWithin maxTypeNesting

/-! ### Declarations -/

def parseVariant : Parser VariantExpr := do
  let tag ← ident
  if ← eat .lparen then return (tag, ← parseFields parseType .rparen)
  else return (tag, [])

/-- `name :: Dom -> Codom` -/
def parseArrow : Parser (String × String × String) := do
  let name ← ident
  expect .colons
  let dom ← ident
  expect .arrow
  let codom ← ident
  return (name, dom, codom)

def parseTableItem : Parser TableItem := do
  let t := (← get).token
  match t.kind with
  | .ident word =>
    advance
    match word with
    | "ob" =>
      let name ← ident
      return .ob (name :: (← many (eat .comma) ident))
    | "hom" =>
      let (name, dom, codom) ← parseArrow
      return .hom name dom codom
    | "attr" =>
      let (name, dom, codom) ← parseArrow
      return .attr name dom codom
    | "attrtype" =>
      let name ← ident
      expect .eq
      return .attrType name (← parseType)
    | _ => throw (.parse t.start word .expectedTableWord)
  | _ => fail .expectedTableWord

def parseDecl : Parser DeclExpr := do
  match ← peek with
  | .ident "struct" =>
    advance
    let name ← ident
    expect .lbrace
    return .struct name (← parseFields parseType .rbrace)
  | .ident "sum" =>
    advance
    let name ← ident
    expect .lbrace
    let _ ← eat .pipe
    let first ← parseVariant
    let rest ← many (eat .pipe) parseVariant
    expect .rbrace
    return .sum name (first :: rest)
  | .ident "alias" =>
    advance
    let name ← ident
    expect .eq
    return .alias name (← parseType)
  | .ident "table" =>
    advance
    let name ← ident
    expect .lbrace
    return .table name (← many (do return !(← eat .rbrace)) parseTableItem)
  | .ident _ => fail .expectedDeclWord
  | _ => fail .expectedDecl

/-- Exactly one declaration. -/
def parseSingle : Parser DeclExpr := do
  let decl ← parseDecl
  unless ← atEnd do fail .expectedSingle
  return decl

/-- The name of a module and its imports. -/
def parseHeader : Parser (String × List String) := do
  expectWord "module"
  let name ← ident
  return (name, ← many (eat (.ident "import")) ident)

def parseFile : Parser SourceFile := do
  let (name, imports) ← parseHeader
  return ⟨name, imports, ← many (do return !(← atEnd)) parseDecl⟩

/-- Runs a parser at the start of a source text. -/
def runOn {α : Type} (p : Parser α) (src : String) : Except SourceError α := do
  match p.run (← Cursor.ofSource src) with
  | .ok a _ => .ok a
  | .error e _ => .error e

end Wireform.Source
