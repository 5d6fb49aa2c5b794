import Mathlib
import Wireform.Proofs.Sequence
import Wireform.Source.Parser

/-!
# The parser as a machine

A cursor holds the tokens that are ahead, so it cannot leave them, and levels of types are counted by the
recursion itself. Here the same grammar is read by a machine that can go wrong: it keeps all tokens and the
index of the next, looks tokens and texts up where they may not be, counts the levels it is in by hand, and
loops for as long as it takes. A run is `none` if a token or a text is looked up out of range, if the
counter is taken below zero, or if some loop or the nesting of types passes `limit` rounds.
-/

namespace Wireform.Source

structure Machine where
  source : List Char
  tokens : List Token
  current : Nat
  nesting : Nat

/-- A run stops with a result or with an error, and with the machine as it is then. -/
abbrev Run := ExceptT SourceError (StateT Machine Option)

/-- Whether a character starts at this byte, or the text ends there. -/
def isBoundary : Nat → List Char → Bool
  | pos, [] => pos = 0
  | pos, c :: cs => pos = 0 || (c.utf8Size ≤ pos && isBoundary (pos - c.utf8Size) cs)

/-- A range of bytes that holds whole characters. -/
def slice? (source : List Char) (start stop : Nat) : Option String :=
  if start ≤ stop && isBoundary start source && isBoundary stop source then
    some (String.ofList (sliceFrom start stop 0 source))
  else none

namespace Machine

variable {α : Type}

/-- What was looked up, unless it was out of range. -/
def found (x? : Option α) : Run α := ExceptT.lift (StateT.lift x?)

def token : Run Token := do found ((← get).tokens[(← get).current]?)

def peek : Run TokenKind := do return (← token).kind

/-- The kind of the token after the next, or of the last one. -/
def peekSecond : Run TokenKind := do
  let m ← get
  return (← found (m.tokens[min (m.current + 1) (m.tokens.length - 1)]?)).kind

def advance : Run Unit := do
  if (← peek) ≠ .eof then modify fun m => { m with current := m.current + 1 }

def fail (why : Complaint) : Run α := do
  let t ← token
  throw (.parse t.start t.kind.shown why)

/-- The text from `start` to the end of the token behind. -/
def textSince (start : Nat) : Run String := do
  let m ← get
  let last ← found (m.tokens[m.current - 1]?)
  found (slice? m.source start (max last.stop start))

/-- The start of the token behind, which there has to be. -/
def startBehind : Run Nat := do
  let m ← get
  match m.current with
  | 0 => found none
  | k + 1 => return (← found (m.tokens[k]?)).start

def atEnd : Run Bool := do return (← peek) = .eof

def eat (kind : TokenKind) : Run Bool := do
  if (← peek) = kind then
    advance
    return true
  else return false

def expect (kind : TokenKind) : Run Unit := do
  unless ← eat kind do fail (.expected kind.shown)

def ident : Run String := do
  match ← peek with
  | .ident name =>
    advance
    return name
  | _ => fail .expectedIdent

def expectWord (word : String) : Run Unit := do
  unless ← eat (.ident word) do fail (.expected word)

def many (more : Run Bool) (item : Run α) : Nat → Run (List α)
  | 0 => found none
  | limit + 1 => do
    if ← more then
      let x ← item
      return x :: (← many more item limit)
    else return []

def delimited (close : TokenKind) (item : Run α) : Nat → Run (List α × Bool)
  | 0 => found none
  | limit + 1 => do
    if ← eat close then return ([], true)
    let x ← item
    if ← eat .comma then
      let (xs, allCommas) ← delimited close item limit
      return (x :: xs, allCommas)
    else
      expect close
      return ([x], false)

/-- One level back out, whatever the run ended with. -/
def leave : Option (Except SourceError α × Machine) → Option (Except SourceError α × Machine)
  | none => none
  | some (result, m) =>
    match m.nesting with
    | 0 => none
    | n + 1 => some (result, { m with nesting := n })

def nested (level : Run α) : Run α := fun m =>
  if maxTypeNesting ≤ m.nesting then fail (.nestedTypes maxTypeNesting) m
  else leave (level { m with nesting := m.nesting + 1 })

/-! ### Types -/

def parseField (type : Run TypeExpr) : Run FieldExpr := do
  match ← peek, ← peekSecond with
  | .ident name, .colons =>
    advance
    advance
    return (some name, ← type)
  | _, _ => return (none, ← type)

def parseArg (type : Run TypeExpr) : Run TypeArg := do
  match ← peek with
  | .str doc =>
    advance
    return .doc doc
  | _ => return .type (← type)

variable (limit : Nat)

def parseFields (type : Run TypeExpr) (close : TokenKind) : Run (List FieldExpr) := do
  return (← delimited close (parseField type) limit).1

def parseTypeWith (type : Run TypeExpr) : Run TypeExpr := do
  let start := (← token).start
  match ← peek with
  | .ident head =>
    advance
    if ← eat .lparen then
      let (args, _) ← delimited .rparen (parseArg type) limit
      return .apply head args start (← textSince start)
    let segments ← many (eat .dot) ident limit
    return .path (head :: segments) start
  | .lparen =>
    advance
    match ← delimited .rparen type limit with
    | ([t], false) => return t
    | (elems, _) => return .tuple elems
  | .lbrace =>
    advance
    return .record (← parseFields limit type .rbrace)
  | _ => fail .expectedType

def parseTypeTo : Nat → Run TypeExpr
  | 0 => found none
  | depth + 1 => nested (parseTypeWith limit (parseTypeTo depth))

def parseType : Run TypeExpr := parseTypeTo limit limit

/-! ### Declarations -/

def parseVariant : Run VariantExpr := do
  let tag ← ident
  if ← eat .lparen then return (tag, ← parseFields limit (parseType limit) .rparen)
  else return (tag, [])

def parseArrow : Run (String × String × String) := do
  let name ← ident
  expect .colons
  let dom ← ident
  expect .arrow
  let codom ← ident
  return (name, dom, codom)

def parseTableItem : Run TableItem := do
  match ← peek with
  | .ident word =>
    advance
    match word with
    | "ob" =>
      let name ← ident
      return .ob (name :: (← many (eat .comma) ident limit))
    | "hom" =>
      let (name, dom, codom) ← parseArrow
      return .hom name dom codom
    | "attr" =>
      let (name, dom, codom) ← parseArrow
      return .attr name dom codom
    | "attrtype" =>
      let name ← ident
      expect .eq
      return .attrType name (← parseType limit)
    | _ => throw (.parse (← startBehind) word .expectedTableWord)
  | _ => fail .expectedTableWord

def parseDecl : Run DeclExpr := do
  match ← peek with
  | .ident "struct" =>
    advance
    let name ← ident
    expect .lbrace
    return .struct name (← parseFields limit (parseType limit) .rbrace)
  | .ident "sum" =>
    advance
    let name ← ident
    expect .lbrace
    let _ ← eat .pipe
    let first ← parseVariant limit
    let rest ← many (eat .pipe) (parseVariant limit) limit
    expect .rbrace
    return .sum name (first :: rest)
  | .ident "alias" =>
    advance
    let name ← ident
    expect .eq
    return .alias name (← parseType limit)
  | .ident "table" =>
    advance
    let name ← ident
    expect .lbrace
    return .table name (← many (do return !(← eat .rbrace)) (parseTableItem limit) limit)
  | .ident _ => fail .expectedDeclWord
  | _ => fail .expectedDecl

def parseSingle : Run DeclExpr := do
  let decl ← parseDecl limit
  unless ← atEnd do fail .expectedSingle
  return decl

def parseHeader : Run (String × List String) := do
  expectWord "module"
  let name ← ident
  return (name, ← many (eat (.ident "import")) ident limit)

def parseFile : Run SourceFile := do
  let (name, imports) ← parseHeader limit
  return ⟨name, imports, ← many (do return !(← atEnd)) (parseDecl limit) limit⟩

end Machine

/-! ### Calls -/

/-- What a parser can be asked for. -/
inductive Call where
  | file
  | single
  | decl
  | type

inductive Reply where
  | file (file : SourceFile)
  | decl (decl : DeclExpr)
  | type (type : TypeExpr)

def Call.parser : Call → Parser Reply
  | .file => do return .file (← parseFile)
  | .single => do return .decl (← parseSingle)
  | .decl => do return .decl (← parseDecl)
  | .type => do return .type (← parseType)

def Call.run (limit : Nat) : Call → Run Reply
  | .file => do return .file (← Machine.parseFile limit)
  | .single => do return .decl (← Machine.parseSingle limit)
  | .decl => do return .decl (← Machine.parseDecl limit)
  | .type => do return .type (← Machine.parseType limit)

/-- The replies to calls that follow each other, whether the ones before failed or not. -/
def Cursor.replies : List Call → Cursor → List (Except SourceError Reply)
  | [], _ => []
  | call :: calls, c =>
    match call.parser c with
    | .ok reply c' => .ok reply :: replies calls c'
    | .error e c' => .error e :: replies calls c'

/-- The same calls on the machine, each reply with the machine after it. -/
def Machine.session (limit : Nat) : List Call → Machine → Option (List (Except SourceError Reply × Machine))
  | [], _ => some []
  | call :: calls, m => do
    let (reply, m') ← call.run limit m
    return (reply, m') :: (← session limit calls m')

end Wireform.Source
