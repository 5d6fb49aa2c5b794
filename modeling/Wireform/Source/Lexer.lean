import Wireform.Source.Error
import Wireform.Source.Token

/-!
# From characters to tokens

The lexer reads one character at a time and remembers what it is in the middle of. Blanks and
comments, from `#` to the end of the line, stand between tokens.
-/

namespace Wireform.Source

def isIdentStart (c : Char) : Bool :=
  ('a' ≤ c && c ≤ 'z') || ('A' ≤ c && c ≤ 'Z') || c = '_'

def isIdentContinue (c : Char) : Bool := isIdentStart c || ('0' ≤ c && c ≤ '9')

/-- What the characters read last belong to. Lists hold them last first. -/
inductive Pending where
  | blank
  | comment
  | word (start : Nat) (raw : List Char)
  /-- A colon or a dash that waits for the second half of its token. -/
  | half (start : Nat) (c : Char)
  /-- A string: its source text, and the text it stands for. -/
  | quoted (start : Nat) (raw text : List Char)
  /-- A string after a backslash at `slash`. -/
  | escape (start : Nat) (raw text : List Char) (slash : Nat)

def wordToken (start stop : Nat) (raw : List Char) : Token :=
  ⟨.ident (String.ofList raw.reverse), start, stop⟩

def singleToken? (c : Char) : Option TokenKind :=
  if c = '(' then some .lparen
  else if c = ')' then some .rparen
  else if c = '{' then some .lbrace
  else if c = '}' then some .rbrace
  else if c = ',' then some .comma
  else if c = '|' then some .pipe
  else if c = '=' then some .eq
  else if c = '.' then some .dot
  else none

/-- A character that stands at the start of something. -/
def begin (pos : Nat) (c : Char) : Except SourceError (List Token × Pending) :=
  if c = ' ' || c = '\t' || c = '\r' || c = '\n' then .ok ([], .blank)
  else if c = '#' then .ok ([], .comment)
  else if c = ':' || c = '-' then .ok ([], .half pos c)
  else if c = '"' then .ok ([], .quoted pos ['"'] [])
  else if isIdentStart c then .ok ([], .word pos [c])
  else
    match singleToken? c with
    | some kind => .ok ([⟨kind, pos, pos + c.utf8Size⟩], .blank)
    | none => .error (.parse pos c.toString .unexpectedChar)

def halfToken? (c next : Char) : Option TokenKind :=
  if c = ':' && next = ':' then some .colons
  else if c = '-' && next = '>' then some .arrow
  else none

def halfError (start : Nat) (c : Char) : SourceError :=
  .parse start c.toString (.expected (if c = ':' then "::" else "->"))

def unescape? (c : Char) : Option Char :=
  if c = 'n' then some '\n'
  else if c = 't' then some '\t'
  else if c = '"' then some '"'
  else if c = '\\' then some '\\'
  else none

/-- The tokens that the character at `pos` ends, and what is pending after it. -/
def step (pending : Pending) (pos : Nat) (c : Char) : Except SourceError (List Token × Pending) :=
  match pending with
  | .blank => begin pos c
  | .comment => .ok ([], if c = '\n' then .blank else .comment)
  | .word start raw =>
    if isIdentContinue c then .ok ([], .word start (c :: raw))
    else do
      let (tokens, next) ← begin pos c
      return (wordToken start pos raw :: tokens, next)
  | .half start c' =>
    match halfToken? c' c with
    | some kind => .ok ([⟨kind, start, start + 2⟩], .blank)
    | none => .error (halfError start c')
  | .quoted start raw text =>
    if c = '"' then .ok ([⟨.str (String.ofList text.reverse), start, pos + 1⟩], .blank)
    else if c = '\\' then .ok ([], .escape start (c :: raw) text pos)
    else .ok ([], .quoted start (c :: raw) (c :: text))
  | .escape start raw text slash =>
    match unescape? c with
    | some c' => .ok ([], .quoted start (c :: raw) (c' :: text))
    | none => .error (.parse slash ("\\" ++ c.toString) .unknownEscape)

/-- The last tokens of a text that ends at `pos`. -/
def finish (pending : Pending) (pos : Nat) : Except SourceError (List Token) :=
  let eof : Token := ⟨.eof, pos, pos⟩
  match pending with
  | .blank | .comment => .ok [eof]
  | .word start raw => .ok [wordToken start pos raw, eof]
  | .half start c => .error (halfError start c)
  | .quoted start raw _ | .escape start raw _ _ =>
    .error (.parse start (String.ofList raw.reverse) .unterminatedString)

def lexFrom (pending : Pending) (pos : Nat) : List Char → Except SourceError (List Token)
  | [] => finish pending pos
  | c :: cs =>
    match step pending pos c with
    | .error e => .error e
    | .ok (tokens, next) =>
      match lexFrom next (pos + c.utf8Size) cs with
      | .error e => .error e
      | .ok rest => .ok (tokens ++ rest)

def tokenize (src : String) : Except SourceError (List Token) := lexFrom .blank 0 src.toList

end Wireform.Source
