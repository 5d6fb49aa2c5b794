import Wireform.Text.Quoted

/-!
# Tokens of the declaration language

Keywords are identifiers; the parser tells them by their text where it expects one, so they stay
usable as field names. Positions are byte offsets in UTF-8.
-/

namespace Wireform.Source

inductive TokenKind where
  | ident (s : String)
  | str (s : String)
  | lparen | rparen | lbrace | rbrace
  | comma | pipe | eq | colons | arrow | dot
  | eof
deriving DecidableEq

/-- How messages show a token. -/
def TokenKind.shown : TokenKind → String
  | .ident s => s
  | .str s => Text.quote s
  | .lparen => "("
  | .rparen => ")"
  | .lbrace => "\x7b"
  | .rbrace => "\x7d"
  | .comma => ","
  | .pipe => "|"
  | .eq => "="
  | .colons => "::"
  | .arrow => "->"
  | .dot => "."
  | .eof => "end of input"

/-- A token and the range of bytes it covers. -/
structure Token where
  kind : TokenKind
  start : Nat
  stop : Nat
deriving DecidableEq

end Wireform.Source
