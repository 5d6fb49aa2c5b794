import Wireform.Json.Basic
import Wireform.Double.Printer
import Wireform.Text.Integer

/-!
# JSON text of a document

`compact` writes no blanks; `pretty` indents by two spaces and breaks after every member.
-/

namespace Wireform

def Number.text : Number → String
  | .int n => Text.ofInt n
  | .float x _ => x.text .document

namespace Json

/-- Controls without a short escape are written with four hexadecimal digits. -/
def escapeChar (c : Char) : String :=
  if c = '"' then "\\\""
  else if c = '\\' then "\\\\"
  else if c = '\n' then "\\n"
  else if c = '\r' then "\\r"
  else if c = '\t' then "\\t"
  else if c = Char.ofNat 8 then "\\b"
  else if c = Char.ofNat 12 then "\\f"
  else if c.toNat < 16 then "\\u000" ++ Text.hexOfNat c.toNat
  else if c.toNat < 32 then "\\u00" ++ Text.hexOfNat c.toNat
  else c.toString

def stringText (s : String) : String :=
  "\"" ++ String.join (s.toList.map escapeChar) ++ "\""

mutual

def compact : Json → String
  | .null => "null"
  | .bool b => if b then "true" else "false"
  | .num n => n.text
  | .str s => stringText s
  | .arr items => "[" ++ ",".intercalate (compactItems items) ++ "]"
  | .obj props => "\x7b" ++ ",".intercalate (compactProps props) ++ "\x7d"

def compactItems : List Json → List String
  | [] => []
  | j :: js => compact j :: compactItems js

def compactProps : List (String × Json) → List String
  | [] => []
  | (k, j) :: ps => (stringText k ++ ":" ++ compact j) :: compactProps ps

end

/-- Members one level in, one to a line, between two brackets; nothing between them if there are
none. -/
def block (indent : String) (opening closing : String) (members : List String) : String :=
  if members.isEmpty then opening ++ closing
  else
    let inner := indent ++ "  "
    opening ++ "\n" ++ inner ++ (",\n" ++ inner).intercalate members ++ "\n" ++ indent ++ closing

mutual

def prettyAt (indent : String) : Json → String
  | .null => "null"
  | .bool b => if b then "true" else "false"
  | .num n => n.text
  | .str s => stringText s
  | .arr items => block indent "[" "]" (prettyItems (indent ++ "  ") items)
  | .obj props => block indent "\x7b" "\x7d" (prettyProps (indent ++ "  ") props)

def prettyItems (indent : String) : List Json → List String
  | [] => []
  | j :: js => prettyAt indent j :: prettyItems indent js

def prettyProps (indent : String) : List (String × Json) → List String
  | [] => []
  | (k, j) :: ps => (stringText k ++ ": " ++ prettyAt indent j) :: prettyProps indent ps

end

def pretty (j : Json) : String := prettyAt "" j

end Json

end Wireform
