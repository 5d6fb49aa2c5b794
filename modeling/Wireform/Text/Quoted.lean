import Wireform.Text.Integer
import Wireform.Text.Invisible

/-!
# Quoted text

How messages and generated source show a text: in double quotes, with an escape for the quote, the
backslash, the usual controls, and every character that would not show.
-/

namespace Wireform.Text

def escapeChar (c : Char) : String :=
  if c = '"' then "\\\""
  else if c = '\\' then "\\\\"
  else if c = '\n' then "\\n"
  else if c = '\r' then "\\r"
  else if c = '\t' then "\\t"
  else if c = Char.ofNat 0 then "\\0"
  else if isInvisible c then "\\u\x7b" ++ hexOfNat c.toNat ++ "\x7d"
  else c.toString

def quote (s : String) : String :=
  "\"" ++ String.join (s.toList.map escapeChar) ++ "\""

/-- The quoted members between brackets. -/
def quoteList (ss : List String) : String :=
  "[" ++ ", ".intercalate (ss.map quote) ++ "]"

end Wireform.Text
