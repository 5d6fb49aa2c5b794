import Wireform.Text.Integer

/-!
# Names in generated source

Declared names are kept as they are, escaped where the target language reserves them. Items that
no declaration names get a name made from where they stand, with a number if that is taken.
-/

namespace Wireform.Emit

/-- Words that need the raw form. -/
def keywords : List String :=
  ["as", "async", "await", "break", "const", "continue", "dyn", "else", "enum", "extern",
    "false", "fn", "for", "if", "impl", "in", "let", "loop", "match", "mod", "move", "mut",
    "pub", "ref", "return", "static", "struct", "trait", "true", "type", "unsafe", "use",
    "where", "while", "abstract", "become", "box", "do", "final", "gen", "macro", "override",
    "priv", "try", "typeof", "unsized", "virtual", "yield"]

/-- Words that have no raw form. -/
def pathWords : List String := ["self", "Self", "super", "crate"]

/-- The identifier of a declared name. -/
def identifier (name : String) : String :=
  if pathWords.contains name then name ++ "_"
  else if keywords.contains name then "r#" ++ name
  else name

/-- Drops underscores and raises the letter after each of them; `start` says whether the next
letter is raised. -/
def camelFrom : Bool → List Char → List Char
  | _, [] => []
  | start, c :: cs =>
    if c = '_' then camelFrom true cs
    else (if start then c.toUpper else c) :: camelFrom false cs

def camel (name : String) : String := String.ofList (camelFrom true name.toList)

/-- The hint itself, then the hint with a number from 2 on. -/
def candidates (hint : String) (n : Nat) : List String :=
  hint :: (List.range n).map fun i => hint ++ Text.ofNat (i + 2)

/-- The first candidate that is not taken. There is one, since there are more candidates than
taken names. -/
def freshName (taken : List String) (hint : String) : String :=
  ((candidates hint taken.length).find? fun name => !taken.contains name).getD hint

end Wireform.Emit
