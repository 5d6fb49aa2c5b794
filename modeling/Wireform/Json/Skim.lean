import Wireform.Json.Parser

/-!
# Values that nobody looks at

Stepping over a value checks its grammar only: numbers may be out of range, escaped units may
stand alone, and no bound on the nesting applies.
-/

namespace Wireform.Json

/-- The rest after the closing quote. -/
def skimString : List Char → Option (List Char)
  | [] => none
  | c :: cs =>
    if c = '"' then some cs
    else if c = '\\' then
      match cs with
      | 'u' :: a :: b :: c :: d :: cs =>
        match hexUnit? a b c d with
        | some _ => skimString cs
        | none => none
      | e :: cs => if (shortEscape? e).isSome then skimString cs else none
      | [] => none
    else if c.toNat < 0x20 then none
    else skimString cs

def skimName : Reader (List Char) := fun cs => (skimString cs).map fun rest => ([], rest)

def skimScalar : List Char → Option (Unit × List Char)
  | 'n' :: 'u' :: 'l' :: 'l' :: cs => some ((), cs)
  | 't' :: 'r' :: 'u' :: 'e' :: cs => some ((), cs)
  | 'f' :: 'a' :: 'l' :: 's' :: 'e' :: cs => some ((), cs)
  | '"' :: cs => (skimString cs).map fun rest => ((), rest)
  | cs => (numeral? cs).map fun r => ((), r.2)

def skimWithin : Nat → List Char → Option (Unit × List Char)
  | 0, cs => skimScalar (skipBlank cs)
  | levels + 1, cs =>
    match skipBlank cs with
    | '[' :: cs => (bracketed ']' (skimWithin levels) cs).map fun r => ((), r.2)
    | '{' :: cs =>
      (bracketed '}' (member skimName fun _ => skimWithin levels) cs).map fun r => ((), r.2)
    | cs => skimScalar cs

/-- A text has no more levels than characters. -/
def skim : Reader Unit := fun cs => skimWithin cs.length cs

end Wireform.Json
