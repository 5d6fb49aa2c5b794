import Wireform.Command.Failure
import Wireform.Fields

/-!
# Imports before importers

The modules of a set of sources in an order in which every module comes after its imports: depth
first, in the order of the sources and of their import lists.
-/

namespace Wireform.Command

structure SourceUnit where
  path : String
  text : String
  imports : List String

/-- Sources by the name of their module. -/
abbrev Sources := Fields SourceUnit

/-- Appends a module and what it needs to the order so far. `visiting` are the modules whose imports
are being followed; each of them is a source and stands there once, so `fuel` never runs out before
one of the tests in front of it decides. -/
def visit (sources : Sources) :
    (fuel : Nat) → (visiting order : List String) → (name : String) → Except Failure (List String)
  | fuel, visiting, order, name =>
    if order.contains name then .ok order
    else if visiting.contains name then .error (.of (.importCycle (visiting ++ [name])))
    else
      match sources.get? name with
      | none => .error (.of (.missingImport name))
      | some unit =>
        match fuel with
        | 0 => .error (.of (.importCycle (visiting ++ [name])))
        | fuel + 1 =>
          match unit.imports.foldlM (visit sources fuel (visiting ++ [name])) order with
          | .ok order => .ok (order ++ [name])
          | .error e => .error (e.during (.importedBy unit.path))

def importOrder (sources : Sources) : Except Failure (List String) :=
  sources.keys.foldlM (visit sources sources.length []) []

end Wireform.Command
