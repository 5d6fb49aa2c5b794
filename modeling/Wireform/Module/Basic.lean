import Wireform.Decl

/-!
# Modules

A module is a table of declarations and a table of the modules it imports. A declaration is found
by its slot; the name at that slot must be the name asked for.
-/

namespace Wireform

structure Module where
  name : String
  imports : List (String × Module)
  decls : List (String × Decl)

namespace Module

instance : Inhabited Module := ⟨⟨"", [], []⟩⟩

def get? (m : Module) (name : String) : Option Decl := Fields.get? m.decls name

def slotOf? (m : Module) (name : String) : Option Nat := Fields.index? m.decls name

def import? (m : Module) (name : String) : Option Module := Fields.get? m.imports name

/-- The module that a reference made in `m` points into. -/
def owner? (m : Module) (r : Ref) : Option Module :=
  match r.via with
  | none => some m
  | some i => m.import? i

/-- The declaration behind a reference made in `m`, with the module that owns it: what the
declaration refers to is found from there. -/
def resolve? (m : Module) (r : Ref) : Option (Module × Decl) :=
  match m.owner? r with
  | none => none
  | some owner =>
    match owner.decls[r.slot]? with
    | none => none
    | some (name, decl) => if name = r.name then some (owner, decl) else none

/-- Splits at the first point. -/
def splitPath (path : String) : Option String × String :=
  let cs := path.toList
  let head := cs.takeWhile (· != '.')
  match cs.dropWhile (· != '.') with
  | _ :: rest => (some (String.ofList head), String.ofList rest)
  | [] => (none, path)

/-- The reference that `Name` or `import.Name` stands for. -/
def lookup? (m : Module) (path : String) : Option Ref :=
  let (via, name) := splitPath path
  match (match via with
    | some i => m.import? i
    | none => some m) with
  | none => none
  | some owner => (owner.slotOf? name).map fun slot => ⟨via, name, slot⟩

/-- The variant that a tag stands for. -/
def variant? (m : Module) (parent : String) (index : Nat) : Option Variant :=
  match m.get? parent with
  | some (.sum variants) => variants[index]?
  | _ => none

end Module

end Wireform
