import Wireform.Module.Basic
import Wireform.Source.Error

/-!
# Modules under construction

A name is reserved before its body is known, so that a declaration can refer to itself and to its
neighbours. `finish` asks for every body and for aliases that come to an end.
-/

namespace Wireform

structure Draft where
  name : String
  imports : Fields Module
  /-- Reserved names; those without a declaration still wait for their body. -/
  slots : Fields (Option Decl)

namespace Draft

def new (name : String) : Draft := ⟨name, [], []⟩

def addImport (d : Draft) (m : Module) : Except SourceError Draft :=
  if d.imports.contains m.name then .error (.duplicate .import m.name)
  else .ok { d with imports := d.imports ++ [(m.name, m)] }

/-- Appends a slot for a new name. -/
def reserve (d : Draft) (name : String) : Except SourceError Draft :=
  if d.slots.contains name then .error (.duplicate .declaration name)
  else .ok { d with slots := d.slots ++ [(name, none)] }

def isReserved (d : Draft) (name : String) : Bool :=
  match d.slots.get? name with
  | some none => true
  | _ => false

/-- Fills the slot of a reserved name. -/
def define (d : Draft) (name : String) (decl : Decl) : Except SourceError Draft :=
  match d.slots.get? name with
  | some none => .ok { d with slots := d.slots.insert name (some decl) }
  | some (some _) => .error (.duplicate .declaration name)
  | none => .error (.unresolved name)

/-- A path of one or two segments. -/
def resolvePath (d : Draft) : List String → Except SourceError Ref
  | [name] =>
    match d.slots.index? name with
    | some slot => .ok ⟨none, name, slot⟩
    | none => .error (.unresolved name)
  | [i, name] =>
    match (d.imports.get? i).bind (·.slotOf? name) with
    | some slot => .ok ⟨some i, name, slot⟩
    | none => .error (.unresolved (i ++ "." ++ name))
  | segments => .error (.longPath segments)

/-- All slots with their bodies. -/
def bodies : Fields (Option Decl) → Except SourceError (Fields Decl)
  | [] => .ok []
  | (name, none) :: _ => .error (.unresolved name)
  | (name, some decl) :: slots => do return (name, decl) :: (← bodies slots)

/-- The alias behind a type, if that is a reference inside the module. -/
def aliasStep? (decls : Fields Decl) (t : Ty) : Option Ty :=
  match t.stripAnnot with
  | .ref ⟨none, name, _⟩ =>
    match decls.get? name with
    | some (.alias next) => some next
    | _ => none
  | _ => none

/-- Aliases of the module itself, one after the other, go on for more than `steps`. -/
def aliasesOutlast (decls : Fields Decl) : Nat → Ty → Bool
  | 0, t => (aliasStep? decls t).isSome
  | steps + 1, t =>
    match aliasStep? decls t with
    | some next => aliasesOutlast decls steps next
    | none => false

/-- The first alias that never reaches a shape. With more steps than declarations a chain has come
back to one of them; imports were checked before. -/
def aliasCycle? (decls : Fields Decl) : Option String :=
  (decls.find? fun (_, decl) =>
    match decl with
    | .alias t => aliasesOutlast decls decls.length t
    | _ => false).map Prod.fst

def finish (d : Draft) : Except SourceError Module := do
  let decls ← bodies d.slots
  match aliasCycle? decls with
  | some name => .error (.aliasCycle name)
  | none => .ok ⟨d.name, d.imports, decls⟩

end Draft

end Wireform
