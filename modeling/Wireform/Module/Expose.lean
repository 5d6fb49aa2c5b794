import Wireform.Module.Basic

/-!
# What a type is underneath

Writing and comparing look at a type without its documentation and with its aliases expanded. A
chain of aliases stays in a module for at most as many steps as that has declarations, or else it
comes back; when it leaves, it goes on in an import. So the expansion is defined by recursion on the
module, with a budget of steps inside each one.
-/

namespace Wireform

/-- What messages call a type: its surface text, or the name of the declaration it refers to. -/
inductive Label where
  | inline (t : Ty)
  | named (name : String)

def Label.text : Label → String
  | .inline t => t.render
  | .named name => name

/-- The outermost shape of a type. -/
inductive Head where
  | prim (p : Prim)
  | optional (t : Ty)
  | list (t : Ty)
  | object (t : Ty)
  | map (k v : Ty)
  | record (fields : Fields Ty)
  | sum (variants : List Variant)
  /-- A tag of the sum `parent`; nothing if that sum has no such variant. -/
  | tag (parent : String) (variant : Option Variant)
  | table
  | unresolved (path : String)
  /-- A chain of aliases that comes back to itself. -/
  | endless

/-- The shape of a type, what to call it, and where its parts are looked up. -/
structure Exposed where
  owner : Module
  label : Label
  head : Head

namespace Module

def exposeDecl (owner : Module) (name : String) : Decl → Exposed
  | .alias _ => ⟨owner, .named name, .endless⟩
  | .struct fields => ⟨owner, .named name, .record fields⟩
  | .sum variants => ⟨owner, .named name, .sum variants⟩
  | .variant parent index => ⟨owner, .named name, .tag parent (owner.variant? parent index)⟩
  | .table _ => ⟨owner, .named name, .table⟩

/-- The shape of a type that is neither documentation nor a reference. -/
def exposeInline (m : Module) (t : Ty) : Exposed :=
  ⟨m, .inline t, match t with
    | .prim p => .prim p
    | .optional t => .optional t
    | .list t => .list t
    | .object t => .object t
    | .map k v => .map k v
    | .record fields => .record fields
    | .sum variants => .sum variants
    | .annot _ _ => .endless
    | .ref r => .unresolved r.path⟩

/-- How a type of some module is exposed. -/
abbrev Exposer := Ty → Exposed

/-- Expands at most `budget` aliases of `m` in a row; `imported` goes on in the imports. -/
def exposeWithin (m : Module) (imported : Fields Exposer) : Nat → Ty → Exposed
  | budget, ty =>
    match ty.stripAnnot with
    | .ref r =>
      match m.resolve? r with
      | none => m.exposeInline (.ref r)
      | some (owner, .alias t) =>
        match r.via.bind imported.get?, budget with
        | some expose, _ => expose t
        | none, 0 => owner.exposeDecl r.name (.alias t)
        | none, budget + 1 => exposeWithin m imported budget t
      | some (owner, decl) => owner.exposeDecl r.name decl
    | t => m.exposeInline t

theorem exposeWithin_eq (m : Module) (imported : Fields Exposer) (budget : Nat) (ty : Ty) :
    m.exposeWithin imported budget ty =
      match ty.stripAnnot with
      | .ref r =>
        match m.resolve? r with
        | none => m.exposeInline (.ref r)
        | some (owner, .alias t) =>
          match r.via.bind imported.get?, budget with
          | some expose, _ => expose t
          | none, 0 => owner.exposeDecl r.name (.alias t)
          | none, budget + 1 => m.exposeWithin imported budget t
        | some (owner, decl) => owner.exposeDecl r.name decl
      | t => m.exposeInline t :=
  exposeWithin.eq_def m imported budget ty

mutual

/-- The shape of a type of a module. -/
def expose : Module → Ty → Exposed
  | ⟨name, imports, decls⟩, ty =>
    exposeWithin ⟨name, imports, decls⟩ (importExposers imports) decls.length ty

def importExposers : List (String × Module) → Fields Exposer
  | [] => []
  | (name, m) :: ms => (name, expose m) :: importExposers ms

end

end Module

end Wireform
