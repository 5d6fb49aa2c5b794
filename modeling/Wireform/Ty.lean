import Wireform.Fields
import Wireform.Text.Integer
import Wireform.Text.Quoted

/-!
# Types

The closed algebra of shapes a declaration can give to JSON data, and its surface text. A tuple is
a record whose fields are named `_1`, `_2`, … in order.
-/

namespace Wireform

/-- Scalars. -/
inductive Prim where
  | i32 | u32 | i64 | u64 | f64 | boolean | str
  /-- A name. -/
  | ident
  /-- Raw bytes, base64 text in a document. -/
  | binary
deriving DecidableEq

namespace Prim

def all : List Prim := [.i32, .u32, .i64, .u64, .f64, .boolean, .str, .ident, .binary]

def name : Prim → String
  | .i32 => "I32"
  | .u32 => "U32"
  | .i64 => "I64"
  | .u64 => "U64"
  | .f64 => "F64"
  | .boolean => "Boolean"
  | .str => "Str"
  | .ident => "Ident"
  | .binary => "Binary"

def ofName? (s : String) : Option Prim := all.find? (·.name == s)

end Prim

/-- A reference to a declaration: the import it goes through, if any, the declared name, and the
slot of that name in the module it belongs to. -/
structure Ref where
  via : Option String
  name : String
  slot : Nat
deriving DecidableEq

/-- `Name` or `import.Name`. -/
def Ref.path (r : Ref) : String :=
  match r.via with
  | some m => m ++ "." ++ r.name
  | none => r.name

inductive Ty where
  | prim (p : Prim)
  | optional (t : Ty)
  | list (t : Ty)
  /-- Any text as a key. -/
  | object (t : Ty)
  /-- Any value as a key, in insertion order. -/
  | map (k v : Ty)
  | record (fields : List (String × Ty))
  | sum (variants : List (String × List (String × Ty)))
  /-- Documentation; documents do not show it. -/
  | annot (doc : String) (t : Ty)
  | ref (r : Ref)

/-- A tag and its fields. -/
abbrev Variant := String × Fields Ty

def ordinalName (i : Nat) : String := "_" ++ Text.ofNat (i + 1)

/-- The names are exactly `_1`, `_2`, … -/
def isTuple {α : Type} (fs : Fields α) : Bool :=
  !fs.isEmpty && Fields.keys fs == (List.range fs.length).map ordinalName

namespace Ty

instance : Inhabited Ty := ⟨.prim .i32⟩

def tuple (ts : List Ty) : Ty := .record (ts.mapIdx fun i t => (ordinalName i, t))

/-- The type under its documentation. -/
def stripAnnot : Ty → Ty
  | .annot _ t => t.stripAnnot
  | t => t

@[simp] theorem stripAnnot_ref (r : Ref) : (Ty.ref r).stripAnnot = .ref r := rfl

/-- Documentation texts, outermost first. -/
def docs : Ty → List String
  | .annot doc t => doc :: t.docs
  | _ => []

mutual

/-- Surface text. -/
def render : Ty → String
  | .prim p => p.name
  | .optional t => "Optional(" ++ t.render ++ ")"
  | .list t => "List(" ++ t.render ++ ")"
  | .object t => "Object(" ++ t.render ++ ")"
  | .map k v => "Map(" ++ k.render ++ ", " ++ v.render ++ ")"
  | .record fs =>
    if isTuple fs then "(" ++ ", ".intercalate (renderElems fs) ++ ")"
    else "\x7b" ++ ", ".intercalate (renderFields fs) ++ "\x7d"
  | .sum vs => " | ".intercalate (renderVariants vs)
  | .annot doc t => "Annot(" ++ Text.quote doc ++ ", " ++ t.render ++ ")"
  | .ref r => r.path

def renderElems : List (String × Ty) → List String
  | [] => []
  | (_, t) :: fs => t.render :: renderElems fs

def renderFields : List (String × Ty) → List String
  | [] => []
  | (k, t) :: fs => (k ++ " :: " ++ t.render) :: renderFields fs

/-- A tag without fields stands alone. -/
def renderVariants : List (String × List (String × Ty)) → List String
  | [] => []
  | (tag, fs) :: vs =>
    (if fs.isEmpty then tag else tag ++ "(" ++ ", ".intercalate (renderFields fs) ++ ")") ::
      renderVariants vs

end

end Ty

end Wireform
