import Wireform.Decl

/-!
# Items of generated source

What a generated file defines, before it is spelled out as text.
-/

namespace Wireform.Emit

/-- Types of generated fields. -/
inductive FieldTy where
  | prim (p : Prim)
  | optional (t : FieldTy)
  | list (t : FieldTy)
  | object (t : FieldTy)
  | map (k v : FieldTy)
  | tuple (elems : List FieldTy)
  /-- On the heap, so that the field has a fixed size. -/
  | boxed (t : FieldTy)
  /-- A declaration of the module itself. -/
  | declared (name : String)
  /-- A declaration of an imported module. -/
  | imported (module name : String)
  /-- An item made for an inline record or sum. -/
  | auxiliary (name : String)

instance : Inhabited FieldTy := ⟨.prim .i32⟩

structure Field where
  key : String
  ty : FieldTy
  docs : List String

inductive Item where
  /-- A structure; if `tag` is given, the variant of that sum with that tag. -/
  | record (name : String) (tag : Option (String × String)) (docs : List String)
      (fields : List Field)
  /-- Tags, each with the item that holds its fields. -/
  | enum (name : String) (docs : List String) (arms : List (String × String))
  | synonym (name : String) (docs : List String) (t : FieldTy)
  /-- A structure around a type that mentions it. -/
  | wrapper (name : String) (docs : List String) (t : FieldTy)
  /-- The names of a table; its rows are not stored by generated code. -/
  | table (name : String) (spec : TableSpec)

def Item.name : Item → String
  | .record name _ _ _ => name
  | .enum name _ _ => name
  | .synonym name _ _ => name
  | .wrapper name _ _ => name
  | .table name _ => name

end Wireform.Emit
