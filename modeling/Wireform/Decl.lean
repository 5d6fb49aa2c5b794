import Wireform.Ty

/-!
# Declarations

What a name of a module can stand for. A declared sum brings a name per tag, and that name points
back at the sum.
-/

namespace Wireform

/-- Property that tells the tag of a variant. -/
def discriminator : String := "_type"

/-- Property that tells the position of a table row. -/
def rowId : String := "_id"

/-- Property of an attribute cell that points into a pool. -/
def poolVar : String := "_var"

/-- A foreign key between two kinds of rows, or an attribute from a kind of rows to an attribute
type. -/
structure Arrow where
  name : String
  dom : String
  codom : String
deriving DecidableEq

/-- Kinds of rows, foreign keys between them, attribute types, and attributes of rows. -/
structure TableSpec where
  objects : List String
  homs : List Arrow
  attrTypes : Fields Ty
  attrs : List Arrow

namespace TableSpec

def homsFrom (spec : TableSpec) (kind : String) : List Arrow :=
  spec.homs.filter (·.dom == kind)

def attrsFrom (spec : TableSpec) (kind : String) : List Arrow :=
  spec.attrs.filter (·.dom == kind)

def attrType? (spec : TableSpec) (name : String) : Option Ty := spec.attrTypes.get? name

end TableSpec

inductive Decl where
  | alias (t : Ty)
  | struct (fields : Fields Ty)
  | sum (variants : List Variant)
  /-- A tag as a name of its own: the variant at `index` of the sum `parent`. -/
  | variant (parent : String) (index : Nat)
  | table (spec : TableSpec)

def Decl.kind : Decl → String
  | .alias _ => "alias"
  | .struct _ => "struct"
  | .sum _ => "sum"
  | .variant _ _ => "variant"
  | .table _ => "table"

end Wireform
