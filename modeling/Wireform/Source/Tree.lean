/-!
# Syntax trees of the declaration language

Names are not resolved yet. A field without a name takes its position as its name later on.
-/

namespace Wireform.Source

mutual

inductive TypeExpr where
  /-- `Name`, `import.Name`, or a scalar. -/
  | path (segments : List String) (offset : Nat)
  /-- `Ctor(args)`, with its source text for messages. -/
  | apply (ctor : String) (args : List TypeArg) (offset : Nat) (fragment : String)
  | tuple (elems : List TypeExpr)
  | record (fields : List (Option String × TypeExpr))

inductive TypeArg where
  | type (t : TypeExpr)
  | doc (text : String)

end

abbrev FieldExpr := Option String × TypeExpr

/-- A tag and its fields. -/
abbrev VariantExpr := String × List FieldExpr

inductive TableItem where
  | ob (names : List String)
  | hom (name dom codom : String)
  | attrType (name : String) (t : TypeExpr)
  | attr (name dom codom : String)

inductive DeclExpr where
  | alias (name : String) (t : TypeExpr)
  | struct (name : String) (fields : List FieldExpr)
  | sum (name : String) (variants : List VariantExpr)
  | table (name : String) (items : List TableItem)

def DeclExpr.name : DeclExpr → String
  | .alias name _ => name
  | .struct name _ => name
  | .sum name _ => name
  | .table name _ => name

structure SourceFile where
  name : String
  imports : List String
  decls : List DeclExpr

end Wireform.Source
