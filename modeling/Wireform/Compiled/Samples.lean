import Wireform.Compiled.Basic

/-!
# Sample compiled types

The compiled types of three small modules: plane geometry, records that refer to it, and a kitchen
sink with a recursive sum, keyword field names, a wide tuple and a recursive alias.
-/

namespace Wireform.Compiled.Samples

def i32 : CTy := .prim .i32
def u32 : CTy := .prim .u32
def i64 : CTy := .prim .i64
def u64 : CTy := .prim .u64
def f64 : CTy := .prim .f64
def bool : CTy := .prim .boolean
def str : CTy := .prim .str

/-! ### Geometry -/

def point : CDecl := .struct "Point" [("x", i32), ("y", i32)]

def circleFields : Fields CTy := [("r", f64)]

def squareFields : Fields CTy := [("s", f64)]

def shape : CDecl :=
  .sum "Shape" [("Circle", circleFields), ("Square", squareFields), ("Empty", [])]

def circle : CDecl := .variant "Shape" "Circle" circleFields

def square : CDecl := .variant "Shape" "Square" squareFields

def emptyShape : CDecl := .variant "Shape" "Empty" []

/-- An alias that adds no level of its own. -/
def polygon : CTy := .list (.named "geometry.Point")

def labeled : CDecl :=
  .struct "Labeled" [("label", str), ("at", .named "geometry.Point"), ("tags", .map str u32),
    ("meta", .object bool)]

/-! ### Records -/

def node : CDecl :=
  .struct "Node" [("value", i64), ("next", .optional (.named "records.Node"))]

def blob : CDecl :=
  .struct "Blob" [("id", u64), ("data", .prim .binary), ("kind", .prim .ident)]

def drawing : CDecl :=
  .struct "Drawing" [("name", str), ("shapes", .list (.named "geometry.Shape")),
    ("origin", .named "geometry.Point"), ("pair", .tuple [i32, str])]

/-! ### Kitchen sink -/

def litFields : Fields CTy := [("_1", i32)]

def negFields : Fields CTy := [("_1", .named "kitchen.Expr")]

def addFields : Fields CTy := [("lhs", .named "kitchen.Expr"), ("rhs", .named "kitchen.Expr")]

def expr : CDecl := .sum "Expr" [("Lit", litFields), ("Neg", negFields), ("Add", addFields)]

def lit : CDecl := .variant "Expr" "Lit" litFields

def neg : CDecl := .variant "Expr" "Neg" negFields

def add : CDecl := .variant "Expr" "Add" addFields

def tokenAt : CDecl := .struct "TokenAt" [("line", u32), ("col", u32)]

def token : CDecl :=
  .struct "Token" [("type", str), ("self", bool), ("at", .named "kitchen.TokenAt")]

def wideCells : CDecl :=
  .struct "WideCells" [("_1", i32), ("_2", i32), ("_3", i32), ("_4", i32), ("_5", i32),
    ("_6", i32), ("_7", i32)]

def wide : CDecl := .struct "Wide" [("cells", .named "kitchen.WideCells")]

def doc : CDecl := .wrapper "Doc" (.map str (.list (.named "kitchen.Doc")))

def env : Env :=
  [("geometry.Point", point), ("geometry.Circle", circle), ("geometry.Square", square),
    ("geometry.Empty", emptyShape), ("geometry.Shape", shape), ("geometry.Labeled", labeled),
    ("records.Node", node), ("records.Blob", blob), ("records.Drawing", drawing),
    ("kitchen.Lit", lit), ("kitchen.Neg", neg), ("kitchen.Add", add), ("kitchen.Expr", expr),
    ("kitchen.TokenAt", tokenAt), ("kitchen.Token", token), ("kitchen.WideCells", wideCells),
    ("kitchen.Wide", wide), ("kitchen.Doc", doc)]

/-- Transparent aliases, which are no declarations. -/
def aliases : Fields CTy := [("geometry.Polygon", polygon)]

/-- The type of a qualified name. -/
def type? (path : String) : Option CTy :=
  match aliases.get? path with
  | some t => some t
  | none => if env.contains path then some (.named path) else none

end Wireform.Compiled.Samples
