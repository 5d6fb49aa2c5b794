import Mathlib
import Wireform.Compiled.Samples
import Wireform.Proofs.Compiled.Agreement
import Wireform.Proofs.Codec.NormalForm

/-!
# The sample types and their modules

The sample compiled types come from three modules. Each of them is read like the declaration that it
comes from, level by level: a sum is read through the tag that it finds, an inline record through the
structure made for it, and a recursive alias through its wrapper, which is a level as a reference is one.
-/

namespace Wireform.Compiled.Samples

/-! ### The modules -/

def geometry : Module :=
  ⟨"geometry", [],
    [("Point", .struct [("x", .prim .i32), ("y", .prim .i32)]),
      ("Shape", .sum [("Circle", [("r", .prim .f64)]), ("Square", [("s", .prim .f64)]), ("Empty", [])]),
      ("Circle", .variant "Shape" 0), ("Square", .variant "Shape" 1), ("Empty", .variant "Shape" 2),
      ("Polygon", .alias (.list (.ref ⟨none, "Point", 0⟩))),
      ("Labeled", .struct [("label", .annot "display name" (.prim .str)),
        ("at", .ref ⟨none, "Point", 0⟩), ("tags", .map (.prim .str) (.prim .u32)),
        ("meta", .object (.prim .boolean))])]⟩

def records : Module :=
  ⟨"records", [("geometry", geometry)],
    [("Node", .struct [("value", .prim .i64), ("next", .optional (.ref ⟨none, "Node", 0⟩))]),
      ("Blob", .struct [("id", .prim .u64), ("data", .prim .binary), ("kind", .prim .ident)]),
      ("Drawing", .struct [("name", .prim .str),
        ("shapes", .list (.ref ⟨some "geometry", "Shape", 1⟩)),
        ("origin", .ref ⟨some "geometry", "Point", 0⟩), ("pair", .tuple [.prim .i32, .prim .str])])]⟩

def kitchen : Module :=
  ⟨"kitchen", [],
    [("Expr", .sum [("Lit", [("_1", .prim .i32)]), ("Neg", [("_1", .ref ⟨none, "Expr", 0⟩)]),
        ("Add", [("lhs", .ref ⟨none, "Expr", 0⟩), ("rhs", .ref ⟨none, "Expr", 0⟩)])]),
      ("Lit", .variant "Expr" 0), ("Neg", .variant "Expr" 1), ("Add", .variant "Expr" 2),
      ("Token", .struct [("type", .prim .str), ("self", .prim .boolean),
        ("at", .record [("line", .prim .u32), ("col", .prim .u32)])]),
      ("Wide", .struct [("cells", .tuple (List.replicate 7 (.prim .i32)))]),
      ("Doc", .alias (.map (.prim .str) (.list (.ref ⟨none, "Doc", 6⟩))))]⟩

set_option maxRecDepth 4000 in
theorem geometry_built : geometry.Built := by
  have point : (geometry.draft 0).declare "struct Point \x7b x :: I32, y :: I32 \x7d" =
      .ok ("Point", geometry.draft 1) := by cbv
  have shape : (geometry.draft 1).declare
      "sum Shape \x7b | Circle(r :: F64) | Square(s :: F64) | Empty \x7d" =
      .ok ("Shape", geometry.draft 5) := by cbv
  have polygon : (geometry.draft 5).declare "alias Polygon = List(Point)" =
      .ok ("Polygon", geometry.draft 6) := by cbv
  have labeled : (geometry.draft 6).declare
      ("struct Labeled \x7b label :: Annot(\"display name\", Str), at :: Point, " ++
        "tags :: Map(Str, U32), meta :: Object(Boolean) \x7d") =
      .ok ("Labeled", geometry.draft 7) := by cbv
  exact .finish ((((Draft.Grown.new "geometry").declare point).declare shape).declare
    polygon |>.declare labeled) rfl

set_option maxRecDepth 4000 in
theorem records_built : records.Built := by
  have opened : (Draft.new "records").addImport geometry = .ok (records.draft 0) := by cbv
  have node : (records.draft 0).declare
      "struct Node \x7b value :: I64, next :: Optional(Node) \x7d" =
      .ok ("Node", records.draft 1) := by cbv
  have blob : (records.draft 1).declare
      "struct Blob \x7b id :: U64, data :: Binary, kind :: Ident \x7d" =
      .ok ("Blob", records.draft 2) := by cbv
  have drawing : (records.draft 2).declare
      ("struct Drawing \x7b name :: Str, shapes :: List(geometry.Shape), " ++
        "origin :: geometry.Point, pair :: (I32, Str) \x7d") =
      .ok ("Drawing", records.draft 3) := by cbv
  exact .finish ((((Draft.Grown.new "records").addImport geometry_built opened).declare
    node).declare blob |>.declare drawing) rfl

set_option maxRecDepth 4000 in
theorem kitchen_built : kitchen.Built := by
  have expr : (kitchen.draft 0).declare
      "sum Expr \x7b | Lit(I32) | Neg(Expr) | Add(lhs :: Expr, rhs :: Expr) \x7d" =
      .ok ("Expr", kitchen.draft 4) := by cbv
  have token : (kitchen.draft 4).declare
      ("struct Token \x7b type :: Str, self :: Boolean, " ++
        "at :: \x7b line :: U32, col :: U32 \x7d \x7d") =
      .ok ("Token", kitchen.draft 5) := by cbv
  have wide : (kitchen.draft 5).declare
      "struct Wide \x7b cells :: (I32, I32, I32, I32, I32, I32, I32) \x7d" =
      .ok ("Wide", kitchen.draft 6) := by cbv
  have doc : (kitchen.draft 6).declare "alias Doc = Map(Str, List(Doc))" =
      .ok ("Doc", kitchen.draft 7) := by cbv
  exact .finish ((((Draft.Grown.new "kitchen").declare expr).declare token).declare
    wide |>.declare doc) rfl

/-! ### Where the types come from -/

/-- The compiled types of the samples that are not spelled out, each beside the type that it comes from
and the module of that type. -/
inductive Origin : Module → CTy → Ty → Prop
  | label : Origin geometry (.prim .str) (.annot "display name" (.prim .str))
  | point : Origin geometry (.named "geometry.Point") (.ref ⟨none, "Point", 0⟩)
  | shape : Origin geometry (.named "geometry.Shape") (.ref ⟨none, "Shape", 1⟩)
  | circle : Origin geometry (.named "geometry.Circle") (.ref ⟨none, "Circle", 2⟩)
  | square : Origin geometry (.named "geometry.Square") (.ref ⟨none, "Square", 3⟩)
  | empty : Origin geometry (.named "geometry.Empty") (.ref ⟨none, "Empty", 4⟩)
  | labeled : Origin geometry (.named "geometry.Labeled") (.ref ⟨none, "Labeled", 6⟩)
  | importedPoint : Origin records (.named "geometry.Point") (.ref ⟨some "geometry", "Point", 0⟩)
  | importedShape : Origin records (.named "geometry.Shape") (.ref ⟨some "geometry", "Shape", 1⟩)
  | node : Origin records (.named "records.Node") (.ref ⟨none, "Node", 0⟩)
  | blob : Origin records (.named "records.Blob") (.ref ⟨none, "Blob", 1⟩)
  | drawing : Origin records (.named "records.Drawing") (.ref ⟨none, "Drawing", 2⟩)
  | expr : Origin kitchen (.named "kitchen.Expr") (.ref ⟨none, "Expr", 0⟩)
  | lit : Origin kitchen (.named "kitchen.Lit") (.ref ⟨none, "Lit", 1⟩)
  | neg : Origin kitchen (.named "kitchen.Neg") (.ref ⟨none, "Neg", 2⟩)
  | add : Origin kitchen (.named "kitchen.Add") (.ref ⟨none, "Add", 3⟩)
  | token : Origin kitchen (.named "kitchen.Token") (.ref ⟨none, "Token", 4⟩)
  | tokenAt :
    Origin kitchen (.named "kitchen.TokenAt") (.record [("line", .prim .u32), ("col", .prim .u32)])
  | wide : Origin kitchen (.named "kitchen.Wide") (.ref ⟨none, "Wide", 5⟩)
  | wideCells :
    Origin kitchen (.named "kitchen.WideCells") (.tuple (List.replicate 7 (.prim .i32)))
  | doc : Origin kitchen (.named "kitchen.Doc") (.ref ⟨none, "Doc", 6⟩)

/-- Errors of the same sort, whatever they tell. -/
def SameKind (e e' : CodecError) : Prop := e.kind = e'.kind

theorem alike (a b : String) : Alike SameKind a b := ⟨fun _ => rfl, fun _ => rfl, fun _ => rfl⟩

theorem Origin.backed {m : Module} {c : CTy} {t : Ty} (h : Origin m c t) :
    Backed env SameKind Origin m c t := by
  cases h with
  | label => exact .annot (.prim .str)
  | point | importedPoint =>
    refine .record rfl (.struct rfl) ⟨by decide, ?_⟩ (alike _ _)
    exact .cons ⟨rfl, .prim _⟩ (.cons ⟨rfl, .prim _⟩ .nil)
  | shape | importedShape =>
    refine .sum rfl rfl ?_ (alike _ _)
    exact .cons ⟨rfl, by decide, .cons ⟨rfl, .prim _⟩ .nil⟩
      (.cons ⟨rfl, by decide, .cons ⟨rfl, .prim _⟩ .nil⟩ (.cons ⟨rfl, by decide, .nil⟩ .nil))
  | circle | square =>
    exact .variant rfl rfl rfl ⟨by decide, .cons ⟨rfl, .prim _⟩ .nil⟩ (alike _ _)
  | empty => exact .variant rfl rfl rfl ⟨by decide, .nil⟩ (alike _ _)
  | labeled =>
    refine .record rfl (.struct rfl) ⟨by decide, ?_⟩ (alike _ _)
    exact .cons ⟨rfl, .leaf .label⟩ (.cons ⟨rfl, .leaf .point⟩
      (.cons ⟨rfl, .map (.prim _) (.prim _)⟩ (.cons ⟨rfl, .object (.prim _)⟩ .nil)))
  | node =>
    refine .record rfl (.struct rfl) ⟨by decide, ?_⟩ (alike _ _)
    exact .cons ⟨rfl, .prim _⟩ (.cons ⟨rfl, .optional (.leaf .node)⟩ .nil)
  | blob =>
    refine .record rfl (.struct rfl) ⟨by decide, ?_⟩ (alike _ _)
    exact .cons ⟨rfl, .prim _⟩ (.cons ⟨rfl, .prim _⟩ (.cons ⟨rfl, .prim _⟩ .nil))
  | drawing =>
    refine .record rfl (.struct rfl) ⟨by decide, ?_⟩ (alike _ _)
    have hpair : Models (Origin records) (.tuple [i32, str]) (.tuple [.prim .i32, .prim .str]) :=
      .tuple [(i32, .prim .i32), (str, .prim .str)] (by simp) (by simpa using ⟨.prim _, .prim _⟩)
    exact .cons ⟨rfl, .prim _⟩ (.cons ⟨rfl, .list (.leaf .importedShape)⟩
      (.cons ⟨rfl, .leaf .importedPoint⟩ (.cons ⟨rfl, hpair⟩ .nil)))
  | expr =>
    refine .sum rfl rfl ?_ (alike _ _)
    exact .cons ⟨rfl, by decide, .cons ⟨rfl, .prim _⟩ .nil⟩
      (.cons ⟨rfl, by decide, .cons ⟨rfl, .leaf .expr⟩ .nil⟩
        (.cons ⟨rfl, by decide, .cons ⟨rfl, .leaf .expr⟩ (.cons ⟨rfl, .leaf .expr⟩ .nil)⟩ .nil))
  | lit => exact .variant rfl rfl rfl ⟨by decide, .cons ⟨rfl, .prim _⟩ .nil⟩ (alike _ _)
  | neg => exact .variant rfl rfl rfl ⟨by decide, .cons ⟨rfl, .leaf .expr⟩ .nil⟩ (alike _ _)
  | add =>
    refine .variant rfl rfl rfl ⟨by decide, ?_⟩ (alike _ _)
    exact .cons ⟨rfl, .leaf .expr⟩ (.cons ⟨rfl, .leaf .expr⟩ .nil)
  | token =>
    refine .record rfl (.struct rfl) ⟨by decide, ?_⟩ (alike _ _)
    exact .cons ⟨rfl, .prim _⟩ (.cons ⟨rfl, .prim _⟩ (.cons ⟨rfl, .leaf .tokenAt⟩ .nil))
  | tokenAt =>
    refine .record rfl .inline ⟨by decide, ?_⟩ (alike _ _)
    exact .cons ⟨rfl, .prim _⟩ (.cons ⟨rfl, .prim _⟩ .nil)
  | wide =>
    exact .record rfl (.struct rfl) ⟨by decide, .cons ⟨rfl, .leaf .wideCells⟩ .nil⟩ (alike _ _)
  | wideCells =>
    refine .record rfl .inline ⟨distinct_ordinals _, ?_⟩ (alike _ _)
    exact .cons ⟨rfl, .prim _⟩ (.cons ⟨rfl, .prim _⟩ (.cons ⟨rfl, .prim _⟩ (.cons ⟨rfl, .prim _⟩
      (.cons ⟨rfl, .prim _⟩ (.cons ⟨rfl, .prim _⟩ (.cons ⟨rfl, .prim _⟩ .nil))))))
  | doc => exact .wrapper rfl rfl (.map (.prim _) (.list (.leaf .doc)))

theorem readWithin_agrees {m : Module} {c : CTy} {t : Ty} (h : Models (Origin m) c t)
    (limit limit' room : Nat) (j : Json) :
    Agrees SameKind (readWithin env limit room c j) (Codec.readWithin limit' room m t j) :=
  h.agrees (R := SameKind) (fun _ => rfl) (fun _ _ _ => Origin.backed) (fun _ _ _ _ => alike _ _) j

/-! ### Outcomes side by side -/

/-- The outcome of a compiled reader on a document, beside the one of a codec at a declaration: the same
successes, the same values, which are written alike, and the same sort of errors but for the limit. -/
structure Tallies (c : Codec) (name : String) (j : Json) (outcome : Except CodecError Value) : Prop where
  succeeds : (∃ v, outcome = .ok v) ↔ ∃ v, c.decodeNamed name j = .ok v
  value : ∀ v v', outcome = .ok v → c.decodeNamed name j = .ok v' →
    v = v' ∧ ∃ t w, c.named name = .ok t ∧ Codec.encode v = .ok w ∧ c.encodeAs t v' = .ok w
  error : ∀ e e', outcome = .error e → c.decodeNamed name j = .error e' →
    e'.kind ≠ .depthLimit → e.kind = e'.kind

theorem Tallies.of_agrees {c : Codec} {name : String} {r : Ref} {j : Json}
    {outcome : Except CodecError Value} (hc : c.scope.Built) (hr : c.scope.lookup? name = some r)
    (hj : j.WellFormed) (h : Agrees SameKind outcome (c.decode (.ref r) j)) :
    Tallies c name j outcome := by
  have hnamed : c.named name = .ok (.ref r) := by rw [Codec.named, hr]
  have hdecode : c.decodeNamed name j = c.decode (.ref r) j := by
    rw [Codec.decodeNamed, hnamed, ok_bind]
  refine ⟨?_, fun v v' hv hv' => ?_, fun e e' he he' hl => ?_⟩
  · rw [hdecode]
    exact exists_congr h.eq_ok_iff
  · rw [hdecode] at hv'
    obtain rfl : v = v' := Except.ok.inj (((h.eq_ok_iff v).1 hv).symm.trans hv')
    obtain ⟨w, hw⟩ := (Codec.reads_of_readWithin hv').settled hc.sound trivial hj
    exact ⟨rfl, .ref r, w, hnamed, hw.encodes, Codec.writeAs_of_writes hc.sound hw.writes⟩
  · rw [hdecode] at he'
    refine h.related he he' fun n hn => hl ?_
    rw [hn, CodecError.kind]

/-- A declaration of the samples that is not a transparent alias has a compiled type of its name. -/
theorem exists_origin {m : Module} (hm : m ∈ [geometry, records, kitchen]) {name : String}
    (hn : name ∈ Fields.keys m.decls) (ha : (m.name, name) ≠ ("geometry", "Polygon")) :
    ∃ r, m.lookup? name = some r ∧ Origin m (.named (m.name ++ "." ++ name)) (.ref r) := by
  simp only [List.mem_cons, List.not_mem_nil, or_false] at hm
  obtain rfl | rfl | rfl := hm
  · simp only [geometry, Fields.keys, List.map_cons, List.map_nil, List.mem_cons, List.not_mem_nil,
      or_false] at hn
    obtain rfl | rfl | rfl | rfl | rfl | rfl | rfl := hn
    · exact ⟨_, by cbv, .point⟩
    · exact ⟨_, by cbv, .shape⟩
    · exact ⟨_, by cbv, .circle⟩
    · exact ⟨_, by cbv, .square⟩
    · exact ⟨_, by cbv, .empty⟩
    · exact absurd rfl ha
    · exact ⟨_, by cbv, .labeled⟩
  · simp only [records, Fields.keys, List.map_cons, List.map_nil, List.mem_cons, List.not_mem_nil,
      or_false] at hn
    obtain rfl | rfl | rfl := hn
    · exact ⟨_, by cbv, .node⟩
    · exact ⟨_, by cbv, .blob⟩
    · exact ⟨_, by cbv, .drawing⟩
  · simp only [kitchen, Fields.keys, List.map_cons, List.map_nil, List.mem_cons, List.not_mem_nil,
      or_false] at hn
    obtain rfl | rfl | rfl | rfl | rfl | rfl | rfl := hn
    · exact ⟨_, by cbv, .expr⟩
    · exact ⟨_, by cbv, .lit⟩
    · exact ⟨_, by cbv, .neg⟩
    · exact ⟨_, by cbv, .add⟩
    · exact ⟨_, by cbv, .token⟩
    · exact ⟨_, by cbv, .wide⟩
    · exact ⟨_, by cbv, .doc⟩

theorem built_of_mem {m : Module} (hm : m ∈ [geometry, records, kitchen]) : m.Built := by
  simp only [List.mem_cons, List.not_mem_nil, or_false] at hm
  obtain rfl | rfl | rfl := hm
  · exact geometry_built
  · exact records_built
  · exact kitchen_built

/-- The negation of a literal, its tag last. -/
def negatedDoc : Json :=
  .obj [("_1", .obj [("_type", .str "Lit"), ("_1", .ofInt 5)]), ("_type", .str "Neg")]

def negatedValue : Value := .variant "Neg" [("_1", .variant "Lit" [("_1", .i32 5)])]

end Wireform.Compiled.Samples
