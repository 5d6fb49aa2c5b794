import Mathlib
import Wireform.Proofs.Source.Filing
import Wireform.Proofs.Source.Lines

/-!
# Files put together from parts

A module can be put together call by call, from imports and the texts of single declarations, and a file can be
put together line by line from the same parts. Compiling the file gives the module, slot by slot
(`compile_fileText`). For this every declaration has to end where its text ends, whatever comes after it, and it
has to resolve as before when more names are around.
-/

namespace Wireform.Source

/-- Imports and then declarations, one after the other, into a draft that is finished in the end. -/
def assemble (name : String) (imports : List Module) (sources : List String) : Except SourceError Module := do
  let d ← imports.foldlM Draft.addImport (Draft.new name)
  let d ← sources.foldlM (fun d src => return (← d.declare src).2) d
  d.finish

/-- The same parts as a text: a line for the name, one for each import, and the declarations. -/
def fileText (name : String) (imports : List Module) (sources : List String) : String :=
  "\n".intercalate (("module " ++ name) :: (imports.map fun i => "import " ++ i.name) ++ sources)

theorem foldlM_importInto {available : Fields Module} {imports : List Module}
    (h : ∀ i ∈ imports, available.get? i.name = some i) (d : Draft) :
    (imports.map Module.name).foldlM (importInto available) d = imports.foldlM Draft.addImport d := by
  induction imports generalizing d with
  | nil => rfl
  | cons i imports ih =>
    obtain ⟨hi, h⟩ := List.forall_mem_cons.1 h
    rw [List.map_cons, List.foldlM_cons, List.foldlM_cons, importInto, hi]
    exact bind_congr fun d => ih h d

/-- Trees that are alike are filed alike. -/
theorem Files.like {d d' : Draft} {parts : Parts} {decls : List DeclExpr} (h : Files d parts d')
    (hl : List.Forall₂ DeclExpr.Like (parts.map Prod.fst) decls) :
    ∃ parts' : Parts, parts'.map Prod.fst = decls ∧ Files d parts' d' := by
  rw [List.forall₂_map_left_iff] at hl
  obtain ⟨pairs, rfl, rfl, hp⟩ := exists_pairs hl
  obtain ⟨hfree, hres, rfl⟩ := h
  have hnames : Parts.names (pairs.map fun q => (q.2, q.1.2)) = Parts.names (pairs.map Prod.fst) := by
    simp only [Parts.names, List.flatMap_map]
    exact List.flatMap_congr fun q hq => (hp q hq).names
  have hbodies : Parts.bodies (pairs.map fun q => (q.2, q.1.2)) = Parts.bodies (pairs.map Prod.fst) := by
    simp only [Parts.bodies, List.flatMap_map]
  refine ⟨pairs.map fun q => (q.2, q.1.2), by simp [Function.comp_def], ?_, ?_, ?_⟩
  · rwa [hnames]
  · rw [hnames]
    refine List.forall_mem_map.2 fun q hq => ?_
    exact resolveDecl_same (fun _ _ h => h) (hp q hq) (hres q.1 (List.mem_map_of_mem hq))
  · rw [hnames, hbodies]

theorem exists_spellings {sources : List String} {parts : Parts}
    (h : List.Forall₂ (fun src p => runOn parseSingle src = .ok p.1) sources parts) :
    ∃ kss, List.Forall₂ Lexes sources kss ∧ List.Forall₂ Spells kss (parts.map Prod.fst) := by
  induction h with
  | nil => exact ⟨[], .nil, .nil⟩
  | cons hp _ ih =>
    obtain ⟨ks, hlex, hspell⟩ := exists_spells hp
    obtain ⟨kss, hlexes, hspells⟩ := ih
    exact ⟨ks :: kss, .cons hlex hlexes, .cons hspell hspells⟩

theorem lexes_fileText {name : String} {imports : List Module} {sources : List String}
    {kss : List (List TokenKind)} (hname : Identifier name) (hi : ∀ i ∈ imports, Identifier i.name)
    (hs : List.Forall₂ Lexes sources kss) :
    Lexes (fileText name imports sources) (headerKinds name (imports.map Module.name) ++ kss.flatten) := by
  have hmodule : Identifier "module" := by decide
  have himport : Identifier "import" := by decide
  have himports : List.Forall₂ Lexes (imports.map fun i => "import " ++ i.name)
      (imports.map fun i => [.ident "import", .ident i.name]) := by
    rw [List.forall₂_map_left_iff, List.forall₂_map_right_iff, List.forall₂_same]
    intro i hm
    simpa using Lexes.words himport (hi i hm)
  have hlines := Lexes.lines (.cons (Lexes.words hmodule hname) (List.rel_append himports hs)) (by simp)
  rw [fileText]
  simpa [headerKinds, List.flatMap_def, Function.comp_def] using hlines

/-- A file has the module that its parts give one by one. -/
theorem compile_fileText {available : Fields Module} {name : String} {imports : List Module}
    {sources : List String} {m : Module} (hname : Identifier name)
    (hi : ∀ i ∈ imports, Identifier i.name) (ha : ∀ i ∈ imports, available.get? i.name = some i)
    (h : assemble name imports sources = .ok m) :
    compile available (fileText name imports sources) = .ok m := by
  obtain ⟨d, hd, h⟩ := bind_eq_ok.1 h
  obtain ⟨d', hd', h⟩ := bind_eq_ok.1 h
  obtain ⟨parts, hparse, hfiles⟩ := declareAll_files hd'
  obtain ⟨kss, hlexes, hspells⟩ := exists_spellings hparse
  obtain ⟨decls, hfile, -, hl⟩ := parseFile_of_lexes (lexes_fileText hname hi hlexes) hspells
  obtain ⟨parts', hp, hfiles⟩ := hfiles.like hl
  rw [compile, hfile, ok_bind]
  refine compileFile_eq_ok.2 ⟨d, parts', d', ?_, hp, hfiles, h⟩
  rw [foldlM_importInto ha, hd]

/-- Points of a plane. -/
def plane : Module := ⟨"plane", [], [("Point", .struct [("x", .prim .f64), ("y", .prim .f64)])]⟩

/-- Texts of declarations, each of them about the ones before it. -/
def tourSources : List String :=
  ["sum Step \x7b Move(to :: plane.Point) | Stay \x7d # a comment",
    "alias Walk = List(Step)",
    "struct Tour \x7b start :: plane.Point, legs :: Walk, next :: Optional(Tour) \x7d"]

def tour : Module where
  name := "tour"
  imports := [("plane", plane)]
  decls := [("Step", .sum [("Move", [("to", .ref ⟨some "plane", "Point", 0⟩)]), ("Stay", [])]),
    ("Move", .variant "Step" 0), ("Stay", .variant "Step" 1),
    ("Walk", .alias (.list (.ref ⟨none, "Step", 0⟩))),
    ("Tour", .struct [("start", .ref ⟨some "plane", "Point", 0⟩), ("legs", .ref ⟨none, "Walk", 3⟩),
      ("next", .optional (.ref ⟨none, "Tour", 4⟩))])]

theorem compile_fileText_tour :
    assemble "tour" [plane] tourSources = .ok tour ∧
      compile [("plane", plane)] (fileText "tour" [plane] tourSources) = .ok tour := by
  have h : assemble "tour" [plane] tourSources = .ok tour := by cbv
  exact ⟨h, compile_fileText (by decide) (by decide) (by simp [plane, Fields.get?]) h⟩

/-- Points again, in a module whose name no text can spell. -/
def dashedPlane : Module := { plane with name := "plane-2d" }

/-- A draft imports modules of any name, but a text names them by identifiers only, so there are modules that no
file can import. -/
theorem not_compile_fileText_of_dashed :
    ¬ ∀ (available : Fields Module) (name : String) (imports : List Module) (sources : List String) (m : Module),
      Identifier name → (∀ i ∈ imports, i.Built) → (∀ i ∈ imports, available.get? i.name = some i) →
        assemble name imports sources = .ok m → compile available (fileText name imports sources) = .ok m := by
  intro h
  have hbuilt : dashedPlane.Built := by
    have hd : (Draft.new "plane-2d").declare "struct Point \x7b x :: F64, y :: F64 \x7d" =
        .ok ("Point", ⟨"plane-2d", [], [("Point", some (.struct [("x", .prim .f64), ("y", .prim .f64)]))]⟩) := by
      cbv
    exact .finish (.declare (.new "plane-2d") hd) rfl
  have hm : assemble "app" [dashedPlane] [] = .ok ⟨"app", [("plane-2d", dashedPlane)], []⟩ := rfl
  have hfail : (compile [("plane-2d", dashedPlane)] (fileText "app" [dashedPlane] [])).isOk = false := rfl
  rw [h [("plane-2d", dashedPlane)] "app" [dashedPlane] [] _ (by decide) (by simpa using hbuilt)
    (by simp [dashedPlane, Fields.get?]) hm] at hfail
  cases hfail

end Wireform.Source
