import Mathlib
import Wireform.Source.Compile
import Wireform.Proofs.Module.Sound
import Wireform.Proofs.Source.Names
import Wireform.Proofs.Source.Resolve

/-!
# Modules that were built

A module is built by compiling a text against modules that were built before, or by finishing a draft
into which imports and declarations were put one by one. What a draft keeps in order on the way makes
every such module sound.
-/

namespace Wireform

mutual

/-- Drafts that came about by importing and declaring. -/
inductive Draft.Grown : Draft → Prop
  | new (name : String) : Draft.Grown (Draft.new name)
  | addImport {d d' : Draft} {m : Module} :
    Draft.Grown d → Module.Built m → d.addImport m = .ok d' → Draft.Grown d'
  | declare {d d' : Draft} {src name : String} :
    Draft.Grown d → d.declare src = .ok (name, d') → Draft.Grown d'

inductive Module.Built : Module → Prop
  | finish {d : Draft} {m : Module} : Draft.Grown d → d.finish = .ok m → Module.Built m
  | compile {available : Fields Module} {src : String} {m : Module} :
    (∀ i ∈ available, Module.Built i.2) → Source.compile available src = .ok m → Module.Built m

end

namespace Draft

/-- The slot of the name has this body. -/
def Filled (d : Draft) (name : String) (decl : Decl) : Prop :=
  Fields.get? d.slots name = some (some decl)

structure Orderly (d : Draft) : Prop where
  distinct : Fields.Distinct d.slots
  plain : ∀ name ∈ Fields.keys d.slots, Source.Plain name
  proper : ∀ name decl, d.Filled name decl → decl.Proper
  exclusive : ∀ name decl, d.Filled name decl → decl.Exclusive
  /-- The tag at each position of a sum is declared as such. -/
  tags : ∀ name variants, d.Filled name (.sum variants) →
    ∀ i v, variants[i]? = some v → d.Filled v.1 (.variant name i)
  imported : ∀ i ∈ d.imports, i.1 = i.2.name
  imports : ∀ i ∈ d.imports, i.2.Sound

theorem new_orderly (name : String) : (Draft.new name).Orderly where
  distinct := List.nodup_nil
  plain := by simp [new]
  proper := by simp [new, Filled]
  exclusive := by simp [new, Filled]
  tags := by simp [new, Filled]
  imported := by simp [new]
  imports := by simp [new]

variable {d d' : Draft} {name : String} {decl : Decl}

theorem Orderly.addImport {m : Module} (h : d.Orderly) (hm : m.Sound)
    (ha : d.addImport m = .ok d') : d'.Orderly := by
  unfold Draft.addImport at ha
  split at ha
  · cases ha
  cases ha
  refine ⟨h.distinct, h.plain, h.proper, h.exclusive, h.tags, ?_, ?_⟩
  · exact List.forall_mem_append.2 ⟨h.imported, by simp⟩
  · exact List.forall_mem_append.2 ⟨h.imports, by simpa using hm⟩

/-! ### Reserving names -/

theorem reserve_eq_ok (h : d.reserve name = .ok d') :
    name ∉ Fields.keys d.slots ∧ d' = { d with slots := d.slots ++ [(name, none)] } := by
  unfold reserve at h
  split at h
  · cases h
  rename_i hn
  rw [Fields.contains_iff] at hn
  exact ⟨hn, (Except.ok.inj h).symm⟩

theorem filled_reserve (h : d.reserve name = .ok d') (k : String) (x : Decl) :
    d'.Filled k x ↔ d.Filled k x := by
  obtain ⟨-, rfl⟩ := reserve_eq_ok h
  simp only [Filled, Fields.get?_append]
  cases Fields.get? d.slots k with
  | some slot => simp
  | none =>
    rw [Option.none_or, Fields.get?_cons]
    split <;> simp

theorem Orderly.reserve (h : d.Orderly) (hp : Source.Plain name) (hr : d.reserve name = .ok d') :
    d'.Orderly := by
  have hf := filled_reserve hr
  obtain ⟨hn, rfl⟩ := reserve_eq_ok hr
  refine ⟨?_, ?_, ?_, ?_, ?_, h.imported, h.imports⟩
  · rw [← Fields.insert_of_not_mem hn]
    exact Fields.nodup_insert h.distinct name none
  · rw [Fields.keys_append]
    exact List.forall_mem_append.2 ⟨h.plain, by simpa using hp⟩
  · exact fun k x hk => h.proper k x ((hf k x).1 hk)
  · exact fun k x hk => h.exclusive k x ((hf k x).1 hk)
  · exact fun k vs hk i v hv => (hf _ _).2 (h.tags k vs ((hf _ _).1 hk) i v hv)

/-! ### Filling slots -/

theorem define_eq_ok (h : d.define name decl = .ok d') :
    Fields.get? d.slots name = some none ∧
      d' = { d with slots := Fields.insert name (some decl) d.slots } := by
  unfold define at h
  split at h
  · rename_i hn
    exact ⟨hn, (Except.ok.inj h).symm⟩
  · cases h
  · cases h

theorem filled_define (h : d.define name decl = .ok d') (k : String) (x : Decl) :
    d'.Filled k x ↔ (k = name ∧ x = decl) ∨ d.Filled k x := by
  obtain ⟨hn, rfl⟩ := define_eq_ok h
  simp only [Filled, Fields.get?_insert]
  split
  · rename_i hk
    rw [hk, hn]
    simp [eq_comm]
  · rename_i hk
    simp [hk]

/-- `d'` is `d` with these bodies in their slots. -/
structure Fills (d d' : Draft) (bodies : List (String × Decl)) : Prop where
  keys : Fields.keys d'.slots = Fields.keys d.slots
  imports : d'.imports = d.imports
  filled : ∀ k x, d'.Filled k x ↔ d.Filled k x ∨ (k, x) ∈ bodies

theorem fills_of_define (h : d.define name decl = .ok d') : Fills d d' [(name, decl)] := by
  have hf := filled_define h
  obtain ⟨hn, rfl⟩ := define_eq_ok h
  have hm : name ∈ Fields.keys d.slots := Fields.mem_keys_of_mem (Fields.mem_of_get? hn)
  refine ⟨?_, rfl, fun k x => ?_⟩
  · rw [Fields.keys_insert, if_pos hm]
  · rw [hf, List.mem_singleton, Prod.mk.injEq, or_comm]

theorem Fills.trans {d₁ d₂ d₃ : Draft} {bs cs : List (String × Decl)} (h : Fills d₁ d₂ bs)
    (h' : Fills d₂ d₃ cs) : Fills d₁ d₃ (bs ++ cs) where
  keys := h'.keys.trans h.keys
  imports := h'.imports.trans h.imports
  filled k x := by rw [h'.filled, h.filled, List.mem_append, or_assoc]

theorem fills_of_foldlM {bodies : List (String × Decl)}
    (h : bodies.foldlM (fun d e => d.define e.1 e.2) d = .ok d') : Fills d d' bodies := by
  induction bodies generalizing d with
  | nil =>
    cases h
    exact ⟨rfl, rfl, by simp⟩
  | cons e bodies ih =>
    rw [List.foldlM_cons] at h
    obtain ⟨mid, hm, h⟩ := bind_eq_ok.1 h
    exact (fills_of_define hm).trans (ih h)

/-- What one declaration brings: spelled bodies, with a sum the names of its tags, and no other such
names. -/
structure Bodies (refs : Ref → Prop) (bodies : List (String × Decl)) : Prop where
  spelled : ∀ e ∈ bodies, e.2.Spelled refs
  tags : ∀ name variants, (name, Decl.sum variants) ∈ bodies →
    ∀ i v, variants[i]? = some v → (v.1, Decl.variant name i) ∈ bodies
  parents : ∀ tag parent index, (tag, Decl.variant parent index) ∈ bodies →
    ∃ variants fields, (parent, Decl.sum variants) ∈ bodies ∧ variants[index]? = some (tag, fields)

theorem Bodies.single {refs : Ref → Prop} (name : String) (hs : decl.Spelled refs)
    (hsum : ∀ variants, decl ≠ .sum variants) (hvar : ∀ parent index, decl ≠ .variant parent index) :
    Bodies refs [(name, decl)] := by
  refine ⟨by simpa using hs, ?_, ?_⟩
  · intro k vs hm
    exact absurd (Prod.mk.inj (List.mem_singleton.1 hm)).2.symm (hsum vs)
  · intro k parent index hm
    exact absurd (Prod.mk.inj (List.mem_singleton.1 hm)).2.symm (hvar parent index)

theorem Bodies.sum {refs : Ref → Prop} {variants : List Variant} (name : String)
    (hs : (Decl.sum variants).Spelled refs) :
    Bodies refs ((variants.mapIdx fun i v => (v.1, Decl.variant name i)) ++ [(name, .sum variants)]) := by
  have hsum : ∀ k vs, (k, Decl.sum vs) ∈ (variants.mapIdx fun i v => (v.1, Decl.variant name i)) ++
      [(name, .sum variants)] ↔ k = name ∧ vs = variants := by
    intro k vs
    simp [List.mem_mapIdx]
  have hvar : ∀ tag parent index, (tag, Decl.variant parent index) ∈
      (variants.mapIdx fun i v => (v.1, Decl.variant name i)) ++ [(name, .sum variants)] ↔
        parent = name ∧ ∃ fields, variants[index]? = some (tag, fields) := by
    intro tag parent index
    simp only [List.mem_append, List.mem_mapIdx, List.mem_singleton, Prod.mk.injEq, reduceCtorEq,
      and_false, or_false, Decl.variant.injEq]
    constructor
    · rintro ⟨i, hi, rfl, rfl, rfl⟩
      exact ⟨rfl, _, List.getElem?_eq_getElem hi⟩
    · rintro ⟨rfl, fields, hv⟩
      obtain ⟨hi, hv⟩ := List.getElem?_eq_some_iff.1 hv
      exact ⟨index, hi, by rw [hv], rfl, rfl⟩
  refine ⟨?_, ?_, ?_⟩
  · refine List.forall_mem_append.2 ⟨fun e he => ?_, by simpa using hs⟩
    obtain ⟨i, hi, rfl⟩ := List.mem_mapIdx.1 he
    trivial
  · intro k vs hm i v hv
    obtain ⟨rfl, rfl⟩ := (hsum k vs).1 hm
    exact (hvar v.1 k i).2 ⟨rfl, v.2, hv⟩
  · intro tag parent index hm
    obtain ⟨rfl, fields, hv⟩ := (hvar tag parent index).1 hm
    exact ⟨variants, fields, (hsum parent variants).2 ⟨rfl, rfl⟩, hv⟩

/-- What a declaration brings is resolved against the draft. -/
theorem resolveDecl_bodies {e : Source.DeclExpr} {bodies : List (String × Decl)} (he : e.Named)
    (h : Source.resolveDecl d e = .ok bodies) : Bodies d.Resolves bodies := by
  cases e with
  | «alias» name t =>
    obtain ⟨ty, hty, h⟩ := bind_eq_ok.1 h
    cases h
    have hs : (Decl.alias ty).Spelled d.Resolves := Source.resolveType_spelled he.2 hty
    exact .single name hs (by simp) (by simp)
  | struct name fields =>
    obtain ⟨fs, hfs, h⟩ := bind_eq_ok.1 h
    cases h
    have hs : (Decl.struct fs).Spelled d.Resolves := Source.resolveFields_spelled he.2 hfs
    exact .single name hs (by simp) (by simp)
  | table name items =>
    obtain ⟨spec, ht, h⟩ := bind_eq_ok.1 h
    cases h
    have hs : (Decl.table spec).Spelled d.Resolves := Source.resolveTable_spelled he.2 ht
    exact .single name hs (by simp) (by simp)
  | sum name variants =>
    obtain ⟨resolved, hr, h⟩ := bind_eq_ok.1 h
    cases h
    have hs : (Decl.sum resolved).Spelled d.Resolves := by
      obtain ⟨parts, rfl, rfl, hp⟩ := exists_parts_of_mapM hr
      refine List.forall_mem_map.2 fun p hp' => ?_
      obtain ⟨fs, hfs, hv⟩ := bind_eq_ok.1 (hp p hp')
      rw [← Except.ok.inj hv]
      exact Source.resolveFields_spelled (he.2 p.1 (List.mem_map_of_mem hp')).2 hfs
    exact .sum name hs

/-- Defining a declaration resolves its bodies against the draft, and then fills their slots. -/
theorem defineDecl_eq_ok {e : Source.DeclExpr} (he : e.Named) (h : Source.defineDecl d e = .ok d') :
    ∃ bodies, Bodies d.Resolves bodies ∧ Fills d d' bodies := by
  obtain ⟨bodies, hb, h⟩ := bind_eq_ok.1 h
  exact ⟨bodies, resolveDecl_bodies he hb, fills_of_foldlM h⟩

theorem Orderly.fill {bodies : List (String × Decl)} {refs : Ref → Prop} (h : d.Orderly)
    (hb : Bodies refs bodies) (hf : Fills d d' bodies) : d'.Orderly where
  distinct := h.distinct.congr hf.keys
  plain := by
    rw [hf.keys]
    exact h.plain
  proper k x hk := by
    rcases (hf.filled k x).1 hk with hk | hk
    · exact h.proper k x hk
    · exact (hb.spelled _ hk).proper
  exclusive k x hk := by
    rcases (hf.filled k x).1 hk with hk | hk
    · exact h.exclusive k x hk
    · exact (hb.spelled _ hk).exclusive
  tags k vs hk i v hv := by
    rcases (hf.filled k _).1 hk with hk | hk
    · exact (hf.filled _ _).2 (.inl (h.tags k vs hk i v hv))
    · exact (hf.filled _ _).2 (.inr (hb.tags k vs hk i v hv))
  imported := by
    rw [hf.imports]
    exact h.imported
  imports := by
    rw [hf.imports]
    exact h.imports

/-! ### Finishing -/

theorem bodies_eq_ok {slots : Fields (Option Decl)} {decls : Fields Decl}
    (h : bodies slots = .ok decls) : slots = decls.map fun e => (e.1, some e.2) := by
  induction slots generalizing decls with
  | nil =>
    cases h
    rfl
  | cons s slots ih =>
    obtain ⟨name, body⟩ := s
    cases body with
    | none => cases h
    | some decl =>
      obtain ⟨rest, hr, h⟩ := bind_eq_ok.1 h
      cases h
      rw [ih hr]
      rfl

/-- The module has the bodies of the draft under their names and in their order. -/
structure Finished (d : Draft) (m : Module) : Prop where
  imports : m.imports = d.imports
  keys : Fields.keys m.decls = Fields.keys d.slots
  filled : ∀ k x, d.Filled k x ↔ m.get? k = some x
  aliasesEnd : aliasCycle? m.decls = none

theorem finished_of_finish {m : Module} (h : d.finish = .ok m) : Finished d m := by
  obtain ⟨decls, hb, h⟩ := bind_eq_ok.1 h
  split at h
  · cases h
  rename_i hc
  cases h
  have hs := bodies_eq_ok hb
  refine ⟨rfl, ?_, fun k x => ?_, hc⟩
  · rw [hs]
    simp [Fields.keys]
  · rw [Filled, hs, Fields.get?_map fun e => some e.2, Module.get?]
    cases Fields.get? decls k <;> simp

theorem Orderly.finish {m : Module} (h : d.Orderly) (hf : d.finish = .ok m) : m.Sound := by
  have hf := finished_of_finish hf
  have hd : Fields.Distinct m.decls := h.distinct.congr hf.keys
  have hfilled : ∀ k x, d.Filled k x ↔ (k, x) ∈ m.decls :=
    fun k x => (hf.filled k x).trans hd.get?_eq_some_iff
  refine .intro ⟨hd, ?_, ?_, ?_, ?_, hf.aliasesEnd, hf.imports ▸ h.imported⟩ (hf.imports ▸ h.imports)
  · exact fun e he => h.plain e.1 (hf.keys ▸ Fields.mem_keys_of_mem he)
  · exact fun e he => h.proper e.1 e.2 ((hfilled _ _).2 he)
  · exact fun e he => h.exclusive e.1 e.2 ((hfilled _ _).2 he)
  · exact fun name vs hm i v hv => (hfilled _ _).1 (h.tags name vs ((hfilled _ _).2 hm) i v hv)

end Draft

/-! ### What is kept on the way -/

/-- `P` is kept while a draft is put together from modules that have `Q`, and finishing it gives such a
module again. -/
structure Draft.Keeps (P : Draft → Prop) (Q : Module → Prop) : Prop where
  new : ∀ name, P (Draft.new name)
  addImport : ∀ d d' m, P d → Q m → d.addImport m = .ok d' → P d'
  reserve : ∀ d d' name, P d → Source.Identifier name → d.reserve name = .ok d' → P d'
  fill : ∀ d d' bodies, P d → Draft.Bodies d.Resolves bodies → Draft.Fills d d' bodies → P d'
  finish : ∀ d m, P d → d.finish = .ok m → Q m

namespace Draft.Keeps

variable {P : Draft → Prop} {Q : Module → Prop}

theorem reserveNames (hk : Keeps P Q) {d d' : Draft} {e : Source.DeclExpr} (h : P d) (he : e.Named)
    (hr : Source.reserveNames d e = .ok d') : P d' := by
  refine foldlM_invariant (P := P) (fun d name d' hn h hd => ?_) h hr
  obtain ⟨⟨⟩, -, hd⟩ := bind_eq_ok.1 hd
  exact hk.reserve d d' name h (he.names name hn) hd

theorem defineDecl (hk : Keeps P Q) {d d' : Draft} {e : Source.DeclExpr} (h : P d) (he : e.Named)
    (hd : Source.defineDecl d e = .ok d') : P d' := by
  obtain ⟨bodies, hb, hf⟩ := defineDecl_eq_ok he hd
  exact hk.fill d d' bodies h hb hf

theorem declare (hk : Keeps P Q) {d d' : Draft} {src name : String} (h : P d)
    (hd : d.declare src = .ok (name, d')) : P d' := by
  obtain ⟨e, he, hd⟩ := bind_eq_ok.1 hd
  obtain ⟨mid, hm, hd⟩ := bind_eq_ok.1 hd
  obtain ⟨last, hl, hd⟩ := bind_eq_ok.1 hd
  cases hd
  have he := Source.runOn_eq_ok Source.parseSingle_yields he
  exact hk.defineDecl (hk.reserveNames h he hm) he hl

/-- A source is compiled into a draft, and that is finished. -/
theorem exists_finished (hk : Keeps P Q) {available : Fields Module} {src : String} {m : Module}
    (ha : ∀ i ∈ available, Q i.2) (h : Source.compile available src = .ok m) :
    ∃ d, P d ∧ d.finish = .ok m := by
  obtain ⟨file, hfile, h⟩ := bind_eq_ok.1 h
  obtain ⟨d₁, h₁, h⟩ := bind_eq_ok.1 h
  obtain ⟨d₂, h₂, h⟩ := bind_eq_ok.1 h
  obtain ⟨d₃, h₃, h⟩ := bind_eq_ok.1 h
  have hn := Source.runOn_eq_ok Source.parseFile_yields hfile
  have hp₁ : P d₁ := by
    refine foldlM_invariant (P := P) (fun d name d' _ h hd => ?_) (hk.new _) h₁
    unfold Source.importInto at hd
    split at hd
    · rename_i i hi
      exact hk.addImport d d' i h (ha _ (Fields.mem_of_get? hi)) hd
    · cases hd
  have hp₂ : P d₂ :=
    foldlM_invariant (P := P) (fun d e d' he h hd => hk.reserveNames h (hn e he) hd) hp₁ h₂
  have hp₃ : P d₃ :=
    foldlM_invariant (P := P) (fun d e d' he h hd => hk.defineDecl h (hn e he) hd) hp₂ h₃
  exact ⟨d₃, hp₃, h⟩

theorem compile (hk : Keeps P Q) {available : Fields Module} {src : String} {m : Module}
    (ha : ∀ i ∈ available, Q i.2) (h : Source.compile available src = .ok m) : Q m := by
  obtain ⟨d, hd, hf⟩ := hk.exists_finished ha h
  exact hk.finish d m hd hf

theorem built (hk : Keeps P Q) {m : Module} (h : m.Built) : Q m :=
  Module.Built.rec (motive_1 := fun d _ => P d) (motive_2 := fun m _ => Q m) hk.new
    (fun _ _ ha hd hm => hk.addImport _ _ _ hd hm ha) (fun _ hs hd => hk.declare hd hs)
    (fun _ hf hd => hk.finish _ _ hd hf) (fun _ hc ha => hk.compile ha hc) h

end Draft.Keeps

theorem Draft.orderly_keeps : Draft.Keeps Draft.Orderly Module.Sound where
  new := Draft.new_orderly
  addImport _ _ _ h hm ha := h.addImport hm ha
  reserve _ _ _ h hi hr := h.reserve hi.plain hr
  fill _ _ _ h hb hf := h.fill hb hf
  finish _ _ h hf := h.finish hf

theorem Module.Built.sound {m : Module} (h : m.Built) : m.Sound := Draft.orderly_keeps.built h

/-- The draft with the first declarations of a module. -/
def Module.draft (m : Module) (count : Nat) : Draft :=
  ⟨m.name, m.imports, (m.decls.take count).map fun (name, decl) => (name, some decl)⟩

/-- A chain of numbers: a struct that refers to itself. -/
def Module.chain : Module :=
  ⟨"records", [],
    [("Node", .struct [("value", .prim .i64), ("next", .optional (.ref ⟨none, "Node", 0⟩))])]⟩

/-- The one type of the chain. -/
def Ty.node : Ty := .ref ⟨none, "Node", 0⟩

theorem Module.chain_built : Module.chain.Built := by
  refine @Module.Built.compile []
    "module records struct Node \x7b value :: I64, next :: Optional(Node) \x7d" _ (by simp) ?_
  cbv

end Wireform
