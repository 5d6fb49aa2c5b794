import Mathlib
import Wireform.Proofs.Module.Built
import Wireform.Proofs.Module.Expose

/-!
# Closed modules

A reference is a slot number that was handed out while other slots still waited for their bodies. As
slots are only appended and filled, it keeps pointing at the declaration of its name until the module
is finished, and from then on. `Module.Closed` says so of a module and of all modules below it, and
`Closed.of_reaches` that following references from there never comes to a place where one is missing.
-/

namespace Wireform

namespace Module

/-- The reference leads to the declaration of its name in the module that it names. -/
def Resolves (m : Module) (r : Ref) : Prop :=
  ∃ owner decl, m.owner? r = some owner ∧ owner.get? r.name = some decl ∧
    m.resolve? r = some (owner, decl)

/-- The types that a declaration of `m` is made of; those of a tag stand with its sum. -/
def typesOf (m : Module) : Decl → List Ty
  | .alias t => [t]
  | .struct fields => fields.map Prod.snd
  | .sum variants => variants.flatMap fun v => v.2.map Prod.snd
  | .variant parent index => (m.variant? parent index).toList.flatMap fun v => v.2.map Prod.snd
  | .table spec => spec.attrTypes.map Prod.snd

/-- Names that are identifiers, bodies whose references lead somewhere, and no tag without its sum. -/
structure Complete (m : Module) : Prop where
  names : ∀ name ∈ Fields.keys m.decls, Source.Identifier name
  spelled : ∀ name decl, m.get? name = some decl → decl.Spelled m.Resolves
  parents : ∀ tag parent index, m.get? tag = some (.variant parent index) →
    ∃ variants fields, m.get? parent = some (.sum variants) ∧ variants[index]? = some (tag, fields)

inductive Closed : Module → Prop
  | intro {m : Module} : m.Complete → (∀ i ∈ m.imports, i.2.Closed) → m.Closed

variable {m n owner : Module} {r : Ref} {t s : Ty} {decl : Decl} {name : String}

theorem resolve?_of_slot (ho : m.owner? r = some owner) (hs : owner.slotOf? r.name = some r.slot) :
    m.Resolves r := by
  obtain ⟨decl, hd, hg⟩ := Fields.index?_eq_some hs
  refine ⟨owner, decl, ho, hg, ?_⟩
  rw [resolve?, ho]
  simp only [hd, if_true]

/-- The reference that a path stands for leads somewhere. -/
theorem lookup?_resolves {path : String} (h : m.lookup? path = some r) : m.Resolves r := by
  unfold lookup? at h
  generalize splitPath path = p at h
  obtain ⟨via, name⟩ := p
  simp only at h
  split at h
  · cases h
  rename_i owner ho
  obtain ⟨slot, hs, rfl⟩ := Option.map_eq_some_iff.1 h
  have ho : m.owner? ⟨via, name, slot⟩ = some owner := by
    cases via with
    | none => exact ho
    | some i => exact ho
  exact resolve?_of_slot ho hs

namespace Closed

theorem complete (h : m.Closed) : m.Complete := by
  cases h with
  | intro h _ => exact h

theorem imports (h : m.Closed) : ∀ i ∈ m.imports, i.2.Closed := by
  cases h with
  | intro _ h => exact h

theorem of_owner? (hm : m.Closed) (h : m.owner? r = some owner) : owner.Closed := by
  rcases owner?_eq_some h with ⟨-, rfl⟩ | ⟨i, -, hi⟩
  · exact hm
  · exact hm.imports _ hi

end Closed

/-- What the types of a declaration refer to is there. -/
theorem Complete.spelled_of_mem_typesOf (hm : m.Complete) (hd : m.get? name = some decl)
    (ht : t ∈ m.typesOf decl) : t.Spelled m.Resolves := by
  have hs := hm.spelled name decl hd
  cases decl with
  | «alias» s =>
    rw [List.mem_singleton.1 ht]
    exact hs
  | struct fields =>
    obtain ⟨f, hf, rfl⟩ := List.mem_map.1 ht
    exact hs.types f hf
  | sum variants =>
    obtain ⟨v, hv, ht⟩ := List.mem_flatMap.1 ht
    obtain ⟨f, hf, rfl⟩ := List.mem_map.1 ht
    exact (hs v hv).types f hf
  | variant parent index =>
    obtain ⟨v, hv, ht⟩ := List.mem_flatMap.1 ht
    obtain ⟨f, hf, rfl⟩ := List.mem_map.1 ht
    obtain ⟨variants, hp, hv⟩ := variant?_eq_some (Option.mem_toList.1 hv)
    exact (hm.spelled parent _ hp v (List.mem_of_getElem? hv)).types f hf
  | table spec =>
    obtain ⟨a, ha, rfl⟩ := List.mem_map.1 ht
    exact TableSpec.Spelled.types hs a ha

end Module

/-! ### Closed drafts -/

namespace Draft

structure Closed (d : Draft) : Prop where
  names : ∀ name ∈ Fields.keys d.slots, Source.Identifier name
  spelled : ∀ name decl, d.Filled name decl → decl.Spelled d.Resolves
  parents : ∀ tag parent index, d.Filled tag (.variant parent index) →
    ∃ variants fields, d.Filled parent (.sum variants) ∧ variants[index]? = some (tag, fields)
  imports : ∀ i ∈ d.imports, i.2.Closed

variable {d d' : Draft} {r : Ref}

/-- A draft with more slots and more imports resolves what it did. -/
theorem Resolves.mono (hs : ∀ k i, Fields.index? d.slots k = some i → Fields.index? d'.slots k = some i)
    (hi : ∀ k m, Fields.get? d.imports k = some m → Fields.get? d'.imports k = some m)
    (h : d.Resolves r) : d'.Resolves r := by
  unfold Resolves at h ⊢
  cases hv : r.via with
  | none =>
    rw [hv] at h
    exact hs _ _ h
  | some i =>
    rw [hv] at h
    obtain ⟨m, hm, hn⟩ := h
    exact ⟨m, hi _ _ hm, hn⟩

theorem Resolves.addImport {m : Module} (ha : d.addImport m = .ok d') (h : d.Resolves r) :
    d'.Resolves r := by
  unfold Draft.addImport at ha
  split at ha
  · cases ha
  cases ha
  refine Resolves.mono (d := d) (fun _ _ hs => hs) (fun k i hi => ?_) h
  rw [Fields.get?_append, hi, Option.some_or]

theorem Resolves.reserve {name : String} (hr : d.reserve name = .ok d') (h : d.Resolves r) :
    d'.Resolves r := by
  obtain ⟨-, rfl⟩ := reserve_eq_ok hr
  exact h.mono (fun _ _ hs => Fields.index?_append hs _) fun _ _ hi => hi

theorem Resolves.fill {bodies : List (String × Decl)} (hf : Fills d d' bodies) (h : d.Resolves r) :
    d'.Resolves r := by
  refine h.mono (fun k i hs => ?_) fun k m hi => ?_
  · rwa [Fields.index?_congr hf.keys]
  · rwa [hf.imports]

/-- In the finished module the reference names an owner and a slot of it. -/
theorem Resolves.exists_owner {m : Module} (hf : Finished d m) (h : d.Resolves r) :
    ∃ owner, m.owner? r = some owner ∧ owner.slotOf? r.name = some r.slot := by
  unfold Resolves at h
  cases hv : r.via with
  | none =>
    rw [hv] at h
    refine ⟨m, by rw [Module.owner?, hv], ?_⟩
    rw [Module.slotOf?, Fields.index?_congr hf.keys]
    exact h
  | some i =>
    rw [hv] at h
    obtain ⟨owner, ho, hs⟩ := h
    refine ⟨owner, ?_, hs⟩
    rw [Module.owner?, hv]
    show Fields.get? m.imports i = some owner
    rw [hf.imports]
    exact ho

theorem Resolves.finish {m : Module} (hf : Finished d m) (h : d.Resolves r) : m.Resolves r := by
  obtain ⟨owner, ho, hs⟩ := h.exists_owner hf
  exact Module.resolve?_of_slot ho hs

theorem closed_keeps : Keeps Draft.Closed Module.Closed where
  new name := ⟨by simp [new], by simp [new, Filled], by simp [new, Filled], by simp [new]⟩
  addImport d d' m h hm ha := by
    have hmono : ∀ r, d.Resolves r → d'.Resolves r := fun r => Resolves.addImport ha
    unfold Draft.addImport at ha
    split at ha
    · cases ha
    cases ha
    refine ⟨h.names, fun k x hk => (h.spelled k x hk).mono hmono, h.parents, ?_⟩
    exact List.forall_mem_append.2 ⟨h.imports, by simpa using hm⟩
  reserve d d' name h hn hr := by
    have hf := filled_reserve hr
    have hmono : ∀ r, d.Resolves r → d'.Resolves r := fun r => Resolves.reserve hr
    obtain ⟨-, rfl⟩ := reserve_eq_ok hr
    refine ⟨?_, fun k x hk => ?_, fun tag parent index hk => ?_, h.imports⟩
    · rw [Fields.keys_append]
      exact List.forall_mem_append.2 ⟨h.names, by simpa using hn⟩
    · exact (h.spelled k x ((hf k x).1 hk)).mono hmono
    · obtain ⟨variants, fields, hp, hv⟩ := h.parents tag parent index ((hf _ _).1 hk)
      exact ⟨variants, fields, (hf _ _).2 hp, hv⟩
  fill d d' bodies h hb hf := by
    have hmono : ∀ r, d.Resolves r → d'.Resolves r := fun r => Resolves.fill hf
    refine ⟨hf.keys ▸ h.names, fun k x hk => ?_, fun tag parent index hk => ?_, hf.imports ▸ h.imports⟩
    · rcases (hf.filled k x).1 hk with hk | hk
      · exact (h.spelled k x hk).mono hmono
      · exact (hb.spelled _ hk).mono hmono
    · rcases (hf.filled _ _).1 hk with hk | hk
      · obtain ⟨variants, fields, hp, hv⟩ := h.parents tag parent index hk
        exact ⟨variants, fields, (hf.filled _ _).2 (.inl hp), hv⟩
      · obtain ⟨variants, fields, hp, hv⟩ := hb.parents tag parent index hk
        exact ⟨variants, fields, (hf.filled _ _).2 (.inr hp), hv⟩
  finish d m h hf := by
    have hf := finished_of_finish hf
    refine .intro ⟨hf.keys ▸ h.names, fun k x hk => ?_, fun tag parent index hk => ?_⟩
      (hf.imports ▸ h.imports)
    · exact (h.spelled k x ((hf.filled k x).2 hk)).mono fun r => Resolves.finish hf
    · obtain ⟨variants, fields, hp, hv⟩ := h.parents tag parent index ((hf.filled _ _).2 hk)
      exact ⟨variants, fields, (hf.filled _ _).1 hp, hv⟩

end Draft

namespace Module

variable {m n owner : Module} {r : Ref} {t s : Ty} {decl : Decl}

theorem Built.closed (h : m.Built) : m.Closed := Draft.closed_keeps.built h

/-! ### What a type leads to -/

/-- All references in the type lead somewhere from `m`. -/
def Grounds (m : Module) (t : Ty) : Prop := ∀ r, t.Within (.ref r) → m.Resolves r

theorem Grounds.part (h : m.Grounds t) (hs : s ∈ t.parts) : m.Grounds s :=
  fun r hr => h r (.head hs hr)

theorem grounds_of_spelled (h : t.Spelled m.Resolves) : m.Grounds t := fun _ hr => h.refs_of_within hr

theorem grounds_ref (h : m.Resolves r) : m.Grounds (.ref r) := by
  intro q hq
  rcases Relation.ReflTransGen.cases_head hq with he | ⟨s, hs, -⟩
  · cases he
    exact h
  · cases hs

/-- The type `s` of `n` is come to from the type `t` of `m` by going to parts and by following
references. -/
inductive Reaches (m : Module) (t : Ty) : Module → Ty → Prop
  | self : Reaches m t m t
  | part {n : Module} {s u : Ty} : Reaches m t n s → u ∈ s.parts → Reaches m t n u
  | follow {n owner : Module} {r : Ref} {decl : Decl} {u : Ty} : Reaches m t n (.ref r) →
    n.resolve? r = some (owner, decl) → u ∈ owner.typesOf decl → Reaches m t owner u

/-- What a reference leads to is grounded where it is declared. -/
theorem Closed.follow (hm : m.Closed) (hg : m.Grounds (.ref r)) (h : m.resolve? r = some (owner, decl)) :
    owner.Closed ∧ owner.get? r.name = some decl ∧ ∀ u ∈ owner.typesOf decl, owner.Grounds u := by
  obtain ⟨o, x, ho, hx, hr⟩ := hg r .refl
  rw [hr, Option.some.injEq, Prod.mk.injEq] at h
  obtain ⟨rfl, rfl⟩ := h
  have hc := hm.of_owner? ho
  exact ⟨hc, hx, fun u hu => grounds_of_spelled (hc.complete.spelled_of_mem_typesOf hx hu)⟩

theorem Closed.of_reaches (hm : m.Closed) (ht : m.Grounds t) (h : m.Reaches t n s) :
    n.Closed ∧ n.Grounds s := by
  induction h with
  | self => exact ⟨hm, ht⟩
  | part _ hu ih => exact ⟨ih.1, ih.2.part hu⟩
  | follow _ hr hu ih =>
    obtain ⟨hc, -, hg⟩ := ih.1.follow ih.2 hr
    exact ⟨hc, hg _ hu⟩

theorem Sound.of_reaches (hm : m.Sound) (h : m.Reaches t n s) : n.Sound := by
  induction h with
  | self => exact hm
  | part _ _ ih => exact ih
  | follow _ hr _ ih => exact ih.of_resolve? hr

/-- A tag that is declared has its variant. -/
theorem Complete.variant?_isSome (hm : m.Complete) {tag parent : String} {index : Nat}
    (h : m.get? tag = some (.variant parent index)) :
    ∃ fields, m.variant? parent index = some (tag, fields) := by
  obtain ⟨variants, fields, hp, hv⟩ := hm.parents tag parent index h
  exact ⟨fields, by rw [variant?, hp]; exact hv⟩

/-- A name is that of a tag exactly if the sum has the tag at the position. -/
theorem Sound.get?_variant_iff (hm : m.Sound) (hc : m.Closed) {tag parent : String} {index : Nat} :
    m.get? tag = some (.variant parent index) ↔
      ∃ variants fields, m.get? parent = some (.sum variants) ∧ variants[index]? = some (tag, fields) := by
  refine ⟨hc.complete.parents tag parent index, ?_⟩
  rintro ⟨variants, fields, hp, hv⟩
  exact hm.orderly.distinct.get?_eq_some
    (hm.orderly.tags parent variants (Fields.mem_of_get? hp) index _ hv)

/-! ### Shapes -/

end Module

/-- The types in a shape. -/
def Head.types : Head → List Ty
  | .prim _ => []
  | .optional t => [t]
  | .list t => [t]
  | .object t => [t]
  | .map k v => [k, v]
  | .record fields => fields.map Prod.snd
  | .sum variants => variants.flatMap fun v => v.2.map Prod.snd
  | .tag _ v => v.toList.flatMap fun v => v.2.map Prod.snd
  | .table => []
  | .unresolved _ => []
  | .endless => []

/-- No declaration is missing behind the shape, nor behind its types. -/
structure Exposed.Grounded (e : Exposed) : Prop where
  sound : e.owner.Sound
  closed : e.owner.Closed
  resolved : ∀ path, e.head ≠ .unresolved path
  variant : ∀ parent, e.head ≠ .tag parent none
  types : ∀ t ∈ e.head.types, e.owner.Grounds t

namespace Module

variable {m owner : Module} {r : Ref} {t : Ty} {decl : Decl} {name : String}

theorem exposeDecl_grounded (hs : m.Sound) (hc : m.Closed) (hd : m.get? name = some decl)
    (hg : ∀ u ∈ m.typesOf decl, m.Grounds u) : (m.exposeDecl name decl).Grounded := by
  cases decl with
  | variant parent index =>
    obtain ⟨fields, hv⟩ := hc.complete.variant?_isSome hd
    refine ⟨hs, hc, by simp [exposeDecl], by simp [exposeDecl, hv], ?_⟩
    simp only [typesOf, hv] at hg
    simpa only [exposeDecl, hv, Head.types] using hg
  | «alias» t =>
    exact ⟨hs, hc, by simp [exposeDecl], by simp [exposeDecl], by simp [exposeDecl, Head.types]⟩
  | table spec =>
    exact ⟨hs, hc, by simp [exposeDecl], by simp [exposeDecl], by simp [exposeDecl, Head.types]⟩
  | struct fields => exact ⟨hs, hc, by simp [exposeDecl], by simp [exposeDecl], hg⟩
  | sum variants => exact ⟨hs, hc, by simp [exposeDecl], by simp [exposeDecl], hg⟩

/-- The shape of a type whose references lead somewhere. -/
theorem Sound.expose_grounded (hs : m.Sound) (hc : m.Closed) (hg : m.Grounds t) :
    (m.expose t).Grounded := by
  revert hc hg
  refine hs.shape_induction (P := fun m t => m.Closed → m.Grounds t → (m.expose t).Grounded) ?_ ?_ ?_ t
  · intro m doc t ih hc hg
    rw [expose_annot]
    exact ih hc (hg.part (by simp [Ty.parts]))
  · intro m r owner t hs hr ih hc hg
    rw [hs.ends.expose_alias hr]
    obtain ⟨ho, -, hu⟩ := hc.follow hg hr
    exact ih ho (hu t (by simp [typesOf]))
  · intro m t hs ha hr hc hg
    cases t with
    | annot doc t => exact absurd rfl (ha doc t)
    | ref r =>
      obtain ⟨owner, decl, ho, hd, hres⟩ := hg r .refl
      obtain ⟨hco, -, hu⟩ := hc.follow hg hres
      rw [expose_decl hres fun s he => hr r owner s rfl (he ▸ hres)]
      exact exposeDecl_grounded (hs.of_resolve? hres) hco hd hu
    | _ =>
      rw [expose_inline m (by simp) (by simp)]
      exact ⟨hs, hc, by simp [exposeInline], by simp [exposeInline], fun u hu => hg.part hu⟩

/-- Going on from the shape of a type comes to nothing but what the type leads to. -/
theorem Sound.reaches_exposed {n : Module} {s : Ty} (hs : n.Sound) (h : m.Reaches t n s) :
    ∀ u ∈ (n.expose s).head.types, m.Reaches t (n.expose s).owner u := by
  revert h
  refine hs.shape_induction (P := fun n s => m.Reaches t n s →
    ∀ u ∈ (n.expose s).head.types, m.Reaches t (n.expose s).owner u) ?_ ?_ ?_ s
  · intro n doc s ih h
    rw [expose_annot]
    exact ih (h.part (by simp [Ty.parts]))
  · intro n r owner s hs hr ih h
    rw [hs.ends.expose_alias hr]
    exact ih (h.follow hr (by simp [typesOf]))
  · intro n s hs ha hr h u hu
    cases s with
    | annot doc s => exact absurd rfl (ha doc s)
    | ref r =>
      cases hres : n.resolve? r with
      | none =>
        rw [expose_unresolved hres] at hu
        cases hu
      | some found =>
        obtain ⟨owner, decl⟩ := found
        rw [expose_decl hres fun s he => hr r owner s rfl (he ▸ hres)] at hu ⊢
        cases decl with
        | «alias» s => cases hu
        | table spec => cases hu
        | _ => exact h.follow hres hu
    | _ =>
      rw [expose_inline n (by simp) (by simp)] at hu ⊢
      exact h.part hu

end Module

/-! ### A module with an import -/

/-- Shapes made of dots and of paths through the chain. -/
def Module.drawings : Module :=
  ⟨"drawings", [("records", Module.chain)],
    [("Shape", .sum [("Dot", []), ("Path", [("first", .ref ⟨some "records", "Node", 0⟩),
        ("rest", .ref ⟨none, "Shapes", 3⟩)])]),
      ("Dot", .variant "Shape" 0), ("Path", .variant "Shape" 1),
      ("Shapes", .alias (.list (.ref ⟨none, "Shape", 0⟩)))]⟩

theorem Module.drawings_built : Module.drawings.Built := by
  refine @Module.Built.compile [("records", Module.chain)]
    ("module drawings import records sum Shape \x7b Dot | Path(first :: records.Node, " ++
      "rest :: Shapes) \x7d alias Shapes = List(Shape)")
    _ ?_ ?_
  · simpa using Module.chain_built
  · cbv

end Wireform
