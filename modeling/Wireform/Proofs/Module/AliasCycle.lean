import Mathlib
import Wireform.Proofs.Module.Closed

/-!
# Chains of aliases

An alias may stand for a reference to another alias, and that for the next one. While names are only
reserved such a chain can close, and then no shape is behind it. `finish` looks for this with as many
steps as there are declarations, and that is enough: it refuses a draft exactly if some chain of steps
inside it goes on for ever. It does not look into imports, and need not: whatever calls a module came
about by, it was finished before, and so were the modules below it (`Composed.ends`).
-/

namespace Wireform

mutual

/-- Drafts that came about by calls of any kind; names may be given any body by hand. -/
inductive Draft.Composed : Draft → Prop
  | new (name : String) : Draft.Composed (Draft.new name)
  | addImport {d d' : Draft} {m : Module} :
    Draft.Composed d → Module.Composed m → d.addImport m = .ok d' → Draft.Composed d'
  | reserve {d d' : Draft} {name : String} :
    Draft.Composed d → d.reserve name = .ok d' → Draft.Composed d'
  | define {d d' : Draft} {name : String} {decl : Decl} :
    Draft.Composed d → d.define name decl = .ok d' → Draft.Composed d'
  | declare {d d' : Draft} {src name : String} :
    Draft.Composed d → d.declare src = .ok (name, d') → Draft.Composed d'

/-- Modules that were finished, with imports that were. -/
inductive Module.Composed : Module → Prop
  | finish {d : Draft} {m : Module} : Draft.Composed d → d.finish = .ok m → Module.Composed m
  | compile {available : Fields Module} {src : String} {m : Module} :
    (∀ i ∈ available, Module.Composed i.2) → Source.compile available src = .ok m → Module.Composed m

end

theorem Module.Built.composed {m : Module} (h : m.Built) : m.Composed :=
  Module.Built.rec (motive_1 := fun d _ => d.Composed) (motive_2 := fun m _ => m.Composed) .new
    (fun _ _ ha hd hm => hd.addImport hm ha) (fun _ hs hd => hd.declare hs)
    (fun _ hf hd => .finish hd hf) (fun _ hc ha => .compile ha hc) h

namespace Draft

/-- Names stand once, and in the imports aliases come to an end. -/
structure Founded (d : Draft) : Prop where
  distinct : Fields.Distinct d.slots
  imports : ∀ i ∈ d.imports, i.2.Ends

namespace Founded

variable {d d' : Draft} {m : Module}

theorem addImport (h : d.Founded) (hm : m.Ends) (ha : d.addImport m = .ok d') : d'.Founded := by
  unfold Draft.addImport at ha
  split at ha
  · cases ha
  cases ha
  exact ⟨h.distinct, List.forall_mem_append.2 ⟨h.imports, by simpa using hm⟩⟩

theorem reserve {name : String} (h : d.Founded) (hr : d.reserve name = .ok d') : d'.Founded := by
  obtain ⟨hn, rfl⟩ := reserve_eq_ok hr
  refine ⟨?_, h.imports⟩
  rw [← Fields.insert_of_not_mem hn]
  exact Fields.nodup_insert h.distinct name none

theorem fill {bodies : List (String × Decl)} (h : d.Founded) (hf : Fills d d' bodies) : d'.Founded :=
  ⟨h.distinct.congr hf.keys, hf.imports ▸ h.imports⟩

theorem finish (h : d.Founded) (hf : d.finish = .ok m) : m.Ends := by
  have hf := finished_of_finish hf
  exact .intro (h.distinct.congr hf.keys) hf.aliasesEnd (hf.imports ▸ h.imports)

end Founded

theorem founded_keeps : Keeps Founded Module.Ends where
  new _ := ⟨List.nodup_nil, by simp [new]⟩
  addImport _ _ _ h hm ha := h.addImport hm ha
  reserve _ _ _ h _ hr := h.reserve hr
  fill _ _ _ h _ hf := h.fill hf
  finish _ _ h hf := h.finish hf

end Draft

/-- Aliases come to an end in every module that was finished. -/
theorem Module.Composed.ends {m : Module} (h : m.Composed) : m.Ends :=
  Module.Composed.rec (motive_1 := fun d _ => d.Founded) (motive_2 := fun m _ => m.Ends)
    Draft.founded_keeps.new (fun _ _ ha hd hm => hd.addImport hm ha) (fun _ hr hd => hd.reserve hr)
    (fun _ hf hd => hd.fill (Draft.fills_of_define hf))
    (fun _ hs hd => Draft.founded_keeps.declare hd hs) (fun _ hf hd => hd.finish hf)
    (fun _ hc ha => Draft.founded_keeps.compile ha hc) h

/-! ### References at the head of an alias -/

namespace Source

variable {d : Draft} {e : TypeExpr} {t : Ty} {r : Ref}

/-- A type resolves to a reference of the draft, to documentation of a type that is resolved as well, or
to something that is no reference. -/
theorem resolveType_head (h : resolveType d e = .ok t) :
    (∃ r, t = .ref r ∧ d.Resolves r) ∨ (∃ doc x s, t = .annot doc s ∧ resolveType d x = .ok s) ∨
      ∀ r, t.stripAnnot ≠ .ref r := by
  cases e with
  | path segments offset =>
    rcases resolveType_path_eq_ok h with ⟨p, rfl⟩ | ⟨r, hr, rfl⟩
    · exact .inr (.inr (by simp [Ty.stripAnnot]))
    · exact .inl ⟨r, rfl, Draft.resolvePath_resolves hr⟩
  | tuple elems =>
    rw [resolveType] at h
    obtain ⟨ts, -, h⟩ := bind_eq_ok.1 h
    cases h
    exact .inr (.inr (by simp [Ty.tuple, Ty.stripAnnot]))
  | record fields =>
    rw [resolveType] at h
    obtain ⟨fs, -, h⟩ := bind_eq_ok.1 h
    cases h
    exact .inr (.inr (by simp [Ty.stripAnnot]))
  | apply ctor args offset fragment =>
    -- Of the constructors only `Annot`, the fifth, hands on what its argument is.
    unfold resolveType at h
    simp only at h
    split at h
    case h_4 =>
      obtain ⟨k, -, h⟩ := bind_eq_ok.1 h
      obtain ⟨v, -, h⟩ := bind_eq_ok.1 h
      cases h
      exact .inr (.inr (by simp [Ty.stripAnnot]))
    case h_5 =>
      obtain ⟨s, hs, h⟩ := bind_eq_ok.1 h
      cases h
      obtain ⟨x, -, hx⟩ := resolveArg_eq_ok hs
      exact .inr (.inl ⟨_, x, s, rfl, hx⟩)
    case h_1 | h_2 | h_3 =>
      obtain ⟨s, -, h⟩ := bind_eq_ok.1 h
      cases h
      exact .inr (.inr (by simp [Ty.stripAnnot]))
    all_goals cases h

/-- The reference that a resolved type comes to without its documentation is one of the draft. -/
theorem resolveType_stripAnnot (h : resolveType d e = .ok t) (hr : t.stripAnnot = .ref r) :
    d.Resolves r := by
  fun_induction Ty.stripAnnot t generalizing e with
  | case1 doc t ih =>
    rcases resolveType_head h with ⟨r', ht, -⟩ | ⟨doc', x, s, ht, hx⟩ | hn
    · cases ht
    · cases ht
      exact ih hx hr
    · exact absurd hr (hn r)
  | case2 t hdoc =>
    subst hr
    rcases resolveType_head h with ⟨r', ht, hr⟩ | ⟨doc', x, s, ht, -⟩ | hn
    · cases ht
      exact hr
    · cases ht
    · exact absurd rfl (hn r)

theorem resolveDecl_alias {e : DeclExpr} {bodies : List (String × Decl)} {name : String}
    (h : resolveDecl d e = .ok bodies) (ht : (name, .alias t) ∈ bodies) (hr : t.stripAnnot = .ref r) :
    d.Resolves r := by
  cases e with
  | «alias» k x =>
    obtain ⟨ty, hty, h⟩ := bind_eq_ok.1 h
    cases h
    cases List.mem_singleton.1 ht
    exact resolveType_stripAnnot hty hr
  | sum k variants =>
    obtain ⟨resolved, -, h⟩ := bind_eq_ok.1 h
    cases h
    simp [List.mem_mapIdx] at ht
  | struct k fields =>
    obtain ⟨fs, -, h⟩ := bind_eq_ok.1 h
    cases h
    simp at ht
  | table k items =>
    obtain ⟨spec, -, h⟩ := bind_eq_ok.1 h
    cases h
    simp at ht

end Source

namespace Draft

/-- Drafts that are put together from finished modules, reserved names and declarations that were
resolved against the draft, in any order. -/
inductive Staged : Draft → Prop
  | new (name : String) : Staged (Draft.new name)
  | addImport {d d' : Draft} {m : Module} :
    Staged d → m.Composed → d.addImport m = .ok d' → Staged d'
  | reserve {d d' : Draft} {name : String} : Staged d → d.reserve name = .ok d' → Staged d'
  | define {d d' : Draft} {e : Source.DeclExpr} : Staged d → Source.defineDecl d e = .ok d' → Staged d'

/-- Declarations that are compiled one by one, each when its names are reserved. -/
theorem Grown.staged {d : Draft} (h : d.Grown) : d.Staged := by
  refine Draft.Grown.rec (motive_1 := fun d _ => d.Staged) (motive_2 := fun _ _ => True) Staged.new
    (fun _ hm ha ih _ => ih.addImport hm.composed ha) (fun _ hs ih => ?_) (fun _ _ _ => trivial)
    (fun _ _ _ => trivial) h
  obtain ⟨e, -, hs⟩ := bind_eq_ok.1 hs
  obtain ⟨mid, hm, hs⟩ := bind_eq_ok.1 hs
  obtain ⟨last, hl, hs⟩ := bind_eq_ok.1 hs
  cases hs
  refine .define (foldlM_invariant (P := Staged) (fun d name d' _ h hd => ?_) ih hm) hl
  obtain ⟨⟨⟩, -, hd⟩ := bind_eq_ok.1 hd
  exact h.reserve hd

/-- What an alias refers to has its slot. -/
structure Traced (d : Draft) : Prop extends Founded d where
  aliases : ∀ name t r, d.Filled name (.alias t) → t.stripAnnot = .ref r → d.Resolves r

theorem Staged.traced {d : Draft} (h : d.Staged) : d.Traced := by
  induction h with
  | new name => exact ⟨founded_keeps.new name, by simp [Draft.new, Filled]⟩
  | addImport _ hm ha ih =>
    refine ⟨ih.toFounded.addImport hm.ends ha, fun name t r hf hr => ?_⟩
    refine Resolves.addImport ha (ih.aliases name t r ?_ hr)
    unfold Draft.addImport at ha
    split at ha
    · cases ha
    cases ha
    exact hf
  | reserve _ hr ih =>
    refine ⟨ih.toFounded.reserve hr, fun name t r hf ht => ?_⟩
    exact Resolves.reserve hr (ih.aliases name t r ((filled_reserve hr _ _).1 hf) ht)
  | define _ hd ih =>
    obtain ⟨bodies, hb, hd⟩ := bind_eq_ok.1 hd
    have hfills := fills_of_foldlM hd
    refine ⟨ih.toFounded.fill hfills, fun name t r hf hr => Resolves.fill hfills ?_⟩
    rcases (hfills.filled _ _).1 hf with hf | hf
    · exact ih.aliases name t r hf hr
    · exact Source.resolveDecl_alias hb hf hr

/-- The body of the alias `name` is, without its documentation, a reference to the alias `next` of the
same draft. -/
def AliasStep (d : Draft) (name next : String) : Prop :=
  ∃ t r u, d.Filled name (.alias t) ∧ t.stripAnnot = .ref r ∧ r.via = none ∧
    d.slots[r.slot]? = some (next, some (.alias u))

/-- Some chain of aliases of the draft has no end. -/
def Cyclic (d : Draft) : Prop := ∃ chain : ℕ → String, ∀ n, d.AliasStep (chain n) (chain (n + 1))

variable {d : Draft} {decls : Fields Decl} {name next : String} {t u : Ty}

/-! ### Bodies -/

theorem exists_bodies {slots : Fields (Option Decl)} (h : ∀ s ∈ slots, s.2.isSome) :
    ∃ decls, bodies slots = .ok decls := by
  induction slots with
  | nil => exact ⟨[], rfl⟩
  | cons s slots ih =>
    obtain ⟨hs, h⟩ := List.forall_mem_cons.1 h
    obtain ⟨rest, hr⟩ := ih h
    obtain ⟨name, body⟩ := s
    obtain ⟨decl, rfl⟩ := Option.isSome_iff_exists.1 hs
    exact ⟨(name, decl) :: rest, by rw [bodies, hr]; rfl⟩

theorem filled_iff_of_bodies (hb : bodies d.slots = .ok decls) (k : String) (x : Decl) :
    d.Filled k x ↔ Fields.get? decls k = some x := by
  rw [Filled, bodies_eq_ok hb, Fields.get?_map fun e => some e.2]
  cases Fields.get? decls k <;> simp

/-! ### Steps by name and by slot -/

theorem aliasStep?_eq_some_iff :
    aliasStep? decls t = some u ↔
      ∃ r, t.stripAnnot = .ref r ∧ r.via = none ∧ Fields.get? decls r.name = some (.alias u) := by
  constructor
  · intro h
    unfold aliasStep? at h
    split at h
    · rename_i name slot hs
      split at h
      · rename_i body hb
        exact ⟨_, hs, rfl, by rw [hb, Option.some.inj h]⟩
      · cases h
    · cases h
  · rintro ⟨⟨via, name, slot⟩, hs, rfl, hu⟩
    simp only [aliasStep?, hs, hu]

/-- The slot of a reference that has one is that of its name, so the check, which goes by names, follows
the references. -/
theorem Traced.aliasStep_iff (hd : d.Traced) (hb : bodies d.slots = .ok decls)
    (ht : Fields.get? decls name = some (.alias t)) :
    d.AliasStep name next ↔
      ∃ r u, t.stripAnnot = .ref r ∧ r.via = none ∧ r.name = next ∧
        Fields.get? decls next = some (.alias u) := by
  have hname := (filled_iff_of_bodies hb name (.alias t)).2 ht
  have hslot : ∀ r, t.stripAnnot = .ref r → r.via = none →
      ∃ body, d.slots[r.slot]? = some (r.name, body) ∧ Fields.get? d.slots r.name = some body := by
    intro r hs hv
    have hr := hd.aliases name t r hname hs
    rw [Resolves, hv] at hr
    exact Fields.index?_eq_some hr
  constructor
  · rintro ⟨t', r, u, hf, hs, hv, hn⟩
    obtain rfl : t = t' := by
      rw [filled_iff_of_bodies hb, ht] at hf
      exact Decl.alias.inj (Option.some.inj hf)
    obtain ⟨body, hi, hg⟩ := hslot r hs hv
    rw [hn, Option.some.injEq, Prod.mk.injEq] at hi
    obtain ⟨rfl, rfl⟩ := hi
    exact ⟨r, u, hs, hv, rfl, (filled_iff_of_bodies hb _ _).1 hg⟩
  · rintro ⟨r, u, hs, hv, rfl, hu⟩
    obtain ⟨body, hi, hg⟩ := hslot r hs hv
    have hf : d.Filled r.name (.alias u) := (filled_iff_of_bodies hb _ _).2 hu
    rw [Filled, hg, Option.some.injEq] at hf
    exact ⟨t, r, u, hname, hs, hv, hf ▸ hi⟩

/-! ### Chains that end -/

/-- No infinite chain begins at the alias exactly if some number of steps leads to its shape. -/
theorem Traced.acc_iff (hd : d.Traced) (hb : bodies d.slots = .ok decls)
    (ht : Fields.get? decls name = some (.alias t)) :
    Acc (fun b a => d.AliasStep a b) name ↔ ∃ n, Steps decls n t := by
  constructor
  · intro h
    induction h generalizing t with
    | intro name _ ih =>
      cases hs : aliasStep? decls t with
      | none => exact ⟨0, .stop hs⟩
      | some u =>
        obtain ⟨r, hr, hv, hu⟩ := aliasStep?_eq_some_iff.1 hs
        have hstep : d.AliasStep name r.name := (hd.aliasStep_iff hb ht).2 ⟨r, u, hr, hv, rfl, hu⟩
        obtain ⟨n, hn⟩ := ih r.name hstep hu
        exact ⟨n + 1, .step hs hn⟩
  · rintro ⟨n, h⟩
    induction h generalizing name with
    | stop hs =>
      refine .intro name fun next hn => ?_
      obtain ⟨r, u, hr, hv, rfl, hu⟩ := (hd.aliasStep_iff hb ht).1 hn
      rw [aliasStep?_eq_some_iff.2 ⟨r, hr, hv, hu⟩] at hs
      cases hs
    | step hs _ ih =>
      refine .intro name fun next hn => ?_
      obtain ⟨r, u, hr, hv, rfl, hu⟩ := (hd.aliasStep_iff hb ht).1 hn
      rw [aliasStep?_eq_some_iff.2 ⟨r, hr, hv, hu⟩, Option.some.injEq] at hs
      exact ih (hs ▸ hu)

theorem Traced.cyclic_iff (hd : d.Traced) (hb : bodies d.slots = .ok decls) :
    d.Cyclic ↔ ∃ name t, Fields.get? decls name = some (.alias t) ∧ ∀ n, ¬ Steps decls n t := by
  constructor
  · rintro ⟨chain, h⟩
    obtain ⟨t, _, _, hf, -⟩ := h 0
    have ht := (filled_iff_of_bodies hb _ _).1 hf
    refine ⟨chain 0, t, ht, fun n hn => ?_⟩
    exact not_acc_iff_exists_descending_chain.2 ⟨chain, rfl, h⟩ ((hd.acc_iff hb ht).2 ⟨n, hn⟩)
  · rintro ⟨name, t, ht, hn⟩
    have hacc : ¬ Acc (fun b a => d.AliasStep a b) name := by
      rw [hd.acc_iff hb ht]
      exact not_exists.2 hn
    obtain ⟨chain, -, h⟩ := not_acc_iff_exists_descending_chain.1 hacc
    exact ⟨chain, h⟩

/-- The check finds an alias without a shape exactly if there is one: the body of an alias is fewer
steps away from its shape than the check takes. -/
theorem aliasCycle?_isSome_iff (hd : Fields.Distinct decls) :
    (aliasCycle? decls).isSome ↔
      ∃ name t, Fields.get? decls name = some (.alias t) ∧ ∀ n, ¬ Steps decls n t := by
  rw [aliasCycle?, Option.isSome_map, List.find?_isSome]
  constructor
  · rintro ⟨⟨name, decl⟩, hm, h⟩
    cases decl with
    | «alias» t =>
      have ht := hd.get?_eq_some hm
      refine ⟨name, t, ht, fun n hn => ?_⟩
      have hend : aliasesOutlast decls decls.length t = false :=
        (aliasesOutlast_eq_false _ _).2 ⟨n, (hn.lt_length ht).le, hn⟩
      simp only [hend] at h
      cases h
    | _ => cases h
  · rintro ⟨name, t, ht, hn⟩
    refine ⟨(name, .alias t), Fields.mem_of_get? ht, ?_⟩
    by_contra h
    obtain ⟨k, -, hk⟩ := (aliasesOutlast_eq_false _ _).1 (Bool.not_eq_true _ ▸ h)
    exact hn k hk

/-- A staged draft without open slots is refused for a cycle, or it becomes a module. -/
theorem Staged.finish_cases (hd : d.Staged) (hs : ∀ s ∈ d.slots, s.2.isSome) :
    (d.Cyclic ∧ ∃ name, d.finish = .error (.aliasCycle name)) ∨
      (¬ d.Cyclic ∧ ∃ m, d.finish = .ok m) := by
  obtain ⟨decls, hb⟩ := exists_bodies hs
  have hdistinct : Fields.Distinct decls := by
    refine hd.traced.distinct.congr ?_
    rw [bodies_eq_ok hb]
    simp [Fields.keys]
  have hcyclic := hd.traced.cyclic_iff hb
  rw [← aliasCycle?_isSome_iff hdistinct] at hcyclic
  cases hc : aliasCycle? decls with
  | some name =>
    rw [hc] at hcyclic
    refine .inl ⟨hcyclic.2 rfl, name, ?_⟩
    rw [finish, hb, ok_bind, hc]
  | none =>
    rw [hc] at hcyclic
    refine .inr ⟨fun h => Bool.false_ne_true (hcyclic.1 h), ⟨d.name, d.imports, decls⟩, ?_⟩
    rw [finish, hb, ok_bind, hc]

end Draft

end Wireform
