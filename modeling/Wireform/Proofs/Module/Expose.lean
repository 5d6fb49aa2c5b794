import Mathlib
import Wireform.Module.Expose
import Wireform.Proofs.Module.Sound

/-!
# Aliases come to an end

The shape of a type does not depend on documentation (`expose_annot`), and the shape of an alias is the
shape of its body, wherever that is declared (`Ends.expose_alias`). The second needs that the budget of
`expose` suffices: the aliases of a chain that ends have bodies with different numbers of steps to go,
so there are no more of them than declarations. No more is asked for than that names stand once and
that `finish` has found no cycle (`Ends`), so references that lead nowhere do no harm.
-/

namespace Wireform

namespace Draft

variable {decls : Fields Decl} {t next : Ty} {n k : Nat}

/-- `Steps decls n t`: exactly `n` aliases of `decls` stand between `t` and its shape. -/
inductive Steps (decls : Fields Decl) : Nat → Ty → Prop
  | stop {t : Ty} : aliasStep? decls t = none → Steps decls 0 t
  | step {t next : Ty} {n : Nat} :
    aliasStep? decls t = some next → Steps decls n next → Steps decls (n + 1) t

theorem Steps.unique (h : Steps decls n t) (h' : Steps decls k t) : n = k := by
  induction h generalizing k with
  | stop hs =>
    cases h' with
    | stop _ => rfl
    | step hs' _ => rw [hs] at hs'; cases hs'
  | step hs _ ih =>
    cases h' with
    | stop hs' => rw [hs] at hs'; cases hs'
    | step hs' h' =>
      rw [hs] at hs'
      cases hs'
      rw [ih h']

theorem aliasesOutlast_eq_false (n : Nat) (t : Ty) :
    aliasesOutlast decls n t = false ↔ ∃ k ≤ n, Steps decls k t := by
  induction n generalizing t with
  | zero =>
    rw [aliasesOutlast]
    constructor
    · intro h
      exact ⟨0, Nat.le_refl 0, .stop (by simpa using h)⟩
    · rintro ⟨k, hk, h⟩
      cases h with
      | stop hs => simp [hs]
      | step _ _ => omega
  | succ n ih =>
    rw [aliasesOutlast]
    cases hs : aliasStep? decls t with
    | none => simp only [true_iff]; exact ⟨0, Nat.zero_le _, .stop hs⟩
    | some next =>
      simp only [ih]
      constructor
      · rintro ⟨k, hk, h⟩
        exact ⟨k + 1, by omega, .step hs h⟩
      · rintro ⟨k, hk, h⟩
        cases h with
        | stop hs' => rw [hs] at hs'; cases hs'
        | step hs' h =>
          rw [hs] at hs'
          cases hs'
          exact ⟨_, by omega, h⟩

theorem aliasStep?_eq_some (h : aliasStep? decls t = some next) :
    ∃ name, decls.get? name = some (.alias next) := by
  unfold aliasStep? at h
  split at h
  · rename_i name _ _
    split at h
    · rename_i b hb
      exact ⟨name, by rw [hb, Option.some.inj h]⟩
    · simp at h
  · simp at h

/-- On the way down every smaller number of steps is the number of some declared alias. -/
theorem Steps.exists_body (h : Steps decls n t) (hk : k < n) :
    ∃ name body, decls.get? name = some (.alias body) ∧ Steps decls k body := by
  induction h with
  | stop _ => omega
  | @step t next n hs h ih =>
    by_cases hkn : k = n
    · obtain ⟨name, hn⟩ := aliasStep?_eq_some hs
      exact ⟨name, next, hn, hkn ▸ h⟩
    · exact ih (by omega)

/-- The body of an alias is fewer steps away from its shape than there are declarations. -/
theorem Steps.lt_length {name : String} (hb : decls.get? name = some (.alias t))
    (h : Steps decls n t) : n < decls.length := by
  have hex : ∀ k ∈ List.range (n + 1), ∃ name, ∃ body,
      decls.get? name = some (.alias body) ∧ Steps decls k body := by
    intro k hk
    rcases Nat.lt_or_eq_of_le (Nat.le_of_lt_succ (List.mem_range.1 hk)) with hk | rfl
    · exact h.exists_body hk
    · exact ⟨name, t, hb, h⟩
  -- Names of bodies with different numbers of steps differ, so the names do not repeat.
  choose! f hf using hex
  have hnd : ((List.range (n + 1)).map f).Nodup := by
    refine List.Nodup.map_on (fun i hi k hk he => ?_) List.nodup_range
    obtain ⟨b, hb, hs⟩ := hf i hi
    obtain ⟨b', hb', hs'⟩ := hf k hk
    rw [he, hb', Option.some.injEq, Decl.alias.injEq] at hb
    exact hs.unique (hb ▸ hs')
  have hsub : ∀ x ∈ (List.range (n + 1)).map f, x ∈ decls.keys := by
    intro x hx
    obtain ⟨k, hk, rfl⟩ := List.mem_map.1 hx
    obtain ⟨b, hb, -⟩ := hf k hk
    exact Fields.mem_keys_of_mem (Fields.mem_of_get? hb)
  have := (hnd.subperm hsub).length_le
  simpa using this

end Draft

namespace Module

variable {m owner : Module} {r : Ref} {t : Ty} {decl : Decl}

theorem importExposers_get? (imports : Fields Module) (name : String) :
    Fields.get? (importExposers imports) name = (Fields.get? imports name).map expose := by
  induction imports with
  | nil => rfl
  | cons e imports ih =>
    obtain ⟨k, m⟩ := e
    rw [importExposers, Fields.get?_cons, Fields.get?_cons, ih]
    split <;> rfl

theorem expose_eq (m : Module) (t : Ty) :
    m.expose t = exposeWithin m (importExposers m.imports) m.decls.length t := by
  cases m
  rw [expose]

theorem exposeWithin_annot (imported : Fields Exposer) (budget : Nat) (doc : String) (t : Ty) :
    m.exposeWithin imported budget (.annot doc t) = m.exposeWithin imported budget t := by
  rw [exposeWithin_eq m imported budget (.annot doc t), exposeWithin_eq m imported budget t]
  rfl

theorem expose_annot (m : Module) (doc : String) (t : Ty) :
    m.expose (.annot doc t) = m.expose t := by
  rw [expose_eq, expose_eq, exposeWithin_annot]

/-- A type that is neither documentation nor a reference shows its own shape. -/
theorem exposeWithin_inline (imported : Fields Exposer) (budget : Nat) {t : Ty}
    (ha : ∀ doc s, t ≠ .annot doc s) (hr : ∀ r, t ≠ .ref r) :
    m.exposeWithin imported budget t = m.exposeInline t := by
  rw [exposeWithin_eq]
  cases t with
  | annot doc s => exact absurd rfl (ha doc s)
  | ref r => exact absurd rfl (hr r)
  | _ => rfl

theorem expose_inline (m : Module) {t : Ty} (ha : ∀ doc s, t ≠ .annot doc s)
    (hr : ∀ r, t ≠ .ref r) : m.expose t = m.exposeInline t := by
  rw [expose_eq, exposeWithin_inline _ _ ha hr]

/-- A reference to anything but an alias shows the declaration. -/
theorem exposeWithin_decl (imported : Fields Exposer) (budget : Nat)
    (h : m.resolve? r = some (owner, decl)) (ha : ∀ t, decl ≠ .alias t) :
    m.exposeWithin imported budget (.ref r) = owner.exposeDecl r.name decl := by
  rw [exposeWithin_eq]
  simp only [Ty.stripAnnot_ref, h]

theorem expose_decl (h : m.resolve? r = some (owner, decl)) (ha : ∀ t, decl ≠ .alias t) :
    m.expose (.ref r) = owner.exposeDecl r.name decl := by
  rw [expose_eq, exposeWithin_decl _ _ h ha]

theorem exposeWithin_unresolved (imported : Fields Exposer) (budget : Nat) (h : m.resolve? r = none) :
    m.exposeWithin imported budget (.ref r) = m.exposeInline (.ref r) := by
  rw [exposeWithin_eq]
  simp only [Ty.stripAnnot_ref, h]

theorem expose_unresolved (h : m.resolve? r = none) : m.expose (.ref r) = m.exposeInline (.ref r) := by
  rw [expose_eq, exposeWithin_unresolved _ _ h]

/-- The body of an alias that is found in an import is exposed there. -/
theorem exposeWithin_import {i : String} (budget : Nat) (hv : r.via = some i)
    (h : m.resolve? r = some (owner, .alias t)) :
    m.exposeWithin (importExposers m.imports) budget (.ref r) = owner.expose t := by
  have hi : Fields.get? m.imports i = some owner := by
    have ho := (resolve?_eq_some h).1
    rwa [owner?, hv] at ho
  rw [exposeWithin_eq]
  simp only [Ty.stripAnnot_ref, h, hv, Option.bind_some, importExposers_get?, hi, Option.map_some]

theorem exposeWithin_local {budget : Nat} (imported : Fields Exposer) (hv : r.via = none)
    (h : m.resolve? r = some (owner, .alias t)) :
    m.exposeWithin imported (budget + 1) (.ref r) = m.exposeWithin imported budget t := by
  rw [exposeWithin_eq]
  simp only [Ty.stripAnnot_ref, h, hv, Option.bind_none]

/-- Without budget an alias of the module itself is not expanded. -/
theorem exposeWithin_spent (imported : Fields Exposer) (hv : r.via = none)
    (h : m.resolve? r = some (owner, .alias t)) :
    m.exposeWithin imported 0 (.ref r) = owner.exposeDecl r.name (.alias t) := by
  rw [exposeWithin_eq]
  simp only [Ty.stripAnnot_ref, h, hv, Option.bind_none]

/-- A reference to an alias of the module itself is a step of a chain. -/
theorem aliasStep?_of_resolve? (hd : Fields.Distinct m.decls) (hv : r.via = none)
    (h : m.resolve? r = some (owner, .alias t)) : Draft.aliasStep? m.decls (.ref r) = some t := by
  obtain ⟨via, name, slot⟩ := r
  subst hv
  have hm := mem_decls_of_resolve? h
  rcases owner?_eq_some (resolve?_eq_some h).1 with ⟨-, rfl⟩ | ⟨i, hi, -⟩
  · simp only [Draft.aliasStep?, Ty.stripAnnot_ref]
    rw [hd.get?_eq_some hm]
  · simp at hi

theorem exposeWithin_stripAnnot (imported : Fields Exposer) (budget : Nat) (t : Ty) :
    m.exposeWithin imported budget t.stripAnnot = m.exposeWithin imported budget t := by
  fun_induction Ty.stripAnnot t with
  | case1 doc t ih => rw [ih, exposeWithin_annot]
  | case2 t h => rfl

theorem aliasStep?_stripAnnot (decls : Fields Decl) (t : Ty) :
    Draft.aliasStep? decls t.stripAnnot = Draft.aliasStep? decls t := by
  fun_induction Ty.stripAnnot t with
  | case1 doc t ih => rw [ih]; rfl
  | case2 t h => rfl

theorem stripAnnot_ne_annot (t : Ty) (doc : String) (s : Ty) : t.stripAnnot ≠ .annot doc s := by
  fun_induction Ty.stripAnnot t with
  | case1 _ t ih => exact ih
  | case2 t h => exact fun he => h _ _ he

/-- Where no alias of the module itself is expanded, the budget does not matter. -/
theorem exposeWithin_eq_of_not_local (b b' : Nat)
    (h : ∀ r owner next, t.stripAnnot = .ref r → m.resolve? r = some (owner, .alias next) →
      r.via ≠ none) :
    m.exposeWithin (importExposers m.imports) b t =
      m.exposeWithin (importExposers m.imports) b' t := by
  rw [← exposeWithin_stripAnnot _ b, ← exposeWithin_stripAnnot _ b']
  cases hs : t.stripAnnot with
  | annot doc s => exact absurd hs (stripAnnot_ne_annot t doc s)
  | ref r =>
    cases hr : m.resolve? r with
    | none => rw [exposeWithin_unresolved _ _ hr, exposeWithin_unresolved _ _ hr]
    | some found =>
      obtain ⟨owner, decl⟩ := found
      by_cases ha : ∃ next, decl = .alias next
      · obtain ⟨next, rfl⟩ := ha
        obtain ⟨i, hi⟩ := Option.ne_none_iff_exists'.1 (h r owner next hs hr)
        rw [exposeWithin_import b hi hr, exposeWithin_import b' hi hr]
      · have ha : ∀ next, decl ≠ .alias next := fun next he => ha ⟨next, he⟩
        rw [exposeWithin_decl _ _ hr ha, exposeWithin_decl _ _ hr ha]
  | _ => rw [exposeWithin_inline _ _ (by simp) (by simp), exposeWithin_inline _ _ (by simp) (by simp)]

/-- A budget of as many steps as the chain has is as good as any larger one. -/
theorem exposeWithin_of_steps (hd : Fields.Distinct m.decls) {n b b' : Nat}
    (h : Draft.Steps m.decls n t) (hb : n ≤ b) (hb' : n ≤ b') :
    m.exposeWithin (importExposers m.imports) b t =
      m.exposeWithin (importExposers m.imports) b' t := by
  induction h generalizing b b' with
  | @stop t hs =>
    refine exposeWithin_eq_of_not_local b b' fun r owner next ht hr hv => ?_
    have := aliasStep?_of_resolve? hd hv hr
    rw [← ht, aliasStep?_stripAnnot, hs] at this
    cases this
  | @step t next n hs h ih =>
    by_cases hl : ∃ r owner next, t.stripAnnot = .ref r ∧
        m.resolve? r = some (owner, .alias next) ∧ r.via = none
    · obtain ⟨r, owner, next', ht, hr, hv⟩ := hl
      have := aliasStep?_of_resolve? hd hv hr
      rw [← ht, aliasStep?_stripAnnot, hs, Option.some.injEq] at this
      subst this
      obtain ⟨b, rfl⟩ := Nat.exists_eq_add_of_le' hb
      obtain ⟨b', rfl⟩ := Nat.exists_eq_add_of_le' hb'
      rw [← exposeWithin_stripAnnot, ← exposeWithin_stripAnnot _ (b' + (n + 1)), ht,
        ← Nat.add_assoc, ← Nat.add_assoc, exposeWithin_local _ hv hr, exposeWithin_local _ hv hr]
      exact ih (by omega) (by omega)
    · exact exposeWithin_eq_of_not_local b b' fun r owner next ht hr hv =>
        hl ⟨r, owner, next, ht, hr, hv⟩

/-- Every name stands once and every alias comes to an end, in the module and in all modules below it. -/
inductive Ends : Module → Prop
  | intro {m : Module} : Fields.Distinct m.decls → Draft.aliasCycle? m.decls = none →
    (∀ i ∈ m.imports, i.2.Ends) → m.Ends

namespace Ends

theorem distinct (h : m.Ends) : Fields.Distinct m.decls := by
  cases h with
  | intro h _ _ => exact h

theorem of_resolve? (hm : m.Ends) (h : m.resolve? r = some (owner, decl)) : owner.Ends := by
  rcases owner?_eq_some (resolve?_eq_some h).1 with ⟨-, rfl⟩ | ⟨i, -, hi⟩
  · exact hm
  · cases hm with
    | intro _ _ h => exact h _ hi

/-- Some number of steps leads from any type to its shape. -/
theorem exists_steps (hm : m.Ends) (t : Ty) : ∃ n, Draft.Steps m.decls n t := by
  cases hs : Draft.aliasStep? m.decls t with
  | none => exact ⟨0, .stop hs⟩
  | some next =>
    obtain ⟨name, hn⟩ := Draft.aliasStep?_eq_some hs
    obtain ⟨-, hc, -⟩ := hm
    rw [Draft.aliasCycle?, Option.map_eq_none_iff, List.find?_eq_none] at hc
    have ht := hc _ (Fields.mem_of_get? hn)
    simp only [Bool.not_eq_true] at ht
    obtain ⟨n, -, h⟩ := (Draft.aliasesOutlast_eq_false _ _).1 ht
    exact ⟨n + 1, .step hs h⟩

/-- The shape of an alias is the shape of its body. -/
theorem expose_alias (hm : m.Ends) (h : m.resolve? r = some (owner, .alias t)) :
    m.expose (.ref r) = owner.expose t := by
  cases hv : r.via with
  | some i => rw [expose_eq, exposeWithin_import _ hv h]
  | none =>
    have hd := hm.distinct
    rcases owner?_eq_some (resolve?_eq_some h).1 with ⟨-, rfl⟩ | ⟨i, hi, -⟩
    · have hg := hd.get?_eq_some (mem_decls_of_resolve? h)
      obtain ⟨n, hn⟩ := hm.exists_steps t
      have hlt := hn.lt_length hg
      obtain ⟨b, hb⟩ := Nat.exists_eq_add_of_le' (Nat.one_le_of_lt hlt)
      rw [expose_eq, expose_eq, hb, exposeWithin_local _ hv h]
      exact exposeWithin_of_steps hd hn (by omega) (by omega)
    · rw [hv] at hi; cases hi

/-- What passes from a type to its documented form and from the body of an alias to the alias, and
holds of all other types, holds of every type. -/
theorem shape_induction {P : Module → Ty → Prop}
    (annot : ∀ m doc t, P m t → P m (.annot doc t))
    («alias» : ∀ m r owner t, m.Ends → m.resolve? r = some (owner, .alias t) → P owner t →
      P m (.ref r))
    (shape : ∀ m t, m.Ends → (∀ doc s, t ≠ .annot doc s) →
      (∀ r owner s, t = .ref r → m.resolve? r ≠ some (owner, .alias s)) → P m t)
    (hm : m.Ends) (t : Ty) : P m t := by
  induction hm generalizing t with
  | @intro m hd hc hi ih =>
    have hm : m.Ends := .intro hd hc hi
    have hstrip : ∀ t, P m t.stripAnnot → P m t := by
      intro t h
      fun_induction Ty.stripAnnot t with
      | case1 doc t ih => exact annot m doc t (ih h)
      | case2 t _ => exact h
    -- Inside the module the steps that are left decrease; an import is a smaller module.
    have hstep : ∀ t, (∀ next, Draft.aliasStep? m.decls t = some next → P m next) → P m t := by
      intro t ht
      refine hstrip t ?_
      by_cases hr : ∃ r owner s, t.stripAnnot = .ref r ∧ m.resolve? r = some (owner, .alias s)
      · obtain ⟨r, owner, s, hs, hr⟩ := hr
        rw [hs]
        refine «alias» m r owner s hm hr ?_
        rcases owner?_eq_some (resolve?_eq_some hr).1 with ⟨hv, rfl⟩ | ⟨i, -, hi⟩
        · refine ht s ?_
          rw [← aliasStep?_stripAnnot, hs]
          exact aliasStep?_of_resolve? hd hv hr
        · exact ih _ hi s
      · exact shape m _ hm (stripAnnot_ne_annot t) fun r owner s hs hr' => hr ⟨r, owner, s, hs, hr'⟩
    obtain ⟨n, hn⟩ := hm.exists_steps t
    induction hn with
    | stop hs => exact hstep _ fun next h => by rw [hs] at h; cases h
    | step hs _ ihs =>
      refine hstep _ fun next h => ?_
      rw [hs, Option.some.injEq] at h
      exact h ▸ ihs

/-- In the module in which the parts of a shape are looked up aliases come to an end as well. -/
theorem expose_owner (hm : m.Ends) (t : Ty) : (m.expose t).owner.Ends := by
  refine hm.shape_induction (P := fun m t => m.Ends → (m.expose t).owner.Ends) ?_ ?_ ?_ t hm
  · intro m doc t ih hm
    rw [expose_annot]
    exact ih hm
  · intro m r owner t hm hr ih _
    rw [hm.expose_alias hr]
    exact ih (hm.of_resolve? hr)
  · intro m t hm ha hr _
    cases t with
    | annot doc t => exact absurd rfl (ha doc t)
    | ref r =>
      cases hres : m.resolve? r with
      | none =>
        rw [expose_unresolved hres]
        exact hm
      | some found =>
        obtain ⟨owner, decl⟩ := found
        rw [expose_decl hres fun s hs => hr r owner s rfl (hs ▸ hres)]
        cases decl <;> exact hm.of_resolve? hres
    | _ =>
      rw [expose_inline m (by simp) (by simp)]
      exact hm

end Ends

theorem Sound.ends (hm : m.Sound) : m.Ends := by
  induction hm with
  | intro ho _ ih => exact .intro ho.distinct ho.aliasesEnd ih

/-- The same over sound modules, which lead to none but sound ones. -/
theorem Sound.shape_induction {P : Module → Ty → Prop}
    (annot : ∀ m doc t, P m t → P m (.annot doc t))
    («alias» : ∀ m r owner t, m.Sound → m.resolve? r = some (owner, .alias t) → P owner t →
      P m (.ref r))
    (shape : ∀ m t, m.Sound → (∀ doc s, t ≠ .annot doc s) →
      (∀ r owner s, t = .ref r → m.resolve? r ≠ some (owner, .alias s)) → P m t)
    (hm : m.Sound) (t : Ty) : P m t := by
  refine hm.ends.shape_induction (P := fun m t => m.Sound → P m t) ?_ ?_ ?_ t hm
  · exact fun m doc t ih hm => annot m doc t (ih hm)
  · exact fun m r owner t _ hr ih hm => «alias» m r owner t hm hr (ih (hm.of_resolve? hr))
  · exact fun m t _ ha hr hm => shape m t hm ha hr

end Module

end Wireform
