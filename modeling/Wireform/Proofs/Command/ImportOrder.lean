import Mathlib
import Wireform.Command.Order
import Wireform.Proofs.Fields
import Wireform.Proofs.Sequence

/-!
# The order of imports

`visit` goes through the imports depth first. What it appends to the order is new, is a source, and comes
after all its imports (`Ordered`), and it is none of the modules whose imports are being followed
(`Adds`). These are sources too, and stand on the way only once (`Underway`), so there are at most as many as
sources: the fuel lasts (`visit_of_le`). On the way down each module is reached from all those before it,
so without a cycle and without a missing import every visit succeeds (`exists_visit`).
-/

namespace Wireform.Command

variable {sources : Sources} {unit : SourceUnit} {fuel fuel' : Nat} {name a b : String}
  {visiting order order' names : List String}

/-- The source named `a` has `b` among its imports. -/
def Imports (sources : Sources) (a b : String) : Prop :=
  ∃ unit, Fields.get? sources a = some unit ∧ b ∈ unit.imports

theorem Imports.mem_keys (h : Imports sources a b) : a ∈ Fields.keys sources := by
  obtain ⟨unit, hu, -⟩ := h
  exact Fields.mem_keys_of_mem (Fields.mem_of_get? hu)

/-! ### Orders -/

/-- Sources, each of them new and after its imports. -/
inductive Ordered (sources : Sources) : List String → Prop
  | nil : Ordered sources []
  | snoc {order : List String} {name : String} : Ordered sources order → name ∈ Fields.keys sources →
    name ∉ order → (∀ i, Imports sources name i → i ∈ order) → Ordered sources (order ++ [name])

namespace Ordered

theorem nodup (h : Ordered sources order) : order.Nodup := by
  induction h with
  | nil => exact List.nodup_nil
  | snoc _ _ hnew _ ih =>
    rw [← List.concat_eq_append]
    exact ih.concat hnew

theorem mem_keys (h : Ordered sources order) : ∀ a ∈ order, a ∈ Fields.keys sources := by
  induction h with
  | nil => simp
  | snoc _ hkey _ _ ih =>
    intro a ha
    rcases List.mem_append.1 ha with ha | ha
    · exact ih a ha
    · rwa [List.mem_singleton.1 ha]

/-- Wherever the order is cut, the imports of the next module are behind. -/
theorem mem_before (h : Ordered sources order) {before after : List String}
    (he : order = before ++ a :: after) : ∀ i, Imports sources a i → i ∈ before := by
  induction h generalizing after with
  | nil => simp at he
  | @snoc order name _ _ _ himports ih =>
    rcases List.eq_nil_or_concat after with rfl | ⟨after', b, rfl⟩
    · obtain ⟨rfl, hname⟩ := List.append_inj' he rfl
      rw [← (List.cons.inj hname).1]
      exact himports
    · rw [List.concat_eq_append, ← List.cons_append, ← List.append_assoc] at he
      exact ih (List.append_inj' he rfl).1

theorem idxOf_lt (h : Ordered sources order) (ha : a ∈ order) (hi : Imports sources a b) :
    b ∈ order ∧ order.idxOf b < order.idxOf a := by
  obtain ⟨before, after, rfl⟩ := List.append_of_mem ha
  have hb := h.mem_before rfl b hi
  have hnot : a ∉ before := by
    intro hmem
    exact (List.nodup_append.1 h.nodup).2.2 a hmem a (by simp) rfl
  refine ⟨List.mem_append_left _ hb, ?_⟩
  rw [List.idxOf_append_of_mem hb, List.idxOf_append_of_notMem hnot]
  have := List.idxOf_lt_length_of_mem hb
  omega

theorem acyclic (h : Ordered sources order) (ha : a ∈ order) : ¬ Relation.TransGen (Imports sources) a a := by
  have hdown : ∀ b, Relation.TransGen (Imports sources) a b → b ∈ order ∧ order.idxOf b < order.idxOf a := by
    intro b hb
    induction hb with
    | single hi => exact h.idxOf_lt ha hi
    | tail _ hi ih =>
      obtain ⟨hmem, hlt⟩ := h.idxOf_lt ih.1 hi
      exact ⟨hmem, hlt.trans ih.2⟩
  intro hcycle
  exact absurd (hdown a hcycle).2 (lt_irrefl _)

end Ordered

/-! ### One visit -/

theorem visit_of_mem (h : name ∈ order) : visit sources fuel visiting order name = .ok order := by
  unfold visit
  rw [if_pos (List.contains_iff_mem.2 h)]

theorem visit_of_visiting (ho : name ∉ order) (hv : name ∈ visiting) :
    visit sources fuel visiting order name = .error (.of (.importCycle (visiting ++ [name]))) := by
  unfold visit
  rw [if_neg (by simpa using ho), if_pos (List.contains_iff_mem.2 hv)]

theorem visit_of_missing (ho : name ∉ order) (hv : name ∉ visiting) (hg : Fields.get? sources name = none) :
    visit sources fuel visiting order name = .error (.of (.missingImport name)) := by
  unfold visit
  rw [if_neg (by simpa using ho), if_neg (by simpa using hv), hg]

theorem visit_of_imports {mid : List String} (ho : name ∉ order) (hv : name ∉ visiting)
    (hg : Fields.get? sources name = some unit)
    (hi : unit.imports.foldlM (visit sources fuel (visiting ++ [name])) order = .ok mid) :
    visit sources (fuel + 1) visiting order name = .ok (mid ++ [name]) := by
  unfold visit
  rw [if_neg (by simpa using ho), if_neg (by simpa using hv), hg]
  simp only [hi]

theorem visit_of_failure {e : Failure} (ho : name ∉ order) (hv : name ∉ visiting)
    (hg : Fields.get? sources name = some unit)
    (hi : unit.imports.foldlM (visit sources fuel (visiting ++ [name])) order = .error e) :
    visit sources (fuel + 1) visiting order name = .error (e.during (.importedBy unit.path)) := by
  unfold visit
  rw [if_neg (by simpa using ho), if_neg (by simpa using hv), hg]
  simp only [hi]

theorem visit_zero (ho : name ∉ order) (hv : name ∉ visiting) (hg : Fields.get? sources name = some unit) :
    visit sources 0 visiting order name = .error (.of (.importCycle (visiting ++ [name]))) := by
  unfold visit
  rw [if_neg (by simpa using ho), if_neg (by simpa using hv), hg]

/-- A visit that succeeds finds the module in the order, or appends it after its imports. -/
theorem visit_eq_ok (h : visit sources fuel visiting order name = .ok order') :
    (name ∈ order ∧ order' = order) ∨
      name ∉ order ∧ name ∉ visiting ∧ ∃ unit rest mid, Fields.get? sources name = some unit ∧
        fuel = rest + 1 ∧ unit.imports.foldlM (visit sources rest (visiting ++ [name])) order = .ok mid ∧
        order' = mid ++ [name] := by
  by_cases ho : name ∈ order
  · rw [visit_of_mem ho] at h
    cases h
    exact .inl ⟨ho, rfl⟩
  by_cases hv : name ∈ visiting
  · rw [visit_of_visiting ho hv] at h
    cases h
  cases hg : Fields.get? sources name with
  | none =>
    rw [visit_of_missing ho hv hg] at h
    cases h
  | some unit =>
    cases fuel with
    | zero =>
      rw [visit_zero ho hv hg] at h
      cases h
    | succ rest =>
      cases hfold : unit.imports.foldlM (visit sources rest (visiting ++ [name])) order with
      | error e =>
        rw [visit_of_failure ho hv hg hfold] at h
        cases h
      | ok mid =>
        rw [visit_of_imports ho hv hg hfold] at h
        cases h
        exact .inr ⟨ho, hv, unit, rest, mid, rfl, rfl, hfold, rfl⟩

/-! ### What visits add -/

/-- The new order keeps what was there, adds nothing that is being visited, and has all of `names`. -/
structure Adds (sources : Sources) (visiting names order order' : List String) : Prop where
  ordered : Ordered sources order'
  kept : ∀ a ∈ order, a ∈ order'
  new : ∀ a ∈ order', a ∈ order ∨ a ∉ visiting
  found : ∀ a ∈ names, a ∈ order'

theorem foldlM_adds {f : List String → String → Except Failure (List String)}
    (hf : ∀ order order' name, Ordered sources order → f order name = .ok order' →
      Adds sources visiting [name] order order')
    (ho : Ordered sources order) (h : names.foldlM f order = .ok order') :
    Adds sources visiting names order order' := by
  induction names generalizing order with
  | nil =>
    cases h
    exact ⟨ho, fun _ ha => ha, fun _ ha => .inl ha, by simp⟩
  | cons name names ih =>
    rw [List.foldlM_cons] at h
    obtain ⟨mid, hmid, h⟩ := bind_eq_ok.1 h
    have hfirst := hf _ _ _ ho hmid
    have hrest := ih hfirst.ordered h
    refine ⟨hrest.ordered, fun a ha => hrest.kept a (hfirst.kept a ha), fun a ha => ?_, ?_⟩
    · rcases hrest.new a ha with ha | ha
      · exact hfirst.new a ha
      · exact .inr ha
    · exact List.forall_mem_cons.2 ⟨hrest.kept name (hfirst.found name (by simp)), hrest.found⟩

theorem visit_adds (ho : Ordered sources order) (h : visit sources fuel visiting order name = .ok order') :
    Adds sources visiting [name] order order' := by
  induction fuel generalizing visiting order order' name with
  | zero =>
    rcases visit_eq_ok h with ⟨hmem, rfl⟩ | ⟨-, -, unit, rest, mid, -, hfuel, -, -⟩
    · exact ⟨ho, fun _ ha => ha, fun _ ha => .inl ha, by simpa using hmem⟩
    · cases hfuel
  | succ fuel ih =>
    rcases visit_eq_ok h with ⟨hmem, rfl⟩ | ⟨hnew, hvisiting, unit, rest, mid, hg, hfuel, hfold, rfl⟩
    · exact ⟨ho, fun _ ha => ha, fun _ ha => .inl ha, by simpa using hmem⟩
    cases hfuel
    have hmid : Adds sources (visiting ++ [name]) unit.imports order mid :=
      foldlM_adds (fun _ _ _ ho h => ih ho h) ho hfold
    -- the module itself was on the way while its imports were visited
    have hname : name ∉ mid := by
      intro hmem
      rcases hmid.new name hmem with hold | hway
      · exact hnew hold
      · exact hway (by simp)
    have hordered : Ordered sources (mid ++ [name]) := by
      refine .snoc hmid.ordered (Fields.mem_keys_of_mem (Fields.mem_of_get? hg)) hname ?_
      rintro i ⟨unit', hg', hi⟩
      rw [hg, Option.some.injEq] at hg'
      exact hmid.found i (hg' ▸ hi)
    refine ⟨hordered, fun a ha => List.mem_append_left _ (hmid.kept a ha), fun a ha => ?_, by simp⟩
    rcases List.mem_append.1 ha with ha | ha
    · exact (hmid.new a ha).imp_right fun hway hv => hway (List.mem_append_left _ hv)
    · rw [List.mem_singleton.1 ha]
      exact .inr hvisiting

theorem importOrder_adds (h : importOrder sources = .ok order) :
    Adds sources [] (Fields.keys sources) [] order :=
  foldlM_adds (fun _ _ _ ho h => visit_adds ho h) .nil h

/-! ### How deep visits go -/

/-- The modules on the way are sources, and each of them stands there once. -/
structure Underway (sources : Sources) (visiting : List String) : Prop where
  nodup : visiting.Nodup
  sources : ∀ a ∈ visiting, a ∈ Fields.keys sources

namespace Underway

theorem nil : Underway sources [] := ⟨List.nodup_nil, by simp⟩

theorem snoc (h : Underway sources visiting) (hv : name ∉ visiting) (hk : name ∈ Fields.keys sources) :
    Underway sources (visiting ++ [name]) := by
  refine ⟨?_, fun a ha => ?_⟩
  · rw [← List.concat_eq_append]
    exact h.nodup.concat hv
  · rcases List.mem_append.1 ha with ha | ha
    · exact h.sources a ha
    · rwa [List.mem_singleton.1 ha]

theorem length_le (h : Underway sources visiting) : visiting.length ≤ sources.length := by
  rw [← Fields.length_keys sources]
  exact (h.nodup.subperm h.sources).length_le

/-- A module that is not on the way yet has room there. -/
theorem exists_fuel (h : Underway sources visiting) (hv : name ∉ visiting) (hk : name ∈ Fields.keys sources)
    (hf : sources.length ≤ fuel + visiting.length) :
    ∃ rest, fuel = rest + 1 ∧ sources.length ≤ rest + (visiting ++ [name]).length := by
  have hlength := (h.snoc hv hk).length_le
  rw [List.length_append, List.length_singleton] at hlength ⊢
  exact ⟨fuel - 1, by omega, by omega⟩

end Underway

/-- More fuel than there are sources left changes nothing. -/
theorem visit_of_le (hv : Underway sources visiting) (hf : sources.length ≤ fuel + visiting.length)
    (hle : fuel ≤ fuel') (order : List String) (name : String) :
    visit sources fuel' visiting order name = visit sources fuel visiting order name := by
  induction fuel using Nat.strong_induction_on generalizing fuel' visiting order name with
  | _ fuel ih =>
    by_cases ho : name ∈ order
    · rw [visit_of_mem ho, visit_of_mem ho]
    by_cases hmem : name ∈ visiting
    · rw [visit_of_visiting ho hmem, visit_of_visiting ho hmem]
    cases hg : Fields.get? sources name with
    | none => rw [visit_of_missing ho hmem hg, visit_of_missing ho hmem hg]
    | some unit =>
      have hk := Fields.mem_keys_of_mem (Fields.mem_of_get? hg)
      obtain ⟨rest, rfl, hrest⟩ := hv.exists_fuel hmem hk hf
      obtain ⟨rest', rfl⟩ : ∃ rest', fuel' = rest' + 1 := ⟨fuel' - 1, by omega⟩
      have heq : visit sources rest' (visiting ++ [name]) = visit sources rest (visiting ++ [name]) := by
        funext order name'
        exact ih rest (by omega) (hv.snoc hmem hk) hrest (by omega) order name'
      cases hfold : unit.imports.foldlM (visit sources rest (visiting ++ [name])) order with
      | ok mid => rw [visit_of_imports ho hmem hg hfold, visit_of_imports ho hmem hg (heq ▸ hfold)]
      | error e => rw [visit_of_failure ho hmem hg hfold, visit_of_failure ho hmem hg (heq ▸ hfold)]

theorem importOrder_of_le (hf : sources.length ≤ fuel) :
    (Fields.keys sources).foldlM (visit sources fuel []) [] = importOrder sources := by
  have heq : visit sources fuel [] = visit sources sources.length [] := by
    funext order name
    exact visit_of_le .nil (by simp) hf order name
  rw [importOrder, heq]

/-! ### When visits succeed -/

theorem exists_visit (hpresent : ∀ a i, Imports sources a i → i ∈ Fields.keys sources)
    (hacyclic : ∀ a, ¬ Relation.TransGen (Imports sources) a a) (hv : Underway sources visiting)
    (hf : sources.length ≤ fuel + visiting.length) (hk : name ∈ Fields.keys sources)
    (hway : ∀ v ∈ visiting, Relation.TransGen (Imports sources) v name) (order : List String) :
    ∃ order', visit sources fuel visiting order name = .ok order' := by
  induction fuel using Nat.strong_induction_on generalizing visiting name order with
  | _ fuel ih =>
    by_cases ho : name ∈ order
    · exact ⟨order, visit_of_mem ho⟩
    have hmem : name ∉ visiting := fun hmem => hacyclic name (hway name hmem)
    obtain ⟨rest, rfl, hrest⟩ := hv.exists_fuel hmem hk hf
    obtain ⟨unit, hg⟩ := Fields.exists_get?_of_mem_keys hk
    have hstep : ∀ i ∈ unit.imports, Imports sources name i := fun i hi => ⟨unit, hg, hi⟩
    have himports : ∀ order, ∀ i ∈ unit.imports,
        ∃ order', visit sources rest (visiting ++ [name]) order i = .ok order' := by
      intro order i hi
      refine ih rest (by omega) (hv.snoc hmem hk) hrest (hpresent name i (hstep i hi)) (fun v hv => ?_) order
      rcases List.mem_append.1 hv with hv | hv
      · exact (hway v hv).tail (hstep i hi)
      · rw [List.mem_singleton.1 hv]
        exact .single (hstep i hi)
    obtain ⟨mid, hmid⟩ := exists_foldlM_eq_ok himports order
    exact ⟨mid ++ [name], visit_of_imports ho hmem hg hmid⟩

/-- There is an order exactly if all imports are sources and none of them leads back. -/
theorem exists_importOrder_iff :
    (∃ order, importOrder sources = .ok order) ↔
      (∀ a i, Imports sources a i → i ∈ Fields.keys sources) ∧
        ∀ a, ¬ Relation.TransGen (Imports sources) a a := by
  constructor
  · rintro ⟨order, h⟩
    have hall := importOrder_adds h
    refine ⟨fun a i hi => ?_, fun a hcycle => ?_⟩
    · exact hall.ordered.mem_keys i (hall.ordered.idxOf_lt (hall.found a hi.mem_keys) hi).1
    · obtain ⟨b, hfirst, -⟩ := Relation.TransGen.head'_iff.1 hcycle
      exact hall.ordered.acyclic (hall.found a hfirst.mem_keys) hcycle
  · rintro ⟨hpresent, hacyclic⟩
    exact exists_foldlM_eq_ok (fun order name hn =>
      exists_visit hpresent hacyclic .nil (by simp) hn (by simp) order) []

/-- A failure that is about the imports as a whole. -/
def Unordered (f : Failure) : Prop :=
  (∃ names, f.cause = .importCycle names) ∨ ∃ name, f.cause = .missingImport name

theorem visit_raises (sources : Sources) (fuel : Nat) (visiting order : List String) (name : String) :
    Raises Unordered (visit sources fuel visiting order name) := by
  induction fuel using Nat.strong_induction_on generalizing visiting order name with
  | _ fuel ih =>
    by_cases ho : name ∈ order
    · rw [visit_of_mem ho]
      exact .ok _
    by_cases hv : name ∈ visiting
    · rw [visit_of_visiting ho hv]
      exact .error (.inl ⟨_, rfl⟩)
    cases hg : Fields.get? sources name with
    | none =>
      rw [visit_of_missing ho hv hg]
      exact .error (.inr ⟨_, rfl⟩)
    | some unit =>
      cases fuel with
      | zero =>
        rw [visit_zero ho hv hg]
        exact .error (.inl ⟨_, rfl⟩)
      | succ rest =>
        have hfold : Raises Unordered (unit.imports.foldlM (visit sources rest (visiting ++ [name])) order) :=
          .foldlM (fun order i _ => ih rest (by omega) (visiting ++ [name]) order i) order
        cases hi : unit.imports.foldlM (visit sources rest (visiting ++ [name])) order with
        | ok mid =>
          rw [visit_of_imports ho hv hg hi]
          exact .ok _
        | error e =>
          -- what is added on the way out leaves the cause as it is
          rw [visit_of_failure ho hv hg hi]
          exact .error (show Unordered e from hfold e hi)

theorem importOrder_raises (sources : Sources) : Raises Unordered (importOrder sources) :=
  .foldlM (fun order name _ => visit_raises sources _ [] order name) []

theorem importOrder_perm (hd : Fields.Distinct sources) (h : importOrder sources = .ok order) :
    order.Perm (Fields.keys sources) := by
  have hall := importOrder_adds h
  rw [List.perm_ext_iff_of_nodup hall.ordered.nodup hd]
  exact fun a => ⟨hall.ordered.mem_keys a, hall.found a⟩

end Wireform.Command
