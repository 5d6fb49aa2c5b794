import Mathlib
import Wireform.Emit.Reach
import Wireform.Proofs.Module.Closed

/-!
# What the rounds of reachability find

`reached` goes on for as many rounds as there are declarations. Only declarations lead anywhere, and a
round that finds one leaves fewer of them to be found, so nothing is missed: `holds` is reachability by
value, and `isRecursiveAlias` tells of an alias that comes back to itself through aliases.
-/

namespace Wireform.Emit

open Relation (ReflTransGen TransGen)

/-! ### Rounds -/

section

variable {next : String → List String} {rounds : Nat} {frontier seen : List String} {x : String}

theorem mem_newNames {names : List String} : x ∈ newNames seen names ↔ x ∈ names ∧ x ∉ seen := by
  simp [newNames]

theorem subset_reachedFrom (next : String → List String) (rounds : Nat) (frontier seen : List String) :
    seen ⊆ reachedFrom next rounds frontier seen := by
  induction rounds generalizing frontier seen with
  | zero => exact List.Subset.refl seen
  | succ rounds ih =>
    rw [reachedFrom]
    split
    · exact List.Subset.refl seen
    · exact List.Subset.trans (List.subset_append_left _ _) (ih _ _)

theorem mem_reachedFrom_cases (h : x ∈ reachedFrom next rounds frontier seen) :
    x ∈ seen ∨ ∃ a ∈ frontier, ReflTransGen (fun a b => b ∈ next a) a x := by
  induction rounds generalizing frontier seen with
  | zero => exact .inl h
  | succ rounds ih =>
    rw [reachedFrom] at h
    split at h
    · exact .inl h
    have hfresh : ∀ y ∈ newNames seen (frontier.flatMap next),
        ∃ a ∈ frontier, ReflTransGen (fun a b => b ∈ next a) a y := by
      intro y hy
      obtain ⟨a, ha, hay⟩ := List.mem_flatMap.1 (mem_newNames.1 hy).1
      exact ⟨a, ha, .single hay⟩
    rcases ih h with h | ⟨b, hb, h⟩
    · rcases List.mem_append.1 h with h | h
      · exact .inl h
      · exact .inr (hfresh x h)
    · obtain ⟨a, ha, hab⟩ := hfresh b hb
      exact .inr ⟨a, ha, hab.trans h⟩

/-- With a round for each name that is still to be found, and one more if the frontier leads anywhere,
the result is closed. -/
theorem next_subset_reachedFrom {names : Finset String} (hnext : ∀ a ∉ names, next a = [])
    (hseen : ∀ a ∈ seen, a ∉ frontier → next a ⊆ seen)
    (hr : (names \ seen.toFinset).card + (if ∃ a ∈ frontier, a ∈ names then 1 else 0) ≤ rounds) :
    ∀ a ∈ reachedFrom next rounds frontier seen, next a ⊆ reachedFrom next rounds frontier seen := by
  induction rounds generalizing frontier seen with
  | zero =>
    -- No round is left, so the frontier leads nowhere.
    have hf : ¬ ∃ a ∈ frontier, a ∈ names := by
      intro hf
      rw [if_pos hf] at hr
      omega
    intro a ha
    by_cases hin : a ∈ frontier
    · rw [hnext a fun hn => hf ⟨a, hin, hn⟩]
      exact List.nil_subset _
    · exact hseen a ha hin
  | succ rounds ih =>
    rw [reachedFrom]
    split
    · rename_i hnil
      intro a ha b hb
      by_cases hin : a ∈ frontier
      · by_contra hs
        have hb : b ∈ newNames seen (frontier.flatMap next) :=
          mem_newNames.2 ⟨List.mem_flatMap.2 ⟨a, hin, hb⟩, hs⟩
        rw [hnil] at hb
        cases hb
      · exact hseen a ha hin hb
    · rename_i hne
      set fresh := newNames seen (frontier.flatMap next)
      have hnew : ∀ b ∈ fresh, b ∉ seen := fun b hb => (mem_newNames.1 hb).2
      refine ih ?_ ?_
      · intro a ha hin b hb
        rcases List.mem_append.1 ha with ha | ha
        · by_cases hf : a ∈ frontier
          · by_cases hs : b ∈ seen
            · exact List.mem_append_left _ hs
            · exact List.mem_append_right _ (mem_newNames.2 ⟨List.mem_flatMap.2 ⟨a, hf, hb⟩, hs⟩)
          · exact List.mem_append_left _ (hseen a ha hf hb)
        · exact absurd ha hin
      · -- The frontier led to something, so a round was counted for it.
        have hf : ∃ a ∈ frontier, a ∈ names := by
          by_contra hf
          refine hne (List.eq_nil_iff_forall_not_mem.2 fun b hb => ?_)
          obtain ⟨a, ha, hab⟩ := List.mem_flatMap.1 (mem_newNames.1 hb).1
          rw [hnext a fun hn => hf ⟨a, ha, hn⟩] at hab
          cases hab
        rw [if_pos hf] at hr
        have hsub : names \ (seen ++ fresh).toFinset ⊆ names \ seen.toFinset := by
          rw [List.toFinset_append]
          exact Finset.sdiff_subset_sdiff (Finset.Subset.refl _) Finset.subset_union_left
        by_cases hg : ∃ b ∈ fresh, b ∈ names
        · obtain ⟨b, hb, hn⟩ := hg
          have hlt : (names \ (seen ++ fresh).toFinset).card < (names \ seen.toFinset).card := by
            refine Finset.card_lt_card (Finset.ssubset_iff_subset_ne.2 ⟨hsub, fun he => ?_⟩)
            have hmem : b ∈ names \ seen.toFinset :=
              Finset.mem_sdiff.2 ⟨hn, by simpa using hnew b hb⟩
            rw [← he] at hmem
            simp [hb] at hmem
          split <;> omega
        · have hle := Finset.card_le_card hsub
          rw [if_neg hg]
          omega

/-- What can be reached from some name of `start`. -/
theorem mem_reached_iff {names : Finset String} (hnext : ∀ a ∉ names, next a = []) {count : Nat}
    (hc : names.card ≤ count) {start : List String} :
    x ∈ reached count next start ↔ ∃ a ∈ start, ReflTransGen (fun a b => b ∈ next a) a x := by
  constructor
  · intro h
    rcases mem_reachedFrom_cases h with h | h
    · exact ⟨x, h, .refl⟩
    · exact h
  · rintro ⟨a, ha, h⟩
    have hr : (names \ start.toFinset).card + (if ∃ a ∈ start, a ∈ names then 1 else 0) ≤ count := by
      by_cases hf : ∃ a ∈ start, a ∈ names
      · obtain ⟨b, hb, hn⟩ := hf
        have hlt : (names \ start.toFinset).card < names.card := by
          refine Finset.card_lt_card (Finset.ssubset_iff_subset_ne.2 ⟨Finset.sdiff_subset, fun he => ?_⟩)
          rw [← he] at hn
          simp [hb] at hn
        split <;> omega
      · have hle := Finset.card_le_card (Finset.sdiff_subset : names \ start.toFinset ⊆ names)
        rw [if_neg hf]
        omega
    have hclosed := next_subset_reachedFrom hnext (fun b hb hn => absurd hb hn) hr
    induction h with
    | refl => exact subset_reachedFrom _ _ _ _ ha
    | tail _ hb ih => exact hclosed _ ih hb

end

/-! ### References in a type -/

theorem heldByFields_eq (fields : Fields Ty) : heldByFields fields = fields.flatMap fun f => heldBy f.2 := by
  induction fields with
  | nil => rfl
  | cons f fields ih => rw [heldByFields, ih, List.flatMap_cons]

theorem heldByVariants_eq (variants : List Variant) :
    heldByVariants variants = variants.flatMap fun v => heldByFields v.2 := by
  induction variants with
  | nil => rfl
  | cons v variants ih => rw [heldByVariants, ih, List.flatMap_cons]

theorem mentionedByFields_eq (fields : Fields Ty) :
    mentionedByFields fields = fields.flatMap fun f => mentionedBy f.2 := by
  induction fields with
  | nil => rfl
  | cons f fields ih => rw [mentionedByFields, ih, List.flatMap_cons]

theorem mentionedByFields_subset {fields : Fields Ty} {names : List String}
    (h : ∀ f ∈ fields, mentionedBy f.2 ⊆ names) : mentionedByFields fields ⊆ names := by
  intro n hn
  rw [mentionedByFields_eq] at hn
  obtain ⟨f, hf, hn⟩ := List.mem_flatMap.1 hn
  exact h f hf hn

theorem mentionedByVariants_eq (variants : List Variant) :
    mentionedByVariants variants = variants.flatMap fun v => mentionedByFields v.2 := by
  induction variants with
  | nil => rfl
  | cons v variants ih => rw [mentionedByVariants, ih, List.flatMap_cons]

/-- A type mentions what its parts do, unless it is a reference. -/
theorem mem_mentionedBy {t : Ty} {n : String} :
    n ∈ mentionedBy t ↔ (∃ slot, t = .ref ⟨none, n, slot⟩) ∨ ∃ s ∈ t.parts, n ∈ mentionedBy s := by
  cases t with
  | ref r =>
    obtain ⟨via, name, slot⟩ := r
    cases via <;> simp [mentionedBy, Ty.parts, eq_comm]
  | record fields =>
    have he : mentionedBy (.record fields) = (Ty.record fields).parts.flatMap mentionedBy := by
      rw [mentionedBy, mentionedByFields_eq, Ty.parts, List.flatMap_map]
    simp [he]
  | sum variants =>
    have he : mentionedBy (.sum variants) = (Ty.sum variants).parts.flatMap mentionedBy := by
      simp only [mentionedBy, mentionedByVariants_eq, mentionedByFields_eq, Ty.parts,
        List.flatMap_assoc, List.flatMap_map]
    simp [he]
  | _ => simp [mentionedBy, Ty.parts]

/-- What is held by value is held by a part, unless it is the reference itself. -/
theorem of_mem_heldBy {t : Ty} {n : String} (h : n ∈ heldBy t) :
    (∃ slot, t = .ref ⟨none, n, slot⟩) ∨ ∃ s ∈ t.parts, n ∈ heldBy s := by
  cases t with
  | ref r =>
    obtain ⟨via, name, slot⟩ := r
    cases via with
    | none => exact .inl ⟨slot, by rw [List.mem_singleton.1 h]⟩
    | some i => cases h
  | optional t | annot doc t => exact .inr ⟨t, by simp [Ty.parts], h⟩
  | record fields =>
    rw [heldBy, heldByFields_eq] at h
    obtain ⟨f, hf, h⟩ := List.mem_flatMap.1 h
    exact .inr ⟨f.2, List.mem_map_of_mem hf, h⟩
  | sum variants =>
    rw [heldBy, heldByVariants_eq] at h
    obtain ⟨v, hv, h⟩ := List.mem_flatMap.1 h
    rw [heldByFields_eq] at h
    obtain ⟨f, hf, h⟩ := List.mem_flatMap.1 h
    exact .inr ⟨f.2, List.mem_flatMap.2 ⟨v, hv, List.mem_map_of_mem hf⟩, h⟩
  | _ => cases h

theorem heldBy_subset_mentionedBy (t : Ty) : heldBy t ⊆ mentionedBy t := by
  induction t using Ty.parts_induction with
  | _ t ih =>
    intro n hn
    rcases of_mem_heldBy hn with h | ⟨s, hs, h⟩
    · exact mem_mentionedBy.2 (.inl h)
    · exact mem_mentionedBy.2 (.inr ⟨s, hs, ih s hs h⟩)

theorem heldByFields_subset_mentionedByFields (fields : Fields Ty) :
    heldByFields fields ⊆ mentionedByFields fields :=
  heldBy_subset_mentionedBy (.record fields)

/-! ### References in a module -/

variable {m : Module} {name source target : String}

theorem card_keys_le (m : Module) : (Fields.keys m.decls).toFinset.card ≤ m.decls.length := by
  have h := List.toFinset_card_le (Fields.keys m.decls)
  rwa [Fields.keys, List.length_map] at h

theorem get?_eq_none_of_not_mem (h : name ∉ (Fields.keys m.decls).toFinset) : m.get? name = none :=
  Fields.get?_eq_none_iff.2 (by simpa using h)

/-- The declaration `source` holds `target` by value. -/
def Holds (m : Module) : String → String → Prop := ReflTransGen fun a b => b ∈ heldByName m a

/-- The alias `source` mentions `target`, directly or through aliases. -/
def Mentions (m : Module) : String → String → Prop := TransGen fun a b => b ∈ mentionedByAlias m a

theorem holds_iff : holds m source target = true ↔ Holds m source target := by
  have hnext : ∀ a ∉ (Fields.keys m.decls).toFinset, heldByName m a = [] := fun a ha => by
    rw [heldByName, get?_eq_none_of_not_mem ha]
  rw [holds, List.contains_iff_mem, mem_reached_iff hnext (card_keys_le m)]
  simp [Holds]

theorem isRecursiveAlias_iff : isRecursiveAlias m name = true ↔ Mentions m name name := by
  have hnext : ∀ a ∉ (Fields.keys m.decls).toFinset, mentionedByAlias m a = [] := fun a ha => by
    rw [mentionedByAlias, get?_eq_none_of_not_mem ha]
  rw [isRecursiveAlias, List.contains_iff_mem, mem_reached_iff hnext (card_keys_le m), Mentions,
    Relation.TransGen.head'_iff]
  simp

/-- What a type mentions is declared, if its references lead somewhere. -/
theorem mentionedBy_subset_keys {t : Ty} (hg : m.Grounds t) : mentionedBy t ⊆ Fields.keys m.decls := by
  induction t using Ty.parts_induction with
  | _ t ih =>
    intro n hn
    rcases mem_mentionedBy.1 hn with ⟨slot, rfl⟩ | ⟨s, hs, h⟩
    · obtain ⟨owner, decl, ho, hd, -⟩ := hg _ .refl
      cases ho
      exact Fields.mem_keys_of_mem (Fields.mem_of_get? hd)
    · exact ih s hs (hg.part hs) h

theorem mentionedBy_subset_of_mem_typesOf (hm : m.Closed) {decl : Decl} (hd : m.get? name = some decl)
    {t : Ty} (ht : t ∈ m.typesOf decl) : mentionedBy t ⊆ Fields.keys m.decls :=
  mentionedBy_subset_keys (Module.grounds_of_spelled (hm.complete.spelled_of_mem_typesOf hd ht))

end Wireform.Emit
