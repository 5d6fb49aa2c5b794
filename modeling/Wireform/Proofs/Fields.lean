import Mathlib
import Wireform.Fields

/-!
# Lookup in named lists

What a name stands for is one of the named things (`mem_of_get?`), and the only one if no name
stands twice (`Distinct.get?_eq_some`). A list without repeated names is built by `ofList` as it
stands (`ofList_of_distinct`).
-/

namespace Wireform.Fields

variable {α β : Type} {fs gs : Fields α} {k : String} {a : α}

theorem mem_keys : k ∈ keys fs ↔ ∃ a, (k, a) ∈ fs := by
  simp [keys]

theorem mem_keys_of_mem (h : (k, a) ∈ fs) : k ∈ keys fs := mem_keys.2 ⟨a, h⟩

@[simp] theorem length_keys (fs : Fields α) : (keys fs).length = fs.length := by simp [keys]

@[simp] theorem keys_append (fs gs : Fields α) : keys (fs ++ gs) = keys fs ++ keys gs := by
  simp [keys]

theorem contains_iff : fs.contains k = true ↔ k ∈ keys fs := by
  simp [contains, keys]

theorem mem_of_get? (h : get? fs k = some a) : (k, a) ∈ fs := by
  induction fs with
  | nil => simp at h
  | cons e fs ih =>
    rw [get?_cons] at h
    split at h
    · rename_i hk
      rw [hk, ← Option.some.inj h]
      exact List.mem_cons_self
    · exact List.mem_cons_of_mem _ (ih h)

theorem get?_eq_none_iff : get? fs k = none ↔ k ∉ keys fs := by
  induction fs with
  | nil => simp
  | cons e fs ih =>
    rw [get?_cons, keys_cons, List.mem_cons, not_or]
    split
    · rename_i hk; simp [hk]
    · rename_i hk; simp [hk, ih]

theorem exists_get?_of_mem_keys (h : k ∈ keys fs) : ∃ a, get? fs k = some a := by
  cases hg : get? fs k with
  | none => exact absurd h (get?_eq_none_iff.1 hg)
  | some a => exact ⟨a, rfl⟩

theorem get?_append (fs gs : Fields α) (k : String) :
    get? (fs ++ gs) k = (get? fs k).or (get? gs k) := by
  induction fs with
  | nil => simp
  | cons e fs ih =>
    rw [List.cons_append, get?_cons, get?_cons, ih]
    split <;> simp

theorem get?_map (f : String × α → β) (fs : Fields α) (k : String) :
    get? (fs.map fun e => (e.1, f e)) k = (get? fs k).map fun a => f (k, a) := by
  induction fs with
  | nil => rfl
  | cons e fs ih =>
    rw [List.map_cons, get?_cons, get?_cons, ih]
    split
    · rename_i hk; subst hk; rfl
    · rfl

theorem index?_eq (fs : Fields α) (k : String) : index? fs k = (keys fs).findIdx? (· == k) := by
  rw [index?, keys, List.findIdx?_map]
  rfl

theorem index?_congr {gs : Fields β} (h : keys fs = keys gs) (k : String) :
    index? fs k = index? gs k := by
  rw [index?_eq, index?_eq, h]

theorem index?_append {i : Nat} (h : index? fs k = some i) (gs : Fields α) :
    index? (fs ++ gs) k = some i := by
  unfold index? at h ⊢
  rw [List.findIdx?_append, h, Option.some_or]

theorem index?_eq_some {i : Nat} (h : index? fs k = some i) :
    ∃ a, fs[i]? = some (k, a) ∧ get? fs k = some a := by
  induction fs generalizing i with
  | nil => cases h
  | cons e fs ih =>
    obtain ⟨k', b⟩ := e
    unfold index? at h ih
    rw [List.findIdx?_cons] at h
    rw [get?_cons]
    split at h
    · rename_i hk
      obtain rfl : k' = k := by simpa using hk
      cases h
      exact ⟨b, by simp⟩
    · rename_i hk
      obtain ⟨i, hi, rfl⟩ := Option.map_eq_some_iff.1 h
      obtain ⟨a, ha, hg⟩ := ih hi
      refine ⟨a, by simpa using ha, ?_⟩
      have hne : k ≠ k' := fun he => hk (by simp [he])
      rw [if_neg hne, hg]

namespace Distinct

theorem tail {e : String × α} (h : Distinct (e :: fs)) : Distinct fs :=
  (List.nodup_cons.1 h).2

theorem get?_eq_some (h : Distinct fs) (hm : (k, a) ∈ fs) : get? fs k = some a := by
  induction fs with
  | nil => simp at hm
  | cons e fs ih =>
    rw [get?_cons]
    rcases List.mem_cons.1 hm with rfl | hm
    · simp
    · have hne : k ≠ e.1 := fun he =>
        (List.nodup_cons.1 h).1 (he ▸ mem_keys_of_mem hm)
      rw [if_neg hne, ih h.tail hm]

theorem get?_eq_some_iff (h : Distinct fs) : get? fs k = some a ↔ (k, a) ∈ fs :=
  ⟨mem_of_get?, h.get?_eq_some⟩

theorem congr {gs : Fields β} (h : Distinct fs) (hk : keys gs = keys fs) : Distinct gs := by
  unfold Distinct
  rw [hk]
  exact h

end Distinct

/-- Fields are told by their names, in order, and by what stands under each. -/
theorem eq_of_keys_eq (hk : keys fs = keys gs) (hd : Distinct fs)
    (h : ∀ k ∈ keys fs, get? fs k = get? gs k) : fs = gs := by
  induction fs generalizing gs with
  | nil =>
    cases gs with
    | nil => rfl
    | cons g gs => cases hk
  | cons f fs ih =>
    cases gs with
    | nil => cases hk
    | cons g gs =>
      rw [keys_cons, keys_cons, List.cons.injEq] at hk
      have hhead := h f.1 (by simp)
      rw [get?_cons, get?_cons, if_pos rfl, if_pos hk.1, Option.some.injEq] at hhead
      have hnew : f.1 ∉ keys fs := (List.nodup_cons.1 hd).1
      have htail := ih hk.2 hd.tail fun k hm => by
        have hne : k ≠ f.1 := fun he => hnew (he ▸ hm)
        have hg := h k (by simp [hm])
        rwa [get?_cons, get?_cons, if_neg hne, if_neg (hk.1 ▸ hne)] at hg
      rw [htail, Prod.ext hk.1 hhead]

theorem insert_of_not_mem (h : k ∉ keys fs) : insert k a fs = fs ++ [(k, a)] := by
  induction fs with
  | nil => rfl
  | cons e fs ih =>
    rw [keys_cons, List.mem_cons, not_or] at h
    simp only [insert, if_neg (Ne.symm h.1), ih h.2, List.cons_append]

theorem foldl_insert_of_distinct (fs l : Fields α) (h : Distinct (fs ++ l)) :
    l.foldl (fun fs e => insert e.1 e.2 fs) fs = fs ++ l := by
  induction l generalizing fs with
  | nil => simp
  | cons e l ih =>
    have hk : e.1 ∉ keys fs := by
      unfold Distinct at h
      rw [keys_append, keys_cons, List.nodup_append] at h
      exact fun hm => h.2.2 e.1 hm e.1 (by simp) rfl
    rw [List.foldl_cons, insert_of_not_mem hk, ih _ (by simpa using h)]
    simp

theorem ofList_of_distinct (h : Distinct fs) : ofList fs = fs :=
  foldl_insert_of_distinct [] fs h

theorem distinct_ofList (l : List (String × α)) : Distinct (ofList l) := by
  suffices ∀ fs : Fields α, Distinct fs → Distinct (l.foldl (fun fs e => insert e.1 e.2 fs) fs) from
    this [] List.nodup_nil
  induction l with
  | nil => exact fun fs h => h
  | cons e l ih => exact fun fs h => ih _ (nodup_insert h e.1 e.2)

/-- A list inserted into another overrides it. -/
theorem get?_foldl_insert {l : Fields α} (h : Distinct l) (fs : Fields α) (k : String) :
    get? (l.foldl (fun fs e => insert e.1 e.2 fs) fs) k = (get? l k).or (get? fs k) := by
  induction l generalizing fs with
  | nil => rfl
  | cons e l ih =>
    rw [List.foldl_cons, ih h.tail, get?_insert, get?_cons]
    split
    · rename_i hk
      have hn : get? l k = none :=
        get?_eq_none_iff.2 fun hm => (List.nodup_cons.1 h).1 (hk ▸ hm)
      rw [hn, Option.none_or, Option.some_or]
    · rfl

theorem mem_keys_insert {k' : String} : k' ∈ keys (insert k a fs) ↔ k' = k ∨ k' ∈ keys fs := by
  rw [keys_insert]
  split
  · rename_i hk
    exact ⟨.inr, fun h => h.elim (fun he => he ▸ hk) id⟩
  · rw [List.mem_append, List.mem_singleton, or_comm]

theorem mem_keys_foldl_insert (l : Fields α) :
    k ∈ keys (l.foldl (fun fs e => insert e.1 e.2 fs) fs) ↔ k ∈ keys fs ∨ k ∈ keys l := by
  induction l generalizing fs with
  | nil => simp
  | cons e l ih =>
    rw [List.foldl_cons, ih, mem_keys_insert, keys_cons, List.mem_cons]
    tauto

theorem mem_keys_ofList {l : List (String × α)} : k ∈ keys (ofList l) ↔ k ∈ keys l := by
  rw [ofList, mem_keys_foldl_insert]
  simp

theorem mem_of_mem_insert {e : String × α} (h : e ∈ insert k a fs) : e = (k, a) ∨ e ∈ fs := by
  induction fs with
  | nil => exact .inl (List.mem_singleton.1 h)
  | cons e' fs ih =>
    simp only [insert] at h
    split at h
    · rename_i hk
      rcases List.mem_cons.1 h with rfl | h
      · exact .inl (by rw [hk])
      · exact .inr (List.mem_cons_of_mem _ h)
    · rcases List.mem_cons.1 h with rfl | h
      · exact .inr List.mem_cons_self
      · exact (ih h).imp id (List.mem_cons_of_mem _)

theorem mem_of_mem_ofList {l : List (String × α)} {e : String × α} (h : e ∈ ofList l) : e ∈ l := by
  suffices ∀ fs : Fields α, e ∈ l.foldl (fun fs e => insert e.1 e.2 fs) fs → e ∈ fs ∨ e ∈ l from
    (this [] h).resolve_left List.not_mem_nil
  clear h
  induction l with
  | nil => exact fun fs h => .inl h
  | cons e' l ih =>
    intro fs h
    rcases ih _ h with h | h
    · rcases mem_of_mem_insert h with rfl | h
      · exact .inr List.mem_cons_self
      · exact .inl h
    · exact .inr (List.mem_cons_of_mem _ h)

/-- A list with as many things as there are names, all of them found, has exactly these names. -/
theorem perm_keys_of_subset {names : List String} (hl : fs.length = names.length)
    (hn : names.Nodup) (hs : ∀ n ∈ names, n ∈ keys fs) : names.Perm (keys fs) :=
  (hn.subperm hs).perm_of_length_le (by simp [hl])

end Wireform.Fields
