import Mathlib
import Wireform.Codec.Decode
import Wireform.Proofs.Fields

/-!
# Collecting the entries of a map

Entries are collected under the identities of their keys: an identity that was met before gives its
entry a new value, and a new one makes a new entry.
-/

namespace Wireform

namespace IdentityMap

variable {κ ν : Type} {m : IdentityMap κ ν} {k : κ} {v : ν}

theorem keys_insert (m : IdentityMap κ ν) (i : String) (k : κ) (v : ν) :
    Fields.keys (m.insert i k v).slots =
      if i ∈ Fields.keys m.slots then Fields.keys m.slots else Fields.keys m.slots ++ [i] := by
  unfold insert
  split
  · rename_i k' v' h
    rw [Fields.keys_insert]
  · rename_i h
    rw [if_neg (Fields.get?_eq_none_iff.1 h), Fields.keys_append]
    rfl

theorem distinct_insert (h : Fields.Distinct m.slots) (i : String) (k : κ) (v : ν) :
    Fields.Distinct (m.insert i k v).slots := by
  unfold insert
  split
  · exact Fields.nodup_insert h i _
  · rename_i hi
    rw [Fields.get?_eq_none_iff] at hi
    rw [← Fields.insert_of_not_mem hi]
    exact Fields.nodup_insert h i _

/-- A slot comes from before, or its key does and its value is new, or all of it is new. -/
theorem mem_slots_insert (h : Fields.Distinct m.slots) {i : String} {e : String × κ × ν}
    (he : e ∈ (m.insert i k v).slots) :
    e ∈ m.slots ∨ (e.1 = i ∧ e.2.2 = v ∧ ∃ old, (i, e.2.1, old) ∈ m.slots) ∨ e = (i, k, v) := by
  have hd := distinct_insert h i k v
  have hg := hd.get?_eq_some (k := e.1) (a := e.2) he
  unfold insert at hg
  split at hg
  · rename_i k' v' hi
    rw [Fields.get?_insert] at hg
    split at hg
    · rename_i hk
      rw [← Option.some.inj hg]
      exact .inr (.inl ⟨hk, rfl, v', Fields.mem_of_get? hi⟩)
    · exact .inl (Fields.mem_of_get? hg)
  · rw [Fields.get?_append, Option.or_eq_some_iff] at hg
    rcases hg with hg | ⟨-, hg⟩
    · exact .inl (Fields.mem_of_get? hg)
    · exact .inr (.inr (List.mem_singleton.1 (Fields.mem_of_get? hg)))

end IdentityMap

namespace Codec

/-- The slots after some entries, from those before. -/
def collect (m : IdentityMap Value Value) (entries : List (String × Value × Value)) :
    IdentityMap Value Value :=
  entries.foldl (fun m e => m.insert e.1 e.2.1 e.2.2) m

theorem collectEntries_eq (entries : List (String × Value × Value)) :
    collectEntries entries = (collect IdentityMap.empty entries).slots.map Prod.snd := rfl

theorem distinct_empty : Fields.Distinct (IdentityMap.empty : IdentityMap Value Value).slots :=
  List.nodup_nil

theorem distinct_collect {m : IdentityMap Value Value} (h : Fields.Distinct m.slots)
    (entries : List (String × Value × Value)) : Fields.Distinct (collect m entries).slots := by
  induction entries generalizing m with
  | nil => exact h
  | cons e entries ih => exact ih (IdentityMap.distinct_insert h e.1 e.2.1 e.2.2)

theorem mem_keys_collect {m : IdentityMap Value Value} {entries : List (String × Value × Value)}
    {i : String} : i ∈ Fields.keys (collect m entries).slots ↔
      i ∈ Fields.keys m.slots ∨ i ∈ Fields.keys entries := by
  induction entries generalizing m with
  | nil => simp [collect]
  | cons e entries ih =>
    show i ∈ Fields.keys (collect (m.insert e.1 e.2.1 e.2.2) entries).slots ↔ _
    rw [ih, IdentityMap.keys_insert, Fields.keys_cons, List.mem_cons]
    split
    · rename_i he
      constructor
      · rintro (h | h)
        · exact .inl h
        · exact .inr (.inr h)
      · rintro (h | rfl | h)
        · exact .inl h
        · exact .inl he
        · exact .inr h
    · rw [List.mem_append, List.mem_singleton, or_assoc]

/-- The key of a slot is that of an entry with its identity, the value that of some entry. -/
theorem mem_collect {m : IdentityMap Value Value} {entries all : List (String × Value × Value)}
    (hd : Fields.Distinct m.slots) (hs : ∀ e ∈ entries, e ∈ all)
    (hk : ∀ e ∈ m.slots, ∃ v, (e.1, e.2.1, v) ∈ all)
    (hv : ∀ e ∈ m.slots, ∃ i k, (i, k, e.2.2) ∈ all) :
    ∀ e ∈ (collect m entries).slots,
      (∃ v, (e.1, e.2.1, v) ∈ all) ∧ ∃ i k, (i, k, e.2.2) ∈ all := by
  induction entries generalizing m with
  | nil => exact fun e he => ⟨hk e he, hv e he⟩
  | cons x entries ih =>
    have hx := hs x (by simp)
    refine ih (IdentityMap.distinct_insert hd _ _ _) (fun e he => hs e (by simp [he])) ?_ ?_
    · intro e he
      rcases IdentityMap.mem_slots_insert hd he with he | ⟨hi, -, old, he⟩ | rfl
      · exact hk e he
      · rw [hi]
        exact hk _ he
      · exact ⟨x.2.2, hx⟩
    · intro e he
      rcases IdentityMap.mem_slots_insert hd he with he | ⟨-, he, -⟩ | rfl
      · exact hv e he
      · exact ⟨x.1, x.2.1, he ▸ hx⟩
      · exact ⟨x.1, x.2.1, hx⟩

/-- What is collected is a list of entries with different identities; each has a key that was met
with this identity and a value that was met. -/
theorem exists_slots_collectEntries (entries : List (String × Value × Value)) :
    ∃ slots : List (String × Value × Value), collectEntries entries = slots.map Prod.snd ∧
      Fields.Distinct slots ∧
      ∀ e ∈ slots, (∃ v, (e.1, e.2.1, v) ∈ entries) ∧ ∃ i k, (i, k, e.2.2) ∈ entries :=
  ⟨_, collectEntries_eq entries, distinct_collect distinct_empty entries,
    mem_collect distinct_empty (fun _ h => h) (by simp [IdentityMap.empty])
      (by simp [IdentityMap.empty])⟩

theorem collect_of_distinct {m : IdentityMap Value Value} {entries : List (String × Value × Value)}
    (h : Fields.Distinct (m.slots ++ entries)) : (collect m entries).slots = m.slots ++ entries := by
  induction entries generalizing m with
  | nil => simp [collect]
  | cons e entries ih =>
    have hn : Fields.get? m.slots e.1 = none := by
      rw [Fields.get?_eq_none_iff]
      unfold Fields.Distinct at h
      rw [Fields.keys_append, Fields.keys_cons, List.nodup_append] at h
      exact fun hm => h.2.2 _ hm _ (by simp) rfl
    have hi : (m.insert e.1 e.2.1 e.2.2).slots = m.slots ++ [e] := by
      unfold IdentityMap.insert
      rw [hn]
    show (collect (m.insert e.1 e.2.1 e.2.2) entries).slots = _
    rw [ih (by rw [hi, List.append_assoc]; exact h), hi, List.append_assoc]
    rfl

/-- Entries with different identities are all kept. -/
theorem collectEntries_of_distinct {entries : List (String × Value × Value)}
    (h : Fields.Distinct entries) : collectEntries entries = entries.map Prod.snd := by
  rw [collectEntries_eq, collect_of_distinct (by simpa [IdentityMap.empty] using h)]
  rfl

/-- An identity that is met twice makes the map smaller. -/
theorem length_collectEntries {entries : List (String × Value × Value)} :
    (collectEntries entries).length = entries.length ↔ Fields.Distinct entries := by
  constructor
  · intro h
    rw [collectEntries_eq, List.length_map] at h
    have hd := distinct_collect distinct_empty entries
    have hs : ∀ i, i ∈ Fields.keys (collect IdentityMap.empty entries).slots ↔
        i ∈ Fields.keys entries := by
      intro i
      rw [mem_keys_collect]
      simp [IdentityMap.empty]
    have hp : (Fields.keys (collect IdentityMap.empty entries).slots).Perm (Fields.keys entries) :=
      Fields.perm_keys_of_subset (by simp [h]) hd fun i hi => (hs i).1 hi
    exact hp.nodup_iff.1 hd
  · intro h
    rw [collectEntries_of_distinct h, List.length_map]

end Codec

end Wireform
