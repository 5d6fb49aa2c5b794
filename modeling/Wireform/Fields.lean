/-!
# Named lists

`Fields α` is a list of named things in the order in which they were first named. Objects,
records, import tables and declaration tables are all of this form. A name stands at most once in
a list that `insert` built (`nodup_insert`), and naming a thing again replaces it where it stands.
-/

namespace Wireform

/-- Named things in the order in which they were first named. -/
abbrev Fields (α : Type) := List (String × α)

namespace Fields

variable {α β : Type}

def keys (fs : Fields α) : List String := fs.map Prod.fst

def get? (fs : Fields α) (k : String) : Option α := List.lookup k fs

def contains (fs : Fields α) (k : String) : Bool := fs.any (·.1 == k)

/-- Position of the first thing named `k`. -/
def index? (fs : Fields α) (k : String) : Option Nat := fs.findIdx? (·.1 == k)

/-- Replaces the thing named `k` where it stands, else appends. -/
def insert (k : String) (a : α) : Fields α → Fields α
  | [] => [(k, a)]
  | (k', b) :: fs => if k' = k then (k', a) :: fs else (k', b) :: insert k a fs

/-- The first position and the last value of every name. -/
def ofList (l : List (String × α)) : Fields α :=
  l.foldl (fun fs e => insert e.1 e.2 fs) []

/-- No name stands twice. -/
def Distinct (fs : Fields α) : Prop := (keys fs).Nodup

instance (fs : Fields α) : Decidable (Distinct fs) := inferInstanceAs (Decidable (List.Nodup _))

@[simp] theorem keys_nil : keys ([] : Fields α) = [] := rfl

@[simp] theorem keys_cons (e : String × α) (fs : Fields α) : keys (e :: fs) = e.1 :: keys fs := rfl

theorem keys_insert (k : String) (a : α) (fs : Fields α) :
    keys (insert k a fs) = if k ∈ keys fs then keys fs else keys fs ++ [k] := by
  induction fs with
  | nil => simp [insert]
  | cons e fs ih =>
    by_cases h : e.1 = k
    · simp [insert, h]
    · by_cases hk : k ∈ keys fs <;> simp [insert, h, ih, hk, Ne.symm h]

theorem nodup_insert {fs : Fields α} (h : Distinct fs) (k : String) (a : α) :
    Distinct (insert k a fs) := by
  unfold Distinct at *
  rw [keys_insert]
  split
  · exact h
  · rename_i hk
    rw [List.nodup_append]
    refine ⟨h, by simp, ?_⟩
    intro x hx y hy
    rcases List.mem_singleton.1 hy with rfl
    exact fun he => hk (he ▸ hx)

@[simp] theorem get?_nil (k : String) : get? ([] : Fields α) k = none := rfl

theorem get?_cons (e : String × α) (fs : Fields α) (k : String) :
    get? (e :: fs) k = if k = e.1 then some e.2 else get? fs k := by
  obtain ⟨k', a⟩ := e
  by_cases h : k = k'
  · simp [get?, h]
  · have hb : (k == k') = false := beq_false_of_ne h
    simp [get?, List.lookup_cons, hb, h]

theorem get?_insert (fs : Fields α) (k j : String) (a : α) :
    get? (insert k a fs) j = if j = k then some a else get? fs j := by
  induction fs with
  | nil => simp [insert, get?_cons]
  | cons e fs ih =>
    by_cases h : e.1 = k
    · by_cases hj : j = k <;> simp [insert, get?_cons, h, hj]
    · by_cases hj : j = e.1
      · simp [insert, get?_cons, h, hj]
      · simp [insert, get?_cons, h, hj, ih]

end Fields

end Wireform
