import Mathlib
import Wireform.Proofs.Codec.Scalar

/-!
# 64-bit integers as decimal text

A spelling of an integer is a sign and a list of digits. Its value is defined by the places of the digits,
without a bound on their number. The readers of 64-bit integers accept exactly the spellings whose value
is in range, and what is written is the only spelling of its value that has no superfluous zero and no
minus sign on zero.
-/

namespace Wireform

namespace Text

/-- An integer as it is spelled, most significant digit first. -/
structure Spelling where
  negative : Bool
  digits : List (Fin 10)
  nonempty : digits ≠ []

namespace Spelling

def digit (d : Fin 10) : Char := Nat.digitChar d

/-- The number of a list of digits, the last of which counts units. -/
def number (ds : List (Fin 10)) : Nat := Nat.ofDigits 10 (ds.reverse.map Fin.val)

def text (x : Spelling) : String :=
  (if x.negative then "-" else "") ++ String.ofList (x.digits.map digit)

def value (x : Spelling) : Int := if x.negative then -(number x.digits : Int) else number x.digits

/-- A zero stands first only alone and without a sign. -/
def Canonical (x : Spelling) : Prop := x.digits.head? = some 0 → x.digits = [0] ∧ x.negative = false

end Spelling

open Spelling

variable {ds : List (Fin 10)} {cs : List Char} {n : Nat} {k : Int}

/-! ### Digits -/

theorem number_snoc (ds : List (Fin 10)) (d : Fin 10) : number (ds ++ [d]) = 10 * number ds + d := by
  simp [number, Nat.ofDigits_cons, Nat.add_comm]

theorem toNat_digit (d : Fin 10) : (digit d).toNat = 48 + d := Nat.toNat_digitChar_of_lt_ten d.isLt

theorem isDigit_digit (d : Fin 10) : isDigit (digit d) = true := by
  revert d
  decide

theorem exists_digit {c : Char} (h : isDigit c = true) : ∃ d, digit d = c := by
  have hc : 48 ≤ c.toNat ∧ c.toNat ≤ 57 := by
    simpa [isDigit, Char.le_def, UInt32.le_iff_toNat_le] using h
  refine ⟨⟨c.toNat - 48, by omega⟩, Char.toNat_inj.1 ?_⟩
  rw [toNat_digit]
  show 48 + (c.toNat - 48) = c.toNat
  omega

theorem digitsValue_map_digit (ds : List (Fin 10)) : digitsValue (ds.map digit) = number ds := by
  induction ds using List.reverseRecOn with
  | nil => rfl
  | append_singleton ds d ih =>
    have hd : digitsValue [digit d] = d := by
      show 10 * 0 + digitValue (digit d) = d
      rw [digitValue, toNat_digit]
      show 10 * 0 + (48 + d.val - 48) = d.val
      omega
    rw [List.map_append, List.map_singleton, digitsValue_append, ih, hd, number_snoc, Nat.mul_comm]
    rfl

theorem natural?_eq_some :
    natural? cs = some n ↔ ∃ ds, ds ≠ [] ∧ cs = ds.map digit ∧ number ds = n := by
  constructor
  · intro h
    unfold natural? at h
    split at h
    · rename_i hcs
      rw [Bool.and_eq_true, List.all_eq_true] at hcs
      have hrange : cs ∈ Set.range (List.map digit) := by
        rw [Set.range_list_map]
        exact fun c hc => exists_digit (hcs.2 c hc)
      obtain ⟨ds, rfl⟩ := hrange
      refine ⟨ds, ?_, rfl, ?_⟩
      · rintro rfl
        simp at hcs
      · rw [← digitsValue_map_digit]
        exact Option.some.inj h
    · cases h
  · rintro ⟨ds, hne, rfl, rfl⟩
    have hall : (ds.map digit).all isDigit = true := by simp [isDigit_digit]
    rw [natural?, hall, digitsValue_map_digit]
    simp [hne]

/-! ### Spellings -/

theorem toList_text (x : Spelling) :
    x.text.toList = (if x.negative then ['-'] else []) ++ x.digits.map digit := by
  rw [text, String.toList_append, String.toList_ofList]
  cases x.negative <;> rfl

theorem integer?_dash (cs : List Char) :
    integer? ('-' :: cs) = (natural? cs).map fun n : Nat => -(n : Int) := by
  rw [integer?]
  cases natural? cs <;> rfl

theorem integer?_of_ne_dash (h : cs.head? ≠ some '-') :
    integer? cs = (natural? cs).map fun n : Nat => (n : Int) := by
  unfold integer?
  split
  · exact absurd rfl h
  · cases natural? cs <;> rfl

/-- The texts that are read as an integer are the spellings of it. -/
theorem integer?_eq_some : integer? cs = some k ↔ ∃ x : Spelling, x.text.toList = cs ∧ x.value = k := by
  constructor
  · intro h
    by_cases hdash : cs.head? = some '-'
    · obtain ⟨rest, rfl⟩ := List.head?_eq_some_iff.1 hdash
      rw [integer?_dash] at h
      obtain ⟨n, hn, rfl⟩ := Option.map_eq_some_iff.1 h
      obtain ⟨ds, hne, rfl, rfl⟩ := natural?_eq_some.1 hn
      exact ⟨⟨true, ds, hne⟩, by simp [toList_text], rfl⟩
    · rw [integer?_of_ne_dash hdash] at h
      obtain ⟨n, hn, rfl⟩ := Option.map_eq_some_iff.1 h
      obtain ⟨ds, hne, rfl, rfl⟩ := natural?_eq_some.1 hn
      exact ⟨⟨false, ds, hne⟩, by simp [toList_text], rfl⟩
  · rintro ⟨⟨negative, ds, hne⟩, rfl, rfl⟩
    have hn : natural? (ds.map digit) = some (number ds) := natural?_eq_some.2 ⟨ds, hne, rfl, rfl⟩
    rw [toList_text]
    cases negative with
    | true =>
      show integer? ('-' :: ds.map digit) = some (-(number ds : Int))
      rw [integer?_dash, hn, Option.map_some]
    | false =>
      show integer? (ds.map digit) = some (number ds : Int)
      have hdash : (ds.map digit).head? ≠ some '-' := by
        intro h
        obtain ⟨d, -, hd⟩ := List.mem_map.1 (List.mem_of_head? h)
        exact absurd (hd ▸ isDigit_digit d) (by decide)
      rw [integer?_of_ne_dash hdash, hn, Option.map_some]

theorem natural?_eq_some_spelling :
    natural? cs = some n ↔
      ∃ x : Spelling, x.text.toList = cs ∧ x.negative = false ∧ x.value = n := by
  rw [natural?_eq_some]
  constructor
  · rintro ⟨ds, hne, rfl, rfl⟩
    exact ⟨⟨false, ds, hne⟩, by simp [toList_text], rfl, rfl⟩
  · rintro ⟨⟨negative, ds, hne⟩, rfl, rfl, hv⟩
    exact ⟨ds, hne, by simp [toList_text], Int.ofNat.inj hv⟩

theorem value_eq_of_text_eq {x y : Spelling} (h : x.text = y.text) : x.value = y.value := by
  have hx := integer?_eq_some.2 ⟨x, rfl, rfl⟩
  rw [h, integer?_eq_some.2 ⟨y, rfl, rfl⟩] at hx
  exact (Option.some.inj hx).symm

/-! ### Canonical spellings -/

theorem number_pos (hne : ds ≠ []) (hhead : ds.head? ≠ some 0) : 0 < number ds := by
  induction ds using List.reverseRecOn with
  | nil => exact absurd rfl hne
  | append_singleton ds d ih =>
    rw [number_snoc]
    by_cases hds : ds = []
    · subst hds
      have hd : d ≠ 0 := fun h => hhead (by rw [h]; rfl)
      have := Fin.pos_iff_ne_zero.2 hd
      omega
    · rw [List.head?_append_of_ne_nil _ hds] at hhead
      have := ih hds hhead
      omega

theorem toDigits_number (hne : ds ≠ []) (hz : ds.head? = some 0 → ds = [0]) :
    Nat.toDigits 10 (number ds) = ds.map digit := by
  induction ds using List.reverseRecOn with
  | nil => exact absurd rfl hne
  | append_singleton ds d ih =>
    have hd := d.isLt
    rw [number_snoc, List.map_append, List.map_singleton]
    by_cases hds : ds = []
    · subst hds
      have h0 : 10 * number [] + d = (d : Nat) := by simp [number]
      rw [h0, Nat.toDigits_of_lt_base hd]
      rfl
    · have hhead : ds.head? ≠ some 0 := by
        intro h0
        have hone := congrArg List.length (hz (by rw [List.head?_append_of_ne_nil _ hds, h0]))
        simp [hds] at hone
      have hpos := number_pos hds hhead
      have hdiv : (10 * number ds + d) / 10 = number ds := by omega
      have hmod : (10 * number ds + d) % 10 = d := by omega
      rw [Nat.toDigits_of_base_le (by decide) (by omega), hdiv, hmod, ih hds fun h => absurd h hhead]
      rfl

theorem exists_digits (n : Nat) :
    ∃ ds, ds ≠ [] ∧ (ds.head? = some 0 → ds = [0]) ∧ number ds = n := by
  induction n using Nat.strong_induction_on with
  | _ n ih =>
    by_cases hn : n < 10
    · refine ⟨[⟨n, hn⟩], by simp, fun h => ?_, by simp [number]⟩
      rw [List.head?_cons, Option.some.injEq] at h
      rw [h]
    · obtain ⟨ds, hne, hz, hnum⟩ := ih (n / 10) (by omega)
      refine ⟨ds ++ [⟨n % 10, by omega⟩], by simp, fun h => ?_, ?_⟩
      · rw [List.head?_append_of_ne_nil _ hne] at h
        rw [hz h] at hnum
        simp [number] at hnum
        omega
      · rw [number_snoc, hnum]
        show 10 * (n / 10) + n % 10 = n
        omega

theorem Spelling.Canonical.value_neg {x : Spelling} (h : x.Canonical) (hn : x.negative = true) :
    x.value < 0 := by
  have hhead : x.digits.head? ≠ some 0 := by
    intro hz
    rw [(h hz).2] at hn
    cases hn
  have := Text.number_pos x.nonempty hhead
  rw [value, hn, if_pos rfl]
  omega

/-- Every integer is written in its canonical spelling. -/
theorem text_of_canonical {x : Spelling} (h : x.Canonical) : x.text = ofInt x.value := by
  have htext : String.ofList (x.digits.map digit) = ofNat (number x.digits) := by
    rw [ofNat, toDigits_number x.nonempty fun hz => (h hz).1]
  by_cases hn : x.negative = true
  · have hneg := h.value_neg hn
    rw [value, hn, if_pos rfl] at hneg
    obtain ⟨n, hnum⟩ : ∃ n, number x.digits = n + 1 := ⟨number x.digits - 1, by omega⟩
    rw [text, value, htext, hn, hnum]
    rfl
  · rw [text, value, htext, if_neg hn, if_neg hn]
    exact String.empty_append

theorem exists_canonical (k : Int) : ∃ x : Spelling, x.Canonical ∧ x.value = k := by
  obtain ⟨ds, hne, hz, hnum⟩ := exists_digits k.natAbs
  by_cases hk : k < 0
  · refine ⟨⟨true, ds, hne⟩, fun h => ?_, ?_⟩
    · rw [hz h] at hnum
      simp [number] at hnum
      omega
    · show -(number ds : Int) = k
      omega
  · refine ⟨⟨false, ds, hne⟩, fun h => ⟨hz h, rfl⟩, ?_⟩
    show (number ds : Int) = k
    omega

end Text

namespace Codec

open Text (Spelling)

/-- The readers and the writer of a type of integers agree with spelling: `signs` is whether a minus sign
may stand first, and the integers of the type are those from `low` on and below `high`. -/
structure Decimals {ι : Type} (toInt : ι → Int) (wrap : ι → Value) (read : Json → Option ι) (signs : Bool)
    (low high : Int) : Prop where
  accepted (s : String) : (∃ n, read (.str s) = some n) ↔
    ∃ x : Spelling, x.text = s ∧ (x.negative = true → signs = true) ∧ low ≤ x.value ∧ x.value < high
  value (s : String) (n : ι) : read (.str s) = some n ↔
    ∃ x : Spelling, x.text = s ∧ (x.negative = true → signs = true) ∧ x.value = toInt n
  bare (k : Int) : (∃ n, read (.ofInt k) = some n) ↔ low ≤ k ∧ k < high
  bareValue (k : Int) (n : ι) : read (.ofInt k) = some n ↔ k = toInt n
  alike (k : Int) : read (.ofInt k) = read (.str (Text.ofInt k))
  written (n : ι) : ∃ s, encode (wrap n) = .ok (.str s) ∧
    ∀ s', (∃ x : Spelling, x.text = s' ∧ x.Canonical) ∧ read (.str s') = some n ↔ s' = s

section

variable {ι : Type} {toInt : ι → Int} {wrap : ι → Value} {read : Json → Option ι} {signs : Bool}
  {low high : Int}

/-- The range is that of the type, so acceptance follows from exactness. -/
theorem Decimals.intro (hrange : ∀ k, (∃ n, toInt n = k) ↔ low ≤ k ∧ k < high)
    (hsigns : signs = false → 0 ≤ low)
    (hexact : ∀ s n, read (.str s) = some n ↔
      ∃ x : Spelling, x.text = s ∧ (x.negative = true → signs = true) ∧ x.value = toInt n)
    (hbare : ∀ k n, read (.ofInt k) = some n ↔ k = toInt n)
    (hwrite : ∀ n, encode (wrap n) = .ok (.str (Text.ofInt (toInt n)))) :
    Decimals toInt wrap read signs low high := by
  -- a canonical spelling has a sign only if its value is negative, and then the type has signs
  have hsign : ∀ (x : Spelling) (n : ι), x.Canonical → x.value = toInt n →
      x.negative = true → signs = true := by
    intro x n hx hv hneg
    by_contra hs
    have hlow := hsigns (Bool.eq_false_iff.2 hs)
    have hn := (hrange (toInt n)).1 ⟨n, rfl⟩
    have := hx.value_neg hneg
    omega
  refine ⟨fun s => ?_, hexact, fun k => ?_, hbare, fun k => Option.ext fun n => ?_, fun n => ?_⟩
  · constructor
    · rintro ⟨n, hn⟩
      obtain ⟨x, hx, hs, hv⟩ := (hexact s n).1 hn
      exact ⟨x, hx, hs, hv ▸ (hrange _).1 ⟨n, rfl⟩⟩
    · rintro ⟨x, hx, hs, hlow, hhigh⟩
      obtain ⟨n, hn⟩ := (hrange _).2 ⟨hlow, hhigh⟩
      exact ⟨n, (hexact s n).2 ⟨x, hx, hs, hn.symm⟩⟩
  · simp only [hbare, ← hrange, eq_comm]
  · rw [hbare, hexact]
    obtain ⟨x, hx, rfl⟩ := Text.exists_canonical k
    constructor
    · intro hn
      exact ⟨x, Text.text_of_canonical hx, hsign x n hx hn, hn⟩
    · rintro ⟨y, hy, -, hv⟩
      rw [← Text.text_of_canonical hx] at hy
      rw [← hv, Text.value_eq_of_text_eq hy]
  · refine ⟨_, hwrite n, fun s' => ?_⟩
    constructor
    · rintro ⟨⟨x, rfl, hx⟩, hread⟩
      obtain ⟨y, hy, -, hv⟩ := (hexact _ n).1 hread
      rw [Text.text_of_canonical hx, ← hv, Text.value_eq_of_text_eq hy]
    · rintro rfl
      obtain ⟨x, hx, hv⟩ := Text.exists_canonical (toInt n)
      have htext : x.text = Text.ofInt (toInt n) := hv ▸ Text.text_of_canonical hx
      exact ⟨⟨x, htext, hx⟩, (hexact _ n).2 ⟨x, htext, hsign x n hx hv, hv⟩⟩

end

theorem int64?_eq_some {k : Int} {n : Int64} : int64? k = some n ↔ k = n.toInt := by
  constructor
  · intro h
    unfold int64? at h
    split at h
    · rename_i hk
      obtain rfl := Option.some.inj h
      exact (Int64.toInt_ofInt_of_le (by omega) (by omega)).symm
    · cases h
  · rintro rfl
    exact int64?_toInt n

theorem uint64?_eq_some {k : Int} {n : UInt64} : uint64? k = some n ↔ k = n.toNat := by
  constructor
  · intro h
    unfold uint64? at h
    split at h
    · rename_i hk
      obtain rfl := Option.some.inj h
      rw [UInt64.toNat_ofNat_of_lt' (show k.toNat < 2 ^ 64 by omega)]
      omega
    · cases h
  · rintro rfl
    exact uint64?_toNat n

theorem readI64?_str {s : String} {n : Int64} :
    readI64? (.str s) = some n ↔ ∃ x : Spelling, x.text = s ∧ x.value = n.toInt := by
  simp only [readI64?, Option.bind_eq_some_iff, Text.integer?_eq_some, int64?_eq_some, String.toList_inj]
  constructor
  · rintro ⟨k, ⟨x, hx, rfl⟩, hk⟩
    exact ⟨x, hx, hk⟩
  · rintro ⟨x, hx, hv⟩
    exact ⟨_, ⟨x, hx, rfl⟩, hv⟩

theorem readU64?_str {s : String} {n : UInt64} :
    readU64? (.str s) = some n ↔
      ∃ x : Spelling, x.text = s ∧ x.negative = false ∧ x.value = n.toNat := by
  simp only [readU64?, Option.bind_eq_some_iff, Text.natural?_eq_some_spelling, uint64?_eq_some,
    String.toList_inj]
  constructor
  · rintro ⟨k, ⟨x, hx, hs, hk⟩, hv⟩
    exact ⟨x, hx, hs, hk.trans hv⟩
  · rintro ⟨x, hx, hs, hv⟩
    exact ⟨n.toNat, ⟨x, hx, hs, hv⟩, rfl⟩

/-- 64-bit integers are read exactly and written canonically. -/
theorem decimals_i64_u64 :
    Decimals Int64.toInt Value.i64 readI64? true (-2 ^ 63) (2 ^ 63) ∧
    Decimals (fun n : UInt64 => (n.toNat : Int)) Value.u64 readU64? false 0 (2 ^ 64) := by
  constructor
  · refine .intro (fun k => ?_) (by simp) (fun s n => ?_) (fun k n => ?_) (fun n => by rw [encode])
    · constructor
      · rintro ⟨n, rfl⟩
        exact ⟨n.le_toInt, n.toInt_lt⟩
      · rintro ⟨hlow, hhigh⟩
        exact ⟨Int64.ofInt k, Int64.toInt_ofInt_of_le (by omega) (by omega)⟩
    · simp [readI64?_str]
    · show int64? k = some n ↔ _
      rw [int64?_eq_some]
  · refine .intro (fun k => ?_) (by simp) (fun s n => ?_) (fun k n => ?_) (fun n => by rw [encode]; rfl)
    · constructor
      · rintro ⟨n, rfl⟩
        have := n.toNat_lt
        omega
      · rintro ⟨hlow, hhigh⟩
        refine ⟨UInt64.ofNat k.toNat, ?_⟩
        rw [UInt64.toNat_ofNat_of_lt' (show k.toNat < 2 ^ 64 by omega)]
        omega
    · simp [readU64?_str]
    · show uint64? k = some n ↔ _
      rw [uint64?_eq_some]

end Codec

end Wireform
