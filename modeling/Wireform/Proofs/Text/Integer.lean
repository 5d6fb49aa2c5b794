import Mathlib
import Wireform.Text.Integer

/-!
# Decimal integers read back

What `ofNat` and `ofInt` write is read by `natural?` and `integer?` as the same number, so different
numbers have different texts.
-/

namespace Wireform.Text

theorem digitsValue_toDigits (n : Nat) : digitsValue (Nat.toDigits 10 n) = n :=
  Nat.ofDigitChars_ten_toDigits

theorem digitsValue_append (cs ds : List Char) :
    digitsValue (cs ++ ds) = digitsValue cs * 10 ^ ds.length + digitsValue ds := by
  show Nat.ofDigitChars 10 (cs ++ ds) 0 = _
  rw [Nat.ofDigitChars_append, Nat.ofDigitChars_eq_ofDigitChars_zero, Nat.mul_comm]
  rfl

theorem isDigit_iff (c : Char) : isDigit c = c.isDigit := by
  simp only [isDigit, Char.isDigit, Char.le_def, ge_iff_le]

theorem isDigit_of_mem_toDigits {n : Nat} {c : Char} (h : c ∈ Nat.toDigits 10 n) :
    isDigit c = true := by
  rw [isDigit_iff]
  exact Nat.isDigit_of_mem_toDigits (by decide) (by decide) h

theorem natural?_toDigits (n : Nat) : natural? (Nat.toDigits 10 n) = some n := by
  have hd : (Nat.toDigits 10 n).all isDigit = true :=
    List.all_eq_true.2 fun c hc => isDigit_of_mem_toDigits hc
  simp [natural?, hd, digitsValue_toDigits]

theorem natural?_ofNat (n : Nat) : natural? (ofNat n).toList = some n := by
  rw [ofNat, String.toList_ofList, natural?_toDigits]

theorem dash_not_mem_toDigits (n : Nat) : '-' ∉ Nat.toDigits 10 n := fun h =>
  absurd (isDigit_of_mem_toDigits h) (by decide)

/-- A list of digits does not start with a sign. -/
theorem integer?_toDigits (n : Nat) : integer? (Nat.toDigits 10 n) = some (n : Int) := by
  have hdash := dash_not_mem_toDigits n
  have hn := natural?_toDigits n
  unfold integer?
  split
  · rename_i cs h
    rw [h] at hdash
    simp at hdash
  · rw [hn]; rfl

theorem integer?_ofInt (n : Int) : integer? (ofInt n).toList = some n := by
  cases n with
  | ofNat n => rw [ofInt, ofNat, String.toList_ofList, integer?_toDigits]; rfl
  | negSucc n =>
    have hl : (ofInt (.negSucc n)).toList = '-' :: Nat.toDigits 10 (n + 1) := by
      simp [ofInt, ofNat]
    rw [hl, integer?, natural?_toDigits]
    rfl

theorem ofNat_injective : Function.Injective ofNat := fun m n h => by
  have hm := natural?_ofNat m
  rw [h, natural?_ofNat] at hm
  exact (Option.some.inj hm).symm

theorem ofInt_injective : Function.Injective ofInt := fun m n h => by
  have hm := integer?_ofInt m
  rw [h, integer?_ofInt] at hm
  exact (Option.some.inj hm).symm

end Wireform.Text
