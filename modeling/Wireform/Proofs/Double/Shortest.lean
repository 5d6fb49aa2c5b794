import Mathlib
import Wireform.Double.Shortest

/-!
# The shortest digits tell floats apart

The reals that round to a float reach halfway to its two neighbours. The shortest decimal of a float
lies among them, and no two floats share a real there: an end that two intervals have in common
belongs to the one whose significand is even.
-/

namespace Wireform.Double

/-! ### Patterns as numbers -/

/-- The significand of a pattern without sign. -/
def significandOf (m : Nat) : Nat :=
  if m / exponentWeight = 0 then m % exponentWeight else m % exponentWeight + exponentWeight

def exponentOf (m : Nat) : Int :=
  (if m / exponentWeight = 0 then 1 else ((m / exponentWeight : Nat) : Int)) - 1075

/-- What a pattern without sign measures. -/
def measure (m : Nat) : ℚ := significandOf m * 2 ^ exponentOf m

theorem exponentOf_of_div_eq {m m' : Nat} (h : m / exponentWeight = m' / exponentWeight) :
    exponentOf m = exponentOf m' := by
  rw [exponentOf, exponentOf, h]

/-- The next pattern measures one unit in the last place more, also across powers of two. -/
theorem measure_succ (m : Nat) : measure (m + 1) = measure m + 2 ^ exponentOf m := by
  have hw : exponentWeight = 0x10000000000000 := rfl
  by_cases hr : m % exponentWeight + 1 < exponentWeight
  · have hdiv : (m + 1) / exponentWeight = m / exponentWeight := by rw [hw] at hr ⊢; omega
    have hmod : (m + 1) % exponentWeight = m % exponentWeight + 1 := by rw [hw] at hr ⊢; omega
    have hs : significandOf (m + 1) = significandOf m + 1 := by
      unfold significandOf
      rw [hdiv, hmod]
      split <;> omega
    rw [measure, measure, exponentOf_of_div_eq hdiv, hs]
    push_cast
    ring
  · have hdiv : (m + 1) / exponentWeight = m / exponentWeight + 1 := by rw [hw] at hr ⊢; omega
    have hmod : (m + 1) % exponentWeight = 0 := by rw [hw] at hr ⊢; omega
    have hlast : m % exponentWeight = exponentWeight - 1 := by rw [hw] at hr ⊢; omega
    have hs : significandOf (m + 1) = exponentWeight := by
      rw [significandOf, hdiv, hmod, if_neg (Nat.succ_ne_zero _), Nat.zero_add]
    by_cases hq : m / exponentWeight = 0
    · have he : exponentOf (m + 1) = exponentOf m := by
        rw [exponentOf, exponentOf, hdiv, hq]
        rfl
      have hm : significandOf m + 1 = exponentWeight := by
        rw [significandOf, if_pos hq, hlast, hw]
      rw [measure, measure, he, hs, ← hm]
      push_cast
      ring
    · have he : exponentOf (m + 1) = exponentOf m + 1 := by
        rw [exponentOf, exponentOf, hdiv, if_neg (Nat.succ_ne_zero _), if_neg hq]
        push_cast
        ring
      have hm : significandOf m + 1 = 2 * exponentWeight := by
        rw [significandOf, if_neg hq, hlast, hw]
      have hm' : (significandOf m : ℚ) = 2 * exponentWeight - 1 := by
        rw [eq_sub_iff_add_eq]
        exact_mod_cast hm
      rw [measure, measure, he, hs, hm', zpow_add₀ two_ne_zero]
      ring

theorem measure_strictMono : StrictMono measure :=
  strictMono_nat_of_lt_succ fun m => by
    rw [measure_succ]
    have : (0 : ℚ) < 2 ^ exponentOf m := by positivity
    linarith

variable {x y : Double}

theorem exponent_eq (x : Double) : x.exponent = exponentOf x.magnitude := rfl

theorem isPowerBoundary_iff (x : Double) : x.isPowerBoundary = true ↔
    x.magnitude % exponentWeight = 0 ∧ 1 < x.magnitude / exponentWeight := by
  rw [isPowerBoundary, Bool.and_eq_true]
  exact and_congr decide_eq_true_iff decide_eq_true_iff

/-- Below a power of two the unit is half of that above it. -/
theorem exponentOf_pred (h : x.magnitude ≠ 0) :
    exponentOf (x.magnitude - 1) =
      if x.isPowerBoundary then exponentOf x.magnitude - 1 else exponentOf x.magnitude := by
  have hw : exponentWeight = 0x10000000000000 := rfl
  have hb := isPowerBoundary_iff x
  generalize x.magnitude = m at h hb ⊢
  by_cases hp : x.isPowerBoundary = true
  · obtain ⟨hr, hq⟩ := hb.1 hp
    have hdiv : (m - 1) / exponentWeight = m / exponentWeight - 1 := by rw [hw] at hr hq ⊢; omega
    rw [if_pos hp, exponentOf, exponentOf, hdiv, if_neg (by omega), if_neg (by omega)]
    omega
  · rw [if_neg hp]
    rw [hb] at hp
    by_cases hr : m % exponentWeight = 0
    · have hq : m / exponentWeight = 1 := by rw [hw] at hr hp ⊢; omega
      have hdiv : (m - 1) / exponentWeight = 0 := by rw [hw] at hr hq ⊢; omega
      rw [exponentOf, exponentOf, hdiv, hq]
      rfl
    · exact exponentOf_of_div_eq (by rw [hw] at hr ⊢; omega)

/-! ### The interval of a float -/

theorem pow_toNat_div (b : ℚ) (e : Int) : b ^ e.toNat / b ^ (-e).toNat = b ^ e := by
  rcases le_total 0 e with h | h
  · obtain ⟨n, rfl⟩ := Int.eq_ofNat_of_zero_le h
    simp
  · obtain ⟨n, hn⟩ := Int.eq_ofNat_of_zero_le (Int.neg_nonneg.2 h)
    obtain rfl : e = -(n : Int) := by omega
    simp [Int.toNat_eq_zero.2]

namespace Neighbourhood

/-- The real lies in the interval. -/
def Holds (n : Neighbourhood) (q : ℚ) : Prop :=
  if n.closed then (n.low : ℚ) / n.den ≤ q ∧ q ≤ n.high / n.den
  else (n.low : ℚ) / n.den < q ∧ q < n.high / n.den

variable {n : Neighbourhood} {d : Nat} {k : Int}

theorem holds_iff (hd : 0 < n.den) : n.holds d k = true ↔ n.Holds (d * 10 ^ k) := by
  have hden : (0 : ℚ) < n.den := by exact_mod_cast hd
  have hs : (0 : ℚ) < 10 ^ (-k).toNat := by positivity
  have hk : (d : ℚ) * 10 ^ k = d * 10 ^ k.toNat / 10 ^ (-k).toNat := by
    rw [← pow_toNat_div 10 k]
    ring
  have hle : ∀ a : Nat, (a : ℚ) / n.den ≤ d * 10 ^ k ↔
      a * 10 ^ (-k).toNat ≤ d * 10 ^ k.toNat * n.den := by
    intro a
    rw [hk, div_le_div_iff₀ hden hs]
    exact_mod_cast Iff.rfl
  have hge : ∀ a : Nat, d * 10 ^ k ≤ (a : ℚ) / n.den ↔
      d * 10 ^ k.toNat * n.den ≤ a * 10 ^ (-k).toNat := by
    intro a
    rw [hk, div_le_div_iff₀ hs hden]
    exact_mod_cast Iff.rfl
  unfold holds Holds
  cases n.closed with
  | true =>
    simp only [if_true, Bool.and_eq_true, decide_eq_true_eq, hle, hge]
    rfl
  | false =>
    simp only [Bool.false_eq_true, if_false, Bool.and_eq_true, decide_eq_true_eq,
      lt_iff_lt_of_le_iff_le (hge _), lt_iff_lt_of_le_iff_le (hle _)]
    rfl

/-- An interval longer than the step of a grid has one of the two points of the grid next to its
middle. -/
theorem exists_onGrid? (tie : Tie) (hd : 0 < n.den) (hl : n.low < n.mid) (hh : n.mid < n.high)
    (hk : (10 : ℚ) ^ k < n.high / n.den - n.low / n.den) : ∃ d, n.onGrid? tie k = some d := by
  have hden : (0 : ℚ) < n.den := by exact_mod_cast hd
  have hlq : (n.low : ℚ) / n.den < n.mid / n.den := by gcongr
  have hhq : (n.mid : ℚ) / n.den < n.high / n.den := by gcongr
  have hstep : (0 : ℚ) < 10 ^ k := by positivity
  set num := n.mid * 10 ^ (-k).toNat with hnum
  set den := n.den * 10 ^ k.toNat with hdendef
  have hquot : (num : ℚ) / den * 10 ^ k = n.mid / n.den := by
    rw [← pow_toNat_div 10 k, hnum, hdendef]
    push_cast
    field_simp
  have hfloor : ((num / den : Nat) : ℚ) * 10 ^ k ≤ n.mid / n.den := by
    rw [← hquot]
    gcongr
    exact Nat.cast_div_le
  have hceil : (n.mid : ℚ) / n.den < ((num / den + 1 : Nat) : ℚ) * 10 ^ k := by
    rw [← hquot]
    gcongr
    have hpos : 0 < den := by positivity
    rw [div_lt_iff₀ (by exact_mod_cast hpos)]
    exact_mod_cast Nat.lt_mul_of_div_lt (Nat.lt_succ_self _) hpos
  -- The two points are a step apart, so they cannot both be outside.
  have hone : n.holds (num / den) k = true ∨ n.holds (num / den + 1) k = true := by
    rw [holds_iff hd, holds_iff hd]
    by_contra hno
    rw [not_or] at hno
    have h₁ : ((num / den : Nat) : ℚ) * 10 ^ k ≤ n.low / n.den := by
      by_contra h
      refine hno.1 ?_
      unfold Holds
      split
      · exact ⟨by linarith, by linarith⟩
      · exact ⟨by linarith, by linarith⟩
    have h₂ : (n.high : ℚ) / n.den ≤ ((num / den + 1 : Nat) : ℚ) * 10 ^ k := by
      by_contra h
      refine hno.2 ?_
      unfold Holds
      split
      · exact ⟨by linarith, by linarith⟩
      · exact ⟨by linarith, by linarith⟩
    push_cast at h₂
    linarith
  unfold onGrid?
  simp only [Nat.pow_eq, ← hnum, ← hdendef]
  rcases h₁ : n.holds (num / den) k <;> rcases h₂ : n.holds (num / den + 1) k
  · simp [h₁, h₂] at hone
  · exact ⟨_, rfl⟩
  · exact ⟨_, rfl⟩
  · simp only
    split
    · exact ⟨_, rfl⟩
    split
    · exact ⟨_, rfl⟩
    · cases tie <;> exact ⟨_, rfl⟩

theorem holds_of_onGrid? {tie : Tie} (h : n.onGrid? tie k = some d) : n.holds d k = true := by
  unfold onGrid? at h
  simp only at h
  split at h
  · rename_i h₁ _
    cases h
    exact h₁
  · rename_i _ h₁
    cases h
    exact h₁
  · cases h
  · rename_i h₁ h₂
    split at h
    · cases h
      exact h₁
    split at h
    · cases h
      exact h₂
    split at h
    · cases h
      split
      · exact h₁
      · exact h₂
    · cases h
      exact h₂

end Neighbourhood

theorem significandOf_pos {m : Nat} (h : m ≠ 0) : 0 < significandOf m := by
  have hw : exponentWeight = 0x10000000000000 := rfl
  unfold significandOf
  rw [hw]
  split <;> omega

theorem significandOf_lt (m : Nat) : significandOf m < 2 * exponentWeight := by
  have hw : exponentWeight = 0x10000000000000 := rfl
  unfold significandOf
  rw [hw]
  split <;> omega

theorem significandOf_mod_two (m : Nat) : significandOf m % 2 = m % 2 := by
  have hw : exponentWeight = 0x10000000000000 := rfl
  unfold significandOf
  rw [hw]
  split <;> omega

theorem neighbourhood_den_pos (x : Double) : 0 < x.neighbourhood.den := by
  simp [neighbourhood]

/-- A multiple of a quarter of the unit, over the denominator of the interval. -/
theorem quarters_div (x : Double) (a : Nat) :
    ((a * Nat.pow 2 (x.exponent - 2).toNat : Nat) : ℚ) / x.neighbourhood.den =
      a * 2 ^ exponentOf x.magnitude / 4 := by
  have he : (2 : ℚ) ^ (x.exponent - 2) = 2 ^ exponentOf x.magnitude / 4 := by
    rw [exponent_eq, zpow_sub₀ two_ne_zero]
    norm_num
  have hden : (x.neighbourhood.den : ℚ) = 2 ^ (-(x.exponent - 2)).toNat := by
    simp [neighbourhood]
  rw [hden, mul_div_assoc, ← he, ← pow_toNat_div]
  push_cast [Nat.pow_eq]
  ring

/-- The interval of a float reaches halfway to its neighbours. -/
theorem low_div (h : x.magnitude ≠ 0) :
    (x.neighbourhood.low : ℚ) / x.neighbourhood.den =
      (measure (x.magnitude - 1) + measure x.magnitude) / 2 := by
  have hsucc := measure_succ (x.magnitude - 1)
  rw [Nat.sub_add_cancel (Nat.pos_of_ne_zero h), exponentOf_pred h] at hsucc
  have hpos := significandOf_pos h
  have hlow : x.neighbourhood.low = (4 * significandOf x.magnitude -
      (if x.isPowerBoundary then 1 else 2)) * Nat.pow 2 (x.exponent - 2).toNat := rfl
  rw [hlow, quarters_div]
  have hmeasure : measure x.magnitude = significandOf x.magnitude * 2 ^ exponentOf x.magnitude := rfl
  split at hsucc
  · rename_i hb
    rw [if_pos hb, Nat.cast_sub (by omega)]
    rw [zpow_sub₀ two_ne_zero] at hsucc
    push_cast
    linarith
  · rename_i hb
    rw [if_neg hb, Nat.cast_sub (by omega)]
    push_cast
    linarith

theorem mid_div (x : Double) :
    (x.neighbourhood.mid : ℚ) / x.neighbourhood.den = measure x.magnitude := by
  have hmid : x.neighbourhood.mid =
      4 * significandOf x.magnitude * Nat.pow 2 (x.exponent - 2).toNat := rfl
  rw [hmid, quarters_div, measure]
  push_cast
  ring

theorem high_div (x : Double) :
    (x.neighbourhood.high : ℚ) / x.neighbourhood.den =
      (measure x.magnitude + measure (x.magnitude + 1)) / 2 := by
  have hhigh : x.neighbourhood.high =
      (4 * significandOf x.magnitude + 2) * Nat.pow 2 (x.exponent - 2).toNat := rfl
  rw [hhigh, quarters_div, measure_succ, measure]
  push_cast
  ring

theorem low_lt_mid (h : x.magnitude ≠ 0) : x.neighbourhood.low < x.neighbourhood.mid := by
  have hden : (0 : ℚ) < x.neighbourhood.den := by exact_mod_cast neighbourhood_den_pos x
  have hlt : measure (x.magnitude - 1) < measure x.magnitude := measure_strictMono (by omega)
  have : (x.neighbourhood.low : ℚ) / x.neighbourhood.den <
      x.neighbourhood.mid / x.neighbourhood.den := by
    rw [low_div h, mid_div]
    linarith
  exact_mod_cast (div_lt_div_iff_of_pos_right hden).1 this

theorem mid_lt_high (x : Double) : x.neighbourhood.mid < x.neighbourhood.high := by
  have hden : (0 : ℚ) < x.neighbourhood.den := by exact_mod_cast neighbourhood_den_pos x
  have hlt : measure x.magnitude < measure (x.magnitude + 1) := measure_strictMono (by omega)
  have : (x.neighbourhood.mid : ℚ) / x.neighbourhood.den <
      x.neighbourhood.high / x.neighbourhood.den := by
    rw [mid_div, high_div]
    linarith
  exact_mod_cast (div_lt_div_iff_of_pos_right hden).1 this

theorem Neighbourhood.Holds.bounds {n : Neighbourhood} {q : ℚ} (h : n.Holds q) :
    (n.low : ℚ) / n.den ≤ q ∧ q ≤ n.high / n.den ∧
      (n.closed = false → (n.low : ℚ) / n.den < q ∧ q < n.high / n.den) := by
  unfold Holds at h
  split at h
  · rename_i hc
    exact ⟨h.1, h.2, by simp [hc]⟩
  · exact ⟨h.1.le, h.2.le, fun _ => h⟩

theorem not_holds_of_lt (hx : x.magnitude < y.magnitude) {q : ℚ}
    (hqx : x.neighbourhood.Holds q) : ¬ y.neighbourhood.Holds q := by
  intro hqy
  obtain ⟨-, hhigh, hxopen⟩ := hqx.bounds
  obtain ⟨hlow, -, hyopen⟩ := hqy.bounds
  rw [high_div] at hhigh hxopen
  rw [low_div (by omega)] at hlow hyopen
  have h₁ : measure x.magnitude ≤ measure (y.magnitude - 1) :=
    measure_strictMono.monotone (by omega)
  have h₂ : measure (x.magnitude + 1) ≤ measure y.magnitude := measure_strictMono.monotone (by omega)
  -- The two intervals meet in an end at most, and then the floats are neighbours.
  have he : x.magnitude + 1 = y.magnitude := measure_strictMono.injective (by linarith)
  have hxc : x.neighbourhood.closed = true := by
    by_contra hc
    have := (hxopen (by simpa using hc)).2
    linarith
  have hyc : y.neighbourhood.closed = true := by
    by_contra hc
    have := (hyopen (by simpa using hc)).1
    linarith
  have hxe : significandOf x.magnitude % 2 = 0 := of_decide_eq_true hxc
  have hye : significandOf y.magnitude % 2 = 0 := of_decide_eq_true hyc
  rw [significandOf_mod_two] at hxe hye
  omega

/-- No real lies in the intervals of two floats. -/
theorem magnitude_eq_of_holds {q : ℚ} (hqx : x.neighbourhood.Holds q)
    (hqy : y.neighbourhood.Holds q) : x.magnitude = y.magnitude := by
  rcases lt_trichotomy x.magnitude y.magnitude with h | h | h
  · exact absurd hqy (not_holds_of_lt h hqx)
  · exact h
  · exact absurd hqx (not_holds_of_lt h hqy)

/-! ### The shortest decimal -/

def Decimal.value (d : Decimal) : ℚ := d.digits * 10 ^ d.exponent

theorem Decimal.value_trim (fuel : Nat) (d : Decimal) : (d.trim fuel).value = d.value := by
  induction fuel generalizing d with
  | zero => rfl
  | succ fuel ih =>
    rw [trim]
    split
    · rename_i h
      simp only [ne_eq, Bool.and_eq_true, decide_eq_true_eq] at h
      rw [ih, value, value, zpow_add₀ (by norm_num)]
      have hd : (d.digits : ℚ) = 10 * (d.digits / 10 : Nat) := by
        exact_mod_cast (Nat.mul_div_cancel' (Nat.dvd_of_mod_eq_zero h.2)).symm
      simp only
      rw [hd]
      ring
    · rfl

theorem pow_length_toDigits_le {n : Nat} (h : 0 < n) : 10 ^ ((Nat.toDigits 10 n).length - 1) ≤ n := by
  by_contra hn
  rw [not_le] at hn
  rcases Nat.eq_zero_or_pos ((Nat.toDigits 10 n).length - 1) with hl | hl
  · rw [hl] at hn
    omega
  · have := (Nat.length_toDigits_le_iff (by norm_num) hl).2 hn
    omega

theorem lt_pow_length_toDigits (n : Nat) : n < 10 ^ (Nat.toDigits 10 n).length :=
  (Nat.length_toDigits_le_iff (by norm_num) Nat.length_toDigits_pos).1 le_rfl

theorem leadingExponent_le {num den : Nat} (hn : 0 < num) (hd : 0 < den) :
    (10 : ℚ) ^ leadingExponent num den ≤ num / den := by
  have hdq : (0 : ℚ) < den := by exact_mod_cast hd
  unfold leadingExponent
  simp only
  split
  · rename_i h
    rw [← pow_toNat_div, div_le_div_iff₀ (by positivity) hdq, mul_comm]
    exact_mod_cast h
  · have hlow := pow_length_toDigits_le hn
    have hhigh := lt_pow_length_toDigits den
    have hpos : 0 < (Nat.toDigits 10 num).length := Nat.length_toDigits_pos
    generalize (Nat.toDigits 10 num).length = a at hlow hpos ⊢
    generalize (Nat.toDigits 10 den).length = b at hhigh ⊢
    have he : (a : Int) - b - 1 = ((a - 1 : Nat) : Int) - (b : Nat) := by omega
    rw [he, zpow_sub₀ (by norm_num), zpow_natCast, zpow_natCast,
      div_le_div_iff₀ (by positivity) hdq]
    have hlowq : (10 : ℚ) ^ (a - 1) ≤ num := by exact_mod_cast hlow
    have hhighq : (den : ℚ) ≤ 10 ^ b := by exact_mod_cast hhigh.le
    exact mul_le_mul hlowq hhighq hdq.le (by positivity)

/-- Seventeen digits suffice. -/
theorem pow_leadingExponent_lt (h : x.magnitude ≠ 0) :
    (10 : ℚ) ^ (leadingExponent x.neighbourhood.mid x.neighbourhood.den - 16) <
      x.neighbourhood.high / x.neighbourhood.den - x.neighbourhood.low / x.neighbourhood.den := by
  have hw : exponentWeight = 0x10000000000000 := rfl
  have hmid : 0 < x.neighbourhood.mid := lt_of_le_of_lt (Nat.zero_le _) (low_lt_mid h)
  have hlead := leadingExponent_le hmid (neighbourhood_den_pos x)
  rw [mid_div, measure] at hlead
  have hsucc := measure_succ (x.magnitude - 1)
  rw [Nat.sub_add_cancel (Nat.pos_of_ne_zero h), exponentOf_pred h] at hsucc
  rw [high_div, low_div h, measure_succ, zpow_sub₀ (by norm_num)]
  have hunit : (0 : ℚ) < 2 ^ exponentOf x.magnitude := by positivity
  split at hsucc
  · rename_i hb
    rw [zpow_sub₀ two_ne_zero] at hsucc
    obtain ⟨hr, hq⟩ := (isPowerBoundary_iff x).1 hb
    rw [significandOf, if_neg (by omega), hr, Nat.zero_add, hw] at hlead
    rw [div_lt_iff₀ (by norm_num)]
    norm_num at hlead hsucc ⊢
    linarith
  · have hsig : (significandOf x.magnitude : ℚ) * 2 ^ exponentOf x.magnitude <
        2 * 0x10000000000000 * 2 ^ exponentOf x.magnitude := by
      gcongr
      exact_mod_cast hw ▸ significandOf_lt x.magnitude
    rw [div_lt_iff₀ (by norm_num)]
    norm_num at hsig ⊢
    linarith

/-- The shortest decimal rounds to the float. -/
theorem holds_shortest (tie : Tie) (h : x.magnitude ≠ 0) :
    x.neighbourhood.Holds (x.shortest tie).value := by
  have hd := neighbourhood_den_pos x
  unfold shortest
  simp only
  set n := x.neighbourhood
  set e := leadingExponent n.mid n.den
  split
  · rename_i d hf
    obtain ⟨k, -, hk⟩ := List.exists_of_findSome?_eq_some hf
    obtain ⟨digits, hg, rfl⟩ := Option.map_eq_some_iff.1 hk
    rw [Decimal.value_trim]
    exact (Neighbourhood.holds_iff hd).1 (Neighbourhood.holds_of_onGrid? hg)
  · rename_i hf
    obtain ⟨d, hg⟩ := Neighbourhood.exists_onGrid? tie hd (low_lt_mid h) (mid_lt_high x)
      (pow_leadingExponent_lt h)
    rw [List.findSome?_eq_none_iff] at hf
    have := hf (e - 16) (List.mem_map.2 ⟨16, by simp, by simp⟩)
    rw [show n.onGrid? tie (e - 16) = some d from hg] at this
    cases this

end Wireform.Double
