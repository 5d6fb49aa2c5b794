import Mathlib
import Wireform.Double.Printer
import Wireform.Proofs.Double.Shortest
import Wireform.Proofs.Text.Integer

/-!
# Float text

The text of a finite float has a value, that of its shortest decimal, so different floats have
different texts.
-/

namespace Wireform.Double

/-! ### The value of a text -/

/-- Digits with a point among them, or without. -/
def mantissaValue (cs : List Char) : ℚ :=
  Text.digitsValue (cs.filter Text.isDigit) / 10 ^ ((cs.dropWhile (· != '.')).length - 1)

/-- A sign and digits. -/
def exponentValue : List Char → Int
  | '-' :: cs => -(Text.digitsValue cs : Int)
  | _ :: cs => Text.digitsValue cs
  | [] => 0

/-- A mantissa, and an exponent if there is one. -/
def textValue (cs : List Char) : ℚ :=
  mantissaValue (cs.takeWhile (· != 'e')) * 10 ^ exponentValue ((cs.dropWhile (· != 'e')).drop 1)

/-- All characters are digits. -/
def AllDigits (cs : List Char) : Prop := ∀ c ∈ cs, Text.isDigit c = true

theorem ne_of_isDigit {c d : Char} (h : Text.isDigit c = true) (hd : Text.isDigit d = false) :
    c ≠ d := by
  rintro rfl
  rw [h] at hd
  cases hd

theorem mantissaValue_digits {a : List Char} (ha : AllDigits a) :
    mantissaValue a = Text.digitsValue a := by
  have hdrop : a.dropWhile (· != '.') = [] := by
    rw [List.dropWhile_eq_nil_iff]
    exact fun c hc => by simpa using ne_of_isDigit (ha c hc) (d := '.') (by decide)
  rw [mantissaValue, hdrop, List.filter_eq_self.2 ha]
  simp

theorem mantissaValue_point {a b : List Char} (ha : AllDigits a) (hb : AllDigits b) :
    mantissaValue (a ++ '.' :: b) = Text.digitsValue (a ++ b) / 10 ^ b.length := by
  have hdrop : (a ++ '.' :: b).dropWhile (· != '.') = '.' :: b := by
    rw [List.dropWhile_append_of_pos]
    · rfl
    · exact fun c hc => by simpa using ne_of_isDigit (ha c hc) (d := '.') (by decide)
  have hfilter : (a ++ '.' :: b).filter Text.isDigit = a ++ b := by
    rw [List.filter_append, List.filter_eq_self.2 ha,
      List.filter_cons_of_neg (by decide), List.filter_eq_self.2 hb]
  rw [mantissaValue, hdrop, hfilter]
  simp

theorem textValue_positional {a : List Char} (ha : 'e' ∉ a) : textValue a = mantissaValue a := by
  have hne : ∀ c ∈ a, (c != 'e') = true := fun c hc => by
    simpa using fun he : c = 'e' => ha (he ▸ hc)
  rw [textValue, List.takeWhile_eq_self_iff.2 hne, List.dropWhile_eq_nil_iff.2 hne]
  simp [exponentValue]

theorem textValue_scientific {a b : List Char} (ha : 'e' ∉ a) :
    textValue (a ++ 'e' :: b) = mantissaValue a * 10 ^ exponentValue b := by
  have hne : ∀ c ∈ a, (c != 'e') = true := fun c hc => by
    simpa using fun he : c = 'e' => ha (he ▸ hc)
  rw [textValue, List.takeWhile_append_of_pos hne, List.dropWhile_append_of_pos hne]
  simp

/-! ### The two notations -/

/-- A character that a number can have. -/
def isNumberChar (c : Char) : Bool :=
  Text.isDigit c || c == '-' || c == '+' || c == '.' || c == 'e'

/-- A text of this value that starts with a digit and shows that it is no integer. -/
structure Spells (cs : List Char) (q : ℚ) : Prop where
  value : textValue cs = q
  chars : ∀ c ∈ cs, isNumberChar c = true
  marked : '.' ∈ cs ∨ 'e' ∈ cs
  head : ∃ c rest, cs = c :: rest ∧ Text.isDigit c = true

theorem AllDigits.append {a b : List Char} (ha : AllDigits a) (hb : AllDigits b) :
    AllDigits (a ++ b) := List.forall_mem_append.2 ⟨ha, hb⟩

theorem AllDigits.not_mem {a : List Char} (ha : AllDigits a) {d : Char}
    (hd : Text.isDigit d = false) : d ∉ a := fun h => ne_of_isDigit (ha d h) hd rfl

theorem AllDigits.chars {a : List Char} (ha : AllDigits a) : ∀ c ∈ a, isNumberChar c = true :=
  fun c hc => by simp [isNumberChar, ha c hc]

theorem allDigits_zeros (n : Nat) : AllDigits (List.replicate n '0') := by
  intro c hc
  rw [(List.mem_replicate.1 hc).2]
  decide

theorem allDigits_toDigits (n : Nat) : AllDigits (Nat.toDigits 10 n) :=
  fun _ hc => Text.isDigit_of_mem_toDigits hc

theorem digitsValue_zeros (n : Nat) : Text.digitsValue (List.replicate n '0') = 0 := by
  induction n with
  | zero => rfl
  | succ n ih =>
    rw [List.replicate_succ', Text.digitsValue_append, ih]
    rfl

theorem spells_point {a b : List Char} (ha : AllDigits a) (hb : AllDigits b) (hne : a ≠ []) {q : ℚ}
    (hq : (Text.digitsValue (a ++ b) : ℚ) / 10 ^ b.length = q) : Spells (a ++ '.' :: b) q where
  value := by
    rw [textValue_positional, mantissaValue_point ha hb, hq]
    simp [ha.not_mem (d := 'e') (by decide), hb.not_mem (d := 'e') (by decide)]
  chars := List.forall_mem_append.2 ⟨ha.chars, List.forall_mem_cons.2 ⟨by decide, hb.chars⟩⟩
  marked := .inl (by simp)
  head := by
    obtain ⟨c, rest, rfl⟩ := List.exists_cons_of_ne_nil hne
    exact ⟨c, _, rfl, ha c (by simp)⟩

theorem positionalText_spells {digits : List Char} (hd : AllDigits digits) (lead : Int) :
    Spells (positionalText true digits lead).toList
      (Text.digitsValue digits * 10 ^ (lead + 1 - digits.length)) := by
  unfold positionalText zeros
  simp only [if_true]
  split
  · rename_i hl
    have he : lead + 1 - digits.length = -(((-lead - 1).toNat + digits.length : Nat) : Int) := by
      push_cast
      omega
    have h := spells_point (a := ['0']) (b := List.replicate (-lead - 1).toNat '0' ++ digits)
      (by simp [AllDigits]; decide) ((allDigits_zeros _).append hd) (by simp)
      (q := Text.digitsValue digits * 10 ^ (lead + 1 - digits.length)) <| by
        rw [he, zpow_neg, zpow_natCast, ← List.append_assoc, Text.digitsValue_append,
          Text.digitsValue_append, digitsValue_zeros]
        simp [Text.digitsValue, Text.digitValue, div_eq_mul_inv]
    simpa using h
  split
  · rename_i hl hn
    have he : lead + 1 - digits.length = ((lead.toNat + 1 - digits.length : Nat) : Int) := by omega
    have h := spells_point (a := digits ++ List.replicate (lead.toNat + 1 - digits.length) '0')
      (b := ['0']) (hd.append (allDigits_zeros _)) (by simp [AllDigits]; decide) (by
        intro hnil
        have := congrArg List.length hnil
        simp only [List.length_append, List.length_replicate, List.length_nil] at this
        omega) (q := Text.digitsValue digits * 10 ^ (lead + 1 - digits.length)) <| by
        rw [he, zpow_natCast, Text.digitsValue_append, Text.digitsValue_append, digitsValue_zeros]
        simp [Text.digitsValue, Text.digitValue]
    simpa using h
  · rename_i hl hn
    have he : lead + 1 - digits.length = -((digits.drop (lead.toNat + 1)).length : Int) := by
      rw [List.length_drop]
      omega
    have h := spells_point (a := digits.take (lead.toNat + 1)) (b := digits.drop (lead.toNat + 1))
      (fun c hc => hd c (List.mem_of_mem_take hc)) (fun c hc => hd c (List.mem_of_mem_drop hc)) (by
        intro hnil
        have := congrArg List.length hnil
        simp only [List.length_take, List.length_nil] at this
        omega) (q := Text.digitsValue digits * 10 ^ (lead + 1 - digits.length)) <| by
        rw [he, zpow_neg, zpow_natCast, List.take_append_drop, div_eq_mul_inv]
    simpa using h

theorem scientificText_spells {digits : List Char} (hd : AllDigits digits) (hne : digits ≠ [])
    (lead : Int) : Spells (scientificText digits lead).toList
      (Text.digitsValue digits * 10 ^ (lead + 1 - digits.length)) := by
  obtain ⟨d, ds, rfl⟩ := List.exists_cons_of_ne_nil hne
  have hexp : exponentValue ((if lead < 0 then '-' else '+') :: Nat.toDigits 10 lead.natAbs) = lead := by
    split
    · rw [exponentValue, Text.digitsValue_toDigits]
      omega
    · show ((Text.digitsValue (Nat.toDigits 10 lead.natAbs) : Nat) : Int) = lead
      rw [Text.digitsValue_toDigits]
      omega
  have htext : ∃ a, (scientificText (d :: ds) lead).toList =
      a ++ 'e' :: (if lead < 0 then '-' else '+') :: Nat.toDigits 10 lead.natAbs ∧
      'e' ∉ a ∧ mantissaValue a = Text.digitsValue (d :: ds) / 10 ^ ds.length ∧
      (∀ c ∈ a, isNumberChar c = true) ∧ ∃ rest, a = d :: rest := by
    have hdig : AllDigits [d] := fun c hc => hd c (by simp_all)
    have hsign : (if lead < 0 then "-" else "+" : String).toList = [if lead < 0 then '-' else '+'] := by
      split <;> rfl
    cases ds with
    | nil =>
      refine ⟨[d], ?_, hdig.not_mem (by decide), ?_, hdig.chars, [], rfl⟩
      · simp [scientificText, hsign, Text.ofNat]
      · rw [mantissaValue_digits hdig]
        simp
    | cons d' ds =>
      have hds : AllDigits (d' :: ds) := fun c hc => hd c (List.mem_cons_of_mem _ hc)
      refine ⟨[d] ++ '.' :: d' :: ds, ?_, ?_, ?_, ?_, _, rfl⟩
      · simp [scientificText, hsign, Text.ofNat]
      · simp only [List.mem_append, List.mem_cons (a := 'e') (b := '.'), not_or]
        exact ⟨hdig.not_mem (by decide), by decide, hds.not_mem (by decide)⟩
      · rw [mantissaValue_point hdig hds]
        rfl
      · exact List.forall_mem_append.2 ⟨hdig.chars, List.forall_mem_cons.2 ⟨by decide, hds.chars⟩⟩
  obtain ⟨a, ht, hea, hm, hc, rest, rfl⟩ := htext
  rw [ht]
  refine ⟨?_, ?_, .inr (by simp), ⟨d, _, rfl, hd d (by simp)⟩⟩
  · rw [textValue_scientific hea, hm, hexp]
    have he : lead + 1 - ((d :: ds).length : Nat) = lead - ds.length := by
      rw [List.length_cons]
      push_cast
      ring
    rw [he, zpow_sub₀ (by norm_num), zpow_natCast]
    ring
  · refine List.forall_mem_append.2 ⟨hc, List.forall_mem_cons.2 ⟨by decide,
      List.forall_mem_cons.2 ⟨?_, (allDigits_toDigits _).chars⟩⟩⟩
    split <;> decide

/-! ### Different floats -/

variable {x y : Double}

theorem magnitudeText_spells (h : x.magnitude ≠ 0) :
    Spells (x.magnitudeText .document).toList (x.shortest .toEven).value := by
  have hz : x.isZero = false := by simpa [isZero] using h
  set d := x.shortest .toEven
  have hdig := allDigits_toDigits d.digits
  have hvalue : (Text.digitsValue (Nat.toDigits 10 d.digits) : ℚ) *
      10 ^ (d.exponent + ((Nat.toDigits 10 d.digits).length : Int) - 1 + 1 -
        (Nat.toDigits 10 d.digits).length) = d.value := by
    rw [Text.digitsValue_toDigits, Decimal.value]
    congr 2
    ring
  rw [← hvalue, magnitudeText, hz]
  simp only [Bool.false_eq_true, if_false]
  split
  · exact positionalText_spells hdig _
  · exact scientificText_spells hdig (by simp) _

theorem zero_spells : Spells "0.0".toList 0 := by
  have h := spells_point (a := ['0']) (b := ['0']) (by simp [AllDigits]; decide)
    (by simp [AllDigits]; decide) (by simp) (q := 0) (by simp [Text.digitsValue, Text.digitValue])
  exact h

theorem magnitudeText_of_zero (h : x.magnitude = 0) : x.magnitudeText .document = "0.0" := by
  have hz : x.isZero = true := by simpa [isZero] using h
  rw [magnitudeText, hz]
  rfl

theorem exists_magnitudeText_spells (x : Double) :
    ∃ q, Spells (x.magnitudeText .document).toList q := by
  by_cases h : x.magnitude = 0
  · rw [magnitudeText_of_zero h]
    exact ⟨0, zero_spells⟩
  · exact ⟨_, magnitudeText_spells h⟩

theorem value_shortest_pos (h : x.magnitude ≠ 0) : 0 < (x.shortest .toEven).value := by
  have hlow := (holds_shortest .toEven h).bounds.1
  have h₀ : measure (x.magnitude - 1) < measure x.magnitude := measure_strictMono (by omega)
  have h₁ : 0 ≤ measure (x.magnitude - 1) := by
    unfold measure
    positivity
  rw [low_div h] at hlow
  linarith

theorem magnitude_eq_of_magnitudeText_eq
    (h : x.magnitudeText .document = y.magnitudeText .document) : x.magnitude = y.magnitude := by
  by_cases hx : x.magnitude = 0 <;> by_cases hy : y.magnitude = 0
  · rw [hx, hy]
  · have h₁ := (magnitudeText_spells hy).value
    rw [← h, magnitudeText_of_zero hx, zero_spells.value] at h₁
    exact absurd h₁ (value_shortest_pos hy).ne
  · have h₁ := (magnitudeText_spells hx).value
    rw [h, magnitudeText_of_zero hy, zero_spells.value] at h₁
    exact absurd h₁ (value_shortest_pos hx).ne
  · have h₁ := (magnitudeText_spells hx).value
    rw [h, (magnitudeText_spells hy).value] at h₁
    exact magnitude_eq_of_holds (holds_shortest .toEven hx) (h₁ ▸ holds_shortest .toEven hy)

theorem text_of_isFinite (h : x.isFinite = true) :
    (x.text .document).toList =
      (if x.isNegative then ['-'] else []) ++ (x.magnitudeText .document).toList := by
  have hn : x.isNaN = false := by
    simp only [isFinite, isNaN, decide_eq_true_eq, decide_eq_false_iff_not] at h ⊢
    omega
  rw [text, hn]
  simp only [Bool.false_eq_true, if_false, h, if_true, String.toList_append]
  split <;> rfl

theorem eq_of_magnitude_eq (hs : x.isNegative = y.isNegative) (hm : x.magnitude = y.magnitude) :
    x = y := by
  obtain ⟨x⟩ := x
  obtain ⟨y⟩ := y
  have hx := x.toNat_lt
  have hy := y.toNat_lt
  have hw : signWeight = 0x8000000000000000 := rfl
  simp only [isNegative, magnitude, hw, decide_eq_decide] at hs hm
  rw [Double.mk.injEq, ← UInt64.toNat_inj]
  omega

/-- The text of a finite float tells its sign and its magnitude. -/
theorem text_injective (hx : x.isFinite = true) (hy : y.isFinite = true)
    (h : x.text .document = y.text .document) : x = y := by
  have hl := congrArg String.toList h
  rw [text_of_isFinite hx, text_of_isFinite hy] at hl
  have hdash : ∀ (z : Double) (cs : List Char), (z.magnitudeText .document).toList ≠ '-' :: cs := by
    intro z cs hz
    obtain ⟨q, hq⟩ := exists_magnitudeText_spells z
    obtain ⟨c, rest, hc, hd⟩ := hq.head
    rw [hz, List.cons.injEq] at hc
    rw [← hc.1] at hd
    exact absurd hd (by decide)
  have hs : x.isNegative = y.isNegative := by
    cases hxn : x.isNegative <;> cases hyn : y.isNegative
    · rfl
    · rw [hxn, hyn] at hl
      exact absurd hl (hdash x _)
    · rw [hxn, hyn] at hl
      exact absurd hl.symm (hdash y _)
    · rfl
  refine eq_of_magnitude_eq hs (magnitude_eq_of_magnitudeText_eq ?_)
  rw [hs] at hl
  exact String.toList_injective (List.append_cancel_left hl)

end Wireform.Double
