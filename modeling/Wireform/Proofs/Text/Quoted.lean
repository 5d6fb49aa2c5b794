import Mathlib
import Wireform.Text.Quoted

/-!
# Quoted text read back

A quote starts with its quotation mark and is over at the first one that is not escaped, whatever follows.
So texts, and lists of them, are taken apart in one way only.
-/

namespace Wireform.Text

/-! ### Escapes -/

theorem digitChar_ne_brace {n : Nat} (h : n < 16) : n.digitChar ≠ '\x7d' := by
  interval_cases n <;> decide

theorem brace_not_mem_toDigits (n : Nat) : '\x7d' ∉ Nat.toDigits 16 n := by
  induction n using Nat.strong_induction_on with
  | _ n ih =>
    by_cases hn : n < 16
    · rw [Nat.toDigits_of_lt_base hn, List.mem_singleton]
      exact (digitChar_ne_brace hn).symm
    · rw [Nat.toDigits_of_base_le (by decide) (by omega), List.mem_append, List.mem_singleton]
      rintro (h | h)
      · exact ih (n / 16) (by omega) h
      · exact digitChar_ne_brace (by omega) h.symm

/-- The number that a list of lower-case hexadecimal digits spells. -/
def hexDigitsValue (cs : List Char) : Nat :=
  cs.foldl (fun n c => 16 * n + if isDigit c then c.toNat - 48 else c.toNat - 87) 0

theorem hexDigitsValue_toDigits (n : Nat) : hexDigitsValue (Nat.toDigits 16 n) = n := by
  have hdigit : ∀ k < 16, hexDigitsValue [k.digitChar] = k := by
    intro k hk
    interval_cases k <;> decide
  induction n using Nat.strong_induction_on with
  | _ n ih =>
    by_cases hn : n < 16
    · rw [Nat.toDigits_of_lt_base hn, hdigit n hn]
    · have hlast := hdigit (n % 16) (Nat.mod_lt n (by decide))
      have hrest := ih (n / 16) (by omega)
      simp only [hexDigitsValue] at hlast hrest
      simp only [List.foldl_cons, List.foldl_nil, Nat.mul_zero, Nat.zero_add] at hlast
      rw [Nat.toDigits_of_base_le (by decide) (by omega), hexDigitsValue, List.foldl_append, hrest]
      simp only [List.foldl_cons, List.foldl_nil, hlast]
      omega

/-- The character whose quoted form a text starts with, and what follows. -/
def readQuoted? : List Char → Option (Char × List Char)
  | '\\' :: 'n' :: r => some ('\n', r)
  | '\\' :: 'r' :: r => some ('\r', r)
  | '\\' :: 't' :: r => some ('\t', r)
  | '\\' :: '0' :: r => some (Char.ofNat 0, r)
  | '\\' :: 'u' :: r =>
    some (Char.ofNat (hexDigitsValue ((r.drop 1).takeWhile (· != '\x7d'))),
      ((r.drop 1).dropWhile (· != '\x7d')).drop 1)
  | '\\' :: c :: r => some (c, r)
  | c :: r => some (c, r)
  | [] => none

theorem readQuoted?_escapeChar (c : Char) (r : List Char) :
    readQuoted? ((escapeChar c).toList ++ r) = some (c, r) := by
  unfold escapeChar
  split_ifs with h₁ h₂ h₃ h₄ h₅ h₆ h₇
  · subst h₁; rfl
  · subst h₂; rfl
  · subst h₃; rfl
  · subst h₄; rfl
  · subst h₅; rfl
  · subst h₆; rfl
  · have hdigits : ∀ d ∈ Nat.toDigits 16 c.toNat, (d != '\x7d') = true := fun d hd =>
      bne_iff_ne.2 fun he => brace_not_mem_toDigits c.toNat (he ▸ hd)
    have htext : ("\\u\x7b" ++ hexOfNat c.toNat ++ "\x7d").toList ++ r =
        '\\' :: 'u' :: '\x7b' :: (Nat.toDigits 16 c.toNat ++ '\x7d' :: r) := by
      simp [hexOfNat]
    rw [htext]
    simp only [readQuoted?, List.drop_succ_cons, List.drop_zero]
    rw [List.takeWhile_append_of_pos hdigits, List.dropWhile_append_of_pos hdigits]
    simp [hexDigitsValue_toDigits, Char.ofNat_toNat]
  · have htext : c.toString.toList ++ r = c :: r := by simp
    rw [htext]
    unfold readQuoted?
    split <;> simp_all

/-! ### Quotes -/

/-- Characters that are escaped one by one in a way that can be read back, up to a quotation mark. -/
theorem escaped_append_inj {escape : Char → String} {read : List Char → Option (Char × List Char)}
    (hread : ∀ c r, read ((escape c).toList ++ r) = some (c, r))
    (hquote : ∀ c r r', (escape c).toList ++ r ≠ '"' :: r') {s s' r r' : List Char}
    (h : s.flatMap (fun c => (escape c).toList) ++ '"' :: r =
      s'.flatMap (fun c => (escape c).toList) ++ '"' :: r') : s = s' ∧ r = r' := by
  induction s generalizing s' with
  | nil =>
    cases s' with
    | nil => exact ⟨rfl, (List.cons.inj h).2⟩
    | cons d s' =>
      rw [List.flatMap_cons, List.append_assoc] at h
      exact absurd h.symm (hquote d _ r)
  | cons c s ih =>
    rw [List.flatMap_cons, List.append_assoc] at h
    cases s' with
    | nil => exact absurd h (hquote c _ r')
    | cons d s' =>
      rw [List.flatMap_cons, List.append_assoc] at h
      have hc := hread c (s.flatMap (fun c => (escape c).toList) ++ '"' :: r)
      rw [h, hread] at hc
      obtain ⟨rfl, ht⟩ := Prod.mk.inj (Option.some.inj hc)
      obtain ⟨rfl, rfl⟩ := ih ht.symm
      exact ⟨rfl, rfl⟩

theorem escapeChar_append_ne_quote (c : Char) (r r' : List Char) :
    (escapeChar c).toList ++ r ≠ '"' :: r' := by
  intro h
  have hc := readQuoted?_escapeChar c r
  rw [h] at hc
  obtain ⟨rfl, -⟩ := Prod.mk.inj (Option.some.inj hc)
  cases h

theorem toList_quote (s : String) :
    (quote s).toList = '"' :: s.toList.flatMap (fun c => (escapeChar c).toList) ++ ['"'] := by
  simp [quote, List.flatMap, Function.comp_def]

theorem quote_append_inj {s s' : String} {r r' : List Char}
    (h : (quote s).toList ++ r = (quote s').toList ++ r') : s = s' ∧ r = r' := by
  rw [toList_quote, toList_quote, List.append_assoc, List.append_assoc] at h
  obtain ⟨hs, hr⟩ := escaped_append_inj readQuoted?_escapeChar escapeChar_append_ne_quote (List.cons.inj h).2
  exact ⟨String.toList_injective hs, hr⟩

/-! ### Lists -/

theorem toList_quoteList_cons (s : String) (ss : List String) (r : List Char) :
    (quoteList (s :: ss)).toList ++ r =
      '[' :: ((quote s).toList ++ (ss.flatMap (fun s => ',' :: ' ' :: (quote s).toList) ++ ']' :: r)) := by
  have hmembers : ((", ".intercalate ((s :: ss).map quote)).toList) =
      (quote s).toList ++ ss.flatMap (fun s => ',' :: ' ' :: (quote s).toList) := by
    induction ss generalizing s with
    | nil => simp
    | cons s' ss ih =>
      rw [List.map_cons, List.map_cons, String.intercalate_cons_cons, String.toList_append,
        String.toList_append, ← List.map_cons, ih, List.flatMap_cons]
      simp
  rw [quoteList, String.toList_append, String.toList_append, hmembers]
  simp

theorem members_append_inj {ss ss' : List String} {r r' : List Char}
    (h : ss.flatMap (fun s => ',' :: ' ' :: (quote s).toList) ++ ']' :: r =
      ss'.flatMap (fun s => ',' :: ' ' :: (quote s).toList) ++ ']' :: r') : ss = ss' ∧ r = r' := by
  induction ss generalizing ss' with
  | nil =>
    cases ss' with
    | nil => exact ⟨rfl, (List.cons.inj h).2⟩
    | cons s' ss' => cases (List.cons.inj h).1
  | cons s ss ih =>
    cases ss' with
    | nil => cases (List.cons.inj h).1
    | cons s' ss' =>
      simp only [List.flatMap_cons, List.cons_append, List.append_assoc, List.cons.injEq, true_and] at h
      obtain ⟨rfl, ht⟩ := quote_append_inj h
      obtain ⟨rfl, rfl⟩ := ih ht
      exact ⟨rfl, rfl⟩

theorem quoteList_append_inj {ss ss' : List String} {r r' : List Char}
    (h : (quoteList ss).toList ++ r = (quoteList ss').toList ++ r') : ss = ss' ∧ r = r' := by
  have hnil : ∀ r, (quoteList []).toList ++ r = '[' :: ']' :: r := fun _ => rfl
  have hne : ∀ (s : String) (r r' : List Char), (quote s).toList ++ r ≠ ']' :: r' := by
    intro s r r' he
    rw [toList_quote] at he
    cases (List.cons.inj he).1
  cases ss with
  | nil =>
    cases ss' with
    | nil => exact ⟨rfl, by simpa [hnil] using h⟩
    | cons s' ss' =>
      rw [hnil, toList_quoteList_cons] at h
      exact absurd (List.cons.inj h).2.symm (hne s' _ _)
  | cons s ss =>
    cases ss' with
    | nil =>
      rw [hnil, toList_quoteList_cons] at h
      exact absurd (List.cons.inj h).2 (hne s _ _)
    | cons s' ss' =>
      rw [toList_quoteList_cons, toList_quoteList_cons] at h
      obtain ⟨rfl, ht⟩ := quote_append_inj (List.cons.inj h).2
      obtain ⟨rfl, rfl⟩ := members_append_inj ht
      exact ⟨rfl, rfl⟩

end Wireform.Text
