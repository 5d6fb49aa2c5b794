import Mathlib
import Wireform.Json.Printer
import Wireform.Proofs.Double.Text
import Wireform.Proofs.Json.Basic
import Wireform.Proofs.Text.Quoted

/-!
# Compact text tells documents apart

No text of a document goes on as the text of another one, as long as what follows cannot belong to a
number. So a text is taken apart from left to right in one way only, and different documents have
different texts.
-/

namespace Wireform

open Double (isNumberChar)

/-! ### Numbers -/

theorem Text.toList_ofInt_ne_mark {n : Int} {c : Char} (h : c ∈ (ofInt n).toList) :
    isNumberChar c = true ∧ c ≠ '.' ∧ c ≠ 'e' := by
  have hdigits : ∀ k, c ∈ Nat.toDigits 10 k → isNumberChar c = true ∧ c ≠ '.' ∧ c ≠ 'e' := by
    intro k hc
    have hd := isDigit_of_mem_toDigits hc
    exact ⟨by simp [isNumberChar, hd], Double.ne_of_isDigit hd (by decide),
      Double.ne_of_isDigit hd (by decide)⟩
  cases n with
  | ofNat k => exact hdigits k (by simpa [ofInt, ofNat] using h)
  | negSucc k =>
    have h' : c = '-' ∨ c ∈ Nat.toDigits 10 (k + 1) := by simpa [ofInt, ofNat] using h
    rcases h' with rfl | h'
    · decide
    · exact hdigits _ h'

theorem Text.exists_cons_ofInt (n : Int) :
    ∃ c rest, (ofInt n).toList = c :: rest ∧ (isDigit c = true ∨ c = '-') := by
  cases n with
  | ofNat k =>
    obtain ⟨c, rest, h⟩ := List.exists_cons_of_ne_nil (Nat.toDigits_ne_nil (b := 10) (n := k))
    refine ⟨c, rest, by simpa [ofInt, ofNat] using h, .inl ?_⟩
    exact isDigit_of_mem_toDigits (n := k) (by simp [h])
  | negSucc k => exact ⟨'-', Nat.toDigits 10 (k + 1), by simp [ofInt, ofNat], .inr rfl⟩

namespace Number

theorem text_float (x : Double) (h : x.isFinite = true) :
    (∀ c ∈ (Number.float x h).text.toList, isNumberChar c = true) ∧
      ('.' ∈ (Number.float x h).text.toList ∨ 'e' ∈ (Number.float x h).text.toList) ∧
      ∃ c rest, (Number.float x h).text.toList = c :: rest ∧ (Text.isDigit c = true ∨ c = '-') := by
  obtain ⟨q, hq⟩ := Double.exists_magnitudeText_spells x
  obtain ⟨c, rest, hc, hd⟩ := hq.head
  rw [Number.text, Double.text_of_isFinite h]
  refine ⟨?_, ?_, ?_⟩
  · refine List.forall_mem_append.2 ⟨?_, hq.chars⟩
    split <;> simp [isNumberChar]
  · rw [List.mem_append, List.mem_append]
    exact hq.marked.imp .inr .inr
  · split
    · exact ⟨'-', _, rfl, .inr rfl⟩
    · exact ⟨c, rest, hc, .inl hd⟩

theorem text_chars (n : Number) : ∀ c ∈ n.text.toList, isNumberChar c = true := by
  cases n with
  | int n => exact fun c hc => (Text.toList_ofInt_ne_mark hc).1
  | float x h => exact (text_float x h).1

theorem exists_cons_text (n : Number) :
    ∃ c rest, n.text.toList = c :: rest ∧ (Text.isDigit c = true ∨ c = '-') := by
  cases n with
  | int n => exact Text.exists_cons_ofInt n
  | float x h => exact (text_float x h).2.2

theorem text_injective : Function.Injective Number.text := by
  have hne : ∀ n x h, Number.text (.int n) ≠ Number.text (.float x h) := by
    intro n x h he
    rcases (text_float x h).2.1 with hm | hm
    · rw [← he] at hm
      exact (Text.toList_ofInt_ne_mark hm).2.1 rfl
    · rw [← he] at hm
      exact (Text.toList_ofInt_ne_mark hm).2.2 rfl
  intro a b h
  cases a with
  | int m =>
    cases b with
    | int n => exact congrArg Number.int (Text.ofInt_injective h)
    | float x hx => exact absurd h (hne m x hx)
  | float x hx =>
    cases b with
    | int n => exact absurd h.symm (hne n x hx)
    | float y hy =>
      obtain rfl := Double.text_injective hx hy h
      rfl

end Number

namespace Json

/-- What follows cannot belong to a number. -/
def Stops (r : List Char) : Prop := ∀ c ∈ r.head?, isNumberChar c = false

theorem numberText_append_inj {a b : Number} {r r' : List Char} (hr : Stops r) (hr' : Stops r')
    (h : a.text.toList ++ r = b.text.toList ++ r') : a = b ∧ r = r' := by
  have htake : ∀ (n : Number) (r : List Char), Stops r →
      (n.text.toList ++ r).takeWhile isNumberChar = n.text.toList := by
    intro n r hr
    rw [List.takeWhile_append_of_pos n.text_chars]
    cases r with
    | nil => simp
    | cons c r => simp [hr c rfl]
  have he : a.text.toList = b.text.toList := by rw [← htake a r hr, h, htake b r' hr']
  refine ⟨Number.text_injective (String.toList_injective he), ?_⟩
  rw [he] at h
  exact List.append_cancel_left h

/-! ### Strings -/

/-- What a lower-case hexadecimal digit stands for. -/
def hexValue (c : Char) : Nat := if Text.isDigit c then c.toNat - 48 else c.toNat - 87

/-- The character that a text of an escaped character starts with, and what follows. -/
def readChar? : List Char → Option (Char × List Char)
  | '\\' :: 'n' :: r => some ('\n', r)
  | '\\' :: 'r' :: r => some ('\r', r)
  | '\\' :: 't' :: r => some ('\t', r)
  | '\\' :: 'b' :: r => some (Char.ofNat 8, r)
  | '\\' :: 'f' :: r => some (Char.ofNat 12, r)
  | '\\' :: 'u' :: '0' :: '0' :: a :: b :: r =>
    some (Char.ofNat (16 * hexValue a + hexValue b), r)
  | '\\' :: c :: r => some (c, r)
  | c :: r => some (c, r)
  | [] => none

theorem readChar?_escapeChar (c : Char) (r : List Char) :
    readChar? ((escapeChar c).toList ++ r) = some (c, r) := by
  have hcontrol : ∀ n < 32, readChar? ((escapeChar (Char.ofNat n)).toList ++ r) =
      some (Char.ofNat n, r) := by
    intro n hn
    interval_cases n <;> rfl
  by_cases hc : c.toNat < 32
  · rw [← Char.ofNat_toNat c]
    exact hcontrol _ hc
  unfold escapeChar
  split
  · rename_i h
    subst h
    rfl
  split
  · rename_i h
    subst h
    rfl
  have hne : ∀ d : Char, d.toNat < 32 → c ≠ d := fun d hd he => hc (he ▸ hd)
  rw [if_neg (hne _ (by decide)), if_neg (hne _ (by decide)), if_neg (hne _ (by decide)),
    if_neg (hne _ (by decide)), if_neg (hne _ (by decide)), if_neg (by omega : ¬ c.toNat < 16)]
  have hl : c.toString.toList ++ r = c :: r := by simp
  rw [hl]
  unfold readChar?
  split <;> simp_all

theorem escapeChar_ne_quote (c : Char) (r r' : List Char) :
    (escapeChar c).toList ++ r ≠ '"' :: r' := by
  intro h
  have hc := readChar?_escapeChar c r
  rw [h] at hc
  obtain ⟨rfl, -⟩ := Prod.mk.inj (Option.some.inj hc)
  cases h

theorem toList_stringText (s : String) :
    (stringText s).toList = '"' :: s.toList.flatMap (fun c => (escapeChar c).toList) ++ ['"'] := by
  simp [stringText, List.flatMap, Function.comp_def]

theorem stringText_append_inj {s s' : String} {r r' : List Char}
    (h : (stringText s).toList ++ r = (stringText s').toList ++ r') : s = s' ∧ r = r' := by
  rw [toList_stringText, toList_stringText, List.cons_append, List.cons_append, List.cons_append,
    List.cons_append, List.append_assoc, List.append_assoc] at h
  obtain ⟨hs, hr⟩ := Text.escaped_append_inj readChar?_escapeChar escapeChar_ne_quote (List.cons.inj h).2
  exact ⟨String.toList_injective hs, hr⟩

/-! ### Lists -/

/-- Members, with commas between them, up to a closing bracket. -/
theorem intercalate_append_inj {α : Type} {f : α → List Char} {close : Char}
    (hcomma : close ≠ ',') (hstop : isNumberChar close = false)
    (hhead : ∀ a, ∃ c rest, f a = c :: rest ∧ c ≠ close) {l l' : List α} {r r' : List Char}
    (hf : ∀ a ∈ l, ∀ b r r', Stops r → Stops r' → f a ++ r = f b ++ r' → a = b ∧ r = r')
    (h : [','].intercalate (l.map f) ++ close :: r = [','].intercalate (l'.map f) ++ close :: r') :
    l = l' ∧ r = r' := by
  -- What follows the first member: the end, or a comma and the others.
  have hcons : ∀ (a : α) (l : List α) (r : List Char),
      [','].intercalate ((a :: l).map f) ++ close :: r =
        f a ++ (if l = [] then close :: r else ',' :: ([','].intercalate (l.map f) ++ close :: r)) := by
    intro a l r
    cases l with
    | nil => simp
    | cons b l => simp [List.intercalate_cons_cons]
  have hstops : ∀ (l : List α) (r : List Char), Stops
      (if l = [] then close :: r else ',' :: ([','].intercalate (l.map f) ++ close :: r)) := by
    intro l r
    split
    · rintro c ⟨⟩
      exact hstop
    · rintro c ⟨⟩
      decide
  have hnil : ∀ (a : α) (l : List α) (r r' : List Char),
      [','].intercalate ((a :: l).map f) ++ close :: r ≠ close :: r' := by
    intro a l r r' he
    obtain ⟨c, rest, hc, hne⟩ := hhead a
    rw [hcons, hc, List.cons_append] at he
    exact hne (List.cons.inj he).1
  induction l generalizing l' with
  | nil =>
    cases l' with
    | nil => exact ⟨rfl, (List.cons.inj h).2⟩
    | cons b l' => exact absurd h.symm (hnil b l' r' r)
  | cons a l ih =>
    cases l' with
    | nil => exact absurd h (hnil a l r r')
    | cons b l' =>
      rw [hcons, hcons] at h
      obtain ⟨rfl, ht⟩ := hf a (by simp) b _ _ (hstops l r) (hstops l' r') h
      split at ht <;> split at ht
      · rename_i hl hl'
        subst hl hl'
        exact ⟨rfl, (List.cons.inj ht).2⟩
      · exact absurd (List.cons.inj ht).1 hcomma
      · exact absurd (List.cons.inj ht).1.symm hcomma
      · obtain ⟨rfl, rfl⟩ := ih (fun a ha => hf a (by simp [ha])) (List.cons.inj ht).2
        exact ⟨rfl, rfl⟩

/-! ### Documents -/

/-- The characters that the text of such a document starts with. -/
def opens : Json → Char → Prop
  | .null, c => c = 'n'
  | .bool _, c => c = 't' ∨ c = 'f'
  | .num _, c => Text.isDigit c = true ∨ c = '-'
  | .str _, c => c = '"'
  | .arr _, c => c = '['
  | .obj _, c => c = '\x7b'

theorem compactItems_eq (items : List Json) : compactItems items = items.map compact := by
  induction items with
  | nil => rfl
  | cons j items ih => rw [compactItems, ih]; rfl

theorem compactProps_eq (props : List (String × Json)) :
    compactProps props = props.map fun p => stringText p.1 ++ ":" ++ compact p.2 := by
  induction props with
  | nil => rfl
  | cons p props ih => rw [compactProps, ih]; rfl

theorem toList_compact_arr (items : List Json) : (compact (.arr items)).toList =
    '[' :: [','].intercalate (items.map fun j => (compact j).toList) ++ [']'] := by
  simp [compact, compactItems_eq, String.toList_intercalate, Function.comp_def]

theorem toList_compact_obj (props : Fields Json) : (compact (.obj props)).toList =
    '\x7b' :: [','].intercalate (props.map fun p =>
      (stringText p.1).toList ++ ':' :: (compact p.2).toList) ++ ['\x7d'] := by
  simp [compact, compactProps_eq, String.toList_intercalate, Function.comp_def]

theorem exists_cons_compact (j : Json) : ∃ c rest, (compact j).toList = c :: rest ∧ opens j c := by
  cases j with
  | null => exact ⟨'n', ['u', 'l', 'l'], rfl, rfl⟩
  | bool b =>
    cases b with
    | true => exact ⟨'t', ['r', 'u', 'e'], rfl, .inl rfl⟩
    | false => exact ⟨'f', ['a', 'l', 's', 'e'], rfl, .inr rfl⟩
  | num n => exact n.exists_cons_text
  | str s => exact ⟨'"', _, toList_stringText s, rfl⟩
  | arr items => exact ⟨'[', _, toList_compact_arr items, rfl⟩
  | obj props => exact ⟨_, _, toList_compact_obj props, rfl⟩

/-- The kind of document that a character opens. -/
def kindAt (c : Char) : Nat :=
  if c = 'n' then 0 else if c = 't' ∨ c = 'f' then 1 else if c = '"' then 3
  else if c = '[' then 4 else if c = '\x7b' then 5 else 2

theorem kindAt_eq {j : Json} {c : Char} (h : opens j c) : kindAt c = j.ctorIdx := by
  cases j with
  | num n =>
    have hne : ∀ d : Char, Text.isDigit d = false → d ≠ '-' → c ≠ d := by
      rintro d hd hm rfl
      rcases h with h | h
      · exact Double.ne_of_isDigit h hd rfl
      · exact hm h
    rw [kindAt, if_neg (hne 'n' (by decide) (by decide)), if_neg, if_neg (hne '"' (by decide) (by decide)),
      if_neg (hne '[' (by decide) (by decide)), if_neg (hne '\x7b' (by decide) (by decide))]
    · rfl
    · rintro (h | h)
      · exact hne 't' (by decide) (by decide) h
      · exact hne 'f' (by decide) (by decide) h
  | bool b =>
    rcases h with rfl | rfl <;> rfl
  | _ =>
    obtain rfl := h
    rfl

theorem not_opens_bracket (j : Json) : ¬ opens j ']' := by
  intro h
  cases j with
  | num n | bool b => rcases h with h | h <;> cases h
  | _ => cases h

theorem ctorIdx_eq_of_compact {j j' : Json} {r r' : List Char}
    (h : (compact j).toList ++ r = (compact j').toList ++ r') : j.ctorIdx = j'.ctorIdx := by
  obtain ⟨c, rest, hc, ho⟩ := exists_cons_compact j
  obtain ⟨c', rest', hc', ho'⟩ := exists_cons_compact j'
  rw [hc, hc', List.cons_append, List.cons_append] at h
  rw [← kindAt_eq ho, ← kindAt_eq ho', (List.cons.inj h).1]

/-- The text of a document ends where it must. -/
theorem compact_append_inj (j : Json) {j' : Json} {r r' : List Char} (hr : Stops r) (hr' : Stops r')
    (h : (compact j).toList ++ r = (compact j').toList ++ r') : j = j' ∧ r = r' := by
  induction j using parts_induction generalizing j' r r' with
  | step j ih =>
  have hk := ctorIdx_eq_of_compact h
  cases j with
  | null =>
    cases j' with
    | null => exact ⟨rfl, List.append_cancel_left h⟩
    | _ => cases hk
  | bool b =>
    cases j' with
    | bool b' =>
      cases b <;> cases b'
      · exact ⟨rfl, List.append_cancel_left h⟩
      · cases h
      · cases h
      · exact ⟨rfl, List.append_cancel_left h⟩
    | _ => cases hk
  | num n =>
    cases j' with
    | num n' =>
      obtain ⟨rfl, rfl⟩ := numberText_append_inj hr hr' h
      exact ⟨rfl, rfl⟩
    | _ => cases hk
  | str s =>
    cases j' with
    | str s' =>
      obtain ⟨rfl, rfl⟩ := stringText_append_inj h
      exact ⟨rfl, rfl⟩
    | _ => cases hk
  | arr items =>
    cases j' with
    | arr items' =>
      rw [toList_compact_arr, toList_compact_arr, List.append_assoc, List.append_assoc,
        List.cons_append, List.cons_append] at h
      have hin : ∀ a ∈ items, ∀ b r r', Stops r → Stops r' →
          (compact a).toList ++ r = (compact b).toList ++ r' → a = b ∧ r = r' :=
        fun a ha b r r' hr hr' h => ih a ha hr hr' h
      obtain ⟨rfl, rfl⟩ := intercalate_append_inj (by decide) (by decide)
        (fun a => by
          obtain ⟨c, rest, hc, ho⟩ := exists_cons_compact a
          exact ⟨c, rest, hc, fun he => not_opens_bracket a (he ▸ ho)⟩) hin (List.cons.inj h).2
      exact ⟨rfl, rfl⟩
    | _ => cases hk
  | obj props =>
    cases j' with
    | obj props' =>
      rw [toList_compact_obj, toList_compact_obj, List.append_assoc, List.append_assoc,
        List.cons_append, List.cons_append] at h
      have hin : ∀ p ∈ props, ∀ q r r', Stops r → Stops r' →
          ((stringText p.1).toList ++ ':' :: (compact p.2).toList) ++ r =
            ((stringText q.1).toList ++ ':' :: (compact q.2).toList) ++ r' → p = q ∧ r = r' := by
        intro p hp q r r' hr hr' h
        rw [List.append_assoc, List.append_assoc] at h
        obtain ⟨hk, ht⟩ := stringText_append_inj h
        obtain ⟨hv, rfl⟩ := ih p.2 (List.mem_map_of_mem hp) hr hr' (List.cons.inj ht).2
        exact ⟨Prod.ext hk hv, rfl⟩
      obtain ⟨rfl, rfl⟩ := intercalate_append_inj (by decide) (by decide)
        (fun p => ⟨'"', _, by rw [toList_stringText]; rfl, by decide⟩) hin (List.cons.inj h).2
      exact ⟨rfl, rfl⟩
    | _ => cases hk

theorem compact_injective : Function.Injective compact := by
  intro j j' h
  have hstop : Stops [] := by simp [Stops]
  exact (compact_append_inj j hstop hstop (by rw [h])).1

end Json

end Wireform
