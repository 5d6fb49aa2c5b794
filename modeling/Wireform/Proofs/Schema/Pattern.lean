import Mathlib
import Wireform.Text.Integer

/-!
# Patterns of texts

The regular expressions that schemas use: a sequence of characters and character ranges, each of
them once, at most once, any number of times or at least once, held to the start and the end of the
text by `^` and `$`. Anything else is no pattern here.
-/

namespace Wireform.Schema

/-- Characters in a row, all from one range: at least `least`, and one or any number. -/
structure Piece where
  first : Char
  last : Char
  least : Nat
  many : Bool
deriving DecidableEq

namespace Piece

def admits (p : Piece) (c : Char) : Bool := p.first ≤ c && c ≤ p.last

def allows (p : Piece) (n : Nat) : Bool := p.least ≤ n && (p.many || n ≤ 1)

end Piece

structure Pattern where
  /-- It starts where the text starts. -/
  atStart : Bool
  pieces : List Piece
  /-- It ends where the text ends. -/
  atEnd : Bool
deriving DecidableEq

namespace Pattern

/-- Characters with a meaning of their own. -/
def isSpecial (c : Char) : Bool := "^$\\.*+?()[]\x7b\x7d|".toList.contains c

/-- The pieces, last piece first, with a repetition after the piece it is about. -/
def pieces? (done : List Piece) : List Char → Option (List Piece × Bool)
  | [] => some (done, false)
  | ['$'] => some (done, true)
  | '[' :: a :: '-' :: b :: ']' :: cs => pieces? (⟨a, b, 1, false⟩ :: done) cs
  | '?' :: cs =>
    match done with
    | ⟨a, b, 1, false⟩ :: done => pieces? (⟨a, b, 0, false⟩ :: done) cs
    | _ => none
  | '*' :: cs =>
    match done with
    | ⟨a, b, 1, false⟩ :: done => pieces? (⟨a, b, 0, true⟩ :: done) cs
    | _ => none
  | '+' :: cs =>
    match done with
    | ⟨a, b, 1, false⟩ :: done => pieces? (⟨a, b, 1, true⟩ :: done) cs
    | _ => none
  | c :: cs => if isSpecial c then none else pieces? (⟨c, c, 1, false⟩ :: done) cs

def ofText? (s : String) : Option Pattern :=
  match s.toList with
  | '^' :: cs => (pieces? [] cs).map fun (pieces, atEnd) => ⟨true, pieces.reverse, atEnd⟩
  | cs => (pieces? [] cs).map fun (pieces, atEnd) => ⟨false, pieces.reverse, atEnd⟩

/-- The pieces fit one after the other from the first character on. -/
def fits (atEnd : Bool) : List Piece → List Char → Bool
  | [], cs => !atEnd || cs.isEmpty
  | p :: ps, cs => (List.range (cs.length + 1)).any fun n =>
    p.allows n && (cs.take n).all p.admits && fits atEnd ps (cs.drop n)

/-- The pattern is found in the text. -/
def found (q : Pattern) (s : String) : Bool :=
  (List.range (s.length + 1)).any fun i =>
    (!q.atStart || i == 0) && fits q.atEnd q.pieces (s.toList.drop i)

theorem found_of_fits {ps : List Piece} {s : String} (h : fits true ps s.toList = true) :
    found ⟨true, ps, true⟩ s = true := by
  rw [found, List.any_eq_true]
  exact ⟨0, by simp, by simpa using h⟩

/-- One piece may take the characters up to some position. -/
theorem fits_cons {atEnd : Bool} {p : Piece} {ps : List Piece} {cs rest : List Char}
    (ha : p.allows cs.length = true) (hc : cs.all p.admits = true)
    (h : fits atEnd ps rest = true) : fits atEnd (p :: ps) (cs ++ rest) = true := by
  rw [fits, List.any_eq_true]
  exact ⟨cs.length, by simp, by rw [List.take_left, List.drop_left, ha, hc, h]; rfl⟩

end Pattern

/-! ### Decimal numerals -/

def digits : Piece := ⟨'0', '9', 1, true⟩

def sign : Piece := ⟨'-', '-', 0, false⟩

theorem ofText?_natural : Pattern.ofText? "^[0-9]+$" = some ⟨true, [digits], true⟩ := by
  decide +kernel

theorem ofText?_integer : Pattern.ofText? "^-?[0-9]+$" = some ⟨true, [sign, digits], true⟩ := by
  decide +kernel

theorem fits_natural {cs : List Char} {n : Nat} (h : Text.natural? cs = some n) :
    Pattern.fits true [digits] cs = true := by
  unfold Text.natural? at h
  split at h
  · rename_i hd
    rw [Bool.and_eq_true, Bool.not_eq_true', List.isEmpty_eq_false_iff, ← List.length_pos_iff] at hd
    rw [← List.append_nil cs]
    exact Pattern.fits_cons (by simpa [digits, Piece.allows, Nat.succ_le_iff] using hd.1) hd.2 rfl
  · cases h

theorem found_natural {s : String} {n : Nat} (h : Text.natural? s.toList = some n) :
    Pattern.found ⟨true, [digits], true⟩ s = true :=
  Pattern.found_of_fits (fits_natural h)

theorem found_integer {s : String} {n : Int} (h : Text.integer? s.toList = some n) :
    Pattern.found ⟨true, [sign, digits], true⟩ s = true := by
  refine Pattern.found_of_fits ?_
  unfold Text.integer? at h
  split at h
  · rename_i cs he
    cases hk : Text.natural? cs with
    | none => rw [hk] at h; cases h
    | some k =>
      rw [he]
      exact @Pattern.fits_cons true _ _ ['-'] _ rfl rfl (fits_natural hk)
  · cases hk : Text.natural? s.toList with
    | none => rw [hk] at h; cases h
    | some k => exact @Pattern.fits_cons true _ _ [] _ rfl rfl (fits_natural hk)

end Wireform.Schema
