import Mathlib
import Wireform.Codec.Encode
import Wireform.Proofs.Text.Base64
import Wireform.Proofs.Text.Integer

/-!
# Scalars read back

A scalar that was written is read as itself (`readScalar?_encode`), and what was read from any
spelling is a scalar that can be written (`admits_of_readScalar?`, `encode_of_readScalar?`): numbers
of a document are finite, and rounding an integer to the nearest float stays finite.
-/

namespace Wireform

namespace Double

theorem magnitude_ofMagnitude {m : Nat} (h : m < signWeight) (negative : Bool) :
    (ofMagnitude negative m).magnitude = m := by
  have hs : signWeight = 0x8000000000000000 := rfl
  have hb : (ofMagnitude negative m).bits.toNat = if negative then m + signWeight else m := by
    rw [ofMagnitude, UInt64.toNat_ofNat']
    split <;> omega
  rw [magnitude, hb]
  split
  · rw [Nat.add_mod_right, Nat.mod_eq_of_lt h]
  · exact Nat.mod_eq_of_lt h

theorem isFinite_of_ofRatio? {negative : Bool} {num den : Nat} {x : Double}
    (h : ofRatio? negative num den = some x) : x.isFinite = true := by
  simp only [ofRatio?] at h
  split at h
  · rename_i hm
    have hi : infinityMagnitude < signWeight := by decide
    rw [← Option.some.inj h, isFinite, magnitude_ofMagnitude (by omega)]
    exact decide_eq_true hm
  · simp at h

theorem isFinite_of_ofInt? {n : Int} {x : Double} (h : ofInt? n = some x) : x.isFinite = true :=
  isFinite_of_ofRatio? h

theorem not_isNaN_of_isFinite {x : Double} (h : x.isFinite = true) : x.isNaN = false := by
  simp only [isFinite, isNaN, decide_eq_true_eq, decide_eq_false_iff_not] at h ⊢
  omega

theorem same_self {x : Double} (h : x.isFinite = true) : x.same x = true := by
  simp [same, not_isNaN_of_isFinite h]

theorem same_iff {x y : Double} :
    x.same y = true ↔
      x.isNaN = false ∧ y.isNaN = false ∧ (x = y ∨ x.isZero = true ∧ y.isZero = true) := by
  have hb : x.bits = y.bits ↔ x = y := by
    cases x
    cases y
    simp
  simp [same, hb, and_assoc]

theorem same_symm {x y : Double} (h : x.same y = true) : y.same x = true := by
  rw [same_iff] at h ⊢
  exact ⟨h.2.1, h.1, h.2.2.imp Eq.symm And.symm⟩

theorem same_trans {x y z : Double} (hxy : x.same y = true) (hyz : y.same z = true) :
    x.same z = true := by
  rw [same_iff] at hxy hyz ⊢
  refine ⟨hxy.1, hyz.2.1, ?_⟩
  rcases hxy.2.2 with rfl | hx
  · exact hyz.2.2
  rcases hyz.2.2 with rfl | hz
  · exact .inr hx
  · exact .inr ⟨hx.1, hz.2⟩

end Double

namespace Codec

theorem int32?_toInt (n : Int32) : int32? n.toInt = some n := by
  have h := n.le_toInt
  have h' := n.toInt_lt
  rw [int32?, if_pos (by omega), Int32.ofInt_toInt]

theorem uint32?_toNat (n : UInt32) : uint32? (n.toNat : Int) = some n := by
  have h := n.toNat_lt
  rw [uint32?, if_pos (by omega), Int.toNat_natCast, UInt32.ofNat_toNat]

theorem int64?_toInt (n : Int64) : int64? n.toInt = some n := by
  have h := n.le_toInt
  have h' := n.toInt_lt
  rw [int64?, if_pos (by omega), Int64.ofInt_toInt]

theorem uint64?_toNat (n : UInt64) : uint64? (n.toNat : Int) = some n := by
  have h := n.toNat_lt
  rw [uint64?, if_pos (by omega), Int.toNat_natCast, UInt64.ofNat_toNat]

theorem writeF64_eq_ok {x : Double} {j : Json} :
    writeF64 x = .ok j ↔ ∃ h : x.isFinite = true, j = .num (.float x h) := by
  unfold writeF64
  split
  · rename_i h
    simp [h, eq_comm]
  · rename_i h
    simp [h]

/-- What is read at a scalar type is a scalar of that type. -/
theorem admits_of_readScalar? {p : Prim} {j : Json} {v : Value} (h : readScalar? p j = some v) :
    p.admits v = true := by
  cases p <;> (
    simp only [readScalar?, Option.map_eq_some_iff] at h
    obtain ⟨a, -, rfl⟩ := h
    rfl)

theorem isFinite_of_readF64? {j : Json} {x : Double} (h : readF64? j = some x) :
    x.isFinite = true := by
  unfold readF64? at h
  split at h
  · rename_i y hy
    rw [← Option.some.inj h]
    exact hy
  · exact Double.isFinite_of_ofInt? h
  · simp at h

theorem encode_of_readScalar? {p : Prim} {j : Json} {v : Value} (h : readScalar? p j = some v) :
    ∃ j', encode v = .ok j' := by
  cases p <;> (
    simp only [readScalar?, Option.map_eq_some_iff] at h
    obtain ⟨a, ha, rfl⟩ := h)
  case f64 => exact ⟨_, writeF64_eq_ok.2 ⟨isFinite_of_readF64? ha, rfl⟩⟩
  all_goals exact ⟨_, by rw [encode]⟩

/-- A written scalar is read as itself. -/
theorem readScalar?_encode {p : Prim} {v : Value} {j : Json} (hp : p.admits v = true)
    (h : encode v = .ok j) : readScalar? p j = some v := by
  cases p <;> cases v <;> simp only [Prim.admits, Bool.false_eq_true] at hp <;> rw [encode] at h
  case f64 x =>
    obtain ⟨hx, rfl⟩ := writeF64_eq_ok.1 h
    rfl
  all_goals
    obtain rfl := Except.ok.inj h
    rw [readScalar?]
  case i32 n => rw [readI32?, Json.ofInt, Json.int?, Option.bind_some, int32?_toInt, Option.map_some]
  case u32 n =>
    rw [readU32?, Json.ofNat, Json.ofInt, Json.int?, Option.bind_some, uint32?_toNat,
      Option.map_some]
  case i64 n => rw [readI64?, Text.integer?_ofInt, Option.bind_some, int64?_toInt, Option.map_some]
  case u64 n => rw [readU64?, Text.natural?_ofNat, Option.bind_some, uint64?_toNat, Option.map_some]
  case binary bytes =>
    rw [readBinary?, Json.str?, Option.bind_some, Text.Base64.decode?_encode, Option.map_some]
  all_goals rfl

theorem same_self_of_encode {p : Prim} {v : Value} {j : Json} (hp : p.admits v = true)
    (h : encode v = .ok j) : v.same v = true := by
  cases p <;> cases v <;> simp only [Prim.admits, Bool.false_eq_true] at hp <;> rw [encode] at h
  case f64 x =>
    obtain ⟨hx, -⟩ := writeF64_eq_ok.1 h
    rw [Value.same]
    exact Double.same_self hx
  all_goals simp [Value.same]

/-- A scalar is written as a number, a Boolean or a text. -/
theorem encode_scalar_ne {p : Prim} {v : Value} {j : Json} (hp : p.admits v = true)
    (h : encode v = .ok j) : j ≠ .null ∧ (∀ items, j ≠ .arr items) ∧ ∀ props, j ≠ .obj props := by
  cases p <;> cases v <;> simp only [Prim.admits, Bool.false_eq_true] at hp <;> rw [encode] at h
  case f64 x =>
    obtain ⟨hx, rfl⟩ := writeF64_eq_ok.1 h
    simp
  all_goals
    cases h
    simp [Json.ofInt, Json.ofNat]

end Codec

end Wireform
