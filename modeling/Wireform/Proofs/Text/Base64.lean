import Mathlib
import Wireform.Text.Base64

/-!
# Base64 reads back

Every byte list is read from what it was written as. A symbol is never the padding sign, so a full
group is told apart from a padded one.
-/

namespace Wireform.Text.Base64

theorem value?_symbol {n : Nat} (h : n < 64) : value? (symbol n) = some n := by
  have hall : ∀ n < 64, value? (symbol n) = some n := by decide
  exact hall n h

theorem symbol_ne_pad {n : Nat} (h : n < 64) : symbol n ≠ '=' := by
  have hall : ∀ n < 64, symbol n ≠ '=' := by decide
  exact hall n h

theorem decodeSymbols_one {p q : Nat} (hp : p < 64) (hq : q < 64) (h : (p * 64 + q) % 16 = 0) :
    decodeSymbols [symbol p, symbol q, '=', '='] = some [UInt8.ofNat ((p * 64 + q) / 16)] := by
  rw [decodeSymbols, value?_symbol hp, value?_symbol hq]
  simp [h]

theorem decodeSymbols_two {p q r : Nat} (hp : p < 64) (hq : q < 64) (hr : r < 64)
    (h : ((p * 64 + q) * 64 + r) % 4 = 0) :
    decodeSymbols [symbol p, symbol q, symbol r, '='] =
      some [UInt8.ofNat (((p * 64 + q) * 64 + r) / 1024),
        UInt8.ofNat (((p * 64 + q) * 64 + r) / 4)] := by
  rw [decodeSymbols, value?_symbol hp, value?_symbol hq, value?_symbol hr]
  · simp [h]
  · exact symbol_ne_pad hr

theorem decodeSymbols_three {p q r s : Nat} (hp : p < 64) (hq : q < 64) (hr : r < 64) (hs : s < 64)
    (rest : List Char) :
    decodeSymbols (symbol p :: symbol q :: symbol r :: symbol s :: rest) =
      (decodeSymbols rest).map fun bytes =>
        UInt8.ofNat ((((p * 64 + q) * 64 + r) * 64 + s) / 65536) ::
          UInt8.ofNat ((((p * 64 + q) * 64 + r) * 64 + s) / 256) ::
            UInt8.ofNat (((p * 64 + q) * 64 + r) * 64 + s) :: bytes := by
  rw [decodeSymbols, value?_symbol hp, value?_symbol hq, value?_symbol hr, value?_symbol hs]
  · cases decodeSymbols rest <;> rfl
  · intro _ h; exact absurd h (symbol_ne_pad hs)
  · intro h; exact absurd h (symbol_ne_pad hs)

theorem ofNat_eq {n : Nat} {b : UInt8} (h : n % 256 = b.toNat) : UInt8.ofNat n = b :=
  UInt8.toNat_inj.1 (by simpa using h)

theorem decodeSymbols_encodeBytes (bytes : List UInt8) :
    decodeSymbols (encodeBytes bytes) = some bytes := by
  fun_induction encodeBytes bytes with
  | case1 => rfl
  | case2 a n =>
    have ha := a.toNat_lt
    rw [decodeSymbols_one (by omega) (by omega) (by omega), ofNat_eq (b := a) (by omega)]
  | case3 a b n =>
    have ha := a.toNat_lt
    have hb := b.toNat_lt
    rw [decodeSymbols_two (by omega) (by omega) (by omega) (by omega), ofNat_eq (b := a) (by omega),
      ofNat_eq (b := b) (by omega)]
  | case4 a b c rest n ih =>
    have ha := a.toNat_lt
    have hb := b.toNat_lt
    have hc := c.toNat_lt
    rw [decodeSymbols_three (by omega) (by omega) (by omega) (by omega), ih, Option.map_some,
      ofNat_eq (b := a) (by omega), ofNat_eq (b := b) (by omega), ofNat_eq (b := c) (by omega)]

theorem decode?_encode (bytes : List UInt8) : decode? (encode bytes) = some bytes := by
  rw [decode?, encode, String.toList_ofList, decodeSymbols_encodeBytes]

end Wireform.Text.Base64
