import Mathlib.Algebra.Ring.Int.Defs
import Mathlib.Algebra.Ring.Nat
import Mathlib.Data.Nat.Bitwise

/-!
# Masks and bytes

Setting the low `k` bits of two numbers makes them equal exactly when they lie in the same block of
`2 ^ k` numbers (`or_mask_eq_iff`). What C writes as `(n >> k) & 0xff` is a byte of `n`, for a
natural number and for a word (`ofNat_low_byte`, `toUInt8_byte`); and four bytes, each shifted to
its place, make the number they spell (`or_bytes`).
-/

namespace Lib

/-! ## Blocks of numbers -/

theorem or_mask_eq_iff {a b k : ℕ} :
    a ||| (2 ^ k - 1) = b ||| (2 ^ k - 1) ↔ a / 2 ^ k = b / 2 ^ k := by
  constructor
  · intro h
    apply Nat.eq_of_testBit_eq
    intro i
    have hi : ¬i + k < k := by omega
    have hbit := congrArg (Nat.testBit · (i + k)) h
    simpa [Nat.testBit_or, Nat.testBit_two_pow_sub_one, Nat.testBit_div_two_pow, hi] using hbit
  · intro h
    apply Nat.eq_of_testBit_eq
    intro i
    by_cases hi : i < k
    · simp [Nat.testBit_or, Nat.testBit_two_pow_sub_one, hi]
    · have hbit := congrArg (Nat.testBit · (i - k)) h
      simp only [Nat.testBit_div_two_pow, Nat.sub_add_cancel (Nat.not_lt.mp hi)] at hbit
      simp [Nat.testBit_or, Nat.testBit_two_pow_sub_one, hi, hbit]

/-! ## Bytes of a number -/

theorem ofNat_low_byte (n : ℕ) : UInt8.ofNat (n &&& 0xff) = UInt8.ofNat n := by
  refine UInt8.toNat_inj.mp ?_
  calc (UInt8.ofNat (n &&& 0xff)).toNat = n % 2 ^ 8 % 2 ^ 8 := by
        rw [UInt8.toNat_ofNat', Nat.and_two_pow_sub_one_eq_mod n 8]
    _ = (UInt8.ofNat n).toNat := by rw [Nat.mod_mod, UInt8.toNat_ofNat']

theorem toUInt8_low_byte (n : UInt32) : (n &&& 0xff).toUInt8 = UInt8.ofNat n.toNat := by
  refine UInt8.toNat_inj.mp ?_
  calc (n &&& 0xff).toUInt8.toNat = (UInt8.ofNat (n.toNat &&& 0xff)).toNat := by
        rw [UInt32.toNat_toUInt8, UInt32.toNat_and, UInt8.toNat_ofNat']
        rfl
    _ = (UInt8.ofNat n.toNat).toNat := by rw [ofNat_low_byte]

/-- The byte of a word that begins at the bit `k`. -/
theorem toUInt8_byte (n : UInt32) {k : UInt32} (hk : k.toNat < 32) :
    (n >>> k &&& 0xff).toUInt8 = UInt8.ofNat (n.toNat / 2 ^ k.toNat) := by
  rw [toUInt8_low_byte, UInt32.toNat_shiftRight, Nat.mod_eq_of_lt hk, Nat.shiftRight_eq_div_pow]

/-- The value of four bytes, most significant first. -/
theorem or_bytes {a b c d : ℕ} (hb : b < 2 ^ 8) (hc : c < 2 ^ 8) (hd : d < 2 ^ 8) :
    a <<< 24 ||| b <<< 16 ||| c <<< 8 ||| d = ((a * 2 ^ 8 + b) * 2 ^ 8 + c) * 2 ^ 8 + d := by
  have h1 : a <<< 24 ||| b <<< 16 = (a * 2 ^ 8 + b) <<< 16 := by
    rw [← Nat.shiftLeft_add_eq_or_of_lt (by rw [Nat.shiftLeft_eq]; omega)]
    simp only [Nat.shiftLeft_eq]
    omega
  have h2 : (a * 2 ^ 8 + b) <<< 16 ||| c <<< 8 = ((a * 2 ^ 8 + b) * 2 ^ 8 + c) <<< 8 := by
    rw [← Nat.shiftLeft_add_eq_or_of_lt (by rw [Nat.shiftLeft_eq]; omega)]
    simp only [Nat.shiftLeft_eq]
    omega
  rw [h1, h2, ← Nat.shiftLeft_add_eq_or_of_lt hd, Nat.shiftLeft_eq]

end Lib
