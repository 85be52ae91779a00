import Mathlib.Algebra.Ring.Int.Defs
import Mathlib.Algebra.Ring.Nat

/-!
# Numbers as bytes

A number of fixed width as its bytes, the least significant first, and the conversion of a number to
a signed 32-bit integer.
-/

namespace Lib

/-! ## Bytes of a number -/

/-- The lowest `w` bytes of `n`, least significant first. -/
def toLittle : ℕ → ℕ → List UInt8
  | 0, _ => []
  | w + 1, n => UInt8.ofNat n :: toLittle w (n / 256)

/-- The number with these bytes, least significant first. -/
def ofLittle : List UInt8 → ℕ
  | [] => 0
  | b :: bs => b.toNat + 256 * ofLittle bs

@[simp] theorem length_toLittle (w n : ℕ) : (toLittle w n).length = w := by
  induction w generalizing n with
  | zero => rfl
  | succ w ih => rw [toLittle, List.length_cons, ih]

theorem ofLittle_toLittle (w n : ℕ) : ofLittle (toLittle w n) = n % 256 ^ w := by
  induction w generalizing n with
  | zero => simp only [toLittle, ofLittle, Nat.pow_zero, Nat.mod_one]
  | succ w ih =>
    have hbyte : (UInt8.ofNat n).toNat = n % 256 := by simp
    rw [toLittle, ofLittle, ih, hbyte, Nat.pow_succ, Nat.mul_comm (256 ^ w), Nat.mod_mul]

theorem ofLittle_toLittle_of_lt {w n : ℕ} (h : n < 256 ^ w) : ofLittle (toLittle w n) = n := by
  rw [ofLittle_toLittle, Nat.mod_eq_of_lt h]

theorem toLittle_mod (w n : ℕ) : toLittle w (n % 256 ^ w) = toLittle w n := by
  induction w generalizing n with
  | zero => rfl
  | succ w ih =>
    have hdiv : n % 256 ^ (w + 1) / 256 = n / 256 % 256 ^ w := by
      rw [Nat.pow_succ, Nat.mul_comm, Nat.mod_mul_right_div_self]
    have hbyte : UInt8.ofNat (n % 256 ^ (w + 1)) = UInt8.ofNat n := by
      refine UInt8.toNat_inj.mp ?_
      calc (UInt8.ofNat (n % 256 ^ (w + 1))).toNat = n % (256 ^ w * 256) % 256 := by
            rw [UInt8.toNat_ofNat', Nat.pow_succ]
        _ = n % 256 := Nat.mod_mul_left_mod n (256 ^ w) 256
        _ = (UInt8.ofNat n).toNat := UInt8.toNat_ofNat'.symm
    rw [toLittle, toLittle, hdiv, hbyte, ih]

/-- The lower bytes, and the upper ones behind them. -/
theorem toLittle_add (v w n : ℕ) :
    toLittle (v + w) n = toLittle v n ++ toLittle w (n / 256 ^ v) := by
  induction v generalizing n with
  | zero => rw [Nat.zero_add, Nat.pow_zero, Nat.div_one, toLittle, List.nil_append]
  | succ v ih =>
    rw [Nat.succ_add, toLittle, toLittle, ih, List.cons_append, Nat.div_div_eq_div_mul,
      ← Nat.pow_succ']

theorem toLittle_ofLittle (bytes : List UInt8) :
    toLittle bytes.length (ofLittle bytes) = bytes := by
  induction bytes with
  | nil => rfl
  | cons b bs ih =>
    have hb := b.toNat_lt
    have hdiv : (b.toNat + 256 * ofLittle bs) / 256 = ofLittle bs := by omega
    have hbyte : UInt8.ofNat (b.toNat + 256 * ofLittle bs) = b := by
      rw [← UInt8.toNat_inj, UInt8.toNat_ofNat']
      omega
    rw [List.length_cons, ofLittle, toLittle, hdiv, hbyte, ih]

theorem ofLittle_lt (bytes : List UInt8) : ofLittle bytes < 256 ^ bytes.length := by
  induction bytes with
  | nil => decide
  | cons b bs ih =>
    have hb := b.toNat_lt
    rw [ofLittle, List.length_cons, Nat.pow_succ]
    omega

/-! ## Words -/

theorem ofNat_bytes (n : UInt64) : UInt64.ofNat (ofLittle (toLittle 8 n.toNat)) = n := by
  rw [ofLittle_toLittle_of_lt n.toNat_lt, UInt64.ofNat_toNat]

theorem ofNat_inj_of_lt {i j : ℕ} (hi : i < 2 ^ 31) (hj : j < 2 ^ 31)
    (h : Int64.ofNat i = Int64.ofNat j) : i = j := by
  have hint := congrArg Int64.toInt h
  rw [Int64.toInt_ofNat_of_lt (by omega), Int64.toInt_ofNat_of_lt (by omega)] at hint
  omega

/-- A property that all the 256 bytes are checked for. -/
theorem forall_byte {P : UInt8 → Prop} (h : ∀ n < 256, P (UInt8.ofNat n)) (b : UInt8) : P b := by
  have hb := h b.toNat b.toNat_lt
  rwa [UInt8.ofNat_toNat] at hb

/-! ## Texts -/

/-- The bytes of a text. -/
def ascii (s : String) : List UInt8 := s.toList.map fun c ↦ UInt8.ofNat c.toNat

/-! ## Conversion to `int` -/

/-- The conversion to a 32-bit `int`. -/
def toInt32 (x : Int) : Int := x.bmod (2 ^ 32)

theorem toInt32_of_lt {x : Int} (hlo : -2 ^ 31 ≤ x) (hhi : x < 2 ^ 31) : toInt32 x = x := by
  rw [toInt32, Int.bmod]
  omega

theorem toInt32_neg {x : Int} (hlo : 2 ^ 31 ≤ x) (hhi : x < 2 ^ 32) : toInt32 x < 0 := by
  rw [toInt32, Int.bmod]
  omega

theorem toInt32_lt (x : Int) : toInt32 x < 2 ^ 31 := by
  rw [toInt32, Int.bmod]
  omega

theorem toInt32_le (n : ℕ) : toInt32 n ≤ n := by
  rw [toInt32, Int.bmod]
  omega

/-- What the conversion changes is a multiple of `2 ^ 32`. -/
theorem toInt32_eq (x : Int) : ∃ k : Int, toInt32 x = x - 2 ^ 32 * k := by
  refine ⟨x.bdiv (2 ^ 32), ?_⟩
  have hsum := Int.bmod_add_bdiv' x (2 ^ 32)
  rw [toInt32]
  omega

theorem toInt32_ge (x : Int) : -2 ^ 31 ≤ toInt32 x := by
  rw [toInt32, Int.bmod]
  omega

end Lib
