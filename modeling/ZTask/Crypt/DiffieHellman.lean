import ZTask.Crypt.Buffer
import Mathlib.Data.Nat.ModEq
import Mathlib.Data.Nat.Prime.Basic

/-!
# The key exchange of Diffie and Hellman

`powmodp`, `ldhexchange` and `ldhsecret`. The modulus `P` is the largest prime below `2 ^ 64`, so
the sum of two remainders need not fit into 64 bits; `mul_mod_p` compares before it adds. What is
proved is that its results are those of the arithmetic modulo `P`.

## Arithmetic that wraps around

The operations are those of 64 bits, and the numbers stay below `P`. A sum of two of them may be `2
^ 64` or more. `mul_mod_p` compares with `P - a` before it adds, so the sum is not formed then
(`toNat_addModP`); when it doubles, the sum wraps around and so does the difference that is taken of
it, and the two cancel (`toNat_doubleModP`).

## Loops

Every round of the loop keeps `m + a * b` modulo `P` (`toNat_mulModPLoop`), and `pow_mod_p` halves
the exponent (`powModP_eq`). It ends for every exponent but 0, for which it calls itself for ever;
the two functions of the exchange raise an error before that. As `P` is prime and `G` is not a
multiple of it, what is sent is never zero (`dhexchange_eq`).
-/

namespace ZTask

open Lib

/-- `P`. -/
def dhP : UInt64 := 0xffffffffffffffc5

/-- `G`. -/
def dhG : UInt64 := 5

/-! ## The functions -/

/-- `m + a` in the loop of `mul_mod_p`. -/
def addModP (m a : UInt64) : UInt64 :=
  let t := dhP - a
  if t ≤ m then m - t else m + a

/-- `a * 2` in the loop of `mul_mod_p`. -/
def doubleModP (a : UInt64) : UInt64 := if dhP - a ≤ a then a * 2 - dhP else a * 2

private theorem toNat_half (b : UInt64) : (b >>> 1).toNat = b.toNat / 2 := by
  rw [UInt64.toNat_shiftRight]
  exact Nat.shiftRight_eq_div_pow b.toNat 1

/-- The loop of `mul_mod_p`. -/
def mulModPLoop (m a b : UInt64) : UInt64 :=
  if _h : b = 0 then m
  else mulModPLoop (if b &&& 1 ≠ 0 then addModP m a else m) (doubleModP a) (b >>> 1)
termination_by b.toNat
decreasing_by
  have hpos : b.toNat ≠ 0 := fun hzero ↦ _h (UInt64.toNat_inj.mp hzero)
  rw [toNat_half]
  omega

/-- `mul_mod_p`. -/
def mulModP (a b : UInt64) : UInt64 := mulModPLoop 0 a b

/-- `pow_mod_p`; without a bit set in `b` it calls itself for ever. -/
def powModP (a b : UInt64) : Crypt UInt64 :=
  if b = 1 then .ok a
  else if _h : b = 0 then .error .unbounded
  else do
    let t ← powModP a (b >>> 1)
    let t := mulModP t t
    .ok (if b % 2 ≠ 0 then mulModP t a else t)
termination_by b.toNat
decreasing_by
  have hpos : b.toNat ≠ 0 := fun hzero ↦ _h (UInt64.toNat_inj.mp hzero)
  rw [toNat_half]
  omega

/-- `powmodp`. -/
def powmodp (a b : UInt64) : Crypt UInt64 := powModP (if dhP < a then a % dhP else a) b

/-- `push64`. -/
def push64 (r : UInt64) : List UInt8 := toLittle 8 r.toNat

/-- The number that the words `x[0]` and `x[1]` of eight bytes make up. -/
def word64 (x : List UInt8) : UInt64 := .ofNat (ofLittle x)

/-- `ldhsecret`, with `read64`. -/
def dhsecret (x y : List UInt8) : Crypt (List UInt8) :=
  if x.length ≠ 8 then .error (.raised "Invalid uint64 x")
  else if y.length ≠ 8 then .error (.raised "Invalid uint64 y")
  else if word64 x = 0 ∨ word64 y = 0 then .error (.raised "Can't be 0")
  else do
    let r ← powmodp (word64 x) (word64 y)
    .ok (push64 r)

/-- `ldhexchange`. -/
def dhexchange (x : List UInt8) : Crypt (List UInt8) :=
  if x.length ≠ 8 then .error (.raised "Invalid dh uint64 key")
  else if word64 x = 0 then .error (.raised "Can't be 0")
  else do
    let r ← powmodp dhG (word64 x)
    .ok (push64 r)

/-! ## Arithmetic modulo `P` -/

/-- `P` as a number. -/
def modulus : ℕ := 2 ^ 64 - 59

private theorem toNat_dhP : dhP.toNat = modulus := rfl

private theorem lt_dhP_iff {a : UInt64} : a < dhP ↔ a.toNat < modulus := UInt64.lt_iff_toNat_lt

theorem toNat_dhP_sub {a : UInt64} (ha : a < dhP) : (dhP - a).toNat = modulus - a.toNat := by
  rw [UInt64.toNat_sub_of_le _ _ (UInt64.le_of_lt ha), toNat_dhP]

/-- The sum does not wrap around, because it is compared before. -/
theorem toNat_addModP {m a : UInt64} (hm : m < dhP) (ha : a < dhP) :
    (addModP m a).toNat = (m.toNat + a.toNat) % modulus := by
  have ht := toNat_dhP_sub ha
  rw [lt_dhP_iff] at hm ha
  rw [addModP]
  by_cases hle : dhP - a ≤ m
  · rw [if_pos hle]
    rw [UInt64.toNat_sub_of_le _ _ hle, ht]
    rw [UInt64.le_iff_toNat_le, ht] at hle
    rw [Nat.mod_eq_sub_mod (by omega), Nat.mod_eq_of_lt (by omega)]
    omega
  · rw [if_neg hle]
    rw [UInt64.le_iff_toNat_le, ht] at hle
    have hsum : m.toNat + a.toNat < modulus := by omega
    rw [UInt64.toNat_add, Nat.mod_eq_of_lt (hsum.trans (by decide)), Nat.mod_eq_of_lt hsum]

/-- The double may wrap around; the difference wraps around too then. -/
theorem toNat_doubleModP {a : UInt64} (ha : a < dhP) :
    (doubleModP a).toNat = a.toNat * 2 % modulus := by
  have ht := toNat_dhP_sub ha
  have htwo : (a * 2).toNat = a.toNat * 2 % 2 ^ 64 := UInt64.toNat_mul a 2
  rw [lt_dhP_iff] at ha
  rw [doubleModP]
  by_cases hle : dhP - a ≤ a
  · rw [if_pos hle]
    rw [UInt64.le_iff_toNat_le, ht] at hle
    have hreduced : a.toNat * 2 % modulus = a.toNat * 2 - modulus := by
      rw [Nat.mod_eq_sub_mod (by omega), Nat.mod_eq_of_lt (by omega)]
    have hwrap : 2 ^ 64 - modulus + a.toNat * 2 = 2 ^ 64 + (a.toNat * 2 - modulus) := by
      have hsmall : modulus ≤ 2 ^ 64 := by decide
      omega
    have hfits : a.toNat * 2 - modulus < 2 ^ 64 := by
      have hlt := a.toNat_lt
      omega
    rw [UInt64.toNat_sub, htwo, toNat_dhP, Nat.add_mod_mod, hwrap, Nat.add_mod_left,
      Nat.mod_eq_of_lt hfits, hreduced]
  · rw [if_neg hle]
    rw [UInt64.le_iff_toNat_le, ht] at hle
    have hdouble : a.toNat * 2 < modulus := by omega
    rw [htwo, Nat.mod_eq_of_lt (hdouble.trans (by decide)), Nat.mod_eq_of_lt hdouble]

private theorem addModP_lt {m a : UInt64} (hm : m < dhP) (ha : a < dhP) : addModP m a < dhP := by
  rw [lt_dhP_iff, toNat_addModP hm ha]
  exact Nat.mod_lt _ (by decide)

private theorem doubleModP_lt {a : UInt64} (ha : a < dhP) : doubleModP a < dhP := by
  rw [lt_dhP_iff, toNat_doubleModP ha]
  exact Nat.mod_lt _ (by decide)

private theorem and_one_ne_zero_iff (b : UInt64) : b &&& 1 ≠ 0 ↔ b.toNat % 2 = 1 := by
  have hand : (b &&& 1).toNat = b.toNat % 2 := by
    rw [UInt64.toNat_and]
    exact Nat.and_two_pow_sub_one_eq_mod b.toNat 1
  rw [ne_eq, ← UInt64.toNat_inj, hand]
  show ¬b.toNat % 2 = 0 ↔ _
  omega

private theorem mod_add_mul_mod (x y k n : ℕ) : (x % n + y % n * k) % n = (x + y * k) % n :=
  (Nat.mod_modEq x n).add ((Nat.mod_modEq y n).mul_right k)

/-- **The loop adds up the product:** every round keeps `m + a * b`. -/
theorem toNat_mulModPLoop {m a b : UInt64} (hm : m < dhP) (ha : a < dhP) :
    (mulModPLoop m a b).toNat = (m.toNat + a.toNat * b.toNat) % modulus := by
  fun_induction mulModPLoop m a b with
  | case1 m a =>
    rw [lt_dhP_iff] at hm
    show m.toNat = (m.toNat + a.toNat * 0) % modulus
    rw [Nat.mul_zero, Nat.add_zero, Nat.mod_eq_of_lt hm]
  | case2 m a b hb ih =>
    have hdouble := toNat_doubleModP ha
    -- The bit that is dropped has been added.
    have hhalves : a.toNat * b.toNat =
        a.toNat * (b.toNat % 2) + a.toNat * 2 * (b.toNat / 2) := by
      rw [Nat.mul_assoc, ← Nat.mul_add, Nat.mod_add_div]
    have hadded : (if b &&& 1 ≠ 0 then addModP m a else m) < dhP ∧
        (if b &&& 1 ≠ 0 then addModP m a else m).toNat =
          (m.toNat + a.toNat * (b.toNat % 2)) % modulus := by
      by_cases hodd : b &&& 1 ≠ 0
      · rw [if_pos hodd]
        rw [toNat_addModP hm ha, (and_one_ne_zero_iff b).mp hodd, Nat.mul_one]
        exact ⟨addModP_lt hm ha, rfl⟩
      · rw [if_neg hodd]
        have heven : b.toNat % 2 = 0 := by
          have := (and_one_ne_zero_iff b).not.mp hodd
          omega
        rw [heven, Nat.mul_zero, Nat.add_zero, Nat.mod_eq_of_lt (lt_dhP_iff.mp hm)]
        exact ⟨hm, rfl⟩
    simp only [dite_eq_ite] at ih
    rw [ih hadded.1 (doubleModP_lt ha), hadded.2, hdouble, toNat_half, mod_add_mul_mod, hhalves,
      Nat.add_assoc]

/-- **`mul_mod_p` multiplies modulo `P`.** -/
theorem toNat_mulModP {a : UInt64} (ha : a < dhP) (b : UInt64) :
    (mulModP a b).toNat = a.toNat * b.toNat % modulus := by
  rw [mulModP, toNat_mulModPLoop (by decide) ha]
  show (0 + _) % _ = _
  rw [Nat.zero_add]

private theorem mulModP_lt {a : UInt64} (ha : a < dhP) (b : UInt64) : mulModP a b < dhP := by
  rw [lt_dhP_iff, toNat_mulModP ha]
  exact Nat.mod_lt _ (by decide)

/-- **`pow_mod_p` is the power modulo `P`.** -/
theorem powModP_eq {a b : UInt64} (ha : a < dhP) (hb : b ≠ 0) :
    ∃ r, powModP a b = .ok r ∧ r < dhP ∧ r.toNat = a.toNat ^ b.toNat % modulus := by
  fun_induction powModP a b with
  | case1 =>
    refine ⟨a, rfl, ha, ?_⟩
    show a.toNat = a.toNat ^ 1 % modulus
    rw [Nat.pow_one, Nat.mod_eq_of_lt (lt_dhP_iff.mp ha)]
  | case2 => exact absurd rfl hb
  | case3 b hone hzero ih =>
    have hhalf : b >>> 1 ≠ 0 := by
      intro h
      have hb₀ : b.toNat ≠ 0 := fun h₀ ↦ hzero (UInt64.toNat_inj.mp h₀)
      have hb₁ : b.toNat ≠ 1 := fun h₁ ↦ hone (UInt64.toNat_inj.mp h₁)
      have hdiv : b.toNat / 2 = 0 := by rw [← toNat_half, h]; rfl
      omega
    obtain ⟨t, hpow, ht, htval⟩ := ih hhalf
    -- the power for half of the exponent, squared
    have hsquare : (mulModP t t).toNat = a.toNat ^ (b.toNat / 2 * 2) % modulus := by
      calc (mulModP t t).toNat = t.toNat * t.toNat % modulus := toNat_mulModP ht t
        _ = a.toNat ^ (b.toNat / 2) * a.toNat ^ (b.toNat / 2) % modulus := by
            rw [htval, toNat_half, ← Nat.mul_mod]
        _ = a.toNat ^ (b.toNat / 2 * 2) % modulus := by rw [← Nat.pow_add, ← Nat.mul_two]
    have hmod : (b % 2).toNat = b.toNat % 2 := UInt64.toNat_mod b 2
    by_cases hodd : b % 2 ≠ 0
    · have hbit : b.toNat % 2 = 1 := by
        have : (b % 2).toNat ≠ 0 := fun h ↦ hodd (UInt64.toNat_inj.mp h)
        omega
      refine ⟨mulModP (mulModP t t) a, ?_, mulModP_lt (mulModP_lt ht t) a, ?_⟩
      · rw [hpow, ok_bind]
        dsimp only
        rw [if_pos hodd]
      · rw [toNat_mulModP (mulModP_lt ht t), hsquare, Nat.mod_mul_mod, ← Nat.pow_succ]
        congr 2
        omega
    · have hbit : b.toNat % 2 = 0 := by
        rw [← hmod, not_not.mp hodd]
        rfl
      refine ⟨mulModP t t, ?_, mulModP_lt ht t, ?_⟩
      · rw [hpow, ok_bind]
        dsimp only
        rw [if_neg hodd]
      · rw [hsquare]
        congr 2
        omega

private theorem powmodp_eq {a b : UInt64} (ha : a < dhP) (hb : b ≠ 0) :
    ∃ r, powmodp a b = .ok r ∧ r < dhP ∧ r.toNat = a.toNat ^ b.toNat % modulus := by
  rw [powmodp, if_neg (by rw [UInt64.lt_iff_toNat_lt] at *; omega)]
  exact powModP_eq ha hb

/-! ## The exchange -/

private theorem word64_push64 (r : UInt64) : word64 (push64 r) = r := by
  rw [word64, push64, ofLittle_toLittle_of_lt r.toNat_lt, UInt64.ofNat_toNat]

private theorem pow_mod_modulus_ne_zero (n : ℕ) : 5 ^ n % modulus ≠ 0 := by
  intro h
  have hcoprime : Nat.Coprime (5 ^ n) modulus := Nat.Coprime.pow_left n (by decide)
  have hone := Nat.Coprime.eq_one_of_dvd hcoprime.symm (Nat.dvd_of_mod_eq_zero h)
  exact absurd hone (by decide)

/-- **What is sent is a power of `G`,** and not zero. -/
theorem dhexchange_eq {x : List UInt8} (hx : x.length = 8) (hne : word64 x ≠ 0) :
    ∃ r : UInt64, dhexchange x = .ok (push64 r) ∧ r < dhP ∧ r ≠ 0 ∧
      r.toNat = 5 ^ (word64 x).toNat % modulus := by
  obtain ⟨r, hpow, hlt, hval⟩ := powmodp_eq (a := dhG) (by decide) hne
  refine ⟨r, ?_, hlt, fun hzero ↦ ?_, hval⟩
  · rw [dhexchange, if_neg (not_not.mpr hx), if_neg hne, hpow]
    rfl
  · rw [hzero] at hval
    exact pow_mod_modulus_ne_zero _ hval.symm

/-- **The secret is a power of what was sent.** -/
theorem dhsecret_eq {r : UInt64} {y : List UInt8} (hr : r < dhP) (hne : r ≠ 0) (hy : y.length = 8)
    (hyne : word64 y ≠ 0) :
    ∃ k : UInt64, dhsecret (push64 r) y = .ok (push64 k) ∧
      k.toNat = r.toNat ^ (word64 y).toNat % modulus := by
  obtain ⟨k, hpow, -, hval⟩ := powmodp_eq hr hyne
  have hlen : (push64 r).length = 8 := length_toLittle 8 _
  refine ⟨k, ?_, hval⟩
  rw [dhsecret, if_neg (not_not.mpr hlen), if_neg (not_not.mpr hy), word64_push64,
    if_neg (not_or.mpr ⟨hne, hyne⟩), hpow]
  rfl

/-- **The arithmetic of the exchange.** `mul_mod_p` and `powmodp` multiply and take powers modulo
`P`, whatever wraps around in between. Two sides that exchange what `dhexchange` gives them, which
is never zero, get the same secret. -/
theorem diffie_hellman :
    (∀ a b : UInt64, a < dhP → (mulModP a b).toNat = a.toNat * b.toNat % modulus) ∧
    (∀ a b : UInt64, 0 < a → a < dhP → 1 ≤ b →
      ∃ r, powmodp a b = .ok r ∧ r.toNat = a.toNat ^ b.toNat % modulus) ∧
    ∀ x y : List UInt8, x.length = 8 → y.length = 8 → word64 x ≠ 0 → word64 y ≠ 0 →
      ∃ sentX sentY secret, dhexchange x = .ok sentX ∧ dhexchange y = .ok sentY ∧
        word64 sentX ≠ 0 ∧ word64 sentY ≠ 0 ∧
        dhsecret sentX y = .ok secret ∧ dhsecret sentY x = .ok secret := by
  refine ⟨fun a b ha ↦ toNat_mulModP ha b, fun a b _ ha hb ↦ ?_, fun x y hx hy hxne hyne ↦ ?_⟩
  · have hne : b ≠ 0 := by
      rintro rfl
      exact absurd hb (by decide)
    obtain ⟨r, hpow, -, hval⟩ := powmodp_eq ha hne
    exact ⟨r, hpow, hval⟩
  · obtain ⟨r, hsendX, hrlt, hrne, hr⟩ := dhexchange_eq hx hxne
    obtain ⟨t, hsendY, htlt, htne, ht⟩ := dhexchange_eq hy hyne
    obtain ⟨k, hsecret, hk⟩ := dhsecret_eq hrlt hrne hy hyne
    obtain ⟨l, hsecret', hl⟩ := dhsecret_eq htlt htne hx hxne
    -- both secrets are `5 ^ (x * y)` modulo the prime
    have hkl : k = l := by
      refine UInt64.toNat_inj.mp ?_
      calc k.toNat = (5 ^ (word64 x).toNat) ^ (word64 y).toNat % modulus := by
            rw [hk, hr, ← Nat.pow_mod]
        _ = (5 ^ (word64 y).toNat) ^ (word64 x).toNat % modulus := by
            rw [← Nat.pow_mul, Nat.mul_comm, Nat.pow_mul]
        _ = l.toNat := by rw [hl, ht, ← Nat.pow_mod]
    subst hkl
    exact ⟨_, _, _, hsendX, hsendY, by rwa [word64_push64], by rwa [word64_push64],
      hsecret, hsecret'⟩

theorem diffie_hellman_one_two :
    (mulModP 2 3).toNat = 2 * 3 % modulus ∧
    (∃ r, powmodp 2 10 = .ok r ∧ r.toNat = 2 ^ 10 % modulus) ∧
    ∃ sentX sentY secret, dhexchange [1, 0, 0, 0, 0, 0, 0, 0] = .ok sentX ∧
      dhexchange [2, 0, 0, 0, 0, 0, 0, 0] = .ok sentY ∧ word64 sentX ≠ 0 ∧ word64 sentY ≠ 0 ∧
      dhsecret sentX [2, 0, 0, 0, 0, 0, 0, 0] = .ok secret ∧
      dhsecret sentY [1, 0, 0, 0, 0, 0, 0, 0] = .ok secret :=
  ⟨diffie_hellman.1 2 3 (by decide), diffie_hellman.2.1 2 10 (by decide) (by decide) (by decide),
    diffie_hellman.2.2 _ _ rfl rfl (by decide) (by decide)⟩

end ZTask
