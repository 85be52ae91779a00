import Mathlib.Algebra.Ring.Int.Defs
import Mathlib.Algebra.Ring.Nat
import Mathlib.Data.List.Basic
import Mathlib.Data.List.Induction

/-!
# UTF-8

The forms of one to four bytes, by the number that they spell: a form may not be longer than its
number takes, and the number is at most `0x10FFFF`. Surrogates are numbers like others. A text is a
sequence of forms.
-/

namespace Lib

namespace Utf8

/-! ## Bytes -/

/-- A byte that goes on with a form. -/
def IsTail (b : UInt8) : Prop := 0x80 ≤ b.toNat ∧ b.toNat < 0xC0

instance IsTail.decidable (b : UInt8) : Decidable (IsTail b) := inferInstanceAs (Decidable (_ ∧ _))

/-- The number of the bits at the front with those of the bytes behind them, six of each. -/
def spelled (front : ℕ) (tails : List UInt8) : ℕ :=
  tails.foldl (fun n b ↦ 64 * n + b.toNat % 64) front

theorem spelled_lt (tails : List UInt8) : spelled 0 tails < 64 ^ tails.length := by
  induction tails using List.reverseRecOn with
  | nil => exact Nat.zero_lt_one
  | append_singleton tails b ih =>
    have hmod := Nat.mod_lt b.toNat (show 0 < 64 by decide)
    rw [spelled, List.foldl_append, List.length_append, List.length_singleton, Nat.pow_succ]
    show 64 * spelled 0 tails + b.toNat % 64 < _
    omega

/-- The bits at the front are the highest ones. -/
theorem spelled_eq (front : ℕ) (tails : List UInt8) :
    spelled front tails = front * 64 ^ tails.length + spelled 0 tails := by
  induction tails using List.reverseRecOn with
  | nil => exact (Nat.mul_one front).symm
  | append_singleton tails b ih =>
    rw [spelled, spelled, List.foldl_append, List.foldl_append, List.length_append,
      List.length_singleton, Nat.pow_succ]
    show 64 * spelled front tails + b.toNat % 64 = _ + (64 * spelled 0 tails + b.toNat % 64)
    rw [ih, Nat.mul_add, ← Nat.mul_assoc front, Nat.mul_comm 64 (front * _), Nat.add_assoc]

/-! ## Texts -/

/-- One character. -/
inductive Form : List UInt8 → Prop
  | one {a : UInt8} : a.toNat < 0x80 → Form [a]
  | two {a b : UInt8} : 0xC0 ≤ a.toNat → a.toNat < 0xE0 → IsTail b →
      0x80 ≤ spelled (a.toNat - 0xC0) [b] → Form [a, b]
  | three {a b c : UInt8} : 0xE0 ≤ a.toNat → a.toNat < 0xF0 → IsTail b → IsTail c →
      0x800 ≤ spelled (a.toNat - 0xE0) [b, c] → Form [a, b, c]
  | four {a b c d : UInt8} : 0xF0 ≤ a.toNat → a.toNat < 0xF8 → IsTail b → IsTail c → IsTail d →
      0x10000 ≤ spelled (a.toNat - 0xF0) [b, c, d] → spelled (a.toNat - 0xF0) [b, c, d] ≤ 0x10FFFF →
      Form [a, b, c, d]

/-- A sequence of characters. -/
inductive Text : List UInt8 → Prop
  | nil : Text []
  | cons {form rest : List UInt8} : Form form → Text rest → Text (form ++ rest)

theorem Form.length_pos {form : List UInt8} (h : Form form) : 0 < form.length := by
  cases h <;> exact Nat.succ_pos _

/-- A text that has a character. -/
theorem Text.of_ne_nil {text : List UInt8} (h : Text text) (hne : text ≠ []) :
    ∃ form rest, text = form ++ rest ∧ Form form ∧ Text rest := by
  cases h with
  | nil => exact absurd rfl hne
  | @cons form rest hform hrest => exact ⟨form, rest, rfl, hform, hrest⟩

/-- Bytes of seven bits are a text. -/
theorem Text.of_ascii {text : List UInt8} (h : ∀ b ∈ text, b.toNat < 0x80) : Text text := by
  induction text with
  | nil => exact .nil
  | cons b text ih =>
    exact .cons (.one (h b List.mem_cons_self)) (ih fun c hc ↦ h c (List.mem_cons_of_mem _ hc))

end Utf8

end Lib
