import Mathlib.Algebra.Ring.Int.Defs
import Mathlib.Algebra.Ring.Nat
import Mathlib.Data.Multiset.Count
import Mathlib.Logic.Function.Basic

/-!
# Reference counts

A table of blocks, each with its reference count, or `none` once it has been freed or before it is
allocated. The references are kept in a multiset: a block is in it as often as somebody holds a
reference to it. `RefCounted` says that the counts are right, and there is a rule for each
operation; a block is in the table exactly as long as somebody holds a reference.
-/

namespace Lib

variable {α : Type*} [DecidableEq α]

/-! ## Counts -/

/-- What a pointer holds a reference to. -/
def kept : Option α → Multiset α
  | none => 0
  | some a => {a}

omit [DecidableEq α] in
theorem mem_kept {a : α} {x : Option α} : a ∈ kept x ↔ x = some a := by
  cases x with
  | none => exact iff_of_false (Multiset.notMem_zero a) fun hn ↦ nomatch hn
  | some b => rw [kept, Multiset.mem_singleton, Option.some.injEq, eq_comm]

/-- The count of a block that `n` references are held to. -/
def refCount (n : ℕ) : Option ℤ := if n = 0 then none else some n

/-- The counts are the numbers of the references. -/
def RefCounted (refs : α → Option ℤ) (held : Multiset α) : Prop :=
  ∀ a, refs a = refCount (held.count a)

namespace RefCounted

variable {refs : α → Option ℤ} {held : Multiset α} {a : α}

/-! ## What a count says -/

theorem eq_none_iff (h : RefCounted refs held) : refs a = none ↔ a ∉ held := by
  rw [h a, refCount, ← Multiset.count_eq_zero]
  split
  next hzero => exact iff_of_true rfl hzero
  next hpos => exact iff_of_false (Option.some_ne_none _) hpos

/-- Somebody holds a reference. -/
theorem eq_some (h : RefCounted refs held) (ha : a ∈ held) : refs a = some (held.count a : ℤ) := by
  rw [h a, refCount, if_neg (Multiset.count_ne_zero.mpr ha)]

/-! ## Steps -/

/-- Only one block changes. -/
theorem update {held' : Multiset α} {x : Option ℤ} (h : RefCounted refs held)
    (hx : x = refCount (held'.count a)) (hothers : ∀ b ≠ a, held'.count b = held.count b) :
    RefCounted (Function.update refs a x) held' := by
  intro b
  by_cases hb : b = a
  · rw [hb, Function.update_self, hx]
  · rw [Function.update_of_ne hb, h b, hothers b hb]

/-- A reference is taken. -/
theorem grab (h : RefCounted refs held) (a : α) :
    RefCounted (Function.update refs a (some (held.count a + 1 : ℤ))) (a ::ₘ held) := by
  refine h.update ?_ fun b hb ↦ Multiset.count_cons_of_ne hb held
  rw [Multiset.count_cons_self, refCount, if_neg (Nat.succ_ne_zero _)]
  rfl

/-- A new block, with its first reference. -/
theorem alloc (h : RefCounted refs held) (ha : a ∉ held) :
    RefCounted (Function.update refs a (some 1)) (a ::ₘ held) := by
  refine h.update ?_ fun b hb ↦ Multiset.count_cons_of_ne hb held
  rw [Multiset.count_cons_self, Multiset.count_eq_zero.mpr ha]
  rfl

/-- A reference is given up, and others are left. -/
theorem release (h : RefCounted refs (a ::ₘ held)) (ha : a ∈ held) :
    RefCounted (Function.update refs a (some ((a ::ₘ held).count a - 1 : ℤ))) held := by
  refine h.update ?_ fun b hb ↦ (Multiset.count_cons_of_ne hb held).symm
  rw [Multiset.count_cons_self, refCount, if_neg (Multiset.count_ne_zero.mpr ha)]
  exact congrArg some (by omega)

/-- The last reference is given up. -/
theorem free (h : RefCounted refs (a ::ₘ held)) (ha : a ∉ held) :
    RefCounted (Function.update refs a none) held := by
  refine h.update ?_ fun b hb ↦ (Multiset.count_cons_of_ne hb held).symm
  rw [Multiset.count_eq_zero.mpr ha]
  rfl

/-- The count is one exactly for the last reference. -/
theorem sub_one_eq_zero_iff : ((a ::ₘ held).count a - 1 : ℤ) = 0 ↔ a ∉ held := by
  rw [Multiset.count_cons_self, ← Multiset.count_eq_zero]
  omega

end RefCounted

end Lib
