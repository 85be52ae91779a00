import Mathlib.Algebra.Ring.Int.Defs
import Mathlib.Algebra.Ring.Nat
import Mathlib.Data.List.Basic

/-!
# Taking a text block by block

A function that compresses blocks of a fixed width is folded over the whole blocks of a text
(`absorb`); what stands behind them is the `residue`. How the text comes in pieces makes no
difference, if each piece is put behind the residue of the pieces before it (`absorb_append`).
-/

namespace Lib

variable {α σ : Type*} {w : ℕ} {compress : σ → List α → σ} {s : σ} {block xs ys : List α}

/-! ## Blocks -/

/-- The block with the number `i`. -/
def blockAt (w : ℕ) (xs : List α) (i : ℕ) : List α := (xs.drop (i * w)).take w

/-- The whole blocks of a text, one after the other. -/
def absorb (w : ℕ) (compress : σ → List α → σ) (s : σ) (xs : List α) : σ :=
  (List.range (xs.length / w)).foldl (fun s i ↦ compress s (blockAt w xs i)) s

/-- What stands behind the whole blocks. -/
def residue (w : ℕ) (xs : List α) : List α := xs.drop (xs.length / w * w)

theorem length_residue (w : ℕ) (xs : List α) : (residue w xs).length = xs.length % w := by
  rw [residue, List.length_drop, Nat.mod_eq_sub_div_mul]

/-! ## One block at a time -/

theorem absorb_short (h : xs.length < w) : absorb w compress s xs = s := by
  rw [absorb, Nat.div_eq_of_lt h]
  rfl

theorem residue_short (h : xs.length < w) : residue w xs = xs := by
  rw [residue, Nat.div_eq_of_lt h, Nat.zero_mul, List.drop_zero]

theorem blockAt_succ (hlen : block.length = w) (i : ℕ) :
    blockAt w (block ++ xs) (i + 1) = blockAt w xs i := by
  have hdrop : (block ++ xs).drop (w + i * w) = xs.drop (i * w) := by
    rw [← List.drop_drop, List.drop_left' hlen]
  rw [blockAt, Nat.succ_mul, Nat.add_comm, hdrop, blockAt]

/-- A block in front is compressed first. -/
theorem absorb_block (hw : 0 < w) (hlen : block.length = w) :
    absorb w compress s (block ++ xs) = absorb w compress (compress s block) xs := by
  have hcount : (block ++ xs).length / w = xs.length / w + 1 := by
    rw [List.length_append, hlen, Nat.add_comm, Nat.add_div_right _ hw]
  have hfirst : blockAt w (block ++ xs) 0 = block := by
    rw [blockAt, Nat.zero_mul, List.drop_zero, List.take_left' hlen]
  rw [absorb, hcount, List.range_succ_eq_map, List.foldl_cons, hfirst, List.foldl_map, absorb]
  refine congrArg (fun f ↦ List.foldl f (compress s block) _) (funext fun s ↦ funext fun i ↦ ?_)
  rw [blockAt_succ hlen]

theorem residue_block (hw : 0 < w) (hlen : block.length = w) :
    residue w (block ++ xs) = residue w xs := by
  have hdiv : (block ++ xs).length / w * w = w + xs.length / w * w := by
    rw [List.length_append, hlen, Nat.add_comm w, Nat.add_div_right _ hw, Nat.succ_mul,
      Nat.add_comm]
  calc residue w (block ++ xs) = (block ++ xs).drop (w + xs.length / w * w) := by
        rw [residue, hdiv]
    _ = residue w xs := by rw [← List.drop_drop, List.drop_left' hlen, residue]

/-- A text in two pieces: the second comes behind the residue of the first. -/
theorem absorb_append (hw : 0 < w) (s : σ) (xs ys : List α) :
    absorb w compress s (xs ++ ys) =
      absorb w compress (absorb w compress s xs) (residue w xs ++ ys) ∧
      residue w (xs ++ ys) = residue w (residue w xs ++ ys) := by
  induction hn : xs.length using Nat.strong_induction_on generalizing s xs with
  | _ n ih =>
    rcases Nat.lt_or_ge xs.length w with hshort | hlong
    · rw [absorb_short hshort, residue_short hshort]
      exact ⟨rfl, rfl⟩
    · have htake : (xs.take w).length = w := by rw [List.length_take, Nat.min_eq_left hlong]
      obtain ⟨hrest, hresidue⟩ := ih (xs.drop w).length (by rw [List.length_drop]; omega)
        (compress s (xs.take w)) (xs.drop w) rfl
      rw [← List.take_append_drop w xs, List.append_assoc, absorb_block hw htake,
        absorb_block hw htake, residue_block hw htake, residue_block hw htake]
      exact ⟨hrest, hresidue⟩

end Lib
