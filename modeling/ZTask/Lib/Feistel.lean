import Mathlib.Algebra.Ring.Int.Defs
import Mathlib.Algebra.Ring.Nat
import Mathlib.Logic.Function.Basic

/-!
# Feistel networks

A block is a pair of halves. A round mixes a function of the second half into the first one and
swaps them. Whatever the functions are, the same rounds in the opposite order, on the swapped block,
lead back (`Mixing.network_reverse`).
-/

namespace Lib

universe u

/-- An operation that is undone when it is repeated. -/
structure Mixing (α : Type u) where
  mix : α → α → α
  mix_mix : ∀ x k, mix (mix x k) k = x

namespace Mixing

variable {α : Type u} (M : Mixing α)

/-- A round. -/
def round (f : α → α) (p : α × α) : α × α := (p.2, M.mix p.1 (f p.2))

/-- Rounds one after the other. -/
def network : List (α → α) → α × α → α × α
  | [], p => p
  | f :: fs, p => network fs (M.round f p)

theorem network_append (fs gs : List (α → α)) (p : α × α) :
    M.network (fs ++ gs) p = M.network gs (M.network fs p) := by
  induction fs generalizing p with
  | nil => rfl
  | cons f fs ih => rw [List.cons_append, network, ih, network]

/-- A round on the swapped block undoes the round. -/
theorem round_swap (f : α → α) (p : α × α) : M.round f (M.round f p).swap = p.swap := by
  rw [round, round]
  dsimp only [Prod.swap]
  rw [M.mix_mix]

/-- **The rounds in the opposite order lead back.** -/
theorem network_reverse (fs : List (α → α)) (p : α × α) :
    M.network fs.reverse (M.network fs p).swap = p.swap := by
  induction fs generalizing p with
  | nil => rfl
  | cons f fs ih =>
    rw [List.reverse_cons, network_append]
    show M.round f (M.network fs.reverse (M.network fs (M.round f p)).swap) = p.swap
    rw [ih, round_swap]

end Mixing

end Lib
