import Mathlib.Algebra.BigOperators.Group.Finset.Basic
import Mathlib.Algebra.Order.BigOperators.Group.Finset
import Mathlib.Algebra.Order.Group.Multiset
import Mathlib.Algebra.Ring.Int.Defs
import Mathlib.Algebra.Ring.Nat
import Mathlib.Data.Fintype.Basic
import Mathlib.Data.Multiset.Count

/-!
# What a population of actors holds

A system of actors over shared memory is easiest to reason about when every program point is
given the multiset of *tokens* an actor at that point holds — its claims on the shared blocks —
and the invariant of the memory speaks about the sum of all tokens only. A step replaces the
tokens of one actor, so it is enough to check it against an arbitrary rest:
`holdings_eq` and `holdings_update` split the sum that way.
-/

namespace Lib

variable {τ P T : Type*} [Fintype τ] [DecidableEq τ]

/-! ## Holdings -/

/-- The tokens all actors hold together. -/
def holdings (tok : P → Multiset T) (pc : τ → P) : Multiset T := ∑ t, tok (pc t)

/-- The tokens the actors other than `t` hold. -/
def others (tok : P → Multiset T) (pc : τ → P) (t : τ) : Multiset T :=
  ∑ t' ∈ Finset.univ.erase t, tok (pc t')

variable (tok : P → Multiset T) (pc : τ → P)

/-! ## One actor and the others -/

theorem holdings_eq (t : τ) : holdings tok pc = others tok pc t + tok (pc t) :=
  (Finset.sum_erase_add _ _ (Finset.mem_univ t)).symm

theorem others_update (t : τ) (p : P) :
    others tok (Function.update pc t p) t = others tok pc t :=
  Finset.sum_congr rfl fun t' ht' ↦ by
    rw [Function.update_of_ne (Finset.ne_of_mem_erase ht')]

/-- When one actor moves, the others keep what they hold. -/
theorem holdings_update (t : τ) (p : P) :
    holdings tok (Function.update pc t p) = others tok pc t + tok p := by
  rw [holdings_eq tok _ t, others_update, Function.update_self]

theorem mem_holdings {t : τ} {a : T} (h : a ∈ tok (pc t)) : a ∈ holdings tok pc := by
  rw [holdings_eq tok pc t]
  exact Multiset.mem_add.mpr (Or.inr h)

omit [DecidableEq τ] in
theorem countP_holdings (p : T → Prop) [DecidablePred p] :
    (holdings tok pc).countP p = ∑ t, (tok (pc t)).countP p :=
  map_sum (Multiset.countPAddMonoidHom p) _ _

/-- Two actors that both hold a token of a kind hold two of it. -/
theorem countP_two_le (p : T → Prop) [DecidablePred p] {t t' : τ} (h : t ≠ t')
    (ht : 0 < (tok (pc t)).countP p) (ht' : 0 < (tok (pc t')).countP p) :
    2 ≤ (holdings tok pc).countP p := by
  have hmem : t' ∈ Finset.univ.erase t := Finset.mem_erase.mpr ⟨h.symm, Finset.mem_univ t'⟩
  have hle : tok (pc t') ≤ others tok pc t :=
    Finset.single_le_sum (fun _ _ ↦ Multiset.zero_le _) hmem
  have hrest := Multiset.countP_le_of_le p hle
  rw [holdings_eq tok pc t, Multiset.countP_add]
  omega

end Lib
