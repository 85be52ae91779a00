import Mathlib.Algebra.Ring.Int.Defs
import Mathlib.Algebra.Ring.Nat
import Mathlib.Data.List.Basic
import Mathlib.Logic.Function.Basic

/-!
# Tickets that wait

Requests are numbered as they come. A request is served at once, or waits at some place; what waits
at a place is served all at a time. If this is all that happens, no request is served twice, and
none waits that has been served (`Served`).

Where a request waits is up to the program. The rules are one for each thing that may happen; a step
of the program is a sequence of them.
-/

namespace Lib

variable {P : Type*}

/-! ## Tickets -/

/-- The numbers that wait, at each place, the numbers given so far, and those that have been served.
-/
structure Served (waiting : P → List ℕ) (next : ℕ) (served : List ℕ) : Prop where
  waiting_lt : ∀ {p k}, k ∈ waiting p → k < next
  served_lt : ∀ {k}, k ∈ served → k < next
  nodup : ∀ p, (waiting p).Nodup
  apart : ∀ {p p' k}, k ∈ waiting p → k ∈ waiting p' → p = p'
  once : served.Nodup
  unserved : ∀ {p k}, k ∈ waiting p → k ∉ served

namespace Served

variable {waiting : P → List ℕ} {next : ℕ} {served : List ℕ}

/-! ## Steps -/

theorem start : Served (fun _ : P ↦ []) 0 [] where
  waiting_lt h := (nomatch h)
  served_lt h := (nomatch h)
  nodup _ := .nil
  apart h := (nomatch h)
  once := .nil
  unserved h := (nomatch h)

/-- A request comes, and neither waits nor is served. -/
theorem skip (h : Served waiting next served) : Served waiting (next + 1) served where
  waiting_lt hk := Nat.lt_succ_of_lt (h.waiting_lt hk)
  served_lt hk := Nat.lt_succ_of_lt (h.served_lt hk)
  nodup := h.nodup
  apart := h.apart
  once := h.once
  unserved := h.unserved

/-- A request comes and is served at once. -/
theorem take (h : Served waiting next served) : Served waiting (next + 1) (served ++ [next]) where
  waiting_lt hk := Nat.lt_succ_of_lt (h.waiting_lt hk)
  served_lt hk := by
    rcases List.mem_append.mp hk with hk | hk
    · exact Nat.lt_succ_of_lt (h.served_lt hk)
    · rw [List.mem_singleton.mp hk]
      exact Nat.lt_succ_self next
  nodup := h.nodup
  apart := h.apart
  once := List.nodup_append.mpr ⟨h.once, List.pairwise_singleton _ _, fun k hk k' hk' heq ↦ by
    rw [List.mem_singleton.mp hk'] at heq
    exact Nat.lt_irrefl next (heq ▸ h.served_lt hk)⟩
  unserved hk hk' := by
    rcases List.mem_append.mp hk' with hk' | hk'
    · exact h.unserved hk hk'
    · rw [List.mem_singleton.mp hk'] at hk
      exact Nat.lt_irrefl next (h.waiting_lt hk)

/-- A request comes and waits at the place `p`. -/
theorem enter [DecidableEq P] (h : Served waiting next served) (p : P) :
    Served (Function.update waiting p (waiting p ++ [next])) (next + 1) served := by
  have hold : ∀ {p' k}, k ∈ Function.update waiting p (waiting p ++ [next]) p' →
      k ∈ waiting p' ∨ k = next ∧ p' = p := by
    intro p' k hk
    by_cases hp : p' = p
    · subst hp
      rw [Function.update_self] at hk
      exact (List.mem_append.mp hk).imp_right fun hk ↦ ⟨List.mem_singleton.mp hk, rfl⟩
    · rw [Function.update_of_ne hp] at hk
      exact .inl hk
  have hnew : ∀ p', next ∉ waiting p' := fun p' hk ↦ Nat.lt_irrefl next (h.waiting_lt hk)
  refine ⟨fun hk ↦ ?_, fun hk ↦ Nat.lt_succ_of_lt (h.served_lt hk), fun p' ↦ ?_,
    fun hk hk' ↦ ?_, h.once, fun hk hserved ↦ ?_⟩
  · rcases hold hk with hk | ⟨rfl, -⟩
    · exact Nat.lt_succ_of_lt (h.waiting_lt hk)
    · exact Nat.lt_succ_self _
  · by_cases hp : p' = p
    · subst hp
      rw [Function.update_self]
      refine List.nodup_append.mpr ⟨h.nodup p', List.pairwise_singleton _ _,
        fun k hk k' hk' heq ↦ hnew p' ?_⟩
      rw [List.mem_singleton.mp hk'] at heq
      exact heq ▸ hk
    · rw [Function.update_of_ne hp]
      exact h.nodup p'
  · rcases hold hk with hk | ⟨rfl, rfl⟩ <;> rcases hold hk' with hk' | ⟨hnext, hp⟩
    · exact h.apart hk hk'
    · exact (hnew _ (hnext ▸ hk)).elim
    · exact (hnew _ hk').elim
    · exact hp.symm
  · rcases hold hk with hk | ⟨rfl, -⟩
    · exact h.unserved hk hserved
    · exact Nat.lt_irrefl _ (h.served_lt hserved)

/-- What waits at the place `p` is served. -/
theorem flush [DecidableEq P] (h : Served waiting next served) (p : P) :
    Served (Function.update waiting p []) next (served ++ waiting p) := by
  have hold : ∀ {p' k}, k ∈ Function.update waiting p [] p' → k ∈ waiting p' ∧ p' ≠ p := by
    intro p' k hk
    by_cases hp : p' = p
    · rw [hp, Function.update_self] at hk
      cases hk
    · rw [Function.update_of_ne hp] at hk
      exact ⟨hk, hp⟩
  refine ⟨fun hk ↦ h.waiting_lt (hold hk).1, fun hk ↦ ?_, fun p' ↦ ?_,
    fun hk hk' ↦ h.apart (hold hk).1 (hold hk').1, ?_, fun hk hserved ↦ ?_⟩
  · rcases List.mem_append.mp hk with hk | hk
    · exact h.served_lt hk
    · exact h.waiting_lt hk
  · by_cases hp : p' = p
    · rw [hp, Function.update_self]
      exact .nil
    · rw [Function.update_of_ne hp]
      exact h.nodup p'
  · refine List.nodup_append.mpr ⟨h.once, h.nodup p, fun k hk k' hk' heq ↦ ?_⟩
    exact h.unserved hk' (heq ▸ hk)
  · obtain ⟨hk, hne⟩ := hold hk
    rcases List.mem_append.mp hserved with hserved | hserved
    · exact h.unserved hk hserved
    · exact hne (h.apart hk hserved)

/-- The places as the program has them. -/
theorem congr {waiting' : P → List ℕ} (h : Served waiting next served)
    (hwaiting : ∀ p, waiting' p = waiting p) : Served waiting' next served := by
  rw [show waiting' = waiting from funext hwaiting]
  exact h

end Served

end Lib
