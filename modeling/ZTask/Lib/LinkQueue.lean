import Mathlib.Algebra.Ring.Int.Defs
import Mathlib.Algebra.Ring.Nat
import Mathlib.Data.List.Basic
import Mathlib.Logic.Function.Basic

/-!
# A FIFO list threaded through its own nodes

The classical intrusive queue: a head pointer, a tail pointer, and one `next` link inside every
node. Nothing in the pointers says which nodes are in the list or that a node is in it once;
`Represents` says so, by naming the list of nodes from head to tail.

`push_represents` and `pop_represents` are the two rules a client uses. The first needs the
pushed node to be off the list: pushing a node twice ties the chain into a knot that no list
represents.
-/

namespace Lib

variable {α : Type*}

/-! ## The queue -/

/-- The pointers of the queue. -/
structure LinkQueue (α : Type*) where
  /-- The first node. -/
  head : Option α
  /-- The last node. -/
  tail : Option α
  /-- The link inside each node. -/
  next : α → Option α

namespace LinkQueue

/-- The queue with no node; every link is clear. -/
def empty : LinkQueue α := ⟨none, none, fun _ ↦ none⟩

/-- Append a node: link it behind the last one, or make it the only one. -/
def push [DecidableEq α] (g : LinkQueue α) (a : α) : LinkQueue α :=
  match g.tail with
  | some t => { g with next := Function.update g.next t (some a), tail := some a }
  | none => { g with head := some a, tail := some a }

/-- Unlink the first node and clear its link. -/
def pop [DecidableEq α] (g : LinkQueue α) : Option α × LinkQueue α :=
  match g.head with
  | none => (none, g)
  | some a =>
    (some a,
      { head := g.next a
        tail := if g.next a = none then none else g.tail
        next := Function.update g.next a none })

/-! ## The chain -/

/-- The links lead from `p` through exactly the nodes of the list. -/
def Chain (next : α → Option α) : Option α → List α → Prop
  | p, [] => p = none
  | p, a :: l => p = some a ∧ Chain next (next a) l

/-- The queue holds exactly the nodes of `l`, from head to tail and each once, and a node that is
off the list has a clear link. -/
structure Represents (g : LinkQueue α) (l : List α) : Prop where
  /-- The links lead through the list. -/
  chain : Chain g.next g.head l
  /-- The tail pointer points at the last node. -/
  tail_eq : g.tail = l.getLast?
  /-- No node is on the list twice. -/
  nodup : l.Nodup
  /-- A node off the list has a clear link. -/
  clear : ∀ a ∉ l, g.next a = none

theorem empty_represents : (empty : LinkQueue α).Represents [] where
  chain := rfl
  tail_eq := rfl
  nodup := List.nodup_nil
  clear := fun _ _ ↦ rfl

variable {g : LinkQueue α} {l : List α} {a : α}

/-! ## Chains -/

theorem chain_congr {next next' : α → Option α} {p : Option α}
    (h : ∀ a ∈ l, next' a = next a) : Chain next' p l ↔ Chain next p l := by
  induction l generalizing p with
  | nil => exact Iff.rfl
  | cons a l ih =>
    rw [Chain, Chain, h a List.mem_cons_self, ih fun b hb ↦ h b (List.mem_cons_of_mem a hb)]

/-- Relinking the last node appends to the chain. -/
theorem chain_concat [DecidableEq α] {next : α → Option α} {p : Option α} {t : α}
    (hc : Chain next p l) (hnd : l.Nodup) (ht : l.getLast? = some t) (ha : a ∉ l)
    (hclear : next a = none) : Chain (Function.update next t (some a)) p (l ++ [a]) := by
  induction l generalizing p with
  | nil => simp at ht
  | cons b l ih =>
    obtain ⟨hp, hc⟩ := hc
    obtain ⟨hb, hnd⟩ := List.nodup_cons.mp hnd
    refine ⟨hp, ?_⟩
    cases l with
    | nil =>
      obtain rfl : b = t := by simpa using ht
      have hab : a ≠ b := fun h ↦ ha (by simp [h])
      simp [Chain, hab, hclear]
    | cons c l =>
      have ht' : (c :: l).getLast? = some t := by rwa [List.getLast?_cons_cons] at ht
      have hbt : b ≠ t := fun h ↦ hb (h ▸ List.mem_of_getLast? ht')
      rw [Function.update_of_ne hbt]
      exact ih hc hnd ht' fun h ↦ ha (List.mem_cons_of_mem b h)

/-- A node is passed over: its predecessor takes its link. -/
theorem chain_unlink [DecidableEq α] {next : α → Option α} {p : Option α} {t : α}
    {pre post : List α}
    (hc : Chain next p (pre ++ a :: post)) (hnd : (pre ++ a :: post).Nodup)
    (ht : pre.getLast? = some t) :
    Chain (Function.update next t (next a)) p (pre ++ post) := by
  induction pre generalizing p with
  | nil => cases ht
  | cons b pre ih =>
    obtain ⟨hp, hc⟩ := hc
    obtain ⟨hb, hnd⟩ := List.nodup_cons.mp hnd
    refine ⟨hp, ?_⟩
    cases pre with
    | nil =>
      obtain rfl : b = t := Option.some.inj ht
      rw [Function.update_self]
      have hne : ∀ c ∈ post, c ≠ b := fun c hmem heq ↦ hb (List.mem_cons_of_mem a (heq ▸ hmem))
      exact (chain_congr fun c hmem ↦ Function.update_of_ne (hne c hmem) (next a) next).mpr hc.2
    | cons c pre =>
      have ht' : (c :: pre).getLast? = some t := by rwa [List.getLast?_cons_cons] at ht
      have hbt : b ≠ t := fun h ↦ hb (List.mem_append_left _ (h ▸ List.mem_of_getLast? ht'))
      rw [Function.update_of_ne hbt]
      exact ih hc hnd ht'

/-! ## The queue as a list -/

/-- A node that may be pushed has a clear link. -/
theorem Represents.next_eq_none (h : g.Represents l) (ha : a ∉ l) : g.next a = none :=
  h.clear a ha

/-- **Push.** A node that is off the list goes to its end. -/
theorem push_represents [DecidableEq α] (h : g.Represents l) (ha : a ∉ l) :
    (g.push a).Represents (l ++ [a]) := by
  have hnd : (l ++ [a]).Nodup := by
    rw [List.nodup_append]
    refine ⟨h.nodup, by simp, ?_⟩
    intro x hx y hy hxy
    exact ha (List.mem_singleton.mp hy ▸ hxy ▸ hx)
  cases ht : g.tail with
  | none =>
    obtain rfl : l = [] := List.getLast?_eq_none_iff.mp (h.tail_eq.symm.trans ht)
    rw [push, ht]
    exact ⟨⟨rfl, h.clear a ha⟩, rfl, hnd, fun b hb ↦ h.clear b (by simp)⟩
  | some t =>
    have htl : l.getLast? = some t := h.tail_eq.symm.trans ht
    have hpush : g.push a
        = { g with next := Function.update g.next t (some a), tail := some a } := by
      rw [push, ht]
    rw [hpush]
    refine ⟨chain_concat h.chain h.nodup htl ha (h.clear a ha), by simp, hnd, fun b hb ↦ ?_⟩
    have hbt : b ≠ t := fun e ↦ hb (by simp [e, List.mem_of_getLast? htl])
    exact (Function.update_of_ne hbt _ _).trans
      (h.clear b fun hbl ↦ hb (List.mem_append_left _ hbl))

/-- **Pop.** The first node comes off the list, with its link cleared, and when it was the only
one the tail pointer pointed at it. -/
theorem pop_represents [DecidableEq α] (h : g.Represents (a :: l)) :
    ∃ g', g.pop = (some a, g') ∧ g'.Represents l ∧ (g.next a = none → g.tail = some a) := by
  obtain ⟨hh, hc⟩ := h.chain
  obtain ⟨ha, hnd⟩ := List.nodup_cons.mp h.nodup
  have hnext : g.next a = none ↔ l = [] := by
    cases l with
    | nil => simpa [Chain] using hc
    | cons b l => simp [hc.1]
  refine ⟨_, by rw [pop, hh], ⟨?_, ?_, hnd, ?_⟩, ?_⟩
  · have hne : ∀ b ∈ l, b ≠ a := fun b hb e ↦ ha (e ▸ hb)
    exact (chain_congr fun b hb ↦ Function.update_of_ne (hne b hb) none g.next).mpr hc
  · cases l with
    | nil => simp [hnext]
    | cons b l => simpa [hnext] using h.tail_eq
  · intro b hb
    by_cases hba : b = a
    · rw [hba]
      exact Function.update_self _ _ _
    · exact (Function.update_of_ne hba _ _).trans (h.clear b (by simp [hba, hb]))
  · intro hn
    rw [h.tail_eq, hnext.mp hn]
    rfl

end LinkQueue

end Lib
