import Mathlib.Algebra.Ring.Int.Defs
import Mathlib.Algebra.Ring.Nat
import Mathlib.Data.List.Forall2
import Mathlib.Data.List.Perm.Basic

/-!
# Outgoing lines

A line to some destination: messages are accepted, may have to wait, and are sent. An accepted
message is sent at once or stored, perhaps not quite as it was accepted; what is stored is sent
later, all at a time. Whatever the order of the moves, nothing is lost and nothing is sent twice
(`Complete.apply`); and if nothing is sent past what is waiting, everything is sent in the order in
which it was accepted (`Ordered.apply`).

Both rules are about a relation `R`: what may become of a message while it waits. If messages are
stored as they are accepted, it is equality.
-/

namespace Lib

/-! ## Moves -/

/-- What has been sent, what is waiting, and what has been accepted. -/
structure Outbox (α : Type*) where
  sent : List α
  waiting : List α
  accepted : List α

namespace Outbox

variable {α : Type*} {R : α → α → Prop}

/-- What may happen to a line. -/
inductive Move (α : Type*)
  /-- Messages are accepted and sent. -/
  | post (ms : List α)
  /-- The messages `ms` are accepted, and stored as `stored`. -/
  | store (ms stored : List α)
  /-- What is waiting is sent. -/
  | flush

/-- What a move sends. -/
def Move.out (waiting : List α) : Move α → List α
  | post ms => ms
  | store _ _ => []
  | flush => waiting

/-- What is waiting after a move. -/
def Move.left (waiting : List α) : Move α → List α
  | post _ => waiting
  | store _ stored => waiting ++ stored
  | flush => []

/-- What a move accepts. -/
def Move.taken : Move α → List α
  | post ms => ms
  | store ms _ => ms
  | flush => []

def apply (o : Outbox α) (m : Move α) : Outbox α where
  sent := o.sent ++ m.out o.waiting
  waiting := m.left o.waiting
  accepted := o.accepted ++ m.taken

/-- What is stored is what may become of the messages. -/
def Move.Keeps (R : α → α → Prop) : Move α → Prop
  | store ms stored => List.Forall₂ R stored ms
  | _ => True

theorem Move.Keeps.imp {S : α → α → Prop} {m : Move α} (hm : m.Keeps R)
    (h : ∀ a b, R a b → S a b) : m.Keeps S := by
  cases m with
  | store ms stored => exact List.Forall₂.imp h hm
  | post _ | flush => trivial

/-- Nothing is sent past what is waiting. -/
def Move.InOrder (waiting : List α) : Move α → Prop
  | post ms => waiting = [] ∨ ms = []
  | _ => True

/-! ## What is kept -/

/-- Every accepted message has been sent or is waiting, once. -/
def Complete (R : α → α → Prop) (o : Outbox α) : Prop :=
  ∃ l, (o.sent ++ o.waiting).Perm l ∧ List.Forall₂ R l o.accepted

/-- What has been sent and then what is waiting is what was accepted, in order. -/
def Ordered (R : α → α → Prop) (o : Outbox α) : Prop :=
  List.Forall₂ R (o.sent ++ o.waiting) o.accepted

/-! ## Moves keep it -/

theorem complete_empty : Complete R ⟨[], [], []⟩ := ⟨[], List.Perm.nil, List.Forall₂.nil⟩

theorem ordered_empty : Ordered R ⟨[], [], []⟩ := List.Forall₂.nil

/-- **Nothing is lost, and nothing is sent twice.** -/
theorem Complete.apply [Std.Refl R] {o : Outbox α} {m : Move α} (h : o.Complete R)
    (hm : m.Keeps R) : (o.apply m).Complete R := by
  obtain ⟨l, hperm, hl⟩ := h
  cases m with
  | post ms =>
    refine ⟨l ++ ms, ?_, List.rel_append hl (List.forall₂_refl ms)⟩
    have hswap := hperm.append_right ms
    rw [List.append_assoc] at hswap
    simp only [Outbox.apply, Move.out, Move.left, List.append_assoc]
    exact (List.perm_append_comm.append_left _).trans hswap
  | store ms stored =>
    refine ⟨l ++ stored, ?_, List.rel_append hl hm⟩
    simp only [Outbox.apply, Move.out, Move.left, List.append_nil]
    rw [← List.append_assoc]
    exact hperm.append_right stored
  | flush =>
    refine ⟨l, ?_, ?_⟩
    · simpa only [Outbox.apply, Move.out, Move.left, List.append_nil] using hperm
    · simpa only [Outbox.apply, Move.taken, List.append_nil] using hl

/-- **First come, first served.** -/
theorem Ordered.apply [Std.Refl R] {o : Outbox α} {m : Move α} (h : o.Ordered R)
    (hm : m.Keeps R) (hord : m.InOrder o.waiting) : (o.apply m).Ordered R := by
  rw [Ordered] at h ⊢
  cases m with
  | post ms =>
    have hswap : o.sent ++ ms ++ o.waiting = o.sent ++ o.waiting ++ ms := by
      rcases hord with hnil | rfl
      · rw [hnil, List.append_nil, List.append_nil]
      · rw [List.append_nil, List.append_nil]
    simp only [Outbox.apply, Move.out, Move.left, Move.taken]
    rw [hswap]
    exact List.rel_append h (List.forall₂_refl ms)
  | store ms stored =>
    simp only [Outbox.apply, Move.out, Move.left, Move.taken, List.append_nil]
    rw [← List.append_assoc]
    exact List.rel_append h hm
  | flush => simpa only [Outbox.apply, Move.out, Move.left, Move.taken, List.append_nil] using h

/-- If messages are stored as they are accepted, what is not waiting has been sent. -/
theorem Complete.perm {o : Outbox α} (h : o.Complete Eq) (hwaiting : o.waiting = []) :
    o.sent.Perm o.accepted := by
  obtain ⟨l, hperm, hl⟩ := h
  rw [List.forall₂_eq_eq_eq] at hl
  rwa [hwaiting, List.append_nil, hl] at hperm

end Outbox

end Lib
