import ZTask.Lib.LinkQueue
import ZTask.Timer.Wheel
import Mathlib.Data.Int.Notation
import Mathlib.Logic.Function.Iterate

/-!
# Cancelling a timer

`ztask_timeout_del`, on the pointers of the lists: every list has a head node, of which only `next`
is used, and a pointer to its last node, which is the head node as long as the list is empty.
`Represents` says which nodes are on which list.

The function is followed from one access to the next, with a log of what it does to the lists and to
the lock of the wheel, since it need not come to an end.
-/

namespace ZTask

open Lib

/-- `struct timer_event` -/
structure TimeoutEvent where
  handle : ℕ
  session : ℤ
deriving DecidableEq, Repr

/-- The lists of `struct timer`. A pointer to the head node of a list is `none`. -/
structure TimerHeap (α : Type) where
  /-- `head.next` -/
  head : Slot → Option α
  tail : Slot → Option α
  next : α → Option α
  node : α → TimerNode TimeoutEvent

/-- The lists in the order in which they are searched. -/
def timerSlots : List Slot :=
  (List.range timeNear).map Slot.near ++
    (List.range 4).flatMap fun i ↦ (List.range timeLevel).map (Slot.level i)

namespace TimerHeap

variable {α : Type}

/-- `timer_create_timer`: `link_clear` for all lists. -/
def create (node : α → TimerNode TimeoutEvent) : TimerHeap α :=
    ⟨fun _ ↦ none, fun _ ↦ none, fun _ ↦ none, node⟩

variable [DecidableEq α]

/-- `node->next = x`, where the node may be the head of the list. -/
def setNext (W : TimerHeap α) (slot : Slot) (node x : Option α) : TimerHeap α :=
  match node with
  | none => { W with head := Function.update W.head slot x }
  | some a => { W with next := Function.update W.next a x }

/-- `link` -/
def link (W : TimerHeap α) (slot : Slot) (node : α) : TimerHeap α :=
  let W := W.setNext slot (W.tail slot) (some node)
  { W with
    tail := Function.update W.tail slot (some node)
    next := Function.update W.next node none }

/-- The node is taken out of the list; `old` is the one before it. -/
def unlink (W : TimerHeap α) (slot : Slot) (old : Option α) (node : α) : TimerHeap α :=
  let W := W.setNext slot old (W.next node)
  if W.tail slot = some node then { W with tail := Function.update W.tail slot old } else W

end TimerHeap

inductive DelAction (α : Type)
  | lock
  | unlock
  /-- A list is read or written. -/
  | touch (slot : Slot)
  | free (node : α)
deriving DecidableEq, Repr

/-- Where `ztask_timeout_del` is. -/
inductive DelPc (α : Type)
  /-- At the test of `while`, for the first of the lists that are left. -/
  | outer (slots : List Slot)
  /-- At the test of the inner `while`. -/
  | walk (slot : Slot) (rest : List Slot) (old node : Option α)
  | returned
deriving DecidableEq, Repr

structure DelState (α : Type) where
  heap : TimerHeap α
  pc : DelPc α
  log : List (DelAction α)

section Del

variable {α : Type} [DecidableEq α] (handle : ℕ) (session : ℤ)

def TimerHeap.Matches (W : TimerHeap α) (handle : ℕ) (session : ℤ) (a : α) : Prop :=
  (W.node a).arg.session = session ∧ (W.node a).arg.handle = handle

instance TimerHeap.decidableMatches (W : TimerHeap α) (handle : ℕ) (session : ℤ) :
    DecidablePred (W.Matches handle session) :=
  fun _ ↦ inferInstanceAs (Decidable (_ ∧ _))

/-- One iteration of a loop of `ztask_timeout_del`. -/
def delStep (s : DelState α) : DelState α :=
  match s.pc with
  | .outer [] => { s with pc := .returned }
  | .outer (slot :: rest) =>
    match s.heap.head slot with
    | none => { s with pc := .outer rest, log := s.log ++ [.touch slot] }
    | some _ =>
      { s with
        pc := .walk slot rest none (s.heap.head slot)
        log := s.log ++ [.touch slot, .unlock, .touch slot] }
  | .walk slot rest old node =>
    match node with
    | none => { s with pc := .outer (slot :: rest), log := s.log ++ [.lock] }
    | some a =>
      if s.heap.Matches handle session a then
        ⟨s.heap.unlink slot old a, .returned, s.log ++ [.touch slot, .free a]⟩
      else
        { s with pc := .walk slot rest (some a) (s.heap.next a), log := s.log ++ [.touch slot] }
  | .returned => s

/-- `ztask_timeout_del`, after some iterations. -/
def timeoutDel (W : TimerHeap α) (n : ℕ) : DelState α :=
  (delStep handle session)^[n] ⟨W, .outer timerSlots, []⟩

end Del

/-! ## What it is for -/

/-- Whether the lock is held after the log, if everything in the log has been in order: it is taken
when it is free and given up when it is held, and no list is touched without it. -/
def holdsLock {α : Type} : Bool → List (DelAction α) → Option Bool
  | held, [] => some held
  | false, .lock :: log => holdsLock true log
  | true, .unlock :: log => holdsLock false log
  | true, .touch _ :: log => holdsLock true log
  | held, .free _ :: log => holdsLock held log
  | _, _ :: _ => none

section Spec

variable {α : Type}

/-- The nodes of every list, from its head on. No node is on two lists. -/
structure TimerHeap.Represents (W : TimerHeap α) (l : Slot → List α) : Prop where
  chain : ∀ slot, LinkQueue.Chain W.next (W.head slot) (l slot)
  tail : ∀ slot, W.tail slot = (l slot).getLast?
  nodup : ∀ slot, (l slot).Nodup
  disjoint : ∀ slot slot', slot ≠ slot' → ∀ a ∈ l slot, a ∉ l slot'

/-- What the wheel of the other functions has in its lists. -/
def TimerHeap.nodes (W : TimerHeap α) (l : Slot → List α) (slot : Slot) :
    List (TimerNode TimeoutEvent) :=
  (l slot).map W.node

variable [DecidableEq α]

/-- One node with this handle and session goes, if there is one, and nothing else changes. `freed`
are the nodes that have been freed. -/
def Cancelled (W : TimerHeap α) (handle : ℕ) (session : ℤ) (l l' : Slot → List α) (freed : List α) :
    Prop :=
  (∃ slot ∈ timerSlots, ∃ a ∈ l slot, W.Matches handle session a ∧
    l' = Function.update l slot ((l slot).erase a) ∧ freed = [a]) ∨
  (∀ slot ∈ timerSlots, ∀ a ∈ l slot, ¬ W.Matches handle session a) ∧ l' = l ∧ freed = []

def DelState.freed (s : DelState α) : List α :=
  s.log.filterMap fun
    | .free a => some a
    | .lock | .unlock | .touch _ => none

/-- `ztask_timeout_del` does what it is for: it returns, it has taken out one node with this handle
and session and left the lists in order, and it has held the lock whenever it has touched a list and
given it up in the end. -/
structure Cancels (W : TimerHeap α) (handle : ℕ) (session : ℤ) (l : Slot → List α) : Prop where
  returns : ∃ n, (timeoutDel handle session W n).pc = .returned
  removes : ∀ n, (timeoutDel handle session W n).pc = .returned →
    ∃ l', Cancelled W handle session l l' (timeoutDel handle session W n).freed ∧
      (timeoutDel handle session W n).heap.Represents l' ∧
      (timeoutDel handle session W n).heap.node = W.node
  locks : ∀ n, holdsLock false (timeoutDel handle session W n).log ≠ none
  unlocks : ∀ n, (timeoutDel handle session W n).pc = .returned →
    holdsLock false (timeoutDel handle session W n).log = some false

/-- The first list that is not empty has a node with this handle and session. -/
def FirstListHas (W : TimerHeap α) (handle : ℕ) (session : ℤ) (l : Slot → List α) : Prop :=
  ∃ pre slot rest, timerSlots = pre ++ slot :: rest ∧ (∀ slot' ∈ pre, l slot' = []) ∧
    ∃ a ∈ l slot, W.Matches handle session a

end Spec

end ZTask
