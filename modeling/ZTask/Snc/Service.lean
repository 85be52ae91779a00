import ZTask.Lib.Machine
import ZTask.Timer.Cancel
import Mathlib.Logic.Function.Basic
import Mathlib.Data.Int.Notation

/-!
# Requests of coroutines in an snc service

`service_snc.c`: a service whose messages are handled by coroutines. A coroutine gets a session
number when it is created and keeps it; every request it sends and every timer it starts carries
this number, and a response or an expired timer comes back as a message of type `PTYPE_RESPONSE`
with the number, by which `_cb` finds the coroutine to resume.

An operation is numbered when it is issued, and requests, timers and the messages they lead to are
tagged with the operation they belong to (`origin`). The tags are bookkeeping of the model: nothing
the code does depends on them.

The timers are on the lists of one wheel for all services, with the handle of the service that each
belongs to. On which list `ztask_timeout` puts a timer, when it is moved to another one and when it
expires is left open here, so that a run of the wheel is one of the possibilities. What matters is
the order of the lists: an operation that is answered before its timeout calls `ztask_timeout_del`,
which searches the first list that is not empty, and that list only. If the timer is not on it, the
function goes round this list as long as the list stays as it is. The function walks without the
lock of the wheel; it is taken for one step, so nothing here is about what another thread may do to
a list meanwhile.

The service runs one coroutine at a time. A step is what happens between two points at which
something else may: a message is taken up, the running coroutine issues an operation and is
suspended, or ends; outside the service, a request is answered, a timer is moved or expires, another
service starts a timer, or a message of another type arrives.
-/

namespace ZTask

open Lib

/-! ## States -/

def ptypeResponse : ℕ := 1

/-- A message in the queue of the service. -/
structure SncMessage where
  type : ℕ
  session : ℕ
  /-- The address of the payload; `NULL` is `none`. -/
  msg : Option ℕ
  sz : ℕ
  origin : Option ℕ

/-- The operations that suspend a coroutine. `sent` says whether `ztask_send` found the destination
of the request. -/
inductive SncOp
  | call (sent : Bool)
  | callname (sent : Bool)
  | callnameS (sent : Bool) (time : ℤ)
  | sleep (time : ℤ)
  | yieldS (time : ℤ)
deriving DecidableEq, Repr

/-- `coroutine_t`: its session, the operation it is suspended in, and what it was last resumed
with. -/
structure Coroutine where
  session : ℕ
  op : Option (ℕ × SncOp)
  msg : Option ℕ
  sz : ℕ

/-- A request that has not been answered. -/
structure Pending where
  session : ℕ
  origin : ℕ

/-- A timer that has not expired, and the list of the wheel that it is on. -/
structure SncTimer where
  slot : Slot
  handle : ℕ
  session : ℕ
  /-- None for a timer of another service. -/
  origin : Option ℕ

/-- `struct snc`, with what is under way for the service outside of it. -/
structure Snc where
  /-- `ctx->handle`. -/
  handle : ℕ
  /-- `ctx->session_id`. -/
  sessionId : ℕ
  /-- The red-black tree of coroutines, by session. -/
  tree : ℕ → Option ℕ
  /-- The coroutines, by address. -/
  co : ℕ → Option Coroutine
  running : Option ℕ
  mailbox : List SncMessage
  requests : List Pending
  /-- The lists of the wheel, which are those of the timers with a slot, in this order. -/
  timers : List SncTimer
  /-- The number of operations issued. -/
  issued : ℕ

inductive SncFault
  /-- `RB_REMOVE` of a coroutine that is not in the tree. -/
  | notInTree
  /-- A coroutine that is not suspended is resumed. -/
  | notSuspended
  /-- A coroutine that has been deleted is used. -/
  | dangling
  /-- `ztask_timeout_del` does not return as long as the lists stay as they are. -/
  | spins
deriving DecidableEq, Repr

/-! ## Sessions and timers -/

/-- `ztask_context_newsession`: the next positive `int`. -/
def newsession (sessionId : ℕ) : ℕ := if sessionId + 1 < 2 ^ 31 then sessionId + 1 else 1

namespace Snc

/-- `ztask_send` or `ztask_sendname` of a request. -/
def send (s : Snc) (session id : ℕ) (sent : Bool) : Snc :=
  if sent then { s with requests := s.requests ++ [⟨session, id⟩] } else s

/-- `ztask_timeout`, where the wheel links the timer to the end of the list `slot`. -/
def timeout (s : Snc) (session id : ℕ) (time : ℤ) (slot : Slot) : Snc :=
  if time ≤ 0 then
    { s with mailbox := s.mailbox ++ [⟨ptypeResponse, session, none, 0, some id⟩] }
  else { s with timers := s.timers ++ [⟨slot, s.handle, session, some id⟩] }

/-- The first of the lists that is not empty. -/
def firstSlot (s : Snc) : Option Slot := timerSlots.find? fun slot ↦ s.timers.any (·.slot = slot)

/-- A node that `ztask_timeout_del` is looking for, in the list that it searches. -/
def Sought (s : Snc) (session : ℕ) (slot : Slot) (t : SncTimer) : Prop :=
  t.slot = slot ∧ t.session = session ∧ t.handle = s.handle

instance decidableSought (s : Snc) (session : ℕ) (slot : Slot) :
    DecidablePred (s.Sought session slot) :=
  fun _ ↦ inferInstanceAs (Decidable (_ ∧ _))

/-- `ztask_timeout_del`, if it returns: nothing is to be done if all lists are empty, and otherwise
it stays at the first one that is not. -/
def timeoutDel (s : Snc) (session : ℕ) : Except SncFault Snc :=
  match s.firstSlot with
  | none => .ok s
  | some slot =>
    if s.timers.any (s.Sought session slot) then
      .ok { s with timers := s.timers.eraseP (s.Sought session slot) }
    else .error .spins

/-- What an operation does before `coroutine_yield`. -/
def beforeYield (s : Snc) (session id : ℕ) (slot : Slot) : SncOp → Snc
  | .call sent | .callname sent => s.send session id sent
  | .callnameS sent time => (s.send session id sent).timeout session id time slot
  | .sleep time | .yieldS time => s.timeout session id time slot

/-- What an operation does after `coroutine_yield`. -/
def afterYield (s : Snc) (session : ℕ) (msg : Option ℕ) (sz : ℕ) : SncOp → Except SncFault Snc
  | .callnameS _ _ | .yieldS _ => if msg.isSome ∨ sz ≠ 0 then s.timeoutDel session else .ok s
  | .call _ | .callname _ | .sleep _ => .ok s

/-! ## Messages -/

/-- The part of `_cb` for a response: the operation it completes, with the tag of the message. -/
def resume (s : Snc) (m : SncMessage) : Except SncFault (Snc × Option (ℕ × Option ℕ)) :=
  match s.tree m.session with
  | none => .ok (s, none)
  | some c =>
    match s.co c with
    | none => .error .dangling
    | some x =>
      match x.op with
      | none => .error .notSuspended
      | some (id, op) =>
        let s' := { s with
          co := Function.update s.co c (some { x with op := none, msg := m.msg, sz := m.sz })
          running := some c }
        (s'.afterYield x.session m.msg m.sz op).map fun s'' ↦ (s'', some (id, m.origin))

/-- The part of `_cb` for any other message: a coroutine at the address `c` starts. `RB_INSERT`
leaves the tree alone if the session is in it. -/
def start (s : Snc) (m : SncMessage) (c : ℕ) : Snc :=
  let session := newsession s.sessionId
  { s with
    sessionId := session
    co := Function.update s.co c (some ⟨session, none, m.msg, m.sz⟩)
    tree := if s.tree session = none then Function.update s.tree session (some c) else s.tree
    running := some c }

/-- The running coroutine issues an operation and is suspended. -/
def issue (s : Snc) (op : SncOp) (slot : Slot) : Except SncFault Snc :=
  match s.running with
  | none => .ok s
  | some c =>
    match s.co c with
    | none => .error .dangling
    | some x =>
      let s' := s.beforeYield x.session s.issued slot op
      .ok { s' with
        co := Function.update s.co c (some { x with op := some (s.issued, op) })
        running := none
        issued := s.issued + 1 }

/-- The running coroutine ends and is deleted. -/
def finish (s : Snc) : Except SncFault Snc :=
  match s.running with
  | none => .ok s
  | some c =>
    match s.co c with
    | none => .error .dangling
    | some x =>
      if s.tree x.session = some c then .ok { s with
        tree := Function.update s.tree x.session none
        co := Function.update s.co c none
        running := none }
      else .error .notInTree

/-- The `i`-th request is answered. -/
def respond (s : Snc) (i : ℕ) (msg : Option ℕ) (sz : ℕ) : Snc :=
  match s.requests[i]? with
  | none => s
  | some r => { s with
      requests := s.requests.eraseIdx i
      mailbox := s.mailbox ++ [⟨ptypeResponse, r.session, msg, sz, some r.origin⟩] }

/-- The `i`-th timer expires, and its service gets a message. -/
def fire (s : Snc) (i : ℕ) : Snc :=
  match s.timers[i]? with
  | none => s
  | some t => { s with
      timers := s.timers.eraseIdx i
      mailbox := if t.handle = s.handle then
          s.mailbox ++ [⟨ptypeResponse, t.session, none, 0, t.origin⟩]
        else s.mailbox }

/-- The `i`-th timer is moved to the end of another list. -/
def move (s : Snc) (i : ℕ) (slot : Slot) : Snc :=
  match s.timers[i]? with
  | none => s
  | some t => { s with timers := s.timers.eraseIdx i ++ [{ t with slot }] }

/-- A service without coroutines. -/
def init (handle : ℕ) : Snc := ⟨handle, 0, fun _ ↦ none, fun _ ↦ none, none, [], [], [], 0⟩

end Snc

/-! ## The machine -/

inductive SncInput
  /-- The next message is taken up; `c` is where a new coroutine would be allocated. -/
  | deliver (c : ℕ)
  /-- `slot` is the list for a timer of the operation. -/
  | issue (op : SncOp) (slot : Slot)
  | finish
  | respond (i : ℕ) (msg : Option ℕ) (sz : ℕ)
  | fire (i : ℕ)
  | move (i : ℕ) (slot : Slot)
  /-- Another service starts a timer. -/
  | timeout (slot : Slot) (handle session : ℕ)
  | receive (type session : ℕ) (msg : Option ℕ) (sz : ℕ)
deriving DecidableEq, Repr

/-- The service. The output of a delivery is the operation it completed, if any, and the operation
the message belongs to. -/
def snc : Machine Snc SncInput (Option (ℕ × Option ℕ)) SncFault
  | s, .deliver c =>
    match s.running, s.mailbox with
    | none, m :: rest =>
      let s' := { s with mailbox := rest }
      if m.type = ptypeResponse then s'.resume m else .ok (s'.start m c, none)
    | _, _ => .ok (s, none)
  | s, .issue op slot => do
    let s' ← s.issue op slot
    return (s', none)
  | s, .finish => do
    let s' ← s.finish
    return (s', none)
  | s, .respond i msg sz => .ok (s.respond i msg sz, none)
  | s, .fire i => .ok (s.fire i, none)
  | s, .move i slot => .ok (s.move i slot, none)
  | s, .timeout slot handle session =>
    .ok ({ s with timers := s.timers ++ [⟨slot, handle, session, none⟩] }, none)
  | s, .receive type session msg sz =>
    .ok ({ s with mailbox := s.mailbox ++ [⟨type, session, msg, sz, none⟩] }, none)

/-- The allocator returns a block that is not in use, a timer of another service has another handle,
and nobody sends a response unasked. -/
def SncInput.Allowed (s : Snc) : SncInput → Prop
  | deliver c => s.co c = none
  | timeout _ handle _ => handle ≠ s.handle
  | receive type _ _ _ => type ≠ ptypeResponse
  | _ => True

instance SncInput.decidableAllowed (s : Snc) : ∀ i : SncInput, Decidable (i.Allowed s)
  | .deliver c => inferInstanceAs (Decidable (s.co c = none))
  | .timeout _ handle _ => inferInstanceAs (Decidable (handle ≠ s.handle))
  | .receive type _ _ _ => inferInstanceAs (Decidable (type ≠ ptypeResponse))
  | .issue _ _ | .finish | .respond _ _ _ | .fire _ | .move _ _ => .isTrue trivial

end ZTask
