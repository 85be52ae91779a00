import ZTask.Snc.Chain
import ZTask.Snc.Service

/-!
# The coroutines of an snc service

`service_snc.c`: how a service keeps its coroutines. A coroutine is made for the launch, for a
request and for a timer (`ztask_snc_timerout`); it gets a session, is counted as a task of the
context and is put into the tree of the service. It is resumed right away, or by a response with its
session, or by `ztask_snc_resume` in another coroutine. Wherever `coroutine_resume` returns 1, the
caller takes the coroutine out of the tree, deletes it and counts it off.

A coroutine that has been resumed may resume others itself, so several calls of `coroutine_resume`
may be under way; these are the frames of `coroutine.c`. A step goes from one point where a callback
of the user runs, or none does, to the next.

The tree is the list of the coroutines that are in it, and there is only one with a session:
`RB_INSERT` does nothing if it finds one.
-/

namespace ZTask

open Lib

/-- `struct snc` with its coroutines, and what its context counts. -/
structure SncTasks where
  cos : Coroutines
  /-- `session` of the coroutine at an address. -/
  session : ℕ → ℕ
  /-- `coroutine` -/
  tree : List ℕ
  /-- `session_id` of the context. -/
  sessionId : ℕ
  /-- `task_count` of the context. -/
  taskCount : ℕ
  /-- `_cb` is not null. -/
  hasCb : Bool
  /-- The callback of the context is `_cb` and not `launch_cb`. -/
  launched : Bool

/-- What happens to the coroutine with a session. -/
inductive SncAction
  | entered (session : ℕ)
  /-- Its callback returns. -/
  | finished (session : ℕ)
  /-- `RB_REMOVE` -/
  | removed (session : ℕ)
  /-- `coroutine_delete` frees it. -/
  | deleted (session : ℕ)
deriving DecidableEq, Repr

inductive SncTaskFault
  /-- `RB_REMOVE` of a coroutine that is not in the tree. -/
  | notInTree
  /-- A coroutine that has been deleted is used. -/
  | dangling
  /-- A jump into a stack that is in use, or out of a coroutine that is not the innermost. -/
  | wildJump
  /-- There is no current coroutine, or no memory for a new one. -/
  | nullDeref
  /-- The first message is not that of the launch. -/
  | assertion
deriving DecidableEq, Repr

/-- The faults of `coroutine.c`. -/
def CoroutineFault.toTask : CoroutineFault → SncTaskFault
  | .dangling => .dangling
  | .nullDeref => .nullDeref
  | .wildJump => .wildJump

/-- What `launch_cb` reads of a `struct ztask_snc`: the callbacks that it has. -/
structure SncArgs where
  cb : Bool
  initCb : Bool
deriving DecidableEq, Repr

inductive SncTaskInput
  /-- The context calls its callback. `args` is there if the message has the size of a `struct
  ztask_snc`, and `c` is what `coroutine_new` returns, if it is called. -/
  | message (thread type : ℕ) (session : ℤ) (args : Option SncArgs) (c : Option ℕ)
  /-- `ztask_snc_timerout` -/
  | timerout (thread : ℕ) (cb : Bool) (c : Option ℕ)
  /-- `ztask_snc_resume` -/
  | wake (thread : ℕ) (session : ℤ)
  /-- The innermost coroutine of a thread gives way. -/
  | yield (thread : ℕ)
  /-- Its callback returns. -/
  | finish (thread : ℕ)
  /-- Somebody else takes a session of the context. -/
  | newsession
deriving DecidableEq, Repr

namespace SncTasks

/-- `snc_create`, in a new context. -/
def init : SncTasks := ⟨.init, fun _ ↦ 0, [], 0, 0, false, false⟩

/-- What a step leads to. -/
abbrev Outcome := Except SncTaskFault (SncTasks × List SncAction)

/-! ## The tree -/

/-- `RB_FIND` -/
def find (s : SncTasks) (session : ℤ) : Option ℕ :=
  s.tree.find? fun c ↦ decide ((s.session c : ℤ) = session)

/-- `RB_INSERT` -/
def insert (s : SncTasks) (c : ℕ) : SncTasks :=
  if ∃ d ∈ s.tree, s.session d = s.session c then s else { s with tree := s.tree ++ [c] }

/-! ## Coroutines -/

/-- `coroutine_new` at `c`. -/
def new (s : SncTasks) (c : ℕ) : SncTasks :=
  { s with cos := s.cos.setCo c (some ⟨.ready, none, false⟩) }

/-- A new coroutine gets a session and is counted and kept. -/
def adopt (s : SncTasks) (c : ℕ) : SncTasks :=
  let s' := s.new c
  let session := newsession s.sessionId
  { s' with
    taskCount := (s.taskCount + 1) % 2 ^ 32
    sessionId := session
    session := Function.update s.session c session }.insert c

/-- What the callers of `coroutine_resume` do when it has returned `r`. -/
def settle (s : SncTasks) (c r : ℕ) : Outcome :=
  if r = 0 then .ok (s, [])
  else if c ∈ s.tree then
    match s.cos.delete c with
    | .error fault => .error fault.toTask
    | .ok (cos, _) =>
      .ok ({ s with
          tree := s.tree.erase c
          cos := cos
          taskCount := (s.taskCount + (2 ^ 32 - 1)) % 2 ^ 32 },
        .removed (s.session c) :: if (cos.co c).isNone then [.deleted (s.session c)] else [])
  else .error .notInTree

/-- `coroutine_resume` of `c` and what follows, if it returns at once. -/
def resume (s : SncTasks) (thread c : ℕ) : Outcome :=
  match s.cos.resume thread (some c) with
  | .error fault => .error fault.toTask
  | .ok (cos, none) => .ok ({ s with cos := cos }, [.entered (s.session c)])
  | .ok (cos, some r) => { s with cos := cos }.settle c r

/-- The innermost coroutine of the thread is left in the state `cos`, and the `coroutine_resume`
that has entered it returns `r`. -/
def leave (s : SncTasks) (thread : ℕ) (cos : Coroutines) (r : ℕ) : Outcome :=
  match s.cos.chain thread with
  | [] => .ok (s, [])
  | frame :: _ => { s with cos := cos }.settle frame.co r

/-- `coroutine_yield` -/
def yield (s : SncTasks) (thread : ℕ) : Outcome :=
  match s.cos.yield thread with
  | .error fault => .error fault.toTask
  | .ok (cos, r) => s.leave thread cos (r.getD 0)

/-- The callback of the innermost coroutine of the thread returns. -/
def finish (s : SncTasks) (thread : ℕ) : Outcome :=
  match s.cos.chain thread with
  | [] => .ok (s, [])
  | frame :: _ =>
    match s.cos.finish thread with
    | .error fault => .error fault.toTask
    | .ok (cos, r) =>
      match s.leave thread cos (r.getD 0) with
      | .error fault => .error fault
      | .ok (s', actions) => .ok (s', .finished (s.session frame.co) :: actions)

/-! ## Callbacks -/

/-- `launch_cb` -/
def launchCb (s : SncTasks) (thread type : ℕ) (session : ℤ) (args : Option SncArgs) (c : Option ℕ) :
    Outcome :=
  if type = 0 ∧ session = 0 then
    match args with
    | none => .ok (s, [])
    | some args =>
      if args.initCb then
        match c with
        | none => .error .nullDeref
        | some c => ({ s with hasCb := args.cb, launched := true }.adopt c).resume thread c
      else .ok ({ s with hasCb := args.cb }, [])
  else .error .assertion

/-- `_cb` -/
def cb (s : SncTasks) (thread type : ℕ) (session : ℤ) (c : Option ℕ) : Outcome :=
  if type = ptypeResponse then
    match s.find session with
    | none => .ok (s, [])
    | some n => s.resume thread n
  else
    match c with
    | none => .ok (s, [])
    -- without a `_cb` the new coroutine is left behind
    | some c => if s.hasCb then (s.adopt c).resume thread c else .ok (s.new c, [])

/-- `ztask_snc_timerout` -/
def timerout (s : SncTasks) (thread : ℕ) (cb : Bool) (c : Option ℕ) : Outcome :=
  if cb then
    match s.cos.curKey thread, c with
    | some _, some c => .ok (s.adopt c, [])
    | _, _ => .error .nullDeref
  else .ok (s, [])

/-- `ztask_snc_resume` -/
def wake (s : SncTasks) (thread : ℕ) (session : ℤ) : Outcome :=
  match s.cos.curKey thread with
  | none => .error .nullDeref
  | some _ =>
    match s.find session with
    | none => .ok (s, [])
    | some n => s.resume thread n

end SncTasks

/-- The service and the code that its coroutines run. -/
def sncTasks : Machine SncTasks SncTaskInput (List SncAction) SncTaskFault
  | s, .message thread type session args c =>
    if s.launched then s.cb thread type session c else s.launchCb thread type session args c
  | s, .timerout thread cb c => s.timerout thread cb c
  | s, .wake thread session => s.wake thread session
  | s, .yield thread => s.yield thread
  | s, .finish thread => s.finish thread
  | s, .newsession => .ok ({ s with sessionId := newsession s.sessionId }, [])

abbrev SncTaskEvent := Event SncTasks SncTaskInput (List SncAction)

namespace SncTasks

/-- The coroutine that is found for the session is suspended or has not run yet. -/
def Suspended (s : SncTasks) (session : ℤ) : Prop :=
  ∀ n ∈ s.find session, ∀ x ∈ s.cos.co n, x.live = false

/-- `ztask_malloc` returns blocks that are not in use, and coroutines are resumed only while they
are suspended. -/
def Allowed (s : SncTasks) : SncTaskInput → Prop
  | .message _ type session _ c =>
    (∀ a ∈ c, s.cos.co a = none) ∧ (s.launched = true → type = ptypeResponse → s.Suspended session)
  | .timerout _ _ c => ∀ a ∈ c, s.cos.co a = none
  | .wake _ session => s.Suspended session
  | _ => True

instance decidableAllowed (s : SncTasks) : ∀ input, Decidable (s.Allowed input)
  | .message _ type session _ c => inferInstanceAs (Decidable ((∀ a ∈ c, s.cos.co a = none) ∧
      (s.launched = true → type = ptypeResponse → ∀ n ∈ s.find session, ∀ x ∈ s.cos.co n, _ = _)))
  | .timerout _ _ c => inferInstanceAs (Decidable (∀ a ∈ c, s.cos.co a = none))
  | .wake _ session => inferInstanceAs (Decidable (∀ n ∈ s.find session, ∀ x ∈ s.cos.co n, _ = _))
  | .yield _ | .finish _ | .newsession => .isTrue trivial

/-- The number of sessions that have been allocated. -/
def allocated (tr : List SncTaskEvent) : ℕ :=
  tr.countP fun e ↦ decide (e.post.sessionId ≠ e.pre.sessionId)

/-- Everything that has happened to coroutines. -/
def log (tr : List SncTaskEvent) : List SncAction := tr.flatMap Event.output

end SncTasks

end ZTask
