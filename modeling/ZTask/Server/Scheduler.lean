import Mathlib.Logic.Function.Basic
import ZTask.Lib.Machine
import ZTask.Server.MessageQueue

/-!
# The scheduler as a machine

`ztask_server.c` and the worker loop above it, as a system of any number of actors over shared
memory. An actor is a thread of control at a program point `Pc`; an idle actor may become a worker
that enters `ztask_context_message_dispatch`, a pusher, a creator of a service, a retirer, or the
holder of a reserved context. Calls that a callback or an initialiser makes are run by other idle
actors: the actor that is inside the callback stays there meanwhile, so every order of the nested
call with everything else is among the runs.

A step executes one section under a lock, one atomic operation, or a few accesses to memory the
actor owns. A choice that does not fit the actor's program point leaves the state as it is.

The handle table is the map that `ztask_handle_grab` and `ztask_handle_retire` see.
-/

namespace ZTask

open Lib

/-- The address of a `ztask_context`. -/
abbrev CtxId := ℕ

/-- `struct ztask_context`: the fields the scheduler reads. `cb` says whether a callback is set,
`calling` whether the `CHECKCALLING` lock is taken. -/
structure Context where
  handle : ℕ
  queue : QueueId
  ref : ℕ
  cb : Bool
  init : Bool
  calling : Bool
deriving DecidableEq, Repr

/-- The memory the actors share. -/
structure Shared where
  queues : Queues
  ctx : CtxId → Option Context
  /-- The slot table of handles. -/
  table : ℕ → Option CtxId

namespace Shared

/-- Overwrite the context block at `c`. -/
def setCtx (s : Shared) (c : CtxId) (x : Option Context) : Shared :=
  { s with ctx := Function.update s.ctx c x }

/-- Overwrite the slot of `handle`. -/
def setTable (s : Shared) (handle : ℕ) (c : Option CtxId) : Shared :=
  { s with table := Function.update s.table handle c }

@[simp] theorem setCtx_queues (s : Shared) (c : CtxId) (x : Option Context) :
    (s.setCtx c x).queues = s.queues := rfl

@[simp] theorem setCtx_ctx (s : Shared) (c : CtxId) (x : Option Context) :
    (s.setCtx c x).ctx = Function.update s.ctx c x := rfl

@[simp] theorem setCtx_table (s : Shared) (c : CtxId) (x : Option Context) :
    (s.setCtx c x).table = s.table := rfl

@[simp] theorem setTable_queues (s : Shared) (handle : ℕ) (c : Option CtxId) :
    (s.setTable handle c).queues = s.queues := rfl

@[simp] theorem setTable_ctx (s : Shared) (handle : ℕ) (c : Option CtxId) :
    (s.setTable handle c).ctx = s.ctx := rfl

@[simp] theorem setTable_table (s : Shared) (handle : ℕ) (c : Option CtxId) :
    (s.setTable handle c).table = Function.update s.table handle c := rfl

end Shared

/-! ## Program points -/

/-- Where an actor is, with the local variables it still needs. The argument `k` of a program point
is where the function that is running returns to. -/
inductive Pc
  | idle
  /-- In `ztask_context_message_dispatch`, about to take the next queue from the global queue and
  return it. -/
  | popGlobal (weight : ℤ)
  /-- In dispatch with the queue `q`, before `ztask_handle_grab`. -/
  | grabHandle (weight : ℤ) (q : QueueId)
  /-- In dispatch, at the head of the loop over `i < n`. -/
  | popMessage (weight : ℤ) (q : QueueId) (c : CtxId) (i n : ℕ)
  /-- In dispatch, before `n = ztask_mq_length(q)`. -/
  | readLength (weight : ℤ) (q : QueueId) (c : CtxId) (i : ℕ)
  /-- In dispatch with a message, before `dispatch_message`. -/
  | handleMessage (weight : ℤ) (q : QueueId) (c : CtxId) (i n : ℕ)
  /-- In `dispatch_message`, running the service's callback. -/
  | callback (weight : ℤ) (q : QueueId) (c : CtxId) (i n : ℕ)
  /-- In dispatch, having popped `nq`, before `q` is pushed back. -/
  | pushBack (weight : ℤ) (q : QueueId) (c : CtxId) (nq : QueueId)
  /-- In `ztask_mq_release`, before the test of the release flag. -/
  | mqRelease (q : QueueId) (k : Pc)
  /-- In the loop of `_drop_queue`. -/
  | dropMessage (q : QueueId) (k : Pc)
  /-- Before `_release`. -/
  | freeQueue (q : QueueId) (k : Pc)
  /-- In `ztask_context_release`, before the count is decremented. -/
  | release (c : CtxId) (k : Pc)
  /-- In `delete_context`, before `ztask_mq_mark_release`. -/
  | deleteContext (c : CtxId) (k : Pc)
  /-- In `ztask_context_push` with a grabbed context. -/
  | pushMessage (c : CtxId) (message : ZtaskMessage)
  /-- Holding the reference that `ztask_context_reserve` took. -/
  | reserved (c : CtxId)
  /-- In `ztask_context_new`, before `CHECKCALLING_BEGIN`. -/
  | beginInit (c : CtxId) (q : QueueId)
  /-- In `ztask_module_instance_init`. -/
  | initialise (c : CtxId) (q : QueueId)
  /-- In `ztask_context_new`, initialised, before the creator's reference is given up. -/
  | initDone (c : CtxId) (q : QueueId)
  /-- In `ztask_context_new`, before `ctx->init = true`. -/
  | setInit (c : CtxId) (q : QueueId)
  /-- In `ztask_context_new`, before the final `ztask_globalmq_push`. -/
  | publish (q : QueueId)
  /-- In `ztask_context_new`, initialisation failed, before the reference is given up. -/
  | initFailed (c : CtxId) (q : QueueId)
  /-- In `ztask_context_new`, initialisation failed, before `ztask_handle_retire`. -/
  | retireNew (c : CtxId) (q : QueueId) (handle : ℕ)
deriving DecidableEq, Repr

namespace Pc

/-- Inside `ztask_context_message_dispatch` with the queue `q` in hand. Control that returns to
`idle` belongs to `ztask_context_new`. -/
def dispatching (q : QueueId) : Pc → Bool
  | grabHandle _ q' => q' = q
  | popMessage _ q' _ _ _ => q' = q
  | readLength _ q' _ _ => q' = q
  | handleMessage _ q' _ _ _ => q' = q
  | callback _ q' _ _ _ => q' = q
  | pushBack _ q' _ nq => q' = q || nq = q
  | mqRelease q' k => (q' = q && k ≠ idle) || dispatching q k
  | dropMessage q' k => (q' = q && k ≠ idle) || dispatching q k
  | freeQueue q' k => (q' = q && k ≠ idle) || dispatching q k
  | release _ k => dispatching q k
  | deleteContext _ k => dispatching q k
  | _ => false

/-- Inside `ztask_context_new` with the queue `q` not yet handed to the global queue or dropped. -/
def creating (q : QueueId) : Pc → Bool
  | mqRelease q' k => (q' = q && k = idle) || creating q k
  | dropMessage q' k => (q' = q && k = idle) || creating q k
  | freeQueue q' k => (q' = q && k = idle) || creating q k
  | release _ k => creating q k
  | deleteContext _ k => creating q k
  | beginInit _ q' => q' = q
  | initialise _ q' => q' = q
  | initDone _ q' => q' = q
  | setInit _ q' => q' = q
  | publish q' => q' = q
  | initFailed _ q' => q' = q
  | retireNew _ q' _ => q' = q
  | _ => false

/-- Running the callback of the service `c`. -/
def inCallback (c : CtxId) : Pc → Bool
  | callback _ _ c' _ _ => c' = c
  | _ => false

end Pc

/-! ## Steps of one actor -/

/-- What the environment chooses for a step of an actor. -/
inductive Choice
  /-- Go on. -/
  | run
  /-- An idle worker calls `ztask_context_message_dispatch` with no queue. -/
  | dispatch (weight : ℤ)
  /-- `ztask_context_push`. -/
  | push (handle : ℕ) (message : ZtaskMessage)
  /-- `ztask_handle_grab`, followed by `ztask_context_release` without a push. -/
  | grab (handle : ℕ)
  /-- `ztask_handle_retire`. -/
  | retire (handle : ℕ)
  /-- `ztask_context_new`, with the blocks the allocator returns and the handle registered. -/
  | new (c : CtxId) (q : QueueId) (handle : ℕ)
  /-- The initialiser returns: whether it succeeded and whether it set a callback. -/
  | initResult (ok : Bool) (cb : Bool)
  /-- `ztask_context_send` through a reserved context. -/
  | send (message : ZtaskMessage)
deriving DecidableEq, Repr

namespace Shared

/-- `ztask_handle_grab`. -/
def handleGrab (s : Shared) (handle : ℕ) : Except SchedFault (Option CtxId × Shared) :=
  match s.table handle with
  | none => .ok (none, s)
  | some c =>
    match s.ctx c with
    | none => .error .dangling
    | some x => .ok (some c, s.setCtx c (some { x with ref := x.ref + 1 }))

/-- The decrement in `ztask_context_release`: whether the count reached zero. -/
def contextDec (s : Shared) (c : CtxId) : Except SchedFault (Bool × Shared) :=
  match s.ctx c with
  | none => .error .dangling
  | some x => .ok (x.ref - 1 = 0, s.setCtx c (some { x with ref := x.ref - 1 }))

/-- `ztask_context_release`: go on at `k`, through `delete_context` if the count reached zero. -/
def contextRelease (s : Shared) (c : CtxId) (k : Pc) : Except SchedFault (Shared × Pc) := do
  let (zero, s') ← s.contextDec c
  return (s', if zero then .deleteContext c k else k)

/-- `delete_context`: mark the queue and free the context. -/
def contextDelete (s : Shared) (c : CtxId) : Except SchedFault Shared :=
  match s.ctx c with
  | none => .error .dangling
  | some x => do
    let queues ← s.queues.mqMarkRelease x.queue
    return { s with queues := queues }.setCtx c none

/-- `ztask_mq_push(ctx->queue, message)`. -/
def contextSend (s : Shared) (c : CtxId) (message : ZtaskMessage) : Except SchedFault Shared :=
  match s.ctx c with
  | none => .error .dangling
  | some x => do
    let queues ← s.queues.mqPush x.queue message
    return { s with queues := queues }

/-- `ztask_handle_retire`: unlink the context, then give up the reference of the table. -/
def handleRetire (s : Shared) (handle : ℕ) (k : Pc) : Shared × Pc :=
  match s.table handle with
  | none => (s, k)
  | some c => (s.setTable handle none, .release c k)

/-- The registration in `ztask_context_new`: the context enters the table with its handle and
queue stored, holding one reference for the table and one for the creator. -/
def contextRegister (s : Shared) (c : CtxId) (q : QueueId) (handle : ℕ) : Shared :=
  { queues := s.queues.setMq q (some (mqCreate handle))
    ctx := Function.update s.ctx c (some ⟨handle, q, 2, false, false, false⟩)
    table := Function.update s.table handle (some c) }

/-- `CHECKCALLING_BEGIN`. -/
def callingBegin (s : Shared) (c : CtxId) : Except SchedFault Shared :=
  match s.ctx c with
  | none => .error .dangling
  | some x => if x.calling then .error .calling
      else .ok (s.setCtx c (some { x with calling := true }))

/-- `CHECKCALLING_END`, storing whether a callback is set. -/
def callingEnd (s : Shared) (c : CtxId) (cb : Context → Bool) : Except SchedFault Shared :=
  match s.ctx c with
  | none => .error .dangling
  | some x => .ok (s.setCtx c (some { x with calling := false, cb := cb x }))

/-- `dispatch_message`, up to the callback, which is skipped when none is set. -/
def dispatchMessage (s : Shared) (c : CtxId) : Except SchedFault (Bool × Shared) :=
  match s.ctx c with
  | none => .error .dangling
  | some x =>
    if !x.cb then .ok (false, s)
    else if !x.init then .error .notInit
    else do
      let s' ← s.callingBegin c
      return (true, s')

/-- The test at the end of the dispatch loop: `assert(q == ctx->queue)`. -/
def checkQueue (s : Shared) (c : CtxId) (q : QueueId) : Except SchedFault Unit :=
  match s.ctx c with
  | none => .error .dangling
  | some x => if x.queue = q then .ok () else .error .otherQueue

/-- `ctx->init = true` after the creator has given up its reference. The block may have been freed
meanwhile; the store is then lost. -/
def storeInit (s : Shared) (c : CtxId) : Shared :=
  match s.ctx c with
  | none => s
  | some x => s.setCtx c (some { x with init := true })

/-- `ztask_mq_overload`: read and clear. -/
def clearOverload (s : Shared) (q : QueueId) : Except SchedFault Shared :=
  match s.queues.mq q with
  | none => .error .dangling
  | some m => .ok { s with queues := s.queues.setMq q (some { m with overload := 0 }) }

/-! ### `ztask_context_message_dispatch` -/

def stepPopGlobal (s : Shared) (weight : ℤ) : Except SchedFault (Shared × Pc) := do
  let (q, queues) ← s.queues.globalmqPop
  match q with
  | none => return ({ s with queues := queues }, .idle)
  | some q => return ({ s with queues := queues }, .grabHandle weight q)

def stepGrabHandle (s : Shared) (weight : ℤ) (q : QueueId) : Except SchedFault (Shared × Pc) :=
  match s.queues.mq q with
  | none => .error .dangling
  | some m => do
    let (ctx, s') ← s.handleGrab m.handle
    match ctx with
    | none => return (s', .mqRelease q (.popGlobal weight))
    | some c => return (s', .popMessage weight q c 0 1)

/-- The head of the loop; the code after the loop when it is over. -/
def stepPopMessage (s : Shared) (weight : ℤ) (q : QueueId) (c : CtxId) (i n : ℕ) :
    Except SchedFault (Shared × Pc) :=
  if i < n then do
    let (message, queues) ← s.queues.mqPop q
    match message with
    | none => return ({ s with queues := queues }, .release c (.popGlobal weight))
    | some _ =>
      if i = 0 ∧ 0 ≤ weight then return ({ s with queues := queues }, .readLength weight q c i)
      else return ({ s with queues := queues }, .handleMessage weight q c i n)
  else do
    s.checkQueue c q
    let (nq, queues) ← s.queues.globalmqPop
    match nq with
    | none => return ({ s with queues := queues }, .release c (.grabHandle weight q))
    | some nq => return ({ s with queues := queues }, .pushBack weight q c nq)

def stepReadLength (s : Shared) (weight : ℤ) (q : QueueId) (c : CtxId) (i : ℕ) :
    Except SchedFault (Shared × Pc) :=
  match s.queues.mq q with
  | none => .error .dangling
  | some m => .ok (s, .handleMessage weight q c i (mqLength m >>> weight.toNat))

def stepHandleMessage (s : Shared) (weight : ℤ) (q : QueueId) (c : CtxId) (i n : ℕ) :
    Except SchedFault (Shared × Pc) := do
  let s' ← s.clearOverload q
  let (called, s'') ← s'.dispatchMessage c
  return (s'', if called then .callback weight q c i n else .popMessage weight q c (i + 1) n)

def stepCallback (s : Shared) (weight : ℤ) (q : QueueId) (c : CtxId) (i n : ℕ) :
    Except SchedFault (Shared × Pc) := do
  let s' ← s.callingEnd c Context.cb
  return (s', .popMessage weight q c (i + 1) n)

def stepPushBack (s : Shared) (weight : ℤ) (q : QueueId) (c : CtxId) (nq : QueueId) :
    Except SchedFault (Shared × Pc) := do
  let queues ← s.queues.globalmqPush q
  return ({ s with queues := queues }, .release c (.grabHandle weight nq))

/-! ### `ztask_mq_release` -/

def stepMqRelease (s : Shared) (q : QueueId) (k : Pc) : Except SchedFault (Shared × Pc) := do
  let (drop, queues) ← s.queues.mqReleaseTest q
  return ({ s with queues := queues }, if drop then .dropMessage q k else k)

def stepDropMessage (s : Shared) (q : QueueId) (k : Pc) : Except SchedFault (Shared × Pc) := do
  let (message, queues) ← s.queues.mqPop q
  return ({ s with queues := queues }, if message.isSome then .dropMessage q k else .freeQueue q k)

def stepFreeQueue (s : Shared) (q : QueueId) (k : Pc) : Except SchedFault (Shared × Pc) := do
  let queues ← s.queues.freeQueue q
  return ({ s with queues := queues }, k)

/-! ### `ztask_context_push`, `ztask_context_send` and `delete_context` -/

def stepDeleteContext (s : Shared) (c : CtxId) (k : Pc) : Except SchedFault (Shared × Pc) := do
  let s' ← s.contextDelete c
  return (s', k)

/-- Send through a reference, and go on at `pc`. -/
def stepSend (s : Shared) (c : CtxId) (message : ZtaskMessage) (pc : Pc) :
    Except SchedFault (Shared × Pc) := do
  let s' ← s.contextSend c message
  return (s', pc)

/-- A call of an idle actor that begins with `ztask_handle_grab`. -/
def stepGrab (s : Shared) (handle : ℕ) (next : CtxId → Pc) : Except SchedFault (Shared × Pc) := do
  let (ctx, s') ← s.handleGrab handle
  match ctx with
  | none => return (s', .idle)
  | some c => return (s', next c)

/-! ### `ztask_context_new` -/

def stepBeginInit (s : Shared) (c : CtxId) (q : QueueId) : Except SchedFault (Shared × Pc) := do
  let s' ← s.callingBegin c
  return (s', .initialise c q)

def stepInitialise (s : Shared) (c : CtxId) (q : QueueId) (ok cb : Bool) :
    Except SchedFault (Shared × Pc) := do
  let s' ← s.callingEnd c fun _ ↦ cb
  return (s', if ok then .initDone c q else .initFailed c q)

def stepInitDone (s : Shared) (c : CtxId) (q : QueueId) : Except SchedFault (Shared × Pc) := do
  let (zero, s') ← s.contextDec c
  return (s', if zero then .deleteContext c (.publish q) else .setInit c q)

def stepPublish (s : Shared) (q : QueueId) : Except SchedFault (Shared × Pc) := do
  let queues ← s.queues.globalmqPush q
  return ({ s with queues := queues }, .idle)

def stepInitFailed (s : Shared) (c : CtxId) (q : QueueId) : Except SchedFault (Shared × Pc) :=
  match s.ctx c with
  | none => .error .dangling
  | some x => s.contextRelease c (.retireNew c q x.handle)

/-- One step of an actor at `pc`. -/
def act (s : Shared) : Pc → Choice → Except SchedFault (Shared × Pc)
  | .idle, .dispatch weight => .ok (s, .popGlobal weight)
  | .idle, .push handle message => s.stepGrab handle fun c ↦ .pushMessage c message
  | .idle, .grab handle => s.stepGrab handle fun c ↦ .release c .idle
  | .idle, .retire handle => .ok (s.handleRetire handle .idle)
  | .idle, .new c q handle => .ok (s.contextRegister c q handle, .beginInit c q)
  | .popGlobal weight, .run => s.stepPopGlobal weight
  | .grabHandle weight q, .run => s.stepGrabHandle weight q
  | .popMessage weight q c i n, .run => s.stepPopMessage weight q c i n
  | .readLength weight q c i, .run => s.stepReadLength weight q c i
  | .handleMessage weight q c i n, .run => s.stepHandleMessage weight q c i n
  | .callback weight q c i n, .run => s.stepCallback weight q c i n
  | .pushBack weight q c nq, .run => s.stepPushBack weight q c nq
  | .mqRelease q k, .run => s.stepMqRelease q k
  | .dropMessage q k, .run => s.stepDropMessage q k
  | .freeQueue q k, .run => s.stepFreeQueue q k
  | .release c k, .run => s.contextRelease c k
  | .deleteContext c k, .run => s.stepDeleteContext c k
  | .pushMessage c message, .run => s.stepSend c message (.release c .idle)
  | .reserved c, .send message => s.stepSend c message (.reserved c)
  | .reserved c, .run => .ok (s, .release c .idle)
  | .beginInit c q, .run => s.stepBeginInit c q
  | .initialise c q, .initResult ok cb => s.stepInitialise c q ok cb
  | .initDone c q, .run => s.stepInitDone c q
  | .setInit c q, .run => .ok (s.storeInit c, .publish q)
  | .publish q, .run => s.stepPublish q
  | .initFailed c q, .run => s.stepInitFailed c q
  | .retireNew _ q handle, .run => .ok (s.handleRetire handle (.mqRelease q .idle))
  | pc, _ => .ok (s, pc)

end Shared

/-! ## The system -/

/-- The shared memory and the program point of every actor. -/
structure Sched (τ : Type) where
  shared : Shared
  pc : τ → Pc

/-- A step of the system: one actor moves, or an idle actor takes over the reference by which
`ztask_context_reserve` keeps the service that actor `t'` is initialising. -/
inductive SchedInput (τ : Type)
  | act (t : τ) (choice : Choice)
  | reserve (t t' : τ)

variable {τ : Type} [DecidableEq τ]

/-- The scheduler. -/
def sched : Machine (Sched τ) (SchedInput τ) Unit SchedFault
  | s, .act t choice => do
    let (shared, pc) ← s.shared.act (s.pc t) choice
    return ({ shared := shared, pc := Function.update s.pc t pc }, ())
  | s, .reserve t t' =>
    match s.pc t, s.pc t' with
    | .idle, .initialise c _ =>
      match s.shared.ctx c with
      | none => .error .dangling
      | some x =>
        .ok ({ shared := s.shared.setCtx c (some { x with ref := x.ref + 1 })
               pc := Function.update s.pc t (.reserved c) }, ())
    | _, _ => .ok (s, ())

/-- What the environment of the scheduler guarantees of a step: the allocator returns blocks that
are not in use, and no handle is issued again while a queue that carries it exists. -/
def SchedInput.Allowed (s : Sched τ) : SchedInput τ → Prop
  | .act _ (.new c q handle) =>
    s.shared.ctx c = none ∧ s.shared.queues.mq q = none ∧
      ∀ q' m, s.shared.queues.mq q' = some m → m.handle ≠ handle
  | _ => True

/-- The empty process: no service, no queue, every actor idle. -/
def Sched.initial (τ : Type) : Sched τ where
  shared := ⟨⟨LinkQueue.empty, fun _ ↦ none⟩, fun _ ↦ none, fun _ ↦ none⟩
  pc := fun _ ↦ .idle

end ZTask
