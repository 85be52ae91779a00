import Mathlib.Data.Int.Notation
import ZTask.Lib.LinkQueue
import ZTask.Lib.RingBuffer

/-!
# Message queues and the global queue

`ztask_mq.c`. Every service has one `message_queue`, a ring of messages that doubles when it
fills; the queues that have something to do are chained into one global queue, from which the
worker threads take them.

Two flags steer a queue between the two levels. `inGlobal` is set while the queue is in the
global queue or is being dispatched, and is cleared by the pop that finds the queue empty;
`release` is set when the service behind the queue is gone. Each function here is one section
under the queue's own lock, with the global queue's lock taken inside where the source takes it,
so one function is one atomic step.

The `next` link of `struct message_queue` is touched by `ztask_globalmq_push` and
`ztask_globalmq_pop` alone and under the global lock, so it is kept with the head and tail of the
global queue. Assertions of the source are faults here: whether they can fail is for the
scheduler to say, and it is not assumed.

The indices and the capacity are natural numbers here and of type `int` in the source. The two agree
as long as fewer than 2^30 messages are in one queue; what happens from there on is said in
`ZTask.Server.Fifo`, over the fields as they are.
-/

namespace ZTask

open Lib

/-- `struct ztask_message`. The message type is encoded in the high 8 bits of `sz`. -/
structure ZtaskMessage where
  source : ℕ
  session : ℤ
  /-- The address of the payload; `NULL` is `none`. -/
  data : Option ℕ
  sz : ℕ
deriving DecidableEq, Repr, Inhabited

/-- The address of a `message_queue`. -/
abbrev QueueId := ℕ

/-- The ways a step of the scheduler can go wrong. -/
inductive SchedFault
  /-- `assert(queue->next == NULL)` in `ztask_globalmq_push`. -/
  | pushLinked
  /-- `assert(mq == q->tail)` in `ztask_globalmq_pop`. -/
  | popTail
  /-- `assert(q->release == 0)` in `ztask_mq_mark_release`. -/
  | releasedTwice
  /-- `assert(q->next == NULL)` in `_release`. -/
  | freeLinked
  /-- `assert(q == ctx->queue)` in `ztask_context_message_dispatch`. -/
  | otherQueue
  /-- `assert(ctx->init)` in `dispatch_message`. -/
  | notInit
  /-- The failing `spinlock_trylock` in `CHECKCALLING_BEGIN`. -/
  | calling
  /-- A block that has been freed, or was never allocated, is used. -/
  | dangling
deriving DecidableEq, Repr

def defaultQueueSize : ℕ := 64

def mqOverload : ℕ := 1024

/-- `struct message_queue`, without its lock and its `next` link. -/
structure MessageQueue where
  handle : ℕ
  /-- `cap`, `head`, `tail` and `queue`. -/
  ring : RingBuffer ZtaskMessage
  release : Bool
  inGlobal : Bool
  overload : ℕ
  overloadThreshold : ℕ

/-! ## One queue -/

/-- `ztask_mq_create`. The flag is set although the queue is in no list yet: it keeps pushers from
chaining a queue whose service is still being initialised. -/
def mqCreate (handle : ℕ) : MessageQueue where
  handle := handle
  ring := RingBuffer.ofCells defaultQueueSize 0 (fun _ ↦ default) (by decide)
  release := false
  inGlobal := true
  overload := 0
  overloadThreshold := mqOverload

/-- `ztask_mq_length`. -/
def mqLength (q : MessageQueue) : ℕ := q.ring.length

/-- The loop in `ztask_mq_pop` that doubles the threshold until the length is within it. The fuel
is a bound on the number of doublings. -/
def raiseOverload (length : ℕ) : ℕ → ℕ × ℕ → ℕ × ℕ
  | 0, p => p
  | fuel + 1, (overload, threshold) =>
    if threshold < length then raiseOverload length fuel (length, threshold * 2)
    else (overload, threshold)

/-- `ztask_mq_pop` on the queue itself: a message, or `none` when there is none, and then the
queue leaves the global level. -/
def mqPopQueue (q : MessageQueue) : Option ZtaskMessage × MessageQueue :=
  match q.ring.pop? with
  | some (message, ring) =>
    let p := raiseOverload ring.length ring.length (q.overload, q.overloadThreshold)
    (some message, { q with ring := ring, overload := p.1, overloadThreshold := p.2 })
  | none => (none, { q with overloadThreshold := mqOverload, inGlobal := false })

/-- `expand_queue`, called when the write index has met the read index: the cells are moved to a
block twice the size, starting from the one read next. The doubled capacity is an `int` in the
source: `IntQueue.expand` is this function with its wrap-around. -/
def expandQueue (r : RingBuffer ZtaskMessage) : RingBuffer ZtaskMessage :=
  RingBuffer.ofCells (r.cap * 2) r.cap (fun i ↦ r.data ((r.head + i) % r.cap))
    (by have := r.head_lt; omega)

/-- The ring part of `ztask_mq_push`. -/
def pushRing (r : RingBuffer ZtaskMessage) (message : ZtaskMessage) : RingBuffer ZtaskMessage :=
  if (r.write message).head = (r.write message).tail then expandQueue (r.write message)
  else r.write message

theorem toList_pushRing (r : RingBuffer ZtaskMessage) (message : ZtaskMessage) :
    (pushRing r message).toList = r.toList ++ [message] := by
  rw [pushRing]
  by_cases hfull : (r.write message).head = (r.write message).tail
  · -- the write filled the last cell: all `cap` cells are copied
    rw [if_pos hfull]
    have hpos := r.head_lt
    have hcap : r.cap < r.cap * 2 := by omega
    exact RingBuffer.toList_grow hcap hfull
  · rw [if_neg hfull]
    exact RingBuffer.toList_write fun h ↦ hfull h.symm

/-! ## The queues of the process -/

/-- The global queue `Q` and the `message_queue` blocks that are allocated. -/
structure Queues where
  global : LinkQueue QueueId
  mq : QueueId → Option MessageQueue

namespace Queues

/-- Overwrite the block at `q`. -/
def setMq (s : Queues) (q : QueueId) (m : Option MessageQueue) : Queues :=
  { s with mq := Function.update s.mq q m }

@[simp] theorem setMq_global (s : Queues) (q : QueueId) (m : Option MessageQueue) :
    (s.setMq q m).global = s.global := rfl

@[simp] theorem setMq_mq (s : Queues) (q : QueueId) (m : Option MessageQueue) :
    (s.setMq q m).mq = Function.update s.mq q m := rfl

/-- `ztask_globalmq_push`. -/
def globalmqPush (s : Queues) (q : QueueId) : Except SchedFault Queues :=
  if s.global.next q = none then .ok { s with global := s.global.push q }
  else .error .pushLinked

/-- `ztask_globalmq_pop`. -/
def globalmqPop (s : Queues) : Except SchedFault (Option QueueId × Queues) :=
  match s.global.head with
  | none => .ok (none, s)
  | some q =>
    if s.global.next q = none ∧ s.global.tail ≠ some q then .error .popTail
    else .ok (some q, { s with global := s.global.pop.2 })

/-- `ztask_mq_pop`. -/
def mqPop (s : Queues) (q : QueueId) : Except SchedFault (Option ZtaskMessage × Queues) :=
  match s.mq q with
  | none => .error .dangling
  | some m => .ok ((mqPopQueue m).1, s.setMq q (some (mqPopQueue m).2))

/-- `ztask_mq_push`. -/
def mqPush (s : Queues) (q : QueueId) (message : ZtaskMessage) : Except SchedFault Queues :=
  match s.mq q with
  | none => .error .dangling
  | some m =>
    let m' := { m with ring := pushRing m.ring message }
    if m.inGlobal then .ok (s.setMq q (some m'))
    else (s.setMq q (some { m' with inGlobal := true })).globalmqPush q

/-- `ztask_mq_mark_release`. The queue is chained if it was idle, with `inGlobal` left clear: no
push can come any more, so nothing reads the flag. -/
def mqMarkRelease (s : Queues) (q : QueueId) : Except SchedFault Queues :=
  match s.mq q with
  | none => .error .dangling
  | some m =>
    if m.release then .error .releasedTwice
    else if m.inGlobal then .ok (s.setMq q (some { m with release := true }))
    else (s.setMq q (some { m with release := true })).globalmqPush q

/-- The section of `ztask_mq_release` under the lock: `true` when the queue is to be dropped by
the caller, else the queue goes back to the global queue. -/
def mqReleaseTest (s : Queues) (q : QueueId) : Except SchedFault (Bool × Queues) :=
  match s.mq q with
  | none => .error .dangling
  | some m =>
    if m.release then .ok (true, s)
    else
      match s.globalmqPush q with
      | .error e => .error e
      | .ok s' => .ok (false, s')

/-- `_release`: free the block. -/
def freeQueue (s : Queues) (q : QueueId) : Except SchedFault Queues :=
  if s.global.next q = none then .ok (s.setMq q none) else .error .freeLinked

end Queues

end ZTask
