import ZTask.Harbor.Wire
import ZTask.Lib.RingBuffer

/-!
# The queues of waiting messages

`struct harbor_msg_queue`: a ring in which one cell always stays free, so that equal indices mean an
empty queue. A push that finds only that cell free moves the contents to a block twice the size
first. As a list, what is pushed comes to the end (`toList_pushQueueMsg`), and popping everything
gives the list (`popAll_fst`).
-/

namespace ZTask

open Lib

/-! ## The functions -/

abbrev HarborMsgQueue := RingBuffer HarborMsg

def defaultHarborQueueSize : ℕ := 1024

/-- `new_queue`. -/
def newQueue : HarborMsgQueue :=
  RingBuffer.ofCells defaultHarborQueueSize 0 (fun _ ↦ default) (by decide)

/-- The block twice the size that `push_queue_msg` moves the `size - 1` messages to. -/
def expandHarborQueue (queue : HarborMsgQueue) : HarborMsgQueue :=
  RingBuffer.ofCells (queue.cap * 2) (queue.cap - 1)
    (fun i ↦ queue.data ((i + queue.head) % queue.cap)) (by have := queue.head_lt; omega)

def pushQueueMsg (queue : HarborMsgQueue) (m : HarborMsg) : HarborMsgQueue :=
  if (queue.tail + 1) % queue.cap = queue.head then (expandHarborQueue queue).write m
  else queue.write m

def pushQueue (queue : HarborMsgQueue) (buffer : List UInt8) (header : RemoteMessageHeader) :
    HarborMsgQueue :=
  pushQueueMsg queue ⟨header, buffer⟩

def popQueue (queue : HarborMsgQueue) : Option (HarborMsg × HarborMsgQueue) := queue.pop?

/-- `while ((m = pop_queue(queue)) != NULL)`: all messages that are popped, and the queue left. -/
def popAll (queue : HarborMsgQueue) : List HarborMsg × HarborMsgQueue :=
  RingBuffer.drain queue.length queue

/-! ## The queue as a list -/

@[simp] theorem toList_newQueue : newQueue.toList = [] := RingBuffer.toList_eq_nil rfl

private theorem toList_expandHarborQueue {queue : HarborMsgQueue}
    (h : (queue.tail + 1) % queue.cap = queue.head) :
    (expandHarborQueue queue).toList = queue.toList := by
  have h1 := queue.head_lt
  have h2 := queue.tail_lt
  have hlen : queue.length = queue.cap - 1 := by
    rw [RingBuffer.advance_eq_mod h2, RingBuffer.advance] at h
    rw [RingBuffer.length]
    split at h <;> split <;> omega
  rw [expandHarborQueue, RingBuffer.toList_ofCells, RingBuffer.toList, hlen]
  apply List.map_congr_left
  intro i _
  rw [RingBuffer.cell, Nat.add_comm]

/-- **Push.** The message is the new end of the queue, whether or not the block had to grow. -/
@[simp] theorem toList_pushQueueMsg (queue : HarborMsgQueue) (m : HarborMsg) :
    (pushQueueMsg queue m).toList = queue.toList ++ [m] := by
  have h1 := queue.head_lt
  rw [pushQueueMsg]
  split
  next h =>
    rw [RingBuffer.toList_write, toList_expandHarborQueue h]
    -- the block is twice as large now, so the write cannot fill it
    have hroom : RingBuffer.advance (queue.cap * 2) (queue.cap - 1) ≠ 0 := by
      rw [RingBuffer.advance]
      split <;> omega
    exact hroom
  next h =>
    rw [RingBuffer.toList_write]
    rwa [← RingBuffer.advance_eq_mod queue.tail_lt]

@[simp] theorem toList_pushQueue (queue : HarborMsgQueue) (buffer : List UInt8)
    (header : RemoteMessageHeader) :
    (pushQueue queue buffer header).toList = queue.toList ++ [⟨header, buffer⟩] :=
  toList_pushQueueMsg _ _

@[simp] theorem popAll_fst (queue : HarborMsgQueue) : (popAll queue).1 = queue.toList :=
  (RingBuffer.drain_eq (Nat.le_refl _)).1

@[simp] theorem toList_popAll_snd (queue : HarborMsgQueue) : (popAll queue).2.toList = [] :=
  (RingBuffer.drain_eq (Nat.le_refl _)).2

theorem toList_foldl_pushQueueMsg (queue : HarborMsgQueue) (ms : List HarborMsg) :
    (ms.foldl pushQueueMsg queue).toList = queue.toList ++ ms := by
  induction ms generalizing queue with
  | nil => rw [List.foldl_nil, List.append_nil]
  | cons m ms ih => rw [List.foldl_cons, ih, toList_pushQueueMsg, List.append_assoc]; rfl

end ZTask
