import ZTask.Lib.Machine
import ZTask.Server.IntQueue

/-!
# A message queue is a FIFO

`ztask_mq_push`, `ztask_mq_pop` and `ztask_mq_length` on one queue, in any order, give the results
that the same operations give on a list. What the queue holds is that list, wherever its indices are
and however often it has been expanded. This is so in every run in which fewer than 2^30 messages
are queued after each push (`message_queue_fifo`).

The push with which there are 2^30 doubles the capacity to -2^31, for the fields are of type `int`.
Each pop then returns the first message, again and again (`not_message_queue_fifo`).

A queue whose capacity is a natural number has no such limit (`messageQueue_refines_fifo`). The
sections of the scheduler use that one, and below the limit it is the queue of the source
(`intQueue_eq_messageQueue`).
-/

namespace ZTask

open Lib

inductive MqOp
  | push (message : ZtaskMessage)
  | pop
  | length
deriving DecidableEq

inductive MqResult
  | pushed
  | popped (message : Option ZtaskMessage)
  | length (n : ℤ)
deriving DecidableEq

/-- One queue, with its fields in `int`. -/
def intQueue : Machine IntQueue MqOp MqResult MqFault := fun q op ↦
  match op with
  | .push message => (q.push message).map fun p ↦ (p.2, .pushed)
  | .pop => q.pop.map fun p ↦ (p.2, .popped p.1)
  | .length => .ok (q, .length q.length)

/-- What a queue is: a list. -/
def fifo : Machine (List ZtaskMessage) MqOp MqResult Empty := fun l op ↦
  match op, l with
  | .push message, l => .ok (l ++ [message], .pushed)
  | .pop, [] => .ok ([], .popped none)
  | .pop, message :: l => .ok (l, .popped (some message))
  | .length, l => .ok (l, .length l.length)

/-- There are fewer than `2 ^ 30` messages when the operation has been done. -/
def MqOp.Fits (l : List ZtaskMessage) : MqOp → Prop
  | .push _ => l.length + 1 < 2 ^ 30
  | .pop | .length => True

instance (l : List ZtaskMessage) : (op : MqOp) → Decidable (op.Fits l)
  | .push _ => inferInstanceAs (Decidable (l.length + 1 < 2 ^ 30))
  | .pop | .length => inferInstanceAs (Decidable True)

def pushedMessages (ops : List MqOp) : List ZtaskMessage := ops.filterMap fun op ↦
  match op with
  | .push message => some message
  | .pop | .length => none

def poppedMessages (results : List MqResult) : List ZtaskMessage := results.filterMap fun o ↦
  match o with
  | .popped message => message
  | .pushed | .length _ => none

/-! ## The list -/

/-- What has been pushed is what was there, in the order of the pops and then of the list. -/
theorem fifo_accounts {ops : List MqOp} {l l' : List ZtaskMessage}
    {tr : List (Event (List ZtaskMessage) MqOp MqResult)} (h : exec fifo l ops = .ok (tr, l')) :
    l ++ pushedMessages ops = poppedMessages (tr.map Event.output) ++ l' := by
  induction ops generalizing l tr with
  | nil =>
    cases h
    exact List.append_nil _
  | cons op ops ih =>
    obtain ⟨l₁, o, hstep⟩ : ∃ l₁ o, fifo l op = .ok (l₁, o) := by
      cases op with
      | push message => exact ⟨_, _, rfl⟩
      | pop => cases l with
        | nil | cons => exact ⟨_, _, rfl⟩
      | length => exact ⟨_, _, rfl⟩
    obtain ⟨tr₁, l₂, hrest⟩ := exec_total (m := fifo) l₁ ops
    have htotal : exec fifo l (op :: ops) = .ok (⟨l, op, o, l₁⟩ :: tr₁, l₂) := by
      rw [exec, hstep]
      simp only [hrest]
    obtain ⟨rfl, rfl⟩ := Prod.mk.inj (Except.ok.inj (htotal.symm.trans h))
    have hall := ih hrest
    cases op with
    | push message =>
      obtain ⟨rfl, rfl⟩ := Prod.mk.inj (Except.ok.inj hstep)
      rw [List.append_assoc] at hall
      exact hall
    | pop => cases l with
      | nil =>
        obtain ⟨rfl, rfl⟩ := Prod.mk.inj (Except.ok.inj hstep)
        exact hall
      | cons message l =>
        obtain ⟨rfl, rfl⟩ := Prod.mk.inj (Except.ok.inj hstep)
        exact congrArg (message :: ·) hall
    | length =>
      obtain ⟨rfl, rfl⟩ := Prod.mk.inj (Except.ok.inj hstep)
      exact hall

/-- A run of pushes. -/
theorem exec_fifo_pushes (messages l : List ZtaskMessage) :
    ∃ tr, exec fifo l (messages.map MqOp.push) = .ok (tr, l ++ messages) ∧
      tr.map Event.output = List.replicate messages.length MqResult.pushed := by
  induction messages generalizing l with
  | nil => exact ⟨[], by rw [List.append_nil]; rfl, rfl⟩
  | cons message messages ih =>
    obtain ⟨tr, hexec, houtputs⟩ := ih (l ++ [message])
    rw [List.append_assoc] at hexec
    refine ⟨⟨l, .push message, .pushed, l ++ [message]⟩ :: tr, ?_, ?_⟩
    · rw [List.map_cons, exec]
      simp only [fifo, hexec]
      rfl
    · rw [List.map_cons, houtputs, List.length_cons, List.replicate_succ]

private theorem exec_fifo_pops (first second : ZtaskMessage) (l : List ZtaskMessage) :
    exec fifo (first :: second :: l) [.pop, .pop] =
      .ok ([⟨first :: second :: l, .pop, .popped (some first), second :: l⟩,
        ⟨second :: l, .pop, .popped (some second), l⟩], l) := rfl

theorem along_pushes {messages l : List ZtaskMessage} (h : l.length + messages.length < 2 ^ 30) :
    Along fifo (fun l op ↦ op.Fits l) l (messages.map MqOp.push) := by
  induction messages generalizing l with
  | nil => trivial
  | cons message messages ih =>
    rw [List.length_cons] at h
    refine ⟨show l.length + 1 < 2 ^ 30 by omega, ih ?_⟩
    change (l ++ [message]).length + messages.length < 2 ^ 30
    rw [List.length_append, List.length_singleton]
    omega

/-! ## The queue of the source -/

/-- The queue holds the list. -/
def IntQueue.Lists (q : IntQueue) (l : List ZtaskMessage) : Prop :=
  ∃ r : RingBuffer ZtaskMessage, q.Holds r ∧ r.toList = l

theorem IntQueue.create_lists (handle : ℕ) : (IntQueue.create handle).Lists [] :=
  ⟨_, IntQueue.create_holds handle, RingBuffer.toList_eq_nil rfl⟩

theorem IntQueue.Lists.length_eq {q : IntQueue} {l : List ZtaskMessage} (h : q.Lists l) :
    q.length = l.length := by
  obtain ⟨r, hr, rfl⟩ := h
  rw [hr.length_eq, RingBuffer.length_toList]

/-- The operation on the queue is the one on the list. -/
theorem intQueue_step {q : IntQueue} {l l' : List ZtaskMessage} {op : MqOp} {o : MqResult}
    (hl : q.Lists l) (hfits : op.Fits l) (hfifo : fifo l op = .ok (l', o)) :
    ∃ q', intQueue q op = .ok (q', o) ∧ q'.Lists l' := by
  cases op with
  | push message =>
    obtain ⟨rfl, rfl⟩ := Prod.mk.inj (Except.ok.inj hfifo)
    obtain ⟨r, hr, rfl⟩ := hl
    change r.toList.length + 1 < 2 ^ 30 at hfits
    rw [RingBuffer.length_toList] at hfits
    obtain ⟨b, q', hpush, hq'⟩ := IntQueue.push_holds hr message hfits
    exact ⟨q', by rw [intQueue, hpush]; rfl, hq'⟩
  | pop =>
    obtain ⟨r, hr, rfl⟩ := hl
    obtain ⟨q', hpop, r', hr', htail⟩ := IntQueue.pop_holds hr
    have hstep : intQueue q .pop = .ok (q', .popped r.toList.head?) := by
      rw [intQueue, hpop]
      rfl
    refine ⟨q', ?_, r', hr', ?_⟩
    · rw [hstep]
      cases hlist : r.toList with
      | nil | cons =>
        rw [hlist] at hfifo
        obtain ⟨-, rfl⟩ := Prod.mk.inj (Except.ok.inj hfifo)
        rfl
    · rw [htail]
      cases hlist : r.toList with
      | nil | cons =>
        rw [hlist] at hfifo
        obtain ⟨rfl, -⟩ := Prod.mk.inj (Except.ok.inj hfifo)
        rfl
  | length =>
    obtain ⟨rfl, rfl⟩ := Prod.mk.inj (Except.ok.inj hfifo)
    exact ⟨q, by rw [intQueue, hl.length_eq], hl⟩

/-- **A message queue is a FIFO.** Every sequence of operations has the results that it has on a
list; the messages that have been popped, and then those that are queued, are the ones that have
been pushed, in order. -/
theorem message_queue_fifo (handle : ℕ) (ops : List MqOp)
    (hroom : Along fifo (fun l op ↦ op.Fits l) [] ops) :
    ∃ tr q tr' l, exec intQueue (IntQueue.create handle) ops = .ok (tr, q) ∧
      exec fifo [] ops = .ok (tr', l) ∧ tr.map Event.output = tr'.map Event.output ∧
      q.length = l.length ∧
      pushedMessages ops = poppedMessages (tr.map Event.output) ++ l := by
  obtain ⟨tr', l, hfifo⟩ := exec_total (m := fifo) [] ops
  -- the int ring refines the plain list as long as doubling the capacity does not overflow
  obtain ⟨tr, q, hexec, houtputs, hl⟩ := exec_refines intQueue fifo IntQueue.Lists intQueue_step
    (IntQueue.create_lists handle) hroom hfifo
  refine ⟨tr, q, tr', l, hexec, hfifo, houtputs, hl.length_eq, ?_⟩
  rw [houtputs]
  exact fifo_accounts hfifo

/-- Messages that are told apart by their session. -/
def numbered (session : ℤ) : ZtaskMessage where
  source := 1
  session := session
  data := none
  sz := 0

/-- The expansion comes when the index of the first message is 40. -/
def wrapOps : List MqOp :=
  List.replicate 40 (MqOp.push (numbered 1)) ++ List.replicate 40 MqOp.pop ++
    (MqOp.push (numbered 2) :: List.replicate 62 (MqOp.push (numbered 3))) ++
    [MqOp.push (numbered 4), MqOp.length] ++
    List.replicate 64 MqOp.pop ++ [MqOp.pop, MqOp.length]

theorem message_queue_fifo_wrapped :
    Along fifo (fun l op ↦ op.Fits l) [] wrapOps ∧
      ∃ tr q tr' l, exec intQueue (IntQueue.create 1) wrapOps = .ok (tr, q) ∧
        exec fifo [] wrapOps = .ok (tr', l) ∧ tr.map Event.output = tr'.map Event.output ∧
        q.length = l.length ∧
        pushedMessages wrapOps = poppedMessages (tr.map Event.output) ++ l :=
  have hroom : Along fifo (fun l op ↦ op.Fits l) [] wrapOps := by decide +kernel
  ⟨hroom, message_queue_fifo 1 wrapOps hroom⟩

/-! ## More messages than an `int` can count -/

/-- The queue with `2 ^ 30` messages gives the first of them for each pop. -/
theorem intQueue_overrun (handle : ℕ) {messages : List ZtaskMessage}
    (hlength : messages.length = 2 ^ 30) {first : ZtaskMessage}
    (hfirst : messages.head? = some first) :
    ∃ tr q,
      exec intQueue (IntQueue.create handle)
          (messages.map MqOp.push ++ [MqOp.pop, MqOp.pop]) = .ok (tr, q) ∧
      tr.map Event.output = List.replicate (2 ^ 30) MqResult.pushed ++
        [MqResult.popped (some first), MqResult.popped (some first)] := by
  obtain ⟨init, last, rfl⟩ : ∃ init last, messages = init ++ [last] := by
    have hne : messages ≠ [] := by
      intro hnil
      rw [hnil] at hfirst
      cases hfirst
    exact ⟨_, _, (List.dropLast_append_getLast hne).symm⟩
  rw [List.length_append, List.length_singleton] at hlength
  -- all messages but the last one
  obtain ⟨tr', hfifo, houtputs'⟩ := exec_fifo_pushes init []
  have hroom : Along fifo (fun l op ↦ op.Fits l) [] (init.map MqOp.push) :=
    along_pushes (by rw [List.length_nil]; omega)
  obtain ⟨tr, q, hexec, houtputs, r, hr, hlist⟩ := exec_refines intQueue fifo IntQueue.Lists
    intQueue_step (IntQueue.create_lists handle) hroom hfifo
  rw [List.nil_append] at hlist
  have hpushes : tr.map Event.output = List.replicate init.length MqResult.pushed :=
    houtputs.trans houtputs'
  -- the last one, and the two pops
  have hlen : r.length + 1 = 2 ^ 30 := by rw [← RingBuffer.length_toList, hlist]; exact hlength
  have hhead : r.toList.head? = some first := by
    have hne : init ≠ [] := by
      intro hnil
      rw [hnil, List.length_nil] at hlength
      omega
    rwa [List.head?_append_of_ne_nil _ hne, ← hlist] at hfirst
  obtain ⟨b, q₁, hpush, h₁⟩ := IntQueue.push_full hr last hlen hhead
  obtain ⟨q₂, hpop₁, h₂⟩ := IntQueue.pop_full h₁
  obtain ⟨q₃, hpop₂, -⟩ := IntQueue.pop_full h₂
  have hrest : exec intQueue q [MqOp.push last, MqOp.pop, MqOp.pop] =
      .ok ([⟨q, .push last, .pushed, q₁⟩, ⟨q₁, .pop, .popped (some first), q₂⟩,
        ⟨q₂, .pop, .popped (some first), q₃⟩], q₃) := by
    simp only [exec, intQueue, hpush, hpop₁, hpop₂, Except.map]
  have hops : (init ++ [last]).map MqOp.push ++ [MqOp.pop, MqOp.pop] =
      init.map MqOp.push ++ [MqOp.push last, MqOp.pop, MqOp.pop] := by
    rw [List.map_append, List.append_assoc]
    rfl
  rw [hops]
  refine ⟨_, q₃, exec_append hexec hrest, ?_⟩
  rw [List.map_append, hpushes, ← hlength, List.replicate_succ', List.append_assoc]
  rfl

/-- One message, and so many others that there are `2 ^ 30`. -/
def manyMessages : List ZtaskMessage :=
  numbered 1 :: numbered 2 :: List.replicate (2 ^ 30 - 2) (numbered 2)

theorem not_message_queue_fifo :
    ∃ tr q tr' l,
      exec intQueue (IntQueue.create 1)
          (manyMessages.map MqOp.push ++ [MqOp.pop, MqOp.pop]) = .ok (tr, q) ∧
      exec fifo [] (manyMessages.map MqOp.push ++ [MqOp.pop, MqOp.pop]) = .ok (tr', l) ∧
      tr.map Event.output = List.replicate (2 ^ 30) MqResult.pushed ++
        [MqResult.popped (some (numbered 1)), MqResult.popped (some (numbered 1))] ∧
      tr'.map Event.output = List.replicate (2 ^ 30) MqResult.pushed ++
        [MqResult.popped (some (numbered 1)), MqResult.popped (some (numbered 2))] ∧
      tr.map Event.output ≠ tr'.map Event.output := by
  have hlength : manyMessages.length = 2 ^ 30 := by
    rw [manyMessages, List.length_cons, List.length_cons, List.length_replicate]
    omega
  obtain ⟨tr, q, hexec, houtputs⟩ := intQueue_overrun 1 hlength
    (show manyMessages.head? = some (numbered 1) from rfl)
  obtain ⟨tr', hpushes, houtputs'⟩ := exec_fifo_pushes manyMessages []
  rw [List.nil_append] at hpushes
  rw [hlength] at houtputs'
  have hfifo := exec_append hpushes (exec_fifo_pops (numbered 1) (numbered 2) _)
  refine ⟨tr, q, _, _, hexec, hfifo, houtputs, ?_, ?_⟩
  · rw [List.map_append, houtputs']
    rfl
  · rw [houtputs, List.map_append, houtputs']
    intro heq
    have hlast := List.append_cancel_left heq
    exact absurd hlast (by decide)

/-! ## The queue with a natural number as its capacity -/

/-- `ztask_mq_push` on the queue itself, and whether the queue is then given to
`ztask_globalmq_push`. -/
def mqPushQueue (q : MessageQueue) (message : ZtaskMessage) : Bool × MessageQueue :=
  (!q.inGlobal, { q with ring := pushRing q.ring message, inGlobal := true })

def messageQueue : Machine MessageQueue MqOp MqResult Empty := fun q op ↦
  match op with
  | .push message => .ok ((mqPushQueue q message).2, .pushed)
  | .pop => .ok ((mqPopQueue q).2, .popped (mqPopQueue q).1)
  | .length => .ok (q, .length (mqLength q))

private theorem toList_mqCreate (handle : ℕ) : (mqCreate handle).ring.toList = [] :=
  RingBuffer.toList_eq_nil rfl

private theorem toList_mqPopQueue (q : MessageQueue) :
    (mqPopQueue q).1 = q.ring.toList.head? ∧ (mqPopQueue q).2.ring.toList = q.ring.toList.tail := by
  rw [mqPopQueue]
  cases hpop : q.ring.pop? with
  | none =>
    have hempty := RingBuffer.pop?_eq_none_iff.mp hpop
    exact ⟨by rw [hempty]; rfl, by rw [hempty]; rfl⟩
  | some p =>
    obtain ⟨message, ring⟩ := p
    have hlist := RingBuffer.toList_of_pop? hpop
    exact ⟨by rw [hlist]; rfl, by rw [hlist]; rfl⟩

theorem messageQueue_step {q : MessageQueue} {l l' : List ZtaskMessage} {op : MqOp} {o : MqResult}
    (hl : q.ring.toList = l) (hfifo : fifo l op = .ok (l', o)) :
    ∃ q', messageQueue q op = .ok (q', o) ∧ q'.ring.toList = l' := by
  cases op with
  | push message =>
    obtain ⟨rfl, rfl⟩ := Prod.mk.inj (Except.ok.inj hfifo)
    refine ⟨_, rfl, ?_⟩
    rw [← hl]
    exact toList_pushRing q.ring message
  | pop =>
    obtain ⟨hhead, htail⟩ := toList_mqPopQueue q
    rw [hl] at hhead htail
    refine ⟨(mqPopQueue q).2, ?_, ?_⟩
    · cases l with
      | nil | cons =>
        obtain ⟨-, rfl⟩ := Prod.mk.inj (Except.ok.inj hfifo)
        rw [messageQueue, hhead]
        rfl
    · cases l with
      | nil | cons =>
        obtain ⟨rfl, -⟩ := Prod.mk.inj (Except.ok.inj hfifo)
        exact htail
  | length =>
    obtain ⟨rfl, rfl⟩ := Prod.mk.inj (Except.ok.inj hfifo)
    refine ⟨q, ?_, hl⟩
    rw [messageQueue, mqLength, ← hl, RingBuffer.length_toList]

private theorem messageQueue_refines_fifo (handle : ℕ) (ops : List MqOp) :
    ∃ tr q tr' l, exec messageQueue (mqCreate handle) ops = .ok (tr, q) ∧
      exec fifo [] ops = .ok (tr', l) ∧ tr.map Event.output = tr'.map Event.output ∧
      q.ring.toList = l := by
  obtain ⟨tr', l, hfifo⟩ := exec_total (m := fifo) [] ops
  have halong : Along fifo (fun _ _ ↦ True) [] ops := along_of_forall (fun _ _ ↦ trivial) [] ops
  obtain ⟨tr, q, hexec, houtputs, hl⟩ := exec_refines messageQueue fifo
    (fun q l ↦ q.ring.toList = l) (fun hl _ hstep ↦ messageQueue_step hl hstep)
    (toList_mqCreate handle) halong hfifo
  exact ⟨tr, q, tr', l, hexec, hfifo, houtputs, hl⟩

/-- **Below the limit the two queues have the same results.** -/
theorem intQueue_eq_messageQueue (handle : ℕ) (ops : List MqOp)
    (hroom : Along fifo (fun l op ↦ op.Fits l) [] ops) :
    ∃ tr q tr' q', exec intQueue (IntQueue.create handle) ops = .ok (tr, q) ∧
      exec messageQueue (mqCreate handle) ops = .ok (tr', q') ∧
      tr.map Event.output = tr'.map Event.output ∧ q.Lists q'.ring.toList := by
  obtain ⟨tr', q', tr₀, l, hmq, hfifo, houtputs', rfl⟩ := messageQueue_refines_fifo handle ops
  obtain ⟨tr, q, hexec, houtputs, hl⟩ := exec_refines intQueue fifo IntQueue.Lists intQueue_step
    (IntQueue.create_lists handle) hroom hfifo
  exact ⟨tr, q, tr', q', hexec, hmq, houtputs.trans houtputs'.symm, hl⟩

end ZTask
