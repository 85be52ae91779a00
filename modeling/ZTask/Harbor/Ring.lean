import ZTask.Harbor.Queue
import ZTask.Lib.Block
import ZTask.Lib.Machine

/-!
# The memory of a queue of messages

`struct harbor_msg_queue` as it lies in memory: an array of `size` entries that starts out
uninitialised, two indices, and the loop that copies the entries to a larger array. A read of a cell
that was never written and an access outside the array are faults.

The rings of `ZTask.Lib.RingBuffer` are the view taken here (`HarborRing.view`), so an array `Holds`
a list of entries when its view does. Every call keeps this and answers as the list does
(`HarborRing.Holds.step`), and `release_queue` frees what the list still holds.

The size and the indices are natural numbers, which the fields of type `int` of the source are for
fewer than `2 ^ 30` entries. The array is only moved to a larger one when all but one of its entries
are waiting (`HarborRing.Holds.pushQueueMsg`), so a size of `2 ^ 31` takes `2 ^ 30` waiting entries;
the product that the source passes to `ztask_malloc` is then negative, and there is no array to go
on with.
-/

namespace ZTask

open Lib

/-- `struct harbor_msg`, with the buffer as the address it is. -/
structure HarborEntry where
  header : RemoteMessageHeader
  buffer : UInt64
  size : UInt64
deriving DecidableEq, Repr

/-- `struct harbor_msg_queue`. -/
structure HarborRing where
  size : ℕ
  head : ℕ
  tail : ℕ
  data : Block HarborEntry

inductive RingFault
  /-- an access outside the array -/
  | outside
  /-- a read of an entry that was never written -/
  | unwritten
deriving DecidableEq, Repr

/-- What `release_queue` passes to `ztask_free`. -/
inductive HarborFree
  | buffer (address : UInt64)
  | data
  | queue
deriving DecidableEq, Repr

namespace HarborRing

/-- `new_queue`. -/
def new : HarborRing :=
  ⟨defaultHarborQueueSize, 0, 0, Block.alloc defaultHarborQueueSize⟩

/-- `data[i]`, read. -/
def load (data : Block HarborEntry) (i : ℕ) : Except RingFault HarborEntry :=
  match data[i]? with
  | none => .error .outside
  | some none => .error .unwritten
  | some (some m) => .ok m

/-- `data[i] = m`. -/
def store (data : Block HarborEntry) (i : ℕ) (m : HarborEntry) :
    Except RingFault (Block HarborEntry) :=
  match data.write? i [m] with
  | none => .error .outside
  | some data => .ok data

/-- `for (i = 0; i < queue->size - 1; i++)`, from the index `i` on, `n` steps. -/
def copyEntries (queue : HarborRing) : ℕ → ℕ → Block HarborEntry →
    Except RingFault (Block HarborEntry)
  | 0, _, newBuffer => .ok newBuffer
  | n + 1, i, newBuffer => do
    let m ← load queue.data ((i + queue.head) % queue.size)
    let newBuffer ← store newBuffer i m
    copyEntries queue n (i + 1) newBuffer

/-- The expansion in `push_queue_msg`. -/
def expand (queue : HarborRing) : Except RingFault HarborRing := do
  let newBuffer ← copyEntries queue (queue.size - 1) 0 (Block.alloc (queue.size * 2))
  return ⟨queue.size * 2, 0, queue.size - 1, newBuffer⟩

/-- `*slot = *m` and the index behind it. -/
def fill (queue : HarborRing) (m : HarborEntry) : Except RingFault HarborRing := do
  let data ← store queue.data queue.tail m
  return { queue with data, tail := (queue.tail + 1) % queue.size }

def pushQueueMsg (queue : HarborRing) (m : HarborEntry) : Except RingFault HarborRing := do
  let queue ← if (queue.tail + 1) % queue.size = queue.head then queue.expand else .ok queue
  queue.fill m

def pushQueue (queue : HarborRing) (buffer sz : UInt64) (header : RemoteMessageHeader) :
    Except RingFault HarborRing :=
  queue.pushQueueMsg ⟨header, buffer, sz⟩

/-- `pop_queue`, with the entry the pointer shows at; `NULL` is `none`. -/
def popQueue (queue : HarborRing) : Except RingFault (Option HarborEntry × HarborRing) :=
  if queue.head = queue.tail then .ok (none, queue)
  else do
    let m ← load queue.data queue.head
    return (some m, { queue with head := (queue.head + 1) % queue.size })

/-- `while ((m = pop_queue(queue)) != NULL)`, at most `n` times; `none` when that is too few. -/
def freeBuffers : ℕ → HarborRing → Except RingFault (Option (List HarborFree))
  | 0, _ => .ok none
  | n + 1, queue => do
    match ← queue.popQueue with
    | (none, _) => return some []
    | (some m, queue) => return (← freeBuffers n queue).map (.buffer m.buffer :: ·)

/-- `release_queue`; the entries are fewer than the cells. -/
def releaseQueue : Option HarborRing → Except RingFault (Option (List HarborFree))
  | none => .ok (some [])
  | some queue => do
    return (← freeBuffers queue.size queue).map (· ++ [.data, .queue])

end HarborRing

/-- A call of one of the operations. -/
inductive QueueCall
  | pushQueueMsg (m : HarborEntry)
  | pushQueue (buffer sz : UInt64) (header : RemoteMessageHeader)
  | popQueue

/-- The entry a call pushes. -/
def QueueCall.pushed : QueueCall → Option HarborEntry
  | .pushQueueMsg m => some m
  | .pushQueue buffer sz header => some ⟨header, buffer, sz⟩
  | .popQueue => none

/-- The operations on the array. The output is what `pop_queue` returned. -/
def harborRing : Machine HarborRing QueueCall (Option HarborEntry) RingFault
  | queue, .pushQueueMsg m => do return (← queue.pushQueueMsg m, none)
  | queue, .pushQueue buffer sz header => do return (← queue.pushQueue buffer sz header, none)
  | queue, .popQueue => do
    let (m, queue) ← queue.popQueue
    return (queue, m)

/-- The operations on a list, the front first. -/
def harborFifo : Machine (List HarborEntry) QueueCall (Option HarborEntry) Empty
  | ms, .pushQueueMsg m => .ok (ms ++ [m], none)
  | ms, .pushQueue buffer sz header => .ok (ms ++ [⟨header, buffer, sz⟩], none)
  | [], .popQueue => .ok ([], none)
  | m :: ms, .popQueue => .ok (ms, some m)

namespace HarborRing

/-! ## The view -/

/-- The ring that stands in the array. -/
def view (queue : HarborRing) (hhead : queue.head < queue.size) (htail : queue.tail < queue.size) :
    RingBuffer (Option HarborEntry) :=
  ⟨queue.size, queue.head, queue.tail, fun i ↦ queue.data[i]?.join, hhead, htail⟩

/-- The indices are inside the array, and the entries waiting there are `ms`. -/
structure Holds (queue : HarborRing) (ms : List HarborEntry) : Prop where
  length_data : queue.data.length = queue.size
  head_lt : queue.head < queue.size
  tail_lt : queue.tail < queue.size
  toList_view : (queue.view head_lt tail_lt).toList = ms.map some

variable {queue queue' : HarborRing} {ms : List HarborEntry} {m : HarborEntry}

private theorem load_eq_ok {data : Block HarborEntry} {i : ℕ} (h : data[i]?.join = some m) :
    load data i = .ok m := by
  rw [load, Option.join_eq_some_iff.mp h]

theorem store_eq_ok {data : Block HarborEntry} {i : ℕ} (h : i < data.length) (m : HarborEntry) :
    ∃ data', store data i m = .ok data' ∧ data.write? i [m] = some data' := by
  obtain ⟨data', hdata'⟩ := @Block.write?_eq_some _ data i [m] h
  exact ⟨data', by rw [store, hdata'], hdata'⟩

theorem Holds.length_eq (h : queue.Holds ms) :
    (queue.view h.head_lt h.tail_lt).length = ms.length := by
  rw [← RingBuffer.length_toList, h.toList_view, List.length_map]

theorem Holds.length_lt (h : queue.Holds ms) : ms.length < queue.size := by
  rw [← h.length_eq]
  exact RingBuffer.length_lt

theorem Holds.load_eq (h : queue.Holds ms) {i : ℕ} (hi : ms[i]? = some m) :
    load queue.data ((queue.head + i) % queue.size) = .ok m := by
  have hcell := congrArg (·[i]?) h.toList_view
  have hlt : i < ms.length := (List.getElem?_eq_some_iff.mp hi).1
  rw [RingBuffer.toList, h.length_eq] at hcell
  simp only [List.getElem?_map, List.getElem?_range hlt, hi, Option.map_some,
    Option.some.injEq] at hcell
  exact load_eq_ok hcell

private theorem holds_new : new.Holds [] :=
  ⟨Block.length_alloc _, by decide, by decide, RingBuffer.toList_eq_nil rfl⟩

/-! ## Push -/

/-- An entry is written behind the others, as long as a cell stays free. -/
theorem Holds.fill (h : queue.Holds ms) (hroom : (queue.tail + 1) % queue.size ≠ queue.head)
    (m : HarborEntry) : ∃ queue', queue.fill m = .ok queue' ∧ queue'.Holds (ms ++ [m]) ∧
      queue'.size = queue.size := by
  have htail := h.tail_lt
  obtain ⟨data, hstore, hwrite⟩ := store_eq_ok (by rw [h.length_data]; exact htail) m
  have hadvance := RingBuffer.advance_eq_mod htail
  refine ⟨{ queue with data, tail := (queue.tail + 1) % queue.size },
    by rw [HarborRing.fill, hstore]; rfl, ⟨?_, h.head_lt, ?_, ?_⟩, rfl⟩
  · exact (Block.length_of_write? hwrite).trans h.length_data
  · exact Nat.mod_lt _ (Nat.zero_lt_of_lt htail)
  · have hdata : (fun i ↦ data[i]?.join) =
        Function.update (fun i ↦ queue.data[i]?.join) queue.tail (some m) := by
      funext i
      rw [Block.getElem?_of_write? hwrite, Function.update_apply]
      by_cases hi : i = queue.tail
      · rw [if_pos ⟨by omega, by rw [List.length_singleton]; omega⟩, if_pos hi, hi, Nat.sub_self]
        rfl
      · rw [if_neg (by rw [List.length_singleton]; omega), if_neg hi]
    have hview := RingBuffer.toList_write (r := queue.view h.head_lt htail) (a := some m)
      (hadvance ▸ hroom)
    rw [h.toList_view] at hview
    rw [List.map_append, List.map_singleton, ← hview]
    simp only [view, RingBuffer.write, hdata, hadvance]

/-- The loop copies the entries that wait. -/
theorem copyEntries_eq {front rest : List HarborEntry} {cells : Block HarborEntry}
    (h : queue.Holds (front ++ rest)) (hcells : rest.length ≤ cells.length) :
    copyEntries queue rest.length front.length (front.map some ++ cells) =
      .ok ((front ++ rest).map some ++ cells.drop rest.length) := by
  induction rest generalizing front cells with
  | nil => rw [List.append_nil]; rfl
  | cons m rest ih =>
    rw [List.length_cons] at hcells
    have hload : load queue.data ((front.length + queue.head) % queue.size) = .ok m := by
      rw [Nat.add_comm]
      exact h.load_eq (by rw [List.getElem?_append_right (Nat.le_refl _), Nat.sub_self]; rfl)
    have hstore : store (front.map some ++ cells) front.length m =
        .ok ((front ++ [m]).map some ++ cells.drop 1) := by
      rw [store, Block.write?_front (by rw [List.length_singleton]; omega)]
      rfl
    have happend : front ++ m :: rest = front ++ [m] ++ rest := by
      rw [List.append_assoc]
      rfl
    have hnext := @ih (front ++ [m]) (cells.drop 1) (happend ▸ h)
      (by rw [List.length_drop]; omega)
    rw [List.length_append, List.length_singleton] at hnext
    rw [List.length_cons, copyEntries, hload]
    show (store _ _ _ >>= fun newBuffer ↦ copyEntries queue rest.length _ newBuffer) = _
    rw [hstore]
    show copyEntries queue rest.length (front.length + 1) _ = _
    rw [hnext, happend, List.drop_drop, Nat.add_comm]

/-- A full array is moved to one twice the size, the front to the index 0. -/
theorem Holds.expand (h : queue.Holds ms) (hfull : (queue.tail + 1) % queue.size = queue.head) :
    ∃ queue', queue.expand = .ok queue' ∧ queue'.Holds ms ∧
      (queue'.tail + 1) % queue'.size ≠ queue'.head ∧ queue'.size = 2 * (ms.length + 1) := by
  have hhead := h.head_lt
  have htail := h.tail_lt
  -- one cell is free in a full array
  have hlen : ms.length = queue.size - 1 := by
    rw [RingBuffer.advance_eq_mod htail, RingBuffer.advance] at hfull
    rw [← h.length_eq, RingBuffer.length]
    show (if queue.head ≤ queue.tail then queue.tail - queue.head
      else queue.tail + queue.size - queue.head) = queue.size - 1
    split at hfull <;> split <;> omega
  have hcopy := @copyEntries_eq queue [] ms (Block.alloc (queue.size * 2)) h
    (by rw [Block.length_alloc]; omega)
  rw [List.map_nil, List.nil_append, List.length_nil, List.nil_append, hlen] at hcopy
  refine ⟨⟨queue.size * 2, 0, queue.size - 1,
    ms.map some ++ (Block.alloc (queue.size * 2)).drop (queue.size - 1)⟩,
    by rw [HarborRing.expand, hcopy]; rfl, ⟨?_, ?_, ?_, ?_⟩, ?_, ?_⟩
  · show (ms.map some ++ (Block.alloc _).drop _).length = queue.size * 2
    rw [List.length_append, List.length_map, List.length_drop, Block.length_alloc]
    omega
  · show 0 < queue.size * 2
    omega
  · show queue.size - 1 < queue.size * 2
    omega
  · refine (@RingBuffer.toList_ofCells _ (queue.size * 2) (queue.size - 1) _ (by omega)).trans ?_
    refine List.ext_getElem? fun i ↦ ?_
    rw [List.getElem?_map, List.getElem?_map]
    by_cases hi : i < queue.size - 1
    · -- the cells in front are those that have been copied
      have hcell : ((ms.map some ++
          List.drop (queue.size - 1) (Block.alloc (queue.size * 2)))[i]?).join =
          ms[i]? := by
        rw [List.getElem?_append_left (by rw [List.length_map]; omega), List.getElem?_map,
          List.getElem?_eq_getElem (by omega)]
        rfl
      rw [List.getElem?_range hi, Option.map_some, hcell, List.getElem?_eq_getElem (by omega)]
      rfl
    · rw [List.getElem?_eq_none (by rw [List.length_range]; omega),
        List.getElem?_eq_none (by omega)]
      rfl
  · show (queue.size - 1 + 1) % (queue.size * 2) ≠ 0
    rw [Nat.mod_eq_of_lt (by omega)]
    omega
  · show queue.size * 2 = _
    omega

/-- **Push.** The entry is the new end, and the array grows only if all but one of its cells are
taken. -/
theorem Holds.pushQueueMsg (h : queue.Holds ms) (m : HarborEntry) :
    ∃ queue', queue.pushQueueMsg m = .ok queue' ∧ queue'.Holds (ms ++ [m]) ∧
      (queue'.size = queue.size ∨ queue'.size = 2 * (ms.length + 1)) := by
  by_cases hfull : (queue.tail + 1) % queue.size = queue.head
  · obtain ⟨larger, hexpand, hlarger, hroom, hsize⟩ := h.expand hfull
    obtain ⟨queue', hfill, hholds, hsize'⟩ := hlarger.fill hroom m
    refine ⟨queue', ?_, hholds, .inr (hsize'.trans hsize)⟩
    rw [HarborRing.pushQueueMsg, if_pos hfull, hexpand]
    exact hfill
  · obtain ⟨queue', hfill, hholds, hsize'⟩ := h.fill hfull m
    refine ⟨queue', ?_, hholds, .inl hsize'⟩
    rw [HarborRing.pushQueueMsg, if_neg hfull]
    exact hfill

/-! ## Pop -/

theorem Holds.popQueue_nil (h : queue.Holds []) : queue.popQueue = .ok (none, queue) :=
  if_pos (RingBuffer.toList_eq_nil_iff.mp h.toList_view)

theorem Holds.popQueue_cons (h : queue.Holds (m :: ms)) :
    ∃ queue', queue.popQueue = .ok (some m, queue') ∧ queue'.Holds ms ∧
      queue'.size = queue.size := by
  have hhead := h.head_lt
  have hload := h.load_eq (i := 0) rfl
  rw [Nat.add_zero, Nat.mod_eq_of_lt hhead] at hload
  have hne : queue.head ≠ queue.tail := by
    intro heq
    have hnil := RingBuffer.toList_eq_nil (r := queue.view hhead h.tail_lt) heq
    rw [h.toList_view] at hnil
    cases hnil
  have hpop : (queue.view hhead h.tail_lt).pop? = some (queue.data[queue.head]?.join,
      { queue.view hhead h.tail_lt with
        head := RingBuffer.advance queue.size queue.head
        head_lt := RingBuffer.advance_lt hhead }) := if_neg hne
  have hview := RingBuffer.toList_of_pop? hpop
  rw [h.toList_view] at hview
  refine ⟨{ queue with head := (queue.head + 1) % queue.size },
    by rw [HarborRing.popQueue, if_neg hne, hload]; rfl,
    ⟨h.length_data, Nat.mod_lt _ (Nat.zero_lt_of_lt hhead), h.tail_lt, ?_⟩, rfl⟩
  have htail := (List.cons.inj hview).2
  rw [htail]
  simp only [view, RingBuffer.advance_eq_mod hhead]

/-! ## Release -/

theorem Holds.freeBuffers (h : queue.Holds ms) {n : ℕ} (hn : ms.length < n) :
    freeBuffers n queue = .ok (some (ms.map fun m ↦ .buffer m.buffer)) := by
  induction ms generalizing queue n with
  | nil =>
    obtain ⟨n, rfl⟩ : ∃ k, n = k + 1 := ⟨n - 1, by omega⟩
    rw [HarborRing.freeBuffers, h.popQueue_nil]
    rfl
  | cons m ms ih =>
    obtain ⟨n, rfl⟩ : ∃ k, n = k + 1 := ⟨n - 1, by omega⟩
    obtain ⟨queue', hpop, hholds, -⟩ := h.popQueue_cons
    rw [List.length_cons] at hn
    rw [HarborRing.freeBuffers, hpop]
    show (HarborRing.freeBuffers n queue' >>= fun frees ↦ pure (frees.map (_ :: ·))) = _
    rw [ih hholds (by omega)]
    rfl

/-- **Release.** Every buffer that waits is freed once, then the array and the queue. -/
theorem Holds.releaseQueue (h : queue.Holds ms) :
    releaseQueue (some queue) =
      .ok (some ((ms.map fun m ↦ .buffer m.buffer) ++ [.data, .queue])) := by
  rw [HarborRing.releaseQueue, h.freeBuffers h.length_lt]
  rfl

/-! ## Runs -/

/-- The array answers a call as the list does. -/
theorem Holds.step {call : QueueCall} {ms' : List HarborEntry} {o : Option HarborEntry}
    (h : queue.Holds ms) (hfifo : harborFifo ms call = .ok (ms', o)) :
    ∃ queue', harborRing queue call = .ok (queue', o) ∧ queue'.Holds ms' := by
  cases call with
  | pushQueueMsg m =>
    cases hfifo
    obtain ⟨queue', hpush, hholds, -⟩ := h.pushQueueMsg m
    exact ⟨queue', by rw [harborRing, hpush]; rfl, hholds⟩
  | pushQueue buffer sz header =>
    cases hfifo
    obtain ⟨queue', hpush, hholds, -⟩ := h.pushQueueMsg ⟨header, buffer, sz⟩
    exact ⟨queue', by rw [harborRing, pushQueue, hpush]; rfl, hholds⟩
  | popQueue =>
    cases ms with
    | nil =>
      cases hfifo
      exact ⟨queue, by rw [harborRing, h.popQueue_nil]; rfl, h⟩
    | cons m ms =>
      cases hfifo
      obtain ⟨queue', hpop, hholds, -⟩ := h.popQueue_cons
      exact ⟨queue', by rw [harborRing, hpop]; rfl, hholds⟩

end HarborRing

/-- What is popped from a list and what is left of it are what it held and what is pushed, in order.
-/
theorem harborFifo_order {calls : List QueueCall} {ms ms' : List HarborEntry}
    {tr : List (Event (List HarborEntry) QueueCall (Option HarborEntry))}
    (h : exec harborFifo ms calls = .ok (tr, ms')) :
    tr.filterMap Event.output ++ ms' = ms ++ calls.filterMap QueueCall.pushed := by
  -- over the calls; what a call returns was at the front, what it pushes goes to the end
  induction calls generalizing ms tr with
  | nil =>
    cases h
    rw [List.filterMap_nil, List.filterMap_nil, List.append_nil]
    rfl
  | cons call calls ih =>
    rw [exec] at h
    cases hstep : harborFifo ms call with
    | error fault => cases fault
    | ok p =>
      obtain ⟨ms₁, o⟩ := p
      obtain ⟨tr₁, ms₂, hrest⟩ := exec_total (m := harborFifo) ms₁ calls
      rw [hstep] at h
      simp only [hrest, Except.ok.injEq, Prod.mk.injEq] at h
      obtain ⟨rfl, rfl⟩ := h
      have hkept : o.toList ++ ms₁ = ms ++ call.pushed.toList := by
        cases call with
        | pushQueueMsg m => cases hstep; rfl
        | pushQueue buffer sz header => cases hstep; rfl
        | popQueue => cases ms <;> cases hstep <;> exact (List.append_nil _).symm
      have happend : ∀ {α β : Type} (f : α → Option β) (x : α) (xs : List α),
          (x :: xs).filterMap f = (f x).toList ++ xs.filterMap f := by
        intro α β f x xs
        rw [List.filterMap_cons]
        cases f x <;> rfl
      rw [happend, happend, List.append_assoc, ih hrest, ← List.append_assoc, ← List.append_assoc,
        hkept]

/-- **The queue is first in, first out.** Whatever is called on a new queue, no call faults, the
calls answer as those on a list do, so that the entries popped and the ones left are the ones pushed
in their order, and a release frees the buffers of those left, each once. -/
theorem harborRing_fifo (calls : List QueueCall) :
    ∃ tr queue tr' ms, exec harborRing .new calls = .ok (tr, queue) ∧
      exec harborFifo [] calls = .ok (tr', ms) ∧
      tr.map Event.output = tr'.map Event.output ∧
      tr.filterMap Event.output ++ ms = calls.filterMap QueueCall.pushed ∧
      HarborRing.releaseQueue (some queue) =
        .ok (some ((ms.map fun m ↦ .buffer m.buffer) ++ [.data, .queue])) := by
  obtain ⟨tr', ms, hfifo⟩ := exec_total (m := harborFifo) [] calls
  obtain ⟨tr, queue, hexec, houtputs, hholds⟩ :=
    exec_refines harborRing harborFifo (C := fun _ _ ↦ True) HarborRing.Holds
      (fun h _ hfifo ↦ h.step hfifo) HarborRing.holds_new
        (along_of_forall (fun _ _ ↦ trivial) _ _) hfifo
  -- the outputs agree call by call, hence also the messages popped
  have horder : tr.filterMap Event.output = tr'.filterMap Event.output := by
    have hid := congrArg (List.filterMap id) houtputs
    rwa [List.filterMap_map, List.filterMap_map] at hid
  exact ⟨tr, queue, tr', ms, hexec, hfifo, houtputs, horder ▸ harborFifo_order hfifo,
    hholds.releaseQueue⟩

end ZTask
