import ZTask.Lib.Word
import ZTask.Server.MessageQueue
import Mathlib.Data.Int.Notation

/-!
# A message queue in `int`

`ztask_mq_push`, `ztask_mq_pop` and `ztask_mq_length` on one queue with its fields as they are:
`cap`, `head`, `tail` and `overload_threshold` are of type `int`, and the block that `queue` points
to has the size that `expand_queue` has asked `malloc` for. The arithmetic wraps, and an access
outside of the block is a fault.

`IntQueue.Holds` says that the fields are those of a ring buffer whose capacity has been doubled at
most 24 times, which makes it at most 2^30. As long as that is so each operation is the one on the
ring buffer (`push_holds`, `pop_holds`). The next doubling gives the capacity -2^31 (`push_full`).
No index is below it: a pop takes the message at the index 0 and sets the index back to 0, and so
does the next one (`pop_full`).
-/

namespace ZTask

open Lib

/-- Why an operation on a queue does not end. -/
inductive MqFault
  /-- An access outside of the block. -/
  | outside
  /-- `malloc` is asked for more than there can be. -/
  | noMemory
  /-- The loop that doubles `overload_threshold` goes on. -/
  | endless
deriving DecidableEq, Repr

/-- `struct message_queue`, without its lock and its `next` link. `queue` is a block of `size`
cells. -/
structure IntQueue where
  handle : ℕ
  cap : ℤ
  head : ℤ
  tail : ℤ
  release : Bool
  inGlobal : Bool
  overload : ℤ
  overloadThreshold : ℤ
  size : ℕ
  queue : ℕ → ZtaskMessage

/-- `sizeof(struct ztask_message)` -/
def messageSize : ℕ := 24

namespace IntQueue

/-- `ztask_mq_create` -/
def create (handle : ℕ) : IntQueue where
  handle := handle
  cap := defaultQueueSize
  head := 0
  tail := 0
  release := false
  inGlobal := true
  overload := 0
  overloadThreshold := mqOverload
  size := defaultQueueSize
  queue := fun _ ↦ default

/-- `q->queue[i]` -/
def cell (q : IntQueue) (i : ℤ) : Except MqFault ZtaskMessage :=
  if 0 ≤ i ∧ i < q.size then .ok (q.queue i.toNat) else .error .outside

/-- `q->queue[i] = *message` -/
def setCell (q : IntQueue) (i : ℤ) (message : ZtaskMessage) : Except MqFault IntQueue :=
  if 0 ≤ i ∧ i < q.size then .ok { q with queue := Function.update q.queue i.toNat message }
  else .error .outside

/-- `ztask_mq_length` -/
def length (q : IntQueue) : ℤ :=
  if q.head ≤ q.tail then toInt32 (q.tail - q.head) else toInt32 (toInt32 (q.tail + q.cap) - q.head)

/-- The loop in `ztask_mq_pop`, with a bound on its rounds. -/
def raiseThreshold (length : ℤ) : ℕ → ℤ × ℤ → Except MqFault (ℤ × ℤ)
  | 0, p => if p.2 < length then .error .endless else .ok p
  | fuel + 1, (overload, threshold) =>
    if threshold < length then raiseThreshold length fuel (length, toInt32 (threshold * 2))
    else .ok (overload, threshold)

/-- `ztask_mq_pop` -/
def pop (q : IntQueue) : Except MqFault (Option ZtaskMessage × IntQueue) :=
  if q.head ≠ q.tail then do
    let message ← q.cell q.head
    let head := toInt32 (q.head + 1)
    let head := if q.cap ≤ head then 0 else head
    let length := toInt32 (q.tail - head)
    let length := if length < 0 then toInt32 (length + q.cap) else length
    let p ← raiseThreshold length length.toNat (q.overload, q.overloadThreshold)
    .ok (some message, { q with head := head, overload := p.1, overloadThreshold := p.2 })
  else .ok (none, { q with overloadThreshold := mqOverload, inGlobal := false })

/-- The loop of `expand_queue`: the first cells of the new block. -/
def copyCells (q : IntQueue) : ℕ → Except MqFault (ℕ → ZtaskMessage)
  | 0 => .ok fun _ ↦ default
  | n + 1 => do
    let cells ← q.copyCells n
    let message ← q.cell ((toInt32 (q.head + n)).tmod q.cap)
    .ok (Function.update cells n message)

/-- `expand_queue`. The size of the new block is of type `size_t`. -/
def expand (q : IntQueue) : Except MqFault IntQueue :=
  let bytes := (messageSize * q.cap * 2) % 2 ^ 64
  if bytes < 2 ^ 63 then do
    let cells ← q.copyCells q.cap.toNat
    .ok { q with
      head := 0
      tail := q.cap
      cap := toInt32 (q.cap * 2)
      size := bytes.toNat / messageSize
      queue := cells }
  else .error .noMemory

/-- `ztask_mq_push` on the queue itself, and whether the queue is then given to
`ztask_globalmq_push`. -/
def push (q : IntQueue) (message : ZtaskMessage) : Except MqFault (Bool × IntQueue) := do
  let q ← q.setCell q.tail message
  let tail := toInt32 (q.tail + 1)
  let q := { q with tail := if q.cap ≤ tail then 0 else tail }
  let q ← if q.head = q.tail then q.expand else .ok q
  .ok (!q.inGlobal, { q with inGlobal := true })

/-! ## The ring that the fields are -/

/-- The fields are those of the ring `r`, whose capacity an `int` can hold. -/
structure Holds (q : IntQueue) (r : RingBuffer ZtaskMessage) : Prop where
  cap : q.cap = r.cap
  head : q.head = r.head
  tail : q.tail = r.tail
  size : q.size = r.cap
  queue : q.queue = r.data
  doubled : ∃ k ≤ 24, r.cap = defaultQueueSize * 2 ^ k
  threshold : 0 < q.overloadThreshold

private theorem mqOverload_pos : (0 : ℤ) < mqOverload := by decide

theorem create_holds (handle : ℕ) :
    (create handle).Holds (RingBuffer.ofCells defaultQueueSize 0 (fun _ ↦ default) (by decide)) :=
  ⟨rfl, rfl, rfl, rfl, rfl, ⟨0, by decide, rfl⟩, mqOverload_pos⟩

variable {q q' : IntQueue} {r : RingBuffer ZtaskMessage}

private theorem mq_bind {β γ : Type} (a : β) (f : β → Except MqFault γ) :
    (Except.ok a >>= f : Except MqFault γ) = f a := rfl

namespace Holds

private theorem cap_le (h : q.Holds r) : r.cap ≤ 2 ^ 30 := by
  obtain ⟨k, hk, hcap⟩ := h.doubled
  have hpow : 2 ^ k ≤ 2 ^ 24 := Nat.pow_le_pow_right (by decide) hk
  rw [hcap, defaultQueueSize]
  omega

theorem cell_of_lt (h : q.Holds r) {i : ℕ} (hi : i < r.cap) : q.cell i = .ok (r.data i) := by
  have hsize := h.size
  have hin : (0 : ℤ) ≤ i ∧ (i : ℤ) < q.size := by omega
  rw [cell, if_pos hin, Int.toNat_natCast, h.queue]

theorem advance (h : q.Holds r) {i : ℕ} (hi : i < r.cap) :
    (if q.cap ≤ toInt32 ((i : ℤ) + 1) then 0 else toInt32 ((i : ℤ) + 1)) =
      (RingBuffer.advance r.cap i : ℤ) := by
  have hcap := h.cap_le
  have hint : toInt32 ((i : ℤ) + 1) = i + 1 := toInt32_of_lt (by omega) (by omega)
  rw [hint, h.cap, RingBuffer.advance]
  by_cases hend : r.cap ≤ i + 1
  · rw [if_pos hend, if_pos (by omega)]
    rfl
  · rw [if_neg hend, if_neg (by omega)]
    rfl

theorem length_eq (h : q.Holds r) : q.length = r.length := by
  have hcap := h.cap_le
  have hhead := r.head_lt
  have htail := r.tail_lt
  rw [length, RingBuffer.length, h.head, h.tail, h.cap]
  by_cases hle : r.head ≤ r.tail
  · rw [if_pos (by omega), if_pos hle, toInt32_of_lt (by omega) (by omega)]
    omega
  · rw [if_neg (by omega), if_neg hle]
    have hsum : toInt32 ((r.tail : ℤ) + r.cap) = r.tail + r.cap :=
      toInt32_of_lt (by omega) (by omega)
    rw [hsum, toInt32_of_lt (by omega) (by omega)]
    omega

end Holds

/-! ## Pop -/

/-- The loop comes to an end for the lengths up to 2^30. -/
theorem raiseThreshold_ok {length : ℤ} (hlength : length ≤ 2 ^ 30) (fuel : ℕ) (p : ℤ × ℤ)
    (hpos : 0 < p.2) (hfuel : length < p.2 + fuel) :
    ∃ p', raiseThreshold length fuel p = .ok p' ∧ 0 < p'.2 := by
  induction fuel generalizing p with
  | zero => exact ⟨p, if_neg (by omega), hpos⟩
  | succ fuel ih =>
    obtain ⟨overload, threshold⟩ := p
    rw [raiseThreshold]
    by_cases hlt : threshold < length
    · have hdouble : toInt32 (threshold * 2) = threshold * 2 :=
        toInt32_of_lt (by omega) (by omega)
      rw [if_pos hlt, hdouble]
      exact ih _ (by dsimp only at hpos ⊢; omega) (by dsimp only at hpos hfuel ⊢; omega)
    · exact ⟨_, if_neg hlt, hpos⟩

/-- The part of `ztask_mq_pop` behind the copy of the message. -/
theorem pop_eq (hne : q.head ≠ q.tail) {message : ZtaskMessage}
    (hcell : q.cell q.head = .ok message) {head length : ℤ}
    (hhead : (if q.cap ≤ toInt32 (q.head + 1) then 0 else toInt32 (q.head + 1)) = head)
    (hlength : (if toInt32 (q.tail - head) < 0 then toInt32 (toInt32 (q.tail - head) + q.cap)
      else toInt32 (q.tail - head)) = length)
    (hle : length ≤ 2 ^ 30) (hpos : 0 < q.overloadThreshold) :
    ∃ overload threshold, 0 < threshold ∧ q.pop = .ok (some message,
      { q with head := head, overload := overload, overloadThreshold := threshold }) := by
  obtain ⟨p, hp, hp'⟩ := raiseThreshold_ok hle length.toNat (q.overload, q.overloadThreshold) hpos
    (by dsimp only; omega)
  refine ⟨p.1, p.2, hp', ?_⟩
  rw [pop, if_pos hne, hcell, mq_bind]
  dsimp only
  rw [hhead, hlength, hp, mq_bind]

/-- **A pop takes the message at the index that is read next.** -/
theorem pop_holds (h : q.Holds r) :
    ∃ q', q.pop = .ok (r.toList.head?, q') ∧ ∃ r', q'.Holds r' ∧ r'.toList = r.toList.tail := by
  have hcap := h.cap_le
  have hhead := r.head_lt
  have htail := r.tail_lt
  cases hpop : r.pop? with
  | none =>
    have hempty := RingBuffer.pop?_eq_none_iff.mp hpop
    have heq : r.head = r.tail := RingBuffer.toList_eq_nil_iff.mp hempty
    rw [hempty]
    refine ⟨{ q with overloadThreshold := mqOverload, inGlobal := false }, ?_, r, ?_, hempty⟩
    · rw [pop, if_neg (not_not_intro (by rw [h.head, h.tail, heq]))]
      rfl
    · exact ⟨h.cap, h.head, h.tail, h.size, h.queue, h.doubled, mqOverload_pos⟩
  | some p =>
    obtain ⟨message, r'⟩ := p
    have hlist := RingBuffer.toList_of_pop? hpop
    have hne : r.head ≠ r.tail := by
      intro heq
      rw [RingBuffer.toList_eq_nil heq] at hlist
      cases hlist
    have hread : message = r.data r.head ∧
        r' = { r with
          head := RingBuffer.advance r.cap r.head
          head_lt := RingBuffer.advance_lt hhead } := by
      rw [RingBuffer.pop?, if_neg hne] at hpop
      cases hpop
      exact ⟨rfl, rfl⟩
    obtain ⟨rfl, rfl⟩ := hread
    have hnext := RingBuffer.advance_lt hhead
    -- the length is taken after the head has moved, and wraps once at most
    have hlength : ∃ length ≤ 2 ^ 30,
        (if toInt32 (q.tail - RingBuffer.advance r.cap r.head) < 0 then
          toInt32 (toInt32 (q.tail - RingBuffer.advance r.cap r.head) + q.cap)
        else toInt32 (q.tail - RingBuffer.advance r.cap r.head)) = length := by
      have hdiff : toInt32 (q.tail - RingBuffer.advance r.cap r.head) =
          r.tail - RingBuffer.advance r.cap r.head := by
        rw [h.tail]
        exact toInt32_of_lt (by omega) (by omega)
      rw [hdiff, h.cap]
      by_cases hneg : (r.tail : ℤ) - RingBuffer.advance r.cap r.head < 0
      · rw [if_pos hneg, toInt32_of_lt (by omega) (by omega)]
        exact ⟨_, by omega, rfl⟩
      · rw [if_neg hneg]
        exact ⟨_, by omega, rfl⟩
    obtain ⟨length, hle, hlength⟩ := hlength
    obtain ⟨overload, threshold, hpos, hq⟩ := pop_eq (by rw [h.head, h.tail]; exact_mod_cast hne)
      (by rw [h.head]; exact h.cell_of_lt hhead) (by rw [h.head]; exact h.advance hhead) hlength hle
      h.threshold
    rw [hlist]
    exact ⟨_, hq, { r with
      head := RingBuffer.advance r.cap r.head
      head_lt := RingBuffer.advance_lt hhead },
        ⟨h.cap, rfl, h.tail, h.size, h.queue, h.doubled, hpos⟩,
      rfl⟩

/-! ## Push -/

private theorem copyCells_ok (h : q.Holds r) {n : ℕ} (hn : n ≤ r.cap) :
    ∃ cells, q.copyCells n = .ok cells ∧ ∀ i < n, cells i = r.data ((r.head + i) % r.cap) := by
  have hcap := h.cap_le
  have hhead := r.head_lt
  induction n with
  | zero => exact ⟨_, rfl, fun i hi ↦ absurd hi (Nat.not_lt_zero i)⟩
  | succ n ih =>
    obtain ⟨cells, hcells, hall⟩ := ih (by omega)
    have hsum : toInt32 (q.head + n) = ((r.head + n : ℕ) : ℤ) := by
      rw [h.head, toInt32_of_lt (by omega) (by omega)]
      rfl
    have hmod : (toInt32 (q.head + n)).tmod q.cap = ((r.head + n) % r.cap : ℕ) := by
      rw [hsum, h.cap, Int.tmod_eq_emod_of_nonneg (Int.natCast_nonneg _)]
      rfl
    refine ⟨Function.update cells n (r.data ((r.head + n) % r.cap)), ?_, fun i hi ↦ ?_⟩
    · rw [copyCells, hcells, mq_bind, hmod, h.cell_of_lt (Nat.mod_lt _ (by omega)), mq_bind]
    · by_cases hlast : i = n
      · rw [hlast, Function.update_self]
      · rw [Function.update_of_ne hlast]
        exact hall i (by omega)

private theorem length_of_full (hfull : r.head = RingBuffer.advance r.cap r.tail) :
    r.length + 1 = r.cap := by
  have hhead := r.head_lt
  have htail := r.tail_lt
  rw [RingBuffer.length]
  rw [RingBuffer.advance] at hfull
  by_cases hend : r.cap ≤ r.tail + 1
  · rw [if_pos hend] at hfull
    rw [if_pos (by omega)]
    omega
  · rw [if_neg hend] at hfull
    rw [if_neg (by omega)]
    omega

private theorem full_of_length (hlen : r.length + 1 = r.cap) :
    r.head = RingBuffer.advance r.cap r.tail := by
  have hhead := r.head_lt
  have htail := r.tail_lt
  rw [RingBuffer.length] at hlen
  rw [RingBuffer.advance]
  by_cases hle : r.head ≤ r.tail
  · rw [if_pos hle] at hlen
    rw [if_pos (by omega)]
    omega
  · rw [if_neg hle] at hlen
    rw [if_neg (by omega)]
    omega

private theorem write_holds (h : q.Holds r) (message : ZtaskMessage) :
    ({ q with queue := Function.update q.queue r.tail message
              tail := RingBuffer.advance r.cap r.tail } : IntQueue).Holds (r.write message) :=
  ⟨h.cap, h.head, rfl, h.size, by rw [RingBuffer.write, h.queue], h.doubled, h.threshold⟩

private theorem push_eq (h : q.Holds r) (message : ZtaskMessage) :
    q.push message = (if r.head = RingBuffer.advance r.cap r.tail then
        IntQueue.expand { q with queue := Function.update q.queue r.tail message
                                 tail := RingBuffer.advance r.cap r.tail }
      else .ok { q with queue := Function.update q.queue r.tail message
                        tail := RingBuffer.advance r.cap r.tail }) >>=
      fun q ↦ .ok (!q.inGlobal, { q with inGlobal := true }) := by
  have htail := r.tail_lt
  have hsize := h.size
  have hin : (0 : ℤ) ≤ q.tail ∧ q.tail < q.size := by
    rw [h.tail]
    omega
  have hnat : q.tail.toNat = r.tail := by rw [h.tail, Int.toNat_natCast]
  have hadvance := h.advance htail
  rw [← h.tail] at hadvance
  rw [push, setCell, if_pos hin, mq_bind, hnat]
  dsimp only
  rw [hadvance, h.head]
  by_cases hfull : r.head = RingBuffer.advance r.cap r.tail
  · rw [if_pos hfull, if_pos (by rw [hfull])]
  · rw [if_neg hfull, if_neg (by exact_mod_cast hfull)]

/-- What `expand_queue` leaves, as far as the copy of the cells goes. -/
theorem expand_eq (h : q.Holds r) :
    ∃ cells, (∀ i < r.cap, cells i = r.data ((r.head + i) % r.cap)) ∧ q.expand = .ok { q with
      head := 0
      tail := r.cap
      cap := toInt32 (q.cap * 2)
      size := r.cap * 2
      queue := cells } := by
  have hcap := h.cap_le
  obtain ⟨cells, hcells, hall⟩ := copyCells_ok h (Nat.le_refl r.cap)
  have hbytes : ((messageSize : ℤ) * q.cap * 2) % 2 ^ 64 = ((r.cap * 2 * messageSize : ℕ) : ℤ) := by
    rw [h.cap, messageSize, Int.emod_eq_of_lt (by omega) (by omega)]
    push_cast
    omega
  have hsize : (r.cap * 2 * messageSize) / messageSize = r.cap * 2 :=
    Nat.mul_div_cancel _ (by decide)
  have hsmall : ((r.cap * 2 * messageSize : ℕ) : ℤ) < 2 ^ 63 := by
    rw [messageSize]
    omega
  have hnat : q.cap.toNat = r.cap := by rw [h.cap, Int.toNat_natCast]
  refine ⟨cells, hall, ?_⟩
  rw [expand, hbytes, if_pos hsmall, hnat, hcells, mq_bind, Int.toNat_natCast, hsize, h.cap]

/-- **A push appends the message,** as long as there are fewer than `2 ^ 30` then. -/
theorem push_holds (h : q.Holds r) (message : ZtaskMessage) (hroom : r.length + 1 < 2 ^ 30) :
    ∃ b q', q.push message = .ok (b, q') ∧ ∃ r', q'.Holds r' ∧
      r'.toList = r.toList ++ [message] := by
  have hhead := r.head_lt
  have htail := r.tail_lt
  rw [push_eq h]
  by_cases hfull : r.head = RingBuffer.advance r.cap r.tail
  · obtain ⟨cells, hcells, hexpand⟩ := expand_eq (write_holds h message)
    rw [if_pos hfull, hexpand, mq_bind]
    have hgrow : r.cap < r.cap * 2 := by omega
    refine ⟨_, _, rfl, RingBuffer.ofCells (r.cap * 2) r.cap cells hgrow, ?_, ?_⟩
    · -- the ring was full, so its capacity is below 2^30, and can be doubled once more
      have hlen := length_of_full hfull
      obtain ⟨k, hk, hcap⟩ := h.doubled
      have hk' : k < 24 := by
        by_contra hnot
        obtain rfl : k = 24 := by omega
        rw [hcap, defaultQueueSize] at hlen
        omega
      have hdouble : toInt32 (q.cap * 2) = ((r.cap * 2 : ℕ) : ℤ) := by
        rw [h.cap, toInt32_of_lt (by omega) (by omega)]
        push_cast
        rfl
      have hpow : r.cap * 2 = defaultQueueSize * 2 ^ (k + 1) := by
        rw [Nat.pow_succ, ← Nat.mul_assoc, ← hcap]
      exact ⟨hdouble, rfl, rfl, rfl, rfl, ⟨k + 1, hk', hpow⟩, h.threshold⟩
    · rw [← RingBuffer.toList_grow hgrow hfull, RingBuffer.toList_ofCells,
        RingBuffer.toList_ofCells]
      exact List.map_congr_left fun i hi ↦ hcells i (List.mem_range.mp hi)
  · rw [if_neg hfull, mq_bind]
    refine ⟨_, _, rfl, r.write message, ?_, RingBuffer.toList_write fun heq ↦ hfull heq.symm⟩
    have hwrite := write_holds h message
    exact ⟨hwrite.cap, hwrite.head, hwrite.tail, hwrite.size, hwrite.queue, hwrite.doubled,
      hwrite.threshold⟩

/-! ## The doubling that does not fit -/

/-- The capacity is negative, and `first` is in the cell of the index 0. -/
structure Overrun (q : IntQueue) (first : ZtaskMessage) : Prop where
  cap : q.cap = -2 ^ 31
  head : q.head = 0
  tail : q.tail = 2 ^ 30
  cell : q.cell 0 = .ok first
  threshold : 0 < q.overloadThreshold

/-- **The push with which there are `2 ^ 30` messages.** -/
theorem push_full (h : q.Holds r) (message : ZtaskMessage) (hlen : r.length + 1 = 2 ^ 30)
    {first : ZtaskMessage} (hfirst : r.toList.head? = some first) :
    ∃ b q', q.push message = .ok (b, q') ∧ q'.Overrun first := by
  have hhead := r.head_lt
  have hcap : r.cap = 2 ^ 30 := by
    have hle := h.cap_le
    have hlt := @RingBuffer.length_lt _ r
    omega
  have hfull := full_of_length (hlen.trans hcap.symm)
  obtain ⟨cells, hcells, hexpand⟩ := expand_eq (write_holds h message)
  rw [push_eq h, if_pos hfull, hexpand, mq_bind]
  refine ⟨_, _, rfl, ?_, rfl, ?_, ?_, h.threshold⟩
  · dsimp only
    rw [h.cap, hcap]
    rfl
  · dsimp only [RingBuffer.write]
    rw [hcap]
    rfl
  · -- the first message is moved to the front of the new block
    have hne : r.head ≠ r.tail := by
      intro heq
      rw [RingBuffer.toList_eq_nil heq] at hfirst
      cases hfirst
    have hzero := hcells 0 (show 0 < r.cap by omega)
    rw [Nat.add_zero] at hzero
    change cells 0 = Function.update r.data r.tail message (r.head % r.cap) at hzero
    rw [Nat.mod_eq_of_lt hhead, Function.update_of_ne hne] at hzero
    have hread : first = r.data r.head := by
      have hpos : 0 < r.length := by omega
      rw [RingBuffer.toList, List.head?_map, List.head?_range, if_neg (by omega)] at hfirst
      rw [← Option.some.inj hfirst, RingBuffer.cell, Nat.add_zero, Nat.mod_eq_of_lt hhead]
    have hin : (0 : ℤ) ≤ 0 ∧ (0 : ℤ) < ((r.cap * 2 : ℕ) : ℤ) := by omega
    exact (if_pos hin).trans (congrArg Except.ok (hzero.trans hread.symm))

/-- **Every pop returns the same message from then on.** -/
theorem pop_full {first : ZtaskMessage} (h : q.Overrun first) :
    ∃ q', q.pop = .ok (some first, q') ∧ q'.Overrun first := by
  have hne : q.head ≠ q.tail := by
    rw [h.head, h.tail]
    decide
  have hhead : (if q.cap ≤ toInt32 (q.head + 1) then 0 else toInt32 (q.head + 1)) = 0 := by
    rw [h.cap, h.head]
    rfl
  have hlength : (if toInt32 (q.tail - 0) < 0 then toInt32 (toInt32 (q.tail - 0) + q.cap)
      else toInt32 (q.tail - 0)) = 2 ^ 30 := by
    rw [h.cap, h.tail]
    rfl
  obtain ⟨overload, threshold, hpos, hq⟩ := pop_eq hne (by rw [h.head]; exact h.cell) hhead hlength
    (Int.le_refl _) h.threshold
  exact ⟨_, hq, h.cap, rfl, h.tail, h.cell, hpos⟩

end IntQueue

end ZTask
