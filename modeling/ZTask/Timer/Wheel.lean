import ZTask.Lib.Filing
import ZTask.Lib.Machine

/-!
# The timer wheel

`ztask_timer.c`: the hierarchical wheel of `add_node`, `move_list`, `timer_shift` and
`timer_update`. Lists that expire within the current block of 256 ticks are in `near`, one a tick;
later ones are in four coarser levels of 64 lists each, from which `timer_shift` brings a list down
when the clock enters its block.

The clock is `uint32_t` and wraps. The two arrays of lists are one map from `Slot`; a list is the
nodes from its head on. What a node carries (`arg`) is never looked at, so it is a parameter.

A whole `timer_update` is one step. The wheel's lock is released only around `dispatch_list`, which
sends messages.
-/

namespace ZTask

open Lib

/-! ## The wheel -/

def timeNearShift : ℕ := 8
def timeNear : ℕ := 1 <<< timeNearShift
def timeLevelShift : ℕ := 6
def timeLevel : ℕ := 1 <<< timeLevelShift
def timeNearMask : ℕ := timeNear - 1
def timeLevelMask : ℕ := timeLevel - 1

/-- The range of `uint32_t`. -/
def uint32Size : ℕ := 2 ^ 32

/-- `struct timer_node`, with the bytes that follow it. -/
structure TimerNode (α : Type) where
  expire : ℕ
  arg : α

/-- One of the lists: `near idx` is `T->near[idx]`, and `level i idx` is `T->t[i][idx]`. -/
inductive Slot
  | near (idx : ℕ)
  | level (i idx : ℕ)
deriving DecidableEq, Repr

/-- `struct timer`: the wheel and its clock. -/
structure Timer (α : Type) where
  lists : Slot → List (TimerNode α)
  time : ℕ

/-- The only way a step could go wrong: the search in `timer_shift` leaves the four levels. -/
inductive TimerFault
  | noLevel
deriving DecidableEq, Repr

/-! ## Places -/

/-- The `for` loop in `add_node`: the first of the levels from `i` on, with `n` of them left before
the last, whose block of the clock also contains `time`. -/
def findLevel (time currentTime : ℕ) : ℕ → ℕ → ℕ → ℕ
  | 0, _, i => i
  | n + 1, mask, i =>
    if time ||| (mask - 1) = currentTime ||| (mask - 1) then i
    else findLevel time currentTime n (mask <<< timeLevelShift) (i + 1)

/-- The list that `add_node` links a node to. -/
def slotFor (currentTime time : ℕ) : Slot :=
  if time ||| timeNearMask = currentTime ||| timeNearMask then .near (time &&& timeNearMask)
  else
    let i := findLevel time currentTime 3 (timeNear <<< timeLevelShift) 0
    .level i ((time >>> (timeNearShift + i * timeLevelShift)) &&& timeLevelMask)

/-! ## The functions -/

namespace Timer

variable {α : Type}

/-- `add_node`. -/
def addNode (T : Timer α) (node : TimerNode α) : Timer α :=
  { T with lists := file (fun n ↦ slotFor T.time n.expire) T.lists node }

/-- `timer_add`. The sum is taken in `uint32_t`. -/
def timerAdd (T : Timer α) (arg : α) (time : ℕ) : Timer α :=
  T.addNode ⟨(time + T.time) % uint32Size, arg⟩

/-- `link_clear`: the nodes, and the wheel with the list empty. -/
def linkClear (T : Timer α) (slot : Slot) : List (TimerNode α) × Timer α :=
  (T.lists slot, { T with lists := Function.update T.lists slot [] })

/-- `move_list`. -/
def moveList (T : Timer α) (level idx : ℕ) : Timer α :=
  let p := T.linkClear (.level level idx)
  p.1.foldl addNode p.2

/-- The `while` loop in `timer_shift`, with `n` levels left from `i` on. -/
def shiftLoop (T : Timer α) (ct : ℕ) : ℕ → ℕ → ℕ → ℕ → Except TimerFault (Timer α)
  | 0, mask, _, _ => if ct &&& (mask - 1) = 0 then .error .noLevel else .ok T
  | n + 1, mask, time, i =>
    if ct &&& (mask - 1) = 0 then
      let idx := time &&& timeLevelMask
      if idx ≠ 0 then .ok (T.moveList i idx)
      else T.shiftLoop ct n (mask <<< timeLevelShift) (time >>> timeLevelShift) (i + 1)
    else .ok T

/-- `timer_shift`. -/
def timerShift (T : Timer α) : Except TimerFault (Timer α) :=
  let ct := (T.time + 1) % uint32Size
  let T' := { T with time := ct }
  if ct = 0 then .ok (T'.moveList 3 0) else T'.shiftLoop ct 4 timeNear (ct >>> timeNearShift) 0

/-- `timer_execute`: what is dispatched, in order. The loop tests the list a second time, and finds
it empty. -/
def timerExecute (T : Timer α) : List α × Timer α :=
  let p := T.linkClear (.near (T.time &&& timeNearMask))
  (p.1.map TimerNode.arg, p.2)

/-- `timer_update`, with what its two calls of `timer_execute` dispatch. -/
def timerUpdate (T : Timer α) : Except TimerFault (Timer α × List α × List α) := do
  let (zero, T₁) := T.timerExecute
  let T₂ ← T₁.timerShift
  let (due, T₃) := T₂.timerExecute
  return (T₃, zero, due)

/-- `timer_create_timer`, with the clock at some value. -/
def create (α : Type) (time : ℕ) : Timer α := ⟨fun _ ↦ [], time⟩

end Timer

/-! ## The machine -/

/-- The calls on the wheel. -/
inductive TimerOp (α : Type)
  | add (arg : α) (time : ℕ)
  | update

/-- The delay asked for; an update asks for none. -/
def TimerOp.delay {α : Type} : TimerOp α → ℕ
  | add _ time => time
  | update => 0

/-- The wheel as a machine. The output of an update is what its two executions dispatch. -/
def timer (α : Type) : Machine (Timer α) (TimerOp α) (List α × List α) TimerFault
  | T, .add arg time => .ok (T.timerAdd arg time, [], [])
  | T, .update => T.timerUpdate

end ZTask
