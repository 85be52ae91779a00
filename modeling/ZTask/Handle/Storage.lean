import ZTask.Lib.Machine
import Mathlib.Logic.Function.Basic
import Mathlib.Data.Finset.Insert

/-!
# The handle storage

`ztask_handle.c`: the slot table in which a service is found by its handle, and the name index as
far as retirement touches it. A handle is a 24-bit number under the id of the harbor, and its slot
is the handle modulo the size of the table, a power of two.

The storage refers to contexts by address. What it reads of a context is the field `ctx->handle`,
which `ztask_handle_register` does not write: its caller stores the handle it returns. The field is
therefore memory of its own here (`handleOf`), passed to the functions that read it.
-/

namespace ZTask

open Lib

/-! ## The array of slots -/

def handleMask : ℕ := 0xffffff

def handleRemoteShift : ℕ := 24

def defaultSlotSize : ℕ := 4

/-- `struct handle_storage`. `name` is `name[0]` to `name[name_count - 1]`. -/
structure HandleStorage where
  harbor : ℕ
  handleIndex : ℕ
  slotSize : ℕ
  slot : ℕ → Option ℕ
  name : List (String × ℕ)

/-- How `ztask_handle_register` can go wrong. -/
inductive HandleFault
  /-- `assert((s->slot_size * 2 - 1) <= HANDLE_MASK)`. -/
  | sizeLimit
  /-- `assert(new_slot[hash] == NULL)`. -/
  | slotTaken
  /-- `ztask_context_handle(NULL)`. -/
  | nullContext
  /-- The outer loop goes round once more than it should. -/
  | loop
deriving DecidableEq, Repr

/-! ## The functions -/

namespace HandleStorage

/-- `ztask_handle_init`. -/
def init (harbor : ℕ) : HandleStorage where
  harbor := (harbor &&& 0xff) <<< handleRemoteShift
  handleIndex := 1
  slotSize := defaultSlotSize
  slot := fun _ ↦ none
  name := []

/-- The inner loop of `ztask_handle_register` from `i` on, with `n` rounds to go: the first handle
whose slot is free. -/
def probe (s : HandleStorage) : ℕ → ℕ → Option ℕ
  | 0, _ => none
  | n + 1, i =>
    let handle := (i + s.handleIndex) &&& handleMask
    if s.slot (handle &&& (s.slotSize - 1)) = none then some handle else s.probe n (i + 1)

/-- The loop that moves the contexts to a table of twice the size, from `i` on. -/
def rehash (handleOf : ℕ → ℕ) (s : HandleStorage) :
    ℕ → ℕ → (ℕ → Option ℕ) → Except HandleFault (ℕ → Option ℕ)
  | 0, _, newSlot => .ok newSlot
  | n + 1, i, newSlot =>
    match s.slot i with
    | none => .error .nullContext
    | some ctx =>
      let hash := handleOf ctx &&& (s.slotSize * 2 - 1)
      if newSlot hash = none then
        s.rehash handleOf n (i + 1) (Function.update newSlot hash (some ctx))
      else .error .slotTaken

/-- `ztask_handle_register`, with a bound on the rounds of its outer loop. -/
def registerLoop (handleOf : ℕ → ℕ) (ctx : ℕ) :
    ℕ → HandleStorage → Except HandleFault (ℕ × HandleStorage)
  | 0, _ => .error .loop
  | fuel + 1, s =>
    match s.probe s.slotSize 0 with
    | some handle =>
      .ok (handle ||| s.harbor, { s with
        slot := Function.update s.slot (handle &&& (s.slotSize - 1)) (some ctx)
        handleIndex := handle + 1 })
    | none =>
      if s.slotSize * 2 - 1 ≤ handleMask then
        match s.rehash handleOf s.slotSize 0 fun _ ↦ none with
        | .error e => .error e
        | .ok newSlot =>
          registerLoop handleOf ctx fuel { s with slot := newSlot, slotSize := s.slotSize * 2 }
      else .error .sizeLimit

/-- `ztask_handle_register`. A second round finds a free slot. -/
def register (handleOf : ℕ → ℕ) (s : HandleStorage) (ctx : ℕ) :
    Except HandleFault (ℕ × HandleStorage) :=
  registerLoop handleOf ctx 2 s

/-- `ztask_handle_retire`: the context that left the table, whose reference the caller releases. -/
def retire (handleOf : ℕ → ℕ) (s : HandleStorage) (handle : ℕ) : Option ℕ × HandleStorage :=
  let hash := handle &&& (s.slotSize - 1)
  match s.slot hash with
  | none => (none, s)
  | some ctx =>
    if handleOf ctx = handle then
      (some ctx, { s with
        slot := Function.update s.slot hash none
        name := s.name.filter (·.2 ≠ handle) })
    else (none, s)

/-- `ztask_handle_grab`. -/
def grab (handleOf : ℕ → ℕ) (s : HandleStorage) (handle : ℕ) : Option ℕ :=
  match s.slot (handle &&& (s.slotSize - 1)) with
  | none => none
  | some ctx => if handleOf ctx = handle then some ctx else none

end HandleStorage

end ZTask
