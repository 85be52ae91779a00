import ZTask.Handle.Registry
import ZTask.Lib.SortedArray

/-!
# The name index

`ztask_handle.c`: the array of names as it is in memory, sorted by `strcmp`, with the binary search
of `ztask_handle_findname` and `_insert_name`, the growth of `_insert_name_before`, and the pass
over the names in `ztask_handle_retire`. A name is the bytes before its NUL.

The operations run under the one lock of the storage, so each is one step, together with those on
the slot table.
-/

namespace ZTask

open Lib

/-- `strcmp`: the bytes are compared as `unsigned char`, and the shorter name comes first. -/
def strcmp (s t : List UInt8) : Ordering := compare s t

/-- `struct handle_name` -/
structure HandleName where
  name : List UInt8
  handle : ℕ
deriving DecidableEq, Repr, Inhabited

def maxSlotSize : ℕ := 0x40000000

/-- `name_cap`, `name_count` and `name`. -/
structure NameArray where
  cap : ℕ
  count : ℕ
  cells : ℕ → HandleName
  cap_pos : 0 < cap
  count_le : count ≤ cap

/-- How a call can go wrong. -/
inductive NameFault
  | storage (e : HandleFault)
  /-- `assert(s->name_cap <= MAX_SLOT_SIZE)` -/
  | capLimit
  /-- A search goes round more often than there are names. -/
  | loop
deriving DecidableEq, Repr

namespace NameArray

/-- The names in the index. -/
def toList (s : NameArray) : List HandleName := firstCells s.cells s.count

/-- `ztask_handle_init` -/
def init : NameArray := ⟨2, 0, fun _ ↦ default, by decide, by decide⟩

/-- The loop of `ztask_handle_findname` and of `_insert_name`. -/
def search (s : NameArray) (name : List UInt8) : Option Search :=
  binarySearch (fun i ↦ strcmp (s.cells i).name name) (s.count + 1) 0 (s.count - 1)

/-- `ztask_handle_findname` -/
def findname (s : NameArray) (name : List UInt8) : Except NameFault ℕ :=
  match s.search name with
  | none => .error .loop
  | some (.found mid) => .ok (s.cells mid).handle
  | some (.absent _) => .ok 0

/-- `_insert_name_before` -/
def insertNameBefore (s : NameArray) (n : HandleName) (before : ℕ) : Except NameFault NameArray :=
  if hfull : s.count ≥ s.cap then
    if s.cap * 2 ≤ maxSlotSize then
      let block := copyCells s.cells 0 before 0 fun _ ↦ default
      let block := copyCells s.cells 1 (s.count - before) before block
      .ok
        { cap := s.cap * 2
          count := s.count + 1
          cells := Function.update block before n
          cap_pos := Nat.mul_pos s.cap_pos (by decide)
          count_le := by
            have hpos := s.cap_pos
            have hle := s.count_le
            omega }
    else .error .capLimit
  else
    .ok
      { s with
        count := s.count + 1
        cells := Function.update (shiftCells before s.count s.cells) before n
        count_le := Nat.not_le.mp hfull }

/-- `_insert_name`, and whether it has returned the name. -/
def insertName (s : NameArray) (name : List UInt8) (handle : ℕ) :
    Except NameFault (Bool × NameArray) :=
  match s.search name with
  | none => .error .loop
  | some (.found _) => .ok (false, s)
  | some (.absent begin) =>
    match s.insertNameBefore ⟨name, handle⟩ begin with
    | .error e => .error e
    | .ok s => .ok (true, s)

/-- The loop of `ztask_handle_retire` over the names. -/
def retireNames (s : NameArray) (handle : ℕ) : NameArray :=
  let p := compactCells (fun n ↦ decide (n.handle ≠ handle)) s.count 0 0 s.cells
  { s with
    count := p.1
    cells := p.2
    count_le := by
      have hle := compactCells_le
          (fun n : HandleName ↦ decide (n.handle ≠ handle)) s.count 0 0 s.cells
      rw [Nat.zero_add] at hle
      exact hle.trans s.count_le }

end NameArray

/-! ## The handles and the names -/

inductive NameOp
  /-- A call on the slot table. -/
  | storage (op : HandleOp)
  | namehandle (handle : ℕ) (name : List UInt8)
  | findname (name : List UInt8)
deriving DecidableEq

inductive NameOut
  | storage (o : HandleOut)
  /-- Whether `ztask_handle_namehandle` returns the name, rather than `NULL`. -/
  | named (bound : Bool)
  | found (handle : ℕ)
deriving DecidableEq, Repr

structure HandleNames where
  registry : Registry
  names : NameArray

def HandleNames.init (harbor : ℕ) : HandleNames := ⟨.init harbor, .init⟩

/-- The names that are left after a call on the slot table: a retirement that has found its context
takes those of the handle out. -/
def namesAfter (names : NameArray) : HandleOp → HandleOut → NameArray
  | .retire handle, .context (some _) => names.retireNames handle
  | _, _ => names

/-- The storage, with its names. -/
def handleNames : Machine HandleNames NameOp NameOut NameFault := fun s op ↦
  match op with
  | .storage op =>
    match ZTask.registry s.registry op with
    | .error e => .error (.storage e)
    | .ok (registry, o) => .ok (⟨registry, namesAfter s.names op o⟩, .storage o)
  | .namehandle handle name =>
    match s.names.insertName name handle with
    | .error e => .error e
    | .ok (bound, names) => .ok ({ s with names := names }, .named bound)
  | .findname name =>
    match s.names.findname name with
    | .error e => .error e
    | .ok handle => .ok (s, .found handle)

/-- A context is registered once. -/
def NameOp.Fresh (s : HandleNames) : NameOp → Prop
  | .storage op => op.Fresh s.registry
  | .namehandle _ _ | .findname _ => True

instance NameOp.decidableFresh (s : HandleNames) : DecidablePred (NameOp.Fresh s)
  | .storage op => HandleOp.decidableFresh s.registry op
  | .namehandle _ _ | .findname _ => .isTrue trivial

end ZTask
