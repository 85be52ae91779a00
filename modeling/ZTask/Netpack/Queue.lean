import Mathlib.Data.Int.Notation
import ZTask.Lib.Block
import ZTask.Lib.Chains
import ZTask.Lib.Machine
import ZTask.Lib.RingBuffer

/-!
# Packages from sockets

`lua-netpack.c`. What arrives on the sockets goes through a filter that puts packages together: an
unfinished package is kept in a table of chains, by the id of its socket, and the packages of a
chunk that holds more than one wait in a ring, which grows when it is full.

The queue is created when it is first needed; until then the first slot of the Lua stack, which
every function gets and leaves, is `none`. Pointers into a chunk are the bytes from there on, and
`size` is how many these are.
-/

namespace ZTask

open Lib

/-- `struct netpack`. -/
structure Netpack where
  id : Int32
  size : ℕ
  buffer : Block UInt8
deriving DecidableEq, Repr, Inhabited

inductive NetpackFault
  /-- A read or a write outside of a block. -/
  | outOfBounds
  /-- `assert(uc->read == -1)` in `filter_data_`. -/
  | assertion
deriving DecidableEq, Repr

namespace Netpack

/-- `struct uncomplete`, without its link. -/
structure Uncomplete where
  pack : Netpack
  read : ℤ
  header : ℕ
deriving DecidableEq, Repr

def queueSize : ℕ := 1024

def hashSize : ℕ := 4096

/-- `struct queue`. -/
structure Queue where
  /-- `cap`, `head`, `tail` and `queue`. -/
  ring : RingBuffer Netpack
  hash : ℕ → List Uncomplete

def hashFd (fd : Int32) : ℕ :=
  let a := fd >>> 24
  let b := fd >>> 12
  let c := fd
  (a + b + c).toUInt32.toNat % hashSize

theorem hashFd_lt (fd : Int32) : hashFd fd < hashSize := Nat.mod_lt _ (by decide)

/-- Unfinished packages are filed by their sockets. -/
def chaining : Chaining Uncomplete Int32 := ⟨fun uc ↦ uc.pack.id, hashFd⟩

/-! ## The queue -/

/-- A new queue. -/
def Queue.create : Queue where
  ring := RingBuffer.ofCells queueSize 0 (fun _ ↦ default) (by decide)
  hash := fun _ ↦ []

def getQueue : Option Queue → Queue
  | some q => q
  | none => .create

/-- `find_uncomplete`. What is found is taken out of the table. -/
def findUncomplete (q : Option Queue) (fd : Int32) : Option (Uncomplete × Queue) :=
  match q with
  | none => none
  | some q => (chaining.take? q.hash fd).map fun p ↦ (p.1, { q with hash := p.2 })

/-- `expand_queue`, called when the write index has met the read index. -/
def expandQueue (q : Queue) : Queue where
  ring := RingBuffer.ofCells (q.ring.cap + queueSize) q.ring.cap
    (fun i ↦ q.ring.data ((q.ring.head + i) % q.ring.cap)) (Nat.lt_add_of_pos_right (by decide))
  hash := q.hash

/-- A block from `ztask_malloc`. -/
def malloc (size : ℕ) : Block UInt8 := .alloc size

/-- `memcpy` of the first `count` bytes of `src` to the offset `off` of the block. -/
def memcpy (dst : Block UInt8) (off : ℕ) (src : List UInt8) (count : ℤ) :
    Except NetpackFault (Block UInt8) :=
  if 0 ≤ count ∧ count.toNat ≤ src.length then
    match dst.write? off (src.take count.toNat) with
    | some dst' => .ok dst'
    | none => .error .outOfBounds
  else .error .outOfBounds

/-- `push_data` without `clone`: the block itself is queued. -/
def pushBlock (q : Option Queue) (fd : Int32) (buffer : Block UInt8) (size : ℕ) : Queue :=
  let q := getQueue q
  let pushed : Queue := { q with ring := q.ring.write ⟨fd, size, buffer⟩ }
  if pushed.ring.head = pushed.ring.tail then expandQueue pushed else pushed

/-- `push_data` with `clone`: a copy is queued. -/
def pushData (q : Option Queue) (fd : Int32) (buffer : List UInt8) (size : ℕ) :
    Except NetpackFault Queue := do
  let tmp ← memcpy (malloc size) 0 buffer size
  return pushBlock q fd tmp size

/-- `save_uncomplete`, with the members that its caller sets. -/
def saveUncomplete (q : Option Queue) (uc : Uncomplete) : Queue :=
  let q := getQueue q
  { q with hash := chaining.insert q.hash uc }

/-- The byte that `buffer` points to. -/
def readByte : List UInt8 → Except NetpackFault ℕ
  | [] => .error .outOfBounds
  | b :: _ => .ok b.toNat

def readSize (buffer : List UInt8) : Except NetpackFault ℕ := do
  let high ← readByte buffer
  let low ← readByte (buffer.drop 1)
  return high <<< 8 ||| low

/-- A lone byte is the first half of a header. -/
def saveHeader (q : Option Queue) (fd : Int32) (buffer : List UInt8) :
    Except NetpackFault Queue := do
  let header ← readByte buffer
  return saveUncomplete q ⟨⟨fd, 0, []⟩, -1, header⟩

/-- A package of which only part is there. -/
def savePart (q : Option Queue) (fd : Int32) (buffer : List UInt8) (packSize : ℕ) :
    Except NetpackFault Queue := do
  let block ← memcpy (malloc packSize) 0 buffer buffer.length
  return saveUncomplete q ⟨⟨fd, packSize, block⟩, buffer.length, 0⟩

def pushMore (q : Option Queue) (fd : Int32) (buffer : List UInt8) : Except NetpackFault Queue :=
  if buffer.length = 1 then saveHeader q fd buffer
  else do
    let packSize ← readSize buffer
    let body := buffer.drop 2
    if body.length < packSize then savePart q fd body packSize
    else do
      let q ← pushData q fd body packSize
      let rest := body.drop packSize
      if 0 < rest.length then pushMore (some q) fd rest else return q
termination_by buffer.length
decreasing_by
  simp only [rest, body, List.length_drop] at *
  omega

/-! ## The filter -/

/-- What a call of the filter returns behind the queue. -/
inductive Filtered
  | nothing
  | data (pack : Netpack)
  | more
  | error (id : Int32) (msg : List UInt8)
  | opened (id : Int32) (addr : List UInt8)
  | closed (id : Int32)
  | warning (id : Int32) (size : ℤ)
deriving DecidableEq, Repr

def closeUncomplete (q : Option Queue) (fd : Int32) : Option Queue :=
  match findUncomplete q fd with
  | none => q
  | some (_, q) => some q

/-- The first part of `fill uncomplete`: the second half of the header, if it is missing. -/
def completeHeader (uc : Uncomplete) (buffer : List UInt8) :
    Except NetpackFault (Uncomplete × List UInt8) :=
  if uc.read < 0 then
    if uc.read = -1 then do
      let low ← readByte buffer
      let packSize := low ||| uc.header <<< 8
      return (⟨⟨uc.pack.id, packSize, malloc packSize⟩, 0, uc.header⟩, buffer.drop 1)
    else .error .assertion
  else return (uc, buffer)

/-- `fill uncomplete`: the package that was taken out of the table goes on. -/
def fillUncomplete (q : Queue) (fd : Int32) (uc : Uncomplete) (buffer : List UInt8) :
    Except NetpackFault (Queue × Filtered) := do
  let (uc, buffer) ← completeHeader uc buffer
  let need : ℤ := uc.pack.size - uc.read
  if buffer.length < need then do
    let block ← memcpy uc.pack.buffer uc.read.toNat buffer buffer.length
    let uc : Uncomplete := ⟨{ uc.pack with buffer := block }, uc.read + buffer.length, uc.header⟩
    return ({ q with hash := chaining.insert q.hash uc }, .nothing)
  else do
    let block ← memcpy uc.pack.buffer uc.read.toNat buffer need
    let rest := buffer.drop need.toNat
    if rest.length = 0 then return (q, .data ⟨fd, uc.pack.size, block⟩)
    else do
      let q := pushBlock (some q) fd block uc.pack.size
      return (← pushMore (some q) fd rest, .more)

/-- The branch of `filter_data_` without an unfinished package. -/
def startPackage (q : Option Queue) (fd : Int32) (buffer : List UInt8) :
    Except NetpackFault (Option Queue × Filtered) :=
  if buffer.length = 1 then do return (some (← saveHeader q fd buffer), .nothing)
  else do
    let packSize ← readSize buffer
    let body := buffer.drop 2
    if body.length < packSize then do return (some (← savePart q fd body packSize), .nothing)
    else if body.length = packSize then do
      let result ← memcpy (malloc packSize) 0 body packSize
      return (q, .data ⟨fd, packSize, result⟩)
    else do
      let q ← pushData q fd body packSize
      return (some (← pushMore (some q) fd (body.drop packSize)), .more)

/-- `filter_data_`. -/
def filterData (q : Option Queue) (fd : Int32) (buffer : List UInt8) :
    Except NetpackFault (Option Queue × Filtered) :=
  match findUncomplete q fd with
  | some (uc, q) => do
    let (q, filtered) ← fillUncomplete q fd uc buffer
    return (some q, filtered)
  | none => startPackage q fd buffer

/-- `struct ztask_socket_message`, as the filter reads it. -/
inductive Message
  | data (id : Int32) (buffer : List UInt8)
  | connect (id : Int32)
  | close (id : Int32)
  | accept (id ud : Int32) (addr : List UInt8)
  | error (id : Int32) (msg : List UInt8)
  | warning (id : Int32) (ud : ℤ)
  | other
deriving DecidableEq, Repr

def lfilter (q : Option Queue) : Message → Except NetpackFault (Option Queue × Filtered)
  | .data id buffer => filterData q id buffer
  | .connect _ => .ok (q, .nothing)
  | .close id => .ok (closeUncomplete q id, .closed id)
  | .accept _ ud addr => .ok (q, .opened ud addr)
  | .error id msg => .ok (closeUncomplete q id, .error id msg)
  | .warning id ud => .ok (q, .warning id ud)
  | .other => .ok (q, .nothing)

/-! ## Popping and packing -/

def lpop (q : Option Queue) : Option (Netpack × Queue) :=
  match q with
  | none => none
  | some q => q.ring.pop?.map fun p ↦ (p.1, { q with ring := p.2 })

/-- `lpop` until there is nothing; the fuel is the number of packages in the queue. -/
def popAll : ℕ → Option Queue → List Netpack × Option Queue
  | 0, q => ([], q)
  | fuel + 1, q =>
    match lpop q with
    | none => ([], q)
    | some (pack, q') =>
      let (packs, q'') := popAll fuel (some q')
      (pack :: packs, q'')

/-- The packages that a message completes: the one that the filter returns, or those that it queues,
which are popped at once. -/
def receive : Machine (Option Queue) Message (List Netpack) NetpackFault := fun q message ↦
  match lfilter q message with
  | .error e => .error e
  | .ok (q', .data pack) => .ok (q', [pack])
  | .ok (q', .more) =>
    let (packs, q'') := popAll (getQueue q').ring.length q'
    .ok (q'', packs)
  | .ok (q', _) => .ok (q', [])

def writeSize (len : ℕ) : List UInt8 :=
  [UInt8.ofNat (len >>> 8 &&& 0xff), UInt8.ofNat (len &&& 0xff)]

/-- `lpack`; the error is `Invalid size (too long) of data : %d`. -/
def lpack (data : List UInt8) : Except ℕ (List UInt8) :=
  if 0x10000 ≤ data.length then .error data.length
  else .ok (writeSize data.length ++ data)

end Netpack

end ZTask
