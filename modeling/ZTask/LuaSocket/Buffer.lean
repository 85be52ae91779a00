import ZTask.Lib.Machine
import ZTask.Lib.Word
import Mathlib.Data.Int.Notation
import Mathlib.Logic.Function.Basic

/-!
# Buffers of sockets

`lua-socket.c`. What arrives on a socket waits in a buffer: a list of nodes, each with a block of
bytes as it came, and an offset into the first. The nodes are from a pool that all buffers of a
service share; the nodes that are not used are on a list of their own. The pool grows in chunks.

The nodes are numbered as they are created. Sizes and offsets are as they are computed with, that
is, no sum of them leaves the range of an `int`; what comes from Lua is cut down to an `int`.
-/

namespace ZTask

open Lib

/-- `struct buffer_node` -/
structure BufferNode where
  msg : Option (List UInt8)
  sz : ℤ
  next : Option ℕ
deriving DecidableEq, Repr

/-- `struct socket_buffer` -/
structure SocketBuffer where
  size : ℤ
  offset : ℤ
  head : Option ℕ
  tail : Option ℕ
deriving DecidableEq, Repr

/-- The buffers of a service, and their pool. -/
structure LuaSockets where
  node : ℕ → BufferNode
  /-- The nodes created so far. -/
  nodes : ℕ
  /-- `lua_rawlen` of the table of the pool. -/
  poolLength : ℕ
  /-- The first entry of the table. -/
  freeNode : Option ℕ
  buffer : ℕ → SocketBuffer

/-- What does not happen in a program that works. -/
inductive BufferFault
  /-- A null pointer is followed. -/
  | null
  /-- A block is read where it does not reach, or has a negative length. -/
  | outOfBounds
  /-- An assertion fails. -/
  | assertion
  /-- A loop goes on for longer than there are nodes. -/
  | endless
deriving DecidableEq, Repr

/-- `LARGE_PAGE_NODE` -/
def largePageNode : ℕ := 12

/-- The bytes at an offset of the block of a node. -/
def BufferNode.read (x : BufferNode) (off len : ℤ) : Except BufferFault (List UInt8) :=
  match x.msg with
  | none => .error .null
  | some msg =>
    if 0 ≤ off ∧ 0 ≤ len ∧ off + len ≤ msg.length then
      .ok ((msg.drop off.toNat).take len.toNat)
    else .error .outOfBounds

namespace LuaSockets

/-- The pool is an empty table, and the buffers are as `lnewbuffer` leaves them. -/
def init : LuaSockets := ⟨fun _ ↦ ⟨none, 0, none⟩, 0, 0, none, fun _ ↦ ⟨0, 0, none, none⟩⟩

def setBuffer (m : LuaSockets) (b : ℕ) (sb : SocketBuffer) : LuaSockets :=
  { m with buffer := Function.update m.buffer b sb }

def setNode (m : LuaSockets) (n : ℕ) (x : BufferNode) : LuaSockets :=
  { m with node := Function.update m.node n x }

/-- The first entry of the table of the pool is set. -/
def setFree (m : LuaSockets) (p : Option ℕ) : LuaSockets := { m with freeNode := p }

section

variable {m : LuaSockets} {b b' n n' : ℕ} {sb : SocketBuffer} {x : BufferNode} {p : Option ℕ}

@[simp] theorem node_setBuffer : (m.setBuffer b sb).node = m.node := rfl

@[simp] theorem node_setFree : (m.setFree p).node = m.node := rfl

@[simp] theorem buffer_setNode : (m.setNode n x).buffer = m.buffer := rfl

@[simp] theorem buffer_setFree : (m.setFree p).buffer = m.buffer := rfl

@[simp] theorem node_setNode_self : (m.setNode n x).node n = x := Function.update_self ..

theorem node_setNode_of_ne (hne : n' ≠ n) : (m.setNode n x).node n' = m.node n' :=
  Function.update_of_ne hne ..

@[simp] theorem buffer_setBuffer_self : (m.setBuffer b sb).buffer b = sb := Function.update_self ..

theorem buffer_setBuffer_of_ne (hne : b' ≠ b) : (m.setBuffer b sb).buffer b' = m.buffer b' :=
  Function.update_of_ne hne ..

end

/-- A pointer is followed. -/
def follow : Option ℕ → Except BufferFault ℕ
  | some n => .ok n
  | none => .error .null

/-! ## Nodes -/

/-- `lnewpool`: the nodes of a chunk are linked in their order. -/
def newPool (m : LuaSockets) (size : ℕ) : LuaSockets := { m with
  node := fun n ↦
    if m.nodes ≤ n ∧ n < m.nodes + size then
      ⟨none, 0, if n + 1 < m.nodes + size then some (n + 1) else none⟩
    else m.node n
  nodes := m.nodes + size
  freeNode := some m.nodes }

/-- The size of the next chunk. -/
def chunkSize (tsz : ℕ) : ℕ :=
  if tsz ≤ largePageNode - 3 then 8 <<< tsz else 8 <<< (largePageNode - 3)

/-- The first lines of `lpushbuffer`: there is a free node from here on. -/
def grow (m : LuaSockets) : LuaSockets :=
  match m.freeNode with
  | some _ => m
  | none =>
    let tsz := if m.poolLength = 0 then 1 else m.poolLength
    { m.newPool (chunkSize tsz) with poolLength := tsz + 1 }

/-- `return_free_node` -/
def returnFreeNode (m : LuaSockets) (b : ℕ) : Except BufferFault LuaSockets := do
  let sb := m.buffer b
  let n ← follow sb.head
  let next := (m.node n).next
  let m := m.setBuffer b
    { sb with offset := 0, head := next, tail := if next = none then none else sb.tail }
  .ok ((m.setNode n ⟨none, 0, m.freeNode⟩).setFree (some n))

/-! ## Writing -/

/-- The rest of `lpushbuffer`, with the free node. -/
def link (m : LuaSockets) (b n : ℕ) (msg : List UInt8) : Except BufferFault LuaSockets := do
  let sz := toInt32 msg.length
  let m := m.setFree (m.node n).next
  let m := m.setNode n ⟨some msg, sz, none⟩
  let sb := m.buffer b
  match sb.head with
  | none =>
    if sb.tail = none then
      .ok (m.setBuffer b { sb with head := some n, tail := some n, size := sb.size + sz })
    else .error .assertion
  | some _ =>
    let t ← follow sb.tail
    let m := m.setNode t { m.node t with next := some n }
    .ok (m.setBuffer b { sb with tail := some n, size := sb.size + sz })

/-- `lpushbuffer` -/
def pushBuffer (m : LuaSockets) (b : ℕ) (msg : List UInt8) :
    Except BufferFault (ℤ × LuaSockets) := do
  let m := m.grow
  let n ← follow m.freeNode
  let m ← m.link b n msg
  .ok ((m.buffer b).size, m)

/-! ## Reading -/

/-- The loop of `pop_lstring`, with the bytes collected so far. -/
def popLoop (b : ℕ) (skip : ℤ) :
    ℕ → LuaSockets → ℕ → ℤ → List UInt8 → Except BufferFault (List UInt8 × LuaSockets)
  | 0, _, _, _, _ => .error .endless
  | k + 1, m, current, sz, acc => do
    let sb := m.buffer b
    let x := m.node current
    let bytes := x.sz - sb.offset
    if bytes ≥ sz then
      let s ← (if sz > skip then x.read sb.offset (sz - skip) else .ok [])
      let m := m.setBuffer b { sb with offset := sb.offset + sz }
      let m ← (if bytes = sz then m.returnFreeNode b else .ok m)
      .ok (acc ++ s, m)
    else
      let realSz := sz - skip
      let s ← (if realSz > 0 then x.read sb.offset (if realSz < bytes then realSz else bytes)
        else .ok [])
      let m ← m.returnFreeNode b
      if sz - bytes = 0 then .ok (acc ++ s, m)
      else
        match (m.buffer b).head with
        | none => .error .assertion
        | some current => popLoop b skip k m current (sz - bytes) (acc ++ s)

/-- `pop_lstring` -/
def popString (m : LuaSockets) (b : ℕ) (sz skip : ℤ) :
    Except BufferFault (List UInt8 × LuaSockets) := do
  let sb := m.buffer b
  let current ← follow sb.head
  let x := m.node current
  if sz < x.sz - sb.offset then
    let s ← x.read sb.offset (sz - skip)
    .ok (s, m.setBuffer b { sb with offset := sb.offset + sz })
  else if sz = x.sz - sb.offset then
    let s ← x.read sb.offset (sz - skip)
    let m ← m.returnFreeNode b
    .ok (s, m)
  else popLoop b skip (m.nodes + 1) m current sz []

/-- The size of a buffer goes down. -/
def shrink (m : LuaSockets) (b : ℕ) (n : ℤ) : LuaSockets :=
  m.setBuffer b { m.buffer b with size := (m.buffer b).size - n }

/-- `lpopbuffer` -/
def popBuffer (m : LuaSockets) (b : ℕ) (n : ℤ) :
    Except BufferFault (Option (List UInt8) × ℤ × LuaSockets) := do
  let sz := toInt32 n
  if (m.buffer b).size < sz ∨ sz = 0 then .ok (none, (m.buffer b).size, m)
  else
    let (s, m) ← m.popString b sz 0
    let m := m.shrink b sz
    .ok (some s, (m.buffer b).size, m)

/-- The loops of `lclearbuffer` and of `lreadall`, with the bytes collected so far. -/
def drain (b : ℕ) : ℕ → LuaSockets → List UInt8 → Except BufferFault (List UInt8 × LuaSockets)
  | 0, _, _ => .error .endless
  | k + 1, m, acc => do
    let sb := m.buffer b
    match sb.head with
    | none => .ok (acc, m)
    | some current =>
      let s ← (m.node current).read sb.offset ((m.node current).sz - sb.offset)
      let m ← m.returnFreeNode b
      drain b k m (acc ++ s)

/-- `lreadall` -/
def readAll (m : LuaSockets) (b : ℕ) : Except BufferFault (List UInt8 × LuaSockets) := do
  let (s, m) ← drain b (m.nodes + 1) m []
  .ok (s, m.setBuffer b { m.buffer b with size := 0 })

/-- The loop of `lclearbuffer`. -/
def clearLoop (b : ℕ) : ℕ → LuaSockets → Except BufferFault LuaSockets
  | 0, _ => .error .endless
  | k + 1, m => do
    match (m.buffer b).head with
    | none => .ok m
    | some _ =>
      let m ← m.returnFreeNode b
      clearLoop b k m

/-- `lclearbuffer` -/
def clearBuffer (m : LuaSockets) (b : ℕ) : Except BufferFault LuaSockets := do
  let m ← clearLoop b (m.nodes + 1) m
  .ok (m.setBuffer b { m.buffer b with size := 0 })

/-! ## Lines -/

/-- `check_sep`; `k` bounds its loop. -/
def checkSep (m : LuaSockets) : ℕ → ℕ → ℤ → List UInt8 → ℤ → Except BufferFault Bool
  | 0, _, _, _, _ => .error .endless
  | k + 1, node, start, sep, seplen => do
    let x := m.node node
    let sz := x.sz - start
    if sz ≥ seplen then
      let s ← x.read start seplen
      .ok (decide (s = sep.take seplen.toNat))
    else
      let differs ← (if sz > 0 then (x.read start sz).map fun s ↦ decide (s ≠ sep.take sz.toNat)
        else .ok false)
      if differs = true then .ok false
      else
        let next ← follow x.next
        checkSep m k next 0 (sep.drop sz.toNat) (seplen - sz)

/-- The loop of `lreadline`: where the separator is found. -/
def findSep (m : LuaSockets) (sep : List UInt8) :
    ℕ → ℤ → ℕ → ℤ → ℤ → Except BufferFault (Option ℤ)
  | 0, _, _, _, _ => .ok none
  | k + 1, i, current, start, bytes => do
    let found ← m.checkSep (m.nodes + 1) current start sep (toInt32 sep.length)
    if found = true then .ok (some i)
    else if bytes - 1 = 0 then
      match (m.node current).next with
      | none => .ok none
      | some next => findSep m sep k (i + 1) next 0 (m.node next).sz
    else findSep m sep k (i + 1) current (start + 1) (bytes - 1)

/-- `lreadline`: where the separator is found, if it is. -/
def findLine (m : LuaSockets) (b : ℕ) (sep : List UInt8) : Except BufferFault (Option ℤ) :=
  let sb := m.buffer b
  match sb.head with
  | none => .ok none
  | some current =>
    m.findSep sep (sb.size - toInt32 sep.length + 1).toNat 0 current sb.offset
      ((m.node current).sz - sb.offset)

/-- `lreadline`, with the pool. -/
def readLine (m : LuaSockets) (b : ℕ) (sep : List UInt8) :
    Except BufferFault (Option (List UInt8) × LuaSockets) := do
  match ← m.findLine b sep with
  | none => .ok (none, m)
  | some i =>
    let (s, m) ← m.popString b (toInt32 (i + sep.length)) (toInt32 sep.length)
    .ok (some s, m.shrink b (toInt32 (i + sep.length)))

end LuaSockets

/-! ## Operations -/

/-- The functions of the module, with the buffer they are called for. -/
inductive BufferOp
  | push (b : ℕ) (msg : List UInt8)
  | pop (b : ℕ) (n : ℤ)
  | readline (b : ℕ) (sep : List UInt8)
  /-- `lreadline` without the pool. -/
  | checkline (b : ℕ) (sep : List UInt8)
  | readall (b : ℕ)
  | clear (b : ℕ)
deriving DecidableEq, Repr

/-- What they return. -/
inductive BufferResult
  | size (size : ℤ)
  | bytes (s : Option (List UInt8)) (size : ℤ)
  | line (s : Option (List UInt8))
  | found (found : Bool)
  | all (s : List UInt8)
  | nothing
deriving DecidableEq, Repr

/-- The module. -/
def luaSocket : Machine LuaSockets BufferOp BufferResult BufferFault := fun m op ↦
  match op with
  | .push b msg => (m.pushBuffer b msg).map fun p ↦ (p.2, .size p.1)
  | .pop b n => (m.popBuffer b n).map fun p ↦ (p.2.2, .bytes p.1 p.2.1)
  | .readline b sep => (m.readLine b sep).map fun p ↦ (p.2, .line p.1)
  | .checkline b sep => (m.findLine b sep).map fun i ↦ (m, .found i.isSome)
  | .readall b => (m.readAll b).map fun p ↦ (p.2, .all p.1)
  | .clear b => (m.clearBuffer b).map fun m' ↦ (m', .nothing)

end ZTask
