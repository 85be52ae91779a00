import Mathlib.Data.Int.Notation
import ZTask.Lib.Block
import ZTask.Lib.Word

/-!
# The cluster wire format

`lua-cluster.c`. A request or a response is packed into frames, each with a header of two bytes that
is the length of what follows. A message of `MULTI_PART` bytes or more (a response: of more) goes in
several frames, a first one that announces its size and then the parts.

Frames are put together in a buffer of `TEMP_LENGTH` bytes on the stack, at the offsets that the
source writes to; a write outside of the buffer, or a frame with a byte that has not been written,
is a fault. The decoders get a frame without its header.
-/

namespace ZTask

open Lib

namespace Cluster

def tempLength : ℕ := 0x8200

def multiPart : ℕ := 0x8000

/-- The Lua values that the functions take and return. -/
inductive ClusterValue
  | nil
  | boolean (b : Bool)
  | integer (n : ℤ)
  | string (s : List UInt8)
deriving DecidableEq, Repr

/-- What is raised, and what must not happen. -/
inductive ClusterError
  /-- `Invalid request message` -/
  | invalidMessage
  /-- `Invalid request session %d` -/
  | invalidSession (session : ℤ)
  /-- `name is too long %s` -/
  | nameTooLong (name : Option (List UInt8))
  /-- `Invalid cluster message (size=%d)` -/
  | invalidSize (sz : ℤ)
  /-- `Invalid cluster message size %d (multi req must be 13)` -/
  | invalidMultiSize (sz : ℤ)
  /-- `Invalid cluster multi part message` -/
  | invalidPart
  /-- `Invalid req package type %d` -/
  | invalidType (type : UInt8)
  /-- `assert(sz < 0x10000)` in `fill_header`. -/
  | assertion
  /-- A read or a write outside of a block, or a read of what has not been written. -/
  | outOfBounds
deriving DecidableEq, Repr

/-! ## Buffers -/

/-- `uint8_t buf[TEMP_LENGTH]`. -/
def tempBuffer : Block UInt8 := .alloc tempLength

/-- A write to the buffer. -/
def put (buf : Block UInt8) (off : ℕ) (src : List UInt8) : Except ClusterError (Block UInt8) :=
  match buf.write? off src with
  | some buf' => .ok buf'
  | none => .error .outOfBounds

/-- `memcpy` of the first `count` bytes of `src`. -/
def copy (buf : Block UInt8) (off : ℕ) (src : List UInt8) (count : ℕ) :
    Except ClusterError (Block UInt8) :=
  if count ≤ src.length then put buf off (src.take count) else .error .outOfBounds

/-- `lua_pushlstring` of the first `count` bytes of the buffer. -/
def pushlstring (buf : Block UInt8) (count : ℕ) : Except ClusterError (List UInt8) :=
  match buf.read? count with
  | some s => .ok s
  | none => .error .outOfBounds

/-- The bytes that `fill_uint32` writes. -/
def uint32Bytes (n : ℕ) : List UInt8 :=
  [UInt8.ofNat (n &&& 0xff), UInt8.ofNat (n >>> 8 &&& 0xff), UInt8.ofNat (n >>> 16 &&& 0xff),
    UInt8.ofNat (n >>> 24 &&& 0xff)]

def fillUint32 (buf : Block UInt8) (off n : ℕ) : Except ClusterError (Block UInt8) :=
  put buf off (uint32Bytes n)

def fillHeader (buf : Block UInt8) (sz : ℕ) : Except ClusterError (Block UInt8) :=
  if sz < 0x10000 then put buf 0 [UInt8.ofNat (sz >>> 8 &&& 0xff), UInt8.ofNat (sz &&& 0xff)]
  else .error .assertion

/-- `unpack_uint32`. -/
def unpackUint32 : List UInt8 → Except ClusterError ℕ
  | a :: b :: c :: d :: _ =>
    .ok (a.toNat ||| b.toNat <<< 8 ||| c.toNat <<< 16 ||| d.toNat <<< 24)
  | _ => .error .outOfBounds

/-! ## Requests -/

/-- The number of parts of a message of `sz` bytes. -/
def partCount (sz : ℕ) : ℕ := (sz - 1) / multiPart + 1

/-- `packreq_number`: the first frame, and the number of parts. -/
def packreqNumber (addr : ℤ) (session : ℕ) (msg : List UInt8) (sz : ℕ) (isPush : Bool) :
    Except ClusterError (List UInt8 × ℕ) := do
  let addr := (addr % 2 ^ 32).toNat
  let buf := tempBuffer
  if sz < multiPart then
    let buf ← fillHeader buf (sz + 9)
    let buf ← put buf 2 [0]
    let buf ← fillUint32 buf 3 addr
    let buf ← fillUint32 buf 7 (if isPush then 0 else session)
    let buf ← copy buf 11 msg sz
    return (← pushlstring buf (sz + 11), 0)
  else
    let buf ← fillHeader buf 13
    let buf ← put buf 2 [if isPush then 0x41 else 1]
    let buf ← fillUint32 buf 3 addr
    let buf ← fillUint32 buf 7 session
    let buf ← fillUint32 buf 11 sz
    return (← pushlstring buf 15, partCount sz)

/-- `packreq_string`; the address is `name`, if it is a string. -/
def packreqString (name : Option (List UInt8)) (session : ℕ) (msg : List UInt8) (sz : ℕ)
    (isPush : Bool) : Except ClusterError (List UInt8 × ℕ) :=
  match name with
  | none => .error (.nameTooLong none)
  | some name =>
    let namelen := name.length
    if namelen < 1 ∨ 255 < namelen then .error (.nameTooLong (some name))
    else do
      let buf := tempBuffer
      if sz < multiPart then
        let buf ← fillHeader buf (sz + 6 + namelen)
        let buf ← put buf 2 [0x80]
        let buf ← put buf 3 [UInt8.ofNat namelen]
        let buf ← copy buf 4 name namelen
        let buf ← fillUint32 buf (4 + namelen) (if isPush then 0 else session)
        let buf ← copy buf (8 + namelen) msg sz
        return (← pushlstring buf (sz + 8 + namelen), 0)
      else
        let buf ← fillHeader buf (10 + namelen)
        let buf ← put buf 2 [if isPush then 0xc1 else 0x81]
        let buf ← put buf 3 [UInt8.ofNat namelen]
        let buf ← copy buf 4 name namelen
        let buf ← fillUint32 buf (4 + namelen) session
        let buf ← fillUint32 buf (8 + namelen) sz
        return (← pushlstring buf (12 + namelen), partCount sz)

/-- The loop of `packreq_multi`; `part` is the number of rounds left. -/
def packreqMulti (session : ℕ) : ℕ → Block UInt8 → List UInt8 → ℕ →
    Except ClusterError (List (List UInt8))
  | 0, _, _, _ => .ok []
  | part + 1, buf, ptr, sz => do
    let s := if multiPart < sz then multiPart else sz
    let buf ← put buf 2 [if multiPart < sz then 2 else 3]
    let buf ← fillHeader buf (s + 5)
    let buf ← fillUint32 buf 3 session
    let buf ← copy buf 7 ptr s
    let frame ← pushlstring buf (s + 7)
    let frames ← packreqMulti session part buf (ptr.drop s) (sz - s)
    return frame :: frames

/-- What `packrequest` returns: the first frame, the next session, and the parts. -/
structure PackedRequest where
  request : List UInt8
  nextSession : ℤ
  parts : Option (List (List UInt8))
deriving DecidableEq, Repr

/-- The call of `packreq_number` or `packreq_string` in `packrequest`. -/
def packreq (addr : ClusterValue) (session : ℕ) (msg : List UInt8) (sz : ℕ) (isPush : Bool) :
    Except ClusterError (List UInt8 × ℕ) :=
  match addr with
  | .integer n => packreqNumber n session msg sz isPush
  | .string name => packreqString (some name) session msg sz isPush
  | _ => packreqString none session msg sz isPush

def packrequest (addr : ClusterValue) (session : ℤ) (msg : Option (List UInt8)) (sz : ℤ)
    (isPush : Bool) : Except ClusterError PackedRequest :=
  match msg with
  | none => .error .invalidMessage
  | some msg => do
    let sz := (sz % 2 ^ 32).toNat
    let session := toInt32 session
    if session ≤ 0 then .error (.invalidSession session)
    else
      let (request, multipak) ← packreq addr session.toNat msg sz isPush
      let nextSession := if toInt32 (session + 1) < 0 then 1 else toInt32 (session + 1)
      if multipak ≠ 0 then
        let parts ← packreqMulti session.toNat (partCount sz) tempBuffer msg sz
        return ⟨request, nextSession, some parts⟩
      else return ⟨request, nextSession, none⟩

def lpackrequest (addr : ClusterValue) (session : ℤ) (msg : Option (List UInt8)) (sz : ℤ) :
    Except ClusterError PackedRequest := packrequest addr session msg sz false

def lpackpush (addr : ClusterValue) (session : ℤ) (msg : Option (List UInt8)) (sz : ℤ) :
    Except ClusterError PackedRequest := packrequest addr session msg sz true

/-! ## Unpacking requests -/

def unpackreqNumber (buf : List UInt8) (sz : ℤ) : Except ClusterError (List ClusterValue) :=
  if sz < 9 then .error (.invalidSize sz)
  else do
    let address ← unpackUint32 (buf.drop 1)
    let session ← unpackUint32 (buf.drop 5)
    let msg := (buf.drop 9).take (sz - 9).toNat
    if session = 0 then
      return [.integer address, .integer session, .string msg, .nil, .boolean true]
    else return [.integer address, .integer session, .string msg]

def unpackmreqNumber (buf : List UInt8) (sz : ℤ) (isPush : Bool) :
    Except ClusterError (List ClusterValue) :=
  if sz ≠ 13 then .error (.invalidMultiSize sz)
  else do
    let address ← unpackUint32 (buf.drop 1)
    let session ← unpackUint32 (buf.drop 5)
    let size ← unpackUint32 (buf.drop 9)
    return [.integer address, .integer session, .integer size, .boolean true, .boolean isPush]

def unpackmreqPart (buf : List UInt8) (sz : ℤ) : Except ClusterError (List ClusterValue) :=
  if sz < 5 then .error .invalidPart
  else do
    let padding := buf.head? = some 2
    let session ← unpackUint32 (buf.drop 1)
    return [.boolean false, .integer session, .string ((buf.drop 5).take (sz - 5).toNat),
      .boolean padding]

/-- `buf[1]`. -/
def nameSize : List UInt8 → Except ClusterError ℕ
  | _ :: b :: _ => .ok b.toNat
  | _ => .error .outOfBounds

def unpackreqString (buf : List UInt8) (sz : ℤ) : Except ClusterError (List ClusterValue) :=
  if sz < 2 then .error (.invalidSize sz)
  else do
    let namesz ← nameSize buf
    if sz < namesz + 6 then .error (.invalidSize sz)
    else
      let name := (buf.drop 2).take namesz
      let session ← unpackUint32 (buf.drop (namesz + 2))
      let msg := (buf.drop (2 + namesz + 4)).take (sz - namesz - 6).toNat
      if session = 0 then
        return [.string name, .integer session, .string msg, .nil, .boolean true]
      else return [.string name, .integer session, .string msg]

def unpackmreqString (buf : List UInt8) (sz : ℤ) (isPush : Bool) :
    Except ClusterError (List ClusterValue) :=
  if sz < 2 then .error (.invalidSize sz)
  else do
    let namesz ← nameSize buf
    if sz < namesz + 10 then .error (.invalidSize sz)
    else
      let name := (buf.drop 2).take namesz
      let session ← unpackUint32 (buf.drop (namesz + 2))
      let size ← unpackUint32 (buf.drop (namesz + 6))
      return [.string name, .integer session, .integer size, .boolean true, .boolean isPush]

/-- `lunpackrequest`. Behind the bytes of a Lua string stands a zero. -/
def lunpackrequest (msg : List UInt8) : Except ClusterError (List ClusterValue) :=
  let sz := toInt32 msg.length
  let type := msg.head?.getD 0
  if type = 0 then unpackreqNumber msg sz
  else if type = 1 then unpackmreqNumber msg sz false
  else if type = 0x41 then unpackmreqNumber msg sz true
  else if type = 2 ∨ type = 3 then unpackmreqPart msg sz
  else if type = 0x80 then unpackreqString msg sz
  else if type = 0x81 then unpackmreqString msg sz false
  else if type = 0xc1 then unpackmreqString msg sz true
  else .error (.invalidType type)

/-! ## Responses -/

/-- The message of a response. -/
inductive ResponseMessage
  | string (s : List UInt8)
  | pointer (msg : List UInt8) (sz : ℤ)
deriving DecidableEq, Repr

/-- What `lpackresponse` returns: a frame, or a table of frames. -/
inductive PackedResponse
  | single (frame : List UInt8)
  | multi (frames : List (List UInt8))
deriving DecidableEq, Repr

/-- The loop of `lpackresponse`; `part` is the number of rounds left. -/
def packresponseMulti (session : ℕ) : ℕ → Block UInt8 → List UInt8 → ℕ →
    Except ClusterError (List (List UInt8))
  | 0, _, _, _ => .ok []
  | part + 1, buf, ptr, sz => do
    let s := if multiPart < sz then multiPart else sz
    let buf ← put buf 6 [if multiPart < sz then 3 else 4]
    let buf ← fillHeader buf (s + 5)
    let buf ← fillUint32 buf 2 session
    let buf ← copy buf 7 ptr s
    let frame ← pushlstring buf (s + 7)
    let frames ← packresponseMulti session part buf (ptr.drop s) (sz - s)
    return frame :: frames

/-- `msg` and `sz` in `lpackresponse`. -/
def ResponseMessage.arguments : ResponseMessage → List UInt8 × ℕ
  | .string s => (s, s.length)
  | .pointer msg sz => (msg, (sz % 2 ^ 64).toNat)

def lpackresponse (session : ℤ) (ok : Bool) (message : ResponseMessage) :
    Except ClusterError PackedResponse := do
  let session := (session % 2 ^ 32).toNat
  let (msg, sz) := message.arguments
  if ok = true ∧ multiPart < sz then
    let buf ← fillHeader tempBuffer 9
    let buf ← fillUint32 buf 2 session
    let buf ← put buf 6 [2]
    let buf ← fillUint32 buf 7 (sz % 2 ^ 32)
    let begin ← pushlstring buf 11
    let frames ← packresponseMulti session (partCount sz) buf msg sz
    return .multi (begin :: frames)
  else
    let sz := if ok = false ∧ multiPart < sz then multiPart else sz
    let buf ← fillHeader tempBuffer (sz + 5)
    let buf ← fillUint32 buf 2 session
    let buf ← put buf 6 [if ok then 1 else 0]
    let buf ← copy buf 7 msg sz
    return .single (← pushlstring buf (sz + 7))

/-- `lunpackresponse`. Nothing is returned for what is not a response. -/
def lunpackresponse (buf : List UInt8) : Except ClusterError (List ClusterValue) :=
  let sz := buf.length
  if sz < 5 then .ok []
  else do
    let session ← unpackUint32 buf
    let msg := buf.drop 5
    let type := (buf.drop 4).head?
    if type = some 0 then return [.integer session, .boolean false, .string msg]
    else if type = some 1 ∨ type = some 4 then
      return [.integer session, .boolean true, .string msg]
    else if type = some 2 then
      if sz ≠ 9 then return []
      else
        let size ← unpackUint32 msg
        return [.integer session, .boolean true, .integer size, .boolean true]
    else if type = some 3 then
      return [.integer session, .boolean true, .string msg, .boolean true]
    else return []

/-! ## Joining the parts -/

/-- The loop of `lconcat`: the strings of the table are copied one behind the other. -/
def concatLoop (sz : ℕ) : List ClusterValue → Block UInt8 → ℕ →
    Except ClusterError (Option (Block UInt8 × ℕ))
  | .string str :: values, buff, offset =>
    if sz < str.length + offset then .ok none
    else do
      let buff ← put buff offset str
      concatLoop sz values buff (offset + str.length)
  | _, buff, offset => .ok (some (buff, offset))

/-- `lconcat`; the elements of the table are listed in order. `ztask_malloc` does not return when it
is asked for more than there is. -/
def lconcat : List ClusterValue → Except ClusterError (Option (List UInt8))
  | .integer n :: values =>
    let sz := toInt32 n
    if sz < 0 then .error .outOfBounds
    else do
      match ← concatLoop sz.toNat values (.alloc sz.toNat) 0 with
      | none => return none
      | some (buff, offset) =>
        if offset ≠ sz.toNat then return none else return some (← pushlstring buff sz.toNat)
  | _ => .ok none

end Cluster

end ZTask
