import ZTask.Seri.Pack

/-!
# Unpacking

`lua-seri.c`, the reading half. A block of bytes is read from its front, with the number of bytes
left as an `int`. What is copied out of the block, and the values that the counter has had, are
recorded.

Lua's memory and stack suffice here; where they do not, a function of the API raises an error and
what is recorded ends there. The stack of C is taken to suffice as well, and no function guards it:
nothing limits how deep `unpack_one`, `push_value` and `unpack_table` call one another, one byte of
a block can open a table, and a block that is nested deep enough exhausts it. The recursion of
`unpack_one` and the loops that end with the bytes carry a bound, which the number of bytes turns
out to be.
-/

namespace ZTask

open Lib

/-! ## The reader -/

/-- What is raised. -/
inductive SeriError
  /-- `Invalid serialize stream %d (line:%d)` -/
  | invalidStream (len : Int) (line : ℕ)
  /-- `table index is nil`, `table index is NaN` -/
  | invalidIndex
  /-- `memory allocation error: block too big` -/
  | tooBig
  /-- `deserialize null pointer` -/
  | nullPointer
  /-- The bound of a loop is exceeded. -/
  | unbounded
deriving DecidableEq, Repr

/-- A range of bytes. -/
structure ByteRange where
  offset : Int
  size : ℕ
deriving DecidableEq, Repr

/-- `struct read_block`. -/
structure ReadBlock where
  buffer : List UInt8
  len : Int
  ptr : Int
  /-- What has been copied from the buffer or handed to `lua_pushlstring`. -/
  accesses : List ByteRange
  /-- The values of `len`, the last one first. -/
  lens : List Int
deriving DecidableEq, Repr

abbrev Unpack (α : Type) := Failing ReadBlock SeriError α

/-- `rball_init`. -/
def ReadBlock.init (buffer : List UInt8) (size : Int) : ReadBlock := ⟨buffer, size, 0, [], [size]⟩

/-! ## Reading -/

/-- `rb_read`; the pointer is an offset. -/
def rbRead (sz : Int) : Unpack (Option Int) := fun rb ↦
  if rb.len < sz then (.ok none, rb)
  else
    let len := toInt32 (rb.len - sz)
    (.ok (some rb.ptr), { rb with ptr := toInt32 (rb.ptr + sz), len, lens := len :: rb.lens })

/-- `invalid_stream_line`. -/
def invalidStreamLine {α : Type} (line : ℕ) : Unpack α := fun rb ↦
  (.error (.invalidStream rb.len line), rb)

/-- The bytes at a pointer. -/
def copyBytes (p : Int) (size : ℕ) : Unpack (List UInt8) := fun rb ↦
  (.ok ((rb.buffer.drop p.toNat).take size), { rb with accesses := ⟨p, size⟩ :: rb.accesses })

/-- Read a datum of fixed size. -/
def readDatum (size line : ℕ) : Unpack (List UInt8) := do
  match ← rbRead size with
  | none => invalidStreamLine line
  | some p => copyBytes p size

/-- `lua_pushlstring`; `luaS_newlstr` raises an error if the size is too big for a Lua integer. -/
def pushlstring (p : Int) (len : ℕ) : Unpack LuaData := do
  let bytes ← copyBytes p len
  if len < 2 ^ 63 - 1 - 24 then return .scalar (.string bytes) else Failing.fail .tooBig

/-- `get_integer`. -/
def getInteger (cookie : ℕ) : Unpack Int64 :=
  if cookie = typeNumberZero then return 0
  else if cookie = typeNumberByte then do return .ofNat (ofLittle (← readDatum 1 368))
  else if cookie = typeNumberWord then do return .ofNat (ofLittle (← readDatum 2 376))
  else if cookie = typeNumberDword then do return .ofInt (toInt32 (ofLittle (← readDatum 4 384)))
  else if cookie = typeNumberQword then do return .ofNat (ofLittle (← readDatum 8 392))
  else invalidStreamLine 397

/-- `get_real`. -/
def getReal : Unpack UInt64 := do return .ofNat (ofLittle (← readDatum 8 407))

/-- `get_pointer`. -/
def getPointer : Unpack UInt64 := do return .ofNat (ofLittle (← readDatum 8 417))

/-- `get_buffer`; the length becomes a `size_t` in the end. -/
def getBuffer (len : Int) : Unpack LuaData := do
  match ← rbRead len with
  | none => invalidStreamLine 427
  | some p => pushlstring p (len % 2 ^ 64).toNat

/-! ## Values -/

section Table

/-! The reading of a table, with `unpack_one` for what is in it. -/

variable (one : Unpack LuaData)

/-- The loop over the array part, from element `i` on. -/
def unpackArray : ℕ → ℕ → LuaTable → Unpack LuaTable
  | 0, _, t => return t
  | n + 1, i, t => do unpackArray n (i + 1) (t.rawseti i (← one))

/-- The loop over the pairs. -/
def unpackPairs : ℕ → LuaTable → Unpack LuaTable
  | 0, _ => Failing.fail .unbounded
  | n + 1, t => do
    let k ← one
    if k.isNil then return t
    else
      let v ← one
      match t.rawset k v with
      | none => Failing.fail .invalidIndex
      | some t => unpackPairs n t

/-- The number of elements of the array part. -/
def readArraySize (cookie : ℕ) : Unpack Int :=
  if cookie = maxCookie - 1 then do
    let type := ofLittle (← readDatum 1 440)
    if type % 8 ≠ typeNumber ∨ type / 8 = typeNumberReal then invalidStreamLine 445
    else return toInt32 (← getInteger (type / 8)).toInt
  else return cookie

/-- `unpack_table`. -/
def unpackTable (bound cookie : ℕ) : Unpack LuaData := do
  let arraySize ← readArraySize cookie
  let t ← unpackArray one arraySize.toNat 1 .empty
  let t ← unpackPairs one bound t
  return t.data

/-- `push_value`. -/
def pushValue (bound type cookie : ℕ) : Unpack LuaData :=
  if type = typeNil then return .nil
  else if type = typeBoolean then return .scalar (.boolean (cookie ≠ 0))
  else if type = typeNumber then
    if cookie = typeNumberReal then do return .scalar (.real (← getReal))
    else do return .scalar (.integer (← getInteger cookie))
  else if type = typeUserdata then do return .scalar (.userdata (← getPointer))
  else if type = typeShortString then getBuffer cookie
  else if type = typeLongString then
    if cookie = 2 then do getBuffer (toInt32 (ofLittle (← readDatum 2 493)))
    else if cookie ≠ 4 then invalidStreamLine 500
    else do getBuffer (toInt32 (ofLittle (← readDatum 4 504)))
  else if type = typeTable then unpackTable one bound cookie
  else invalidStreamLine 517

end Table

/-- `unpack_one`. -/
def unpackOne : ℕ → Unpack LuaData
  | 0 => Failing.fail .unbounded
  | bound + 1 => do
    let type := ofLittle (← readDatum 1 528)
    pushValue (unpackOne bound) bound (type % 8) (type / 8)

/-- The loop of `luaseri_unpack`, with what has been pushed so far. -/
def unpackAll : ℕ → List LuaData → Unpack (List LuaData)
  | 0, _ => Failing.fail .unbounded
  | bound + 1, values => do
    match ← rbRead 1 with
    | none => return values
    | some p =>
      let type := ofLittle (← copyBytes p 1)
      let v ← pushValue (unpackOne bound) bound (type % 8) (type / 8)
      unpackAll bound (values ++ [v])

/-! ## Streams -/

/-- The argument of `luaseri_unpack`: nothing, a string, or a pointer to a buffer and its length. -/
inductive SeriArgument
  | nil
  | string (bytes : List UInt8)
  | pointer (buffer : Option (List UInt8)) (len : Int)

/-- `luaseri_unpack`, with the block that is left. -/
def luaseriUnpack : SeriArgument → Except SeriError (List LuaData) × ReadBlock
  | .nil => (.ok [], .init [] 0)
  | .string bytes => unpackBuffer (some bytes) (toInt32 bytes.length)
  | .pointer buffer len => unpackBuffer buffer (toInt32 len)
where
  unpackBuffer (buffer : Option (List UInt8)) (len : Int) :=
    if len = 0 then (.ok [], .init (buffer.getD []) len)
    else
      match buffer with
      | none => (.error .nullPointer, .init [] len)
      | some bytes => unpackAll (len.toNat + 1) [] (.init bytes len)

end ZTask
