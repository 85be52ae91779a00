import ZTask.Bson.Value
import ZTask.Harbor.Service

/-!
# Decoding

The decoder of `lua-bson.c`. A reader is a pointer into the block and the number of bytes left,
which is an `int`. Lengths that are read are `int`s too, and what is computed of them wraps. A byte
that is looked at outside of the block ends the run here.

The machine is little-endian, and Lua's memory and stack suffice, as the C stack does. The recursion
of `unpack_dict` and its loops carry a bound, which the number of bytes turns out to be.
-/

namespace ZTask

open Lib

/-- `struct bson_reader`; the pointer is an offset into the block. -/
structure BsonReader where
  ptr : ℤ
  size : ℤ
deriving DecidableEq, Repr

abbrev BsonDecode : Type → Type := Failing BsonReader BsonError

/-- `luaL_error`. -/
def bsonRaise {σ α : Type} (message : BsonMessage) : Failing σ BsonError α :=
  Failing.fail (.raised message)

/-! ## Bytes of the block -/

/-- The byte at a pointer. -/
def byteAt (block : List UInt8) (p : ℤ) : Except BsonError UInt8 :=
  if 0 ≤ p then
    match block[p.toNat]? with
    | some b => .ok b
    | none => .error .outside
  else .error .outside

/-- So many bytes from a pointer on. -/
def bytesAt (block : List UInt8) (p : ℤ) (n : ℕ) : Except BsonError (List UInt8) :=
  if n = 0 ∨ 0 ≤ p ∧ p + n ≤ block.length then .ok ((block.drop p.toNat).take n)
  else .error .outside

/-- `get_length`. -/
def bsonLength (block : List UInt8) : Except BsonError ℤ := do
  let bytes ← bytesAt block 0 4
  return toInt32 (ofLittle bytes)

/-! ## The reader -/

/-- The reader further on by so many bytes. -/
def BsonReader.advance (br : BsonReader) (sz : ℤ) : BsonReader :=
  ⟨br.ptr + sz, toInt32 (br.size - sz)⟩

/-- Where the reader is. -/
def readerPtr : BsonDecode ℤ := fun br ↦ (.ok br.ptr, br)

def advanceReader (sz : ℤ) : BsonDecode PUnit := fun br ↦ (.ok (), br.advance sz)

/-- `check_reader`. -/
def checkReader (sz : ℤ) : BsonDecode PUnit := fun br ↦
  if br.size < sz then (.error (.raised (.invalidBlock br.size sz)), br) else (.ok (), br)

section Reader

variable (block : List UInt8)

/-- What `read_byte`, `read_int32`, `read_int64` and `read_double` share: the next `n` bytes. -/
def readRaw (n : ℕ) : BsonDecode (List UInt8) := do
  checkReader n
  let p ← readerPtr
  let bytes ← Failing.lift (bytesAt block p n)
  advanceReader n
  return bytes

/-- `read_byte`. -/
def readBsonByte : BsonDecode UInt8 := do return .ofNat (ofLittle (← readRaw block 1))

/-- `read_int32`. -/
def readInt32 : BsonDecode ℤ := do return toInt32 (ofLittle (← readRaw block 4))

/-- `read_int64`. -/
def readInt64 : BsonDecode Int64 := do return .ofNat (ofLittle (← readRaw block 8))

/-- `read_double`. -/
def readDouble : BsonDecode UInt64 := do return .ofNat (ofLittle (← readRaw block 8))

/-- `read_bytes`. -/
def readBytes (sz : ℤ) : BsonDecode ℤ := do
  let r ← readerPtr
  checkReader sz
  advanceReader sz
  return r

/-- The loop of `read_cstring`, from the byte `i` on. -/
def cstringLength (br : BsonReader) : ℕ → ℕ → Except BsonError ℕ
  | 0, _ => .error .unbounded
  | bound + 1, i =>
    if (i : ℤ) = br.size then .error (.raised .invalidCstring)
    else do
      let b ← byteAt block (br.ptr + i)
      if b = 0 then .ok i else cstringLength br bound (i + 1)

/-- `read_cstring`, with the bytes of the string. -/
def readCstring : BsonDecode (List UInt8) := do
  let sz ← fun br ↦ (cstringLength block br (block.length + 1) 0, br)
  let r ← readerPtr
  let bytes ← Failing.lift (bytesAt block r sz)
  advanceReader (sz + 1)
  return bytes

/-! ## Strings that are made -/

/-- `luaL_addlstring` to a buffer that holds `n` bytes. The number of bytes becomes a `size_t`;
there is no memory for the buffer if it was negative. -/
def addlstring (n : ℕ) (p sz : ℤ) : Except BsonError (List UInt8) :=
  if sz < 0 then .error (.raised (if -sz ≤ n then .bufferTooLarge else .notEnoughMemory))
  else bytesAt block p sz.toNat

/-- `make_object`. -/
def makeObject (type : BsonType) (p len : ℤ) : BsonDecode LuaData := do
  let bytes ← Failing.lift (addlstring block 2 p len)
  return .scalar (.string (0 :: type.code :: bytes))

/-! ## Values -/

/-- `strtol(key, NULL, 10)`. -/
def strtol (key : List UInt8) : ℤ :=
  match scanInt key with
  | none => 0
  | some (n, _) => max (-2 ^ 63) (min n (2 ^ 63 - 1))

/-- The key under which a field is put into the table. -/
def fieldKey (array : Bool) (key : List UInt8) : LuaScalar :=
  if array then .integer (.ofInt (toInt32 (strtol key + 1))) else .string key

/-- The value of a field, with `unpack_dict` for documents and arrays. -/
def unpackValue (dict : Bool → BsonDecode LuaData) (bt : UInt8) : BsonDecode LuaData :=
  match BsonType.ofCode? bt with
  | some .real => do return .scalar (.real (← readDouble block))
  | some .boolean => do return .scalar (.boolean ((← readBsonByte block) ≠ 0))
  | some .string => do
    let sz ← readInt32 block
    if sz ≤ 0 then bsonRaise (.invalidString sz)
    else
      let p ← readBytes sz
      return .scalar (.string (← Failing.lift (bytesAt block p (sz - 1).toNat)))
  | some .document => dict false
  | some .array => dict true
  | some .binary => do
    let sz ← readInt32 block
    let subtype ← readBsonByte block
    let p ← readBytes sz
    let bytes ← Failing.lift (addlstring block 3 p sz)
    return .scalar (.string (0 :: BsonType.binary.code :: subtype :: bytes))
  | some .objectId => do makeObject block .objectId (← readBytes 12) 12
  | some .date => do
    let date ← readInt64 block
    let v := date.toInt.tdiv 1000 % 2 ^ 32
    return .scalar (.string (0 :: BsonType.date.code :: toLittle 4 v.toNat))
  | some .minKey | some .maxKey | some .null => return .scalar (.string [0, bt])
  | some .regex => do
    let r1 ← readCstring block
    let r2 ← readCstring block
    return .scalar (.string (0 :: BsonType.regex.code :: (r1 ++ 0 :: (r2 ++ [0]))))
  | some .int32 => do return .scalar (.integer (.ofInt (← readInt32 block)))
  | some .timestamp => do
    let inc ← readRaw block 4
    let ts ← readRaw block 4
    return .scalar (.string (0 :: BsonType.timestamp.code :: (inc ++ ts)))
  | some .int64 => do return .scalar (.integer (← readInt64 block))
  | some .dbPointer => do
    let ptr ← readerPtr
    let sz ← readInt32 block
    let _ ← readBytes (toInt32 (sz + 12))
    makeObject block .dbPointer ptr (toInt32 (sz + 16))
  | some .jsCode => unpackCode .jsCode
  | some .symbol => unpackCode .symbol
  | some .codeWs => do
    let ptr ← readerPtr
    let sz ← readInt32 block
    let _ ← readBytes (toInt32 (sz - 4))
    makeObject block .codeWs ptr sz
  | some .undefined | none => bsonRaise (.invalidType bt)
where
  unpackCode (type : BsonType) : BsonDecode LuaData := do
    let ptr ← readerPtr
    let sz ← readInt32 block
    let _ ← readBytes sz
    makeObject block type ptr (toInt32 (sz + 4))

/-! ## Documents -/

/-- The loop of `unpack_dict`, with the table that is filled. -/
def unpackFields (dict : Bool → BsonDecode LuaData) (array : Bool) :
    ℕ → LuaTable → BsonDecode LuaTable
  | 0, _ => Failing.fail .unbounded
  | bound + 1, t => fun br ↦
    if br.size = 0 then (.ok t, br)
    else
      (do
        let bt ← readBsonByte block
        let key ← readCstring block
        let v ← unpackValue block dict bt
        unpackFields dict array bound (t.set (fieldKey array key) v)) br

/-- `unpack_dict` behind the length, with the number of bytes of the fields and the loop over them.
-/
def unpackBody (fields : BsonReader → Except BsonError LuaTable) (sz : ℤ) : BsonDecode LuaData := do
  let bytes ← readBytes sz
  let last ← readBsonByte block
  if last ≠ 0 then bsonRaise .invalidEnd
  else
    let table ← Failing.lift (fields ⟨bytes, sz⟩)
    return table.data

/-- `unpack_dict`. -/
def unpackDict : ℕ → Bool → BsonDecode LuaData
  | 0, _ => Failing.fail .unbounded
  | bound + 1, array => do
    let sz ← readInt32 block
    unpackBody block (fun t ↦ (unpackFields block (unpackDict bound) array bound .empty t).1)
      (toInt32 (sz - 5))

/-- `ldecode`, of a block. -/
def ldecode : Except BsonError LuaData := do
  let len ← bsonLength block
  (unpackDict block (block.length + 1) false ⟨0, len⟩).1

end Reader

end ZTask
