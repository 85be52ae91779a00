import ZTask.Bson.Value
import ZTask.Lib.Writing
import ZTask.Cslave.Service

/-!
# Encoding

The encoder of `lua-bson.c`. The document is written into a buffer that is doubled when it is full;
its size and its capacity are `int`s. What is written behind the capacity, and what is read behind a
string or a userdata, is outside.

A text of a real key comes from `lua_tolstring` (`realText`). Memory and Lua's stack suffice, and
the metamethods return. The machine is little-endian.
-/

namespace ZTask

open Lib

/-- `struct bson`; the room is its capacity. -/
abbrev BsonEncode : Type → Type := Writing UInt8 ℤ BsonError

/-! ## The buffer -/

/-- The loop of `bson_reserve`. -/
def growCap (need : ℤ) : ℕ → ℤ → Except BsonError ℤ
  | 0, _ => .error .unbounded
  | bound + 1, cap =>
    let cap := cap * 2
    if 2 ^ 31 ≤ cap then .error .overflow
    else if cap ≤ need then growCap need bound cap
    else .ok cap

/-- The capacity after `bson_reserve`. It is doubled 31 times at most. -/
def reservedCap (size : ℕ) (cap sz : ℤ) : Except BsonError ℤ :=
  if size + sz ≤ cap then .ok cap else growCap (size + sz) 32 cap

/-- `bson_reserve`. -/
def bsonReserve (sz : ℤ) : BsonEncode PUnit := fun b ↦
  match reservedCap b.written.length b.room sz with
  | .error e => .error e
  | .ok cap => .ok ((), { b with room := cap })

/-- Bytes are put behind those that have been written. -/
def putBytes (bytes : List UInt8) : BsonEncode PUnit := fun b ↦
  if b.written.length + bytes.length ≤
    b.room then .ok ((), { b with written := b.written ++ bytes })
  else .error .outside

def encodeRaise {α : Type} (message : BsonMessage) : BsonEncode α := Writing.fail (.raised message)

/-- `write_byte`. -/
def writeByte (v : UInt8) : BsonEncode PUnit := do
  bsonReserve 1
  putBytes [v]

/-- What `write_int32`, `write_int64` and `write_double` share: a number of `w` bytes. -/
def writeNumber (w n : ℕ) : BsonEncode PUnit := do
  bsonReserve w
  putBytes (toLittle w n)

/-- `write_int32`. -/
def writeInt32 (v : ℤ) : BsonEncode PUnit := writeNumber 4 (v % 2 ^ 32).toNat

/-- `write_int64`. -/
def writeInt64 (v : ℤ) : BsonEncode PUnit := writeNumber 8 (v % 2 ^ 64).toNat

/-- `write_double`. -/
def writeDouble (bits : UInt64) : BsonEncode PUnit := writeNumber 8 bits.toNat

/-- The bytes of a length. -/
def lengthBytes (v : ℤ) : List UInt8 := toLittle 4 (v % 2 ^ 32).toNat

/-- `write_length`. -/
def writeLength (v : ℤ) (off : ℕ) : BsonEncode PUnit := Writing.patch off (lengthBytes v)

/-- `reserve_length`. The four bytes are written later, and hold nothing definite until then. -/
def reserveLength : BsonEncode ℕ := do
  let sz ← Writing.size
  bsonReserve 4
  putBytes [0, 0, 0, 0]
  return sz

/-! ## Texts -/

/-- `limits` of `utf8_copy`. -/
def utf8Limit : ℕ → UInt32
  | 0 => 0xFF
  | 1 => 0x7F
  | 2 => 0x7FF
  | _ => 0xFFFF

/-- The loop of `utf8_copy`, which reads at most seven bytes since `c` is shifted each time. An
error tells how many bytes have been copied. -/
def utf8Tail (s : List UInt8) : ℕ → UInt32 → ℕ → UInt32 → Except ℕ (UInt32 × ℕ × UInt32)
  | 0, c, count, res => .ok (c, count, res)
  | bound + 1, c, count, res =>
    if c &&& 0x40 = 0 then .ok (c, count, res)
    else
      match s[count + 1]? with
      | none => .error (count + 1)
      | some cc =>
        if cc &&& 0xC0 ≠ 0x80 then .error (count + 1)
        else utf8Tail s bound (c <<< 1) (count + 1) ((res <<< 6) ||| (cc &&& 0x3F).toUInt32)

/-- `utf8_copy` of what is left of a text: how many bytes the character at the front takes. An error
tells how many bytes have been copied. The first byte is a `char` with a sign. -/
def utf8Copy : List UInt8 → Except ℕ ℕ
  | [] => .error 0
  | b :: bs =>
    if b < 0x80 then .ok 1
    else
      match utf8Tail (b :: bs) 7 (0xFFFFFF00 ||| b.toUInt32) 0 0 with
      | .error copied => .error copied
      | .ok (c, count, res) =>
        let res := res ||| ((c &&& 0x7F) <<< (count * 5).toUInt32)
        if 3 < count ∨ 0x10FFFF < res ∨ res ≤ utf8Limit count then .error (count + 1)
        else .ok (count + 1)

/-- How many bytes of a text have been copied when the loop of `write_string` comes to a character
that is not valid. -/
def utf8Fault : ℕ → List UInt8 → Option ℕ
  | 0, _ => none
  | bound + 1, s =>
    if s = [] then none
    else
      match utf8Copy s with
      | .error copied => some copied
      | .ok c => (utf8Fault bound (s.drop c)).map (c + ·)

/-- Where a text is not valid, by the number of bytes that are copied. -/
def textFault (text : List UInt8) : Option ℕ := utf8Fault text.length text

/-- `write_string`. -/
def writeString (text : List UInt8) : BsonEncode PUnit := do
  bsonReserve (toInt32 (text.length + 1))
  match textFault text with
  | some copied => do
    putBytes (text.take copied)
    encodeRaise .invalidUtf8
  | none => do
    putBytes text
    putBytes [0]

/-- `append_key`. -/
def appendKey (type : UInt8) (key : List UInt8) : BsonEncode PUnit := do
  writeByte type
  writeString key

/-! ## Values -/

/-- `is_32bit`. -/
def is32bit (v : ℤ) : Bool := -2 ^ 31 ≤ v && v ≤ 2 ^ 31 - 1

/-- `append_number` of an integer. -/
def appendInteger (key : List UInt8) (i : Int64) : BsonEncode PUnit :=
  if is32bit i.toInt then do
    appendKey BsonType.int32.code key
    writeInt32 i.toInt
  else do
    appendKey BsonType.int64.code key
    writeInt64 i.toInt

/-- `append_number` of a real. -/
def appendReal (key : List UInt8) (bits : UInt64) : BsonEncode PUnit := do
  appendKey BsonType.real.code key
  writeDouble bits

/-- `bson_reserve` and `memcpy`. -/
def appendBytes (bytes : List UInt8) : BsonEncode PUnit := do
  bsonReserve (toInt32 bytes.length)
  putBytes bytes

/-- `write_binary`. -/
def writeBinary (buffer : List UInt8) : BsonEncode PUnit := do
  let length ← reserveLength
  appendBytes buffer
  writeLength (buffer.length - 1) length

/-- The document in a userdata, whose length is the number in front. -/
def appendUserdata (key memory : List UInt8) : BsonEncode PUnit := do
  appendKey BsonType.document.code key
  if memory.length < 4 then Writing.fail .outside
  else
    let sz := toInt32 (ofLittle (memory.take 4))
    bsonReserve sz
    if 0 ≤ sz ∧ sz ≤ memory.length then putBytes (memory.take sz.toNat) else Writing.fail .outside

/-- The bytes behind the last zero byte. -/
def regexOptions (str : List UInt8) : List UInt8 := (str.reverse.takeWhile (· ≠ 0)).reverse

/-- The branch for regexes, with what follows the tag; the last byte of it is not looked at. Without
a zero byte before it the length of the pattern becomes huge, and the copy runs out of the string
unless it comes to a character that is not valid. -/
def writeRegex (content : List UInt8) : BsonEncode PUnit :=
  let str := content.dropLast
  let i := (regexOptions str).length
  if content = [] then Writing.fail .outside
  else if i = str.length then do
    bsonReserve 0
    match textFault (content ++ [0]) with
    | some copied => do
      putBytes ((content ++ [0]).take copied)
      encodeRaise .invalidUtf8
    | none => Writing.fail .outside
  else do
    writeString (str.take (str.length - i - 1))
    writeString (regexOptions str)

/-- The value of a string with a tag. -/
def writeTagged (subt : UInt8) (content : List UInt8) : BsonEncode PUnit :=
  match BsonType.ofCode? subt with
  | some .binary => writeBinary content
  | some .objectId =>
    if content.length ≠ 12 then encodeRaise (.invalidObjectIdText (content.takeWhile (· ≠ 0)))
    else appendBytes content
  | some .jsCode | some .dbPointer | some .symbol | some .codeWs => appendBytes content
  | some .date =>
    if content.length ≠ 4 then encodeRaise .invalidDate
    else writeInt64 (ofLittle content * 1000)
  | some .timestamp =>
    if content.length ≠ 8 then encodeRaise .invalidTimestamp
    else do
      writeInt32 (ofLittle (content.take 4))
      writeInt32 (ofLittle (content.drop 4))
  | some .regex => writeRegex content
  | some .minKey | some .maxKey | some .null => return ()
  | _ => encodeRaise (.invalidSubtype subt)

/-- A string without a tag. -/
def appendText (key str : List UInt8) : BsonEncode PUnit := do
  appendKey BsonType.string.code key
  let off ← reserveLength
  writeString str
  writeLength (str.length + 1) off

/-- The branch of `append_one` for strings. -/
def appendString (key : List UInt8) : List UInt8 → BsonEncode PUnit
  | zero :: subt :: content =>
    if zero = 0 then do
      appendKey subt key
      writeTagged subt content
    else appendText key (zero :: subt :: content)
  | str => appendText key str

/-! ## Tables -/

/-- The end of a document: the zero byte, and the length that has been left open. -/
def closeDocument (length : ℕ) : BsonEncode PUnit := do
  writeByte 0
  let size ← Writing.size
  writeLength (size - length : ℕ) length

section Tables

variable (realText : UInt64 → List UInt8) (one : List UInt8 → BsonObject → BsonEncode PUnit)

/-- `pack_array`, with `append_one`. `bson_numstr` is given an `unsigned int`. -/
def packArray (elements : List BsonObject) : BsonEncode PUnit := do
  let length ← reserveLength
  elements.zipIdx.forM fun element ↦ one (decimal (element.2 % 2 ^ 32)) element.1
  closeDocument length

/-- `pack_dict_data`. -/
def packDictData (pair : LuaScalar × BsonObject) : BsonEncode PUnit :=
  match pair.1 with
  | .integer i => one (decimalInt i.toInt) pair.2
  | .real bits => one (realText bits) pair.2
  | .string key => one key pair.2
  | k => encodeRaise (.invalidKeyType k.typename)

/-- `pack_simple_dict` and `pack_meta_dict`, with the pairs that they go over. -/
def packDict (pairs : List (LuaScalar × BsonObject)) : BsonEncode PUnit := do
  let length ← reserveLength
  pairs.forM (packDictData realText one)
  closeDocument length

/-- `is_rawarray`: whether the length is the last key. -/
def isRawarray (pairs : List (LuaScalar × BsonObject)) (len : ℕ) : Except BsonError Bool :=
  if len = 0 then .ok false
  else
    match pairs.dropWhile fun pair ↦ pair.1 ≠ .integer (.ofNat len) with
    | [] => .error (.raised .invalidNext)
    | [_] => .ok true
    | _ => .ok false

/-- `append_table`, at a depth that is allowed. -/
def appendTable (key : List UInt8) (pairs : List (LuaScalar × BsonObject))
    (elements : List BsonObject) (metalen : Option (Option (List BsonObject)))
    (metapairs : Option (List (LuaScalar × BsonObject))) : BsonEncode PUnit :=
  match metalen, metapairs with
  | some none, _ => encodeRaise .lenNotInteger
  | some (some elements), _ => do
    appendKey BsonType.array.code key
    packArray one elements
  | none, some pairs => do
    appendKey BsonType.document.code key
    packDict realText one pairs
  | none, none =>
    match isRawarray pairs elements.length with
    | .error e => Writing.fail e
    | .ok true => do
      appendKey BsonType.array.code key
      packArray one elements
    | .ok false => do
      appendKey BsonType.document.code key
      packDict realText one pairs

end Tables

/-- `append_one`, at `MAX_DEPTH - left`. -/
def appendOne (realText : UInt64 → List UInt8) (left : ℕ) (key : List UInt8) :
    BsonObject → BsonEncode PUnit
  | .boolean b => do
    appendKey BsonType.boolean.code key
    writeByte (if b then 1 else 0)
  | .integer i => appendInteger key i
  | .real bits => appendReal key bits
  | .string bytes => appendString key bytes
  | .userdata memory => appendUserdata key memory
  | .other typename => encodeRaise (.invalidValueType typename)
  | .table pairs elements metalen metapairs =>
    match left with
    | 0 => encodeRaise .tooDeep
    | left + 1 => appendTable realText (appendOne realText left) key pairs elements
        metalen metapairs

/-- `MAX_DEPTH`. -/
def bsonMaxDepth : ℕ := 128

/-- `encode_bson`. -/
def encodeBson (realText : UInt64 → List UInt8) : BsonObject → BsonEncode PUnit
  | .table pairs _ _ metapairs =>
    packDict realText (appendOne realText bsonMaxDepth) (metapairs.getD pairs)
  | _ => encodeRaise (.badArgument 1 "table")

/-- `lencode`: the bytes of the userdata. -/
def lencode (realText : UInt64 → List UInt8) (v : BsonObject) : Except BsonError (List UInt8) :=
  match encodeBson realText v ⟨[], 64⟩ with
  | .error e => .error e
  | .ok (_, b) => .ok b.written

/-! ## Ordered documents -/

/-- `lua_tolstring`. -/
def luaTolstring (realText : UInt64 → List UInt8) : BsonObject → Option (List UInt8)
  | .string bytes => some bytes
  | .integer i => some (decimalInt i.toInt)
  | .real bits => some (realText bits)
  | _ => none

/-- The loop of `pack_ordered_dict`, with the keys and the values in the order in which they are
given; the code has moved the first key to the end. There have been `i` of them. -/
def packOrdered (realText : UInt64 → List UInt8)
    (one : List UInt8 → BsonObject → BsonEncode PUnit) :
    ℕ → List BsonObject → BsonEncode PUnit
  | i, key :: v :: args =>
    match luaTolstring realText key with
    | none => encodeRaise (.needString (i + 1))
    | some key => do
      one key v
      packOrdered realText one (i + 2) args
  | _, _ => return ()

/-- `pack_ordered_dict`. -/
def packOrderedDict (realText : UInt64 → List UInt8)
    (one : List UInt8 → BsonObject → BsonEncode PUnit)
    (args : List BsonObject) : BsonEncode PUnit := do
  let length ← reserveLength
  packOrdered realText one 0 args
  closeDocument length

/-- `lencode_order`, with `encode_bson_byorder`. -/
def lencodeOrder (realText : UInt64 → List UInt8) (args : List BsonObject) :
    Except BsonError (List UInt8) :=
  if args.length % 2 ≠ 0 then .error (.raised .invalidOrderedDict)
  else
    match packOrderedDict realText (appendOne realText bsonMaxDepth) args ⟨[], 64⟩ with
    | .error e => .error e
    | .ok (_, b) => .ok b.written

end ZTask
