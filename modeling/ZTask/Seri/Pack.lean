import ZTask.Seri.Value

/-!
# Packing

`lua-seri.c`, the writing half. The bytes go into a list of blocks of 128 bytes, of which the last
is being filled, and are copied into one buffer in the end.

`packOne` is `pack_one` with `MAX_DEPTH + 1 - depth` in the place of `depth`.
-/

namespace ZTask

open Lib

def typeNil : ℕ := 0
def typeBoolean : ℕ := 1
def typeNumber : ℕ := 2
def typeNumberZero : ℕ := 0
def typeNumberByte : ℕ := 1
def typeNumberWord : ℕ := 2
def typeNumberDword : ℕ := 4
def typeNumberQword : ℕ := 6
def typeNumberReal : ℕ := 8
def typeUserdata : ℕ := 3
def typeShortString : ℕ := 4
def typeLongString : ℕ := 5
def typeTable : ℕ := 6

def maxCookie : ℕ := 32

def seriBlockSize : ℕ := 128

def maxDepth : ℕ := 32

/-- `COMBINE_TYPE`, as a `uint8_t`; `t` takes three bits. -/
def combineType (t : ℕ) (v : Int) : UInt8 := .ofNat ((t + 8 * v) % 256).toNat

/-- What `pack_one` raises. -/
inductive PackError
  /-- `serialize can't pack too depth table` -/
  | tooDepth
  /-- `Unsupport type %s to serialize` -/
  | unsupport (typename : String)
deriving DecidableEq, Repr

/-! ## Blocks -/

/-- `struct write_block`: the blocks in front of the current one, and as much of the current one as
has been written. -/
structure WriteBlock where
  filled : List (List UInt8)
  current : List UInt8
  len : ℕ
deriving DecidableEq, Repr

namespace WriteBlock

/-- `wb_init`. -/
def init : WriteBlock := ⟨[], [], 0⟩

def ptr (b : WriteBlock) : ℕ := b.current.length

/-- Go on in a new block. -/
def alloc (b : WriteBlock) : WriteBlock :=
  { b with filled := b.filled ++ [b.current], current := [] }

/-- `memcpy` to the place where the current block ends. -/
def copy (b : WriteBlock) (buffer : List UInt8) : WriteBlock :=
  { b with current := b.current ++ buffer, len := b.len + buffer.length }

/-- `wb_push` behind the label; it comes back to it at most so many times. -/
def copyBlocks : ℕ → WriteBlock → List UInt8 → WriteBlock
  | 0, b, buffer => b.copy buffer
  | n + 1, b, buffer =>
    if b.ptr + buffer.length ≤ seriBlockSize then b.copy buffer
    else
      let copy := seriBlockSize - b.ptr
      (b.copy (buffer.take copy)).alloc.copyBlocks n (buffer.drop copy)

/-- `wb_push`. -/
def push (b : WriteBlock) (buffer : List UInt8) : WriteBlock :=
  let b := if b.ptr = seriBlockSize then b.alloc else b
  b.copyBlocks (buffer.length / seriBlockSize + 1) buffer

end WriteBlock

/-- The loop of `seri`: what is copied from the blocks. None if it comes to the end of the list or
copies what has not been written. -/
def seriCopy : List (List UInt8) → ℕ → Option (List UInt8)
  | _, 0 => some []
  | [], _ + 1 => none
  | b :: blocks, len + 1 =>
    if seriBlockSize ≤ len + 1 then
      if b.length < seriBlockSize then none
      else (seriCopy blocks (len + 1 - seriBlockSize)).map (b ++ ·)
    else if b.length < len + 1 then none
    else some (b.take (len + 1))

/-! ## Values -/

namespace WriteBlock

/-- The byte that begins a value. -/
def pushType (b : WriteBlock) (t : ℕ) (v : Int) : WriteBlock := b.push [combineType t v]

/-- `wb_nil`. -/
def nil (b : WriteBlock) : WriteBlock := b.pushType typeNil 0

/-- `wb_boolean`. -/
def boolean (b : WriteBlock) (boolean : Bool) : WriteBlock :=
  b.pushType typeBoolean (if boolean then 1 else 0)

/-- `wb_integer`. -/
def integer (b : WriteBlock) (v : Int64) : WriteBlock :=
  let bytes (w : ℕ) : List UInt8 := toLittle w v.toUInt64.toNat
  if v = 0 then b.pushType typeNumber typeNumberZero
  else if v.toInt ≠ toInt32 v.toInt then (b.pushType typeNumber typeNumberQword).push (bytes 8)
  else if v.toInt < 0 then (b.pushType typeNumber typeNumberDword).push (bytes 4)
  else if v.toInt < 0x100 then (b.pushType typeNumber typeNumberByte).push (bytes 1)
  else if v.toInt < 0x10000 then (b.pushType typeNumber typeNumberWord).push (bytes 2)
  else (b.pushType typeNumber typeNumberDword).push (bytes 4)

/-- `wb_real`. -/
def real (b : WriteBlock) (v : UInt64) : WriteBlock :=
  (b.pushType typeNumber typeNumberReal).push (toLittle 8 v.toNat)

/-- `wb_pointer`. -/
def pointer (b : WriteBlock) (v : UInt64) : WriteBlock :=
  (b.push [.ofNat typeUserdata]).push (toLittle 8 v.toNat)

/-- `wb_string`. -/
def string (b : WriteBlock) (str : List UInt8) (len : Int) : WriteBlock :=
  if len < maxCookie then
    let b := b.pushType typeShortString len
    if 0 < len then b.push (str.take len.toNat) else b
  else
    let b :=
      if len < 0x10000 then (b.pushType typeLongString 2).push (toLittle 2 len.toNat)
      else (b.pushType typeLongString 4).push (toLittle 4 len.toNat)
    b.push (str.take len.toNat)

end WriteBlock

section Table

/-! The writing of a table, with `pack_one` for what is in it. -/

variable (one : WriteBlock → LuaObject → Except PackError WriteBlock)

/-- `wb_table_array`, with the array size. -/
def wbTableArray (b : WriteBlock) (pairs : List (LuaObject × LuaObject)) (arraySize : Int) :
    Except PackError WriteBlock :=
  let b :=
    if arraySize ≥ maxCookie - 1 then
      (b.pushType typeTable (maxCookie - 1)).integer (.ofInt arraySize)
    else b.pushType typeTable arraySize
  (List.range arraySize.toNat).foldlM (fun b i ↦ one b (rawgeti pairs (i + 1))) b

/-- The array part has the key already. -/
def inArray (arraySize : Int) : LuaObject → Bool
  | .scalar (.integer x) => 0 < x.toInt && x.toInt ≤ arraySize
  | _ => false

/-- The pairs, the key before the value. -/
def wbPairs (b : WriteBlock) (pairs : List (LuaObject × LuaObject)) : Except PackError WriteBlock :=
  pairs.foldlM (fun b p ↦ do one (← one b p.1) p.2) b

/-- `wb_table_hash`. -/
def wbTableHash (b : WriteBlock) (pairs : List (LuaObject × LuaObject)) (arraySize : Int) :
    Except PackError WriteBlock := do
  let b ← wbPairs one b (pairs.filter fun p ↦ !inArray arraySize p.1)
  return b.nil

/-- `wb_table_metapairs`. -/
def wbTableMetapairs (b : WriteBlock) (metapairs : List (LuaObject × LuaObject)) :
    Except PackError WriteBlock := do
  let b ← wbPairs one (b.pushType typeTable 0) (metapairs.takeWhile fun p ↦ !p.1.isNil)
  return b.nil

/-- `wb_table`. -/
def wbTable (b : WriteBlock) (pairs : List (LuaObject × LuaObject)) (rawlen : ℕ) :
    Option (List (LuaObject × LuaObject)) → Except PackError WriteBlock
  | some metapairs => wbTableMetapairs one b metapairs
  | none => do
    let arraySize := toInt32 rawlen
    let b ← wbTableArray one b pairs arraySize
    wbTableHash one b pairs arraySize

end Table

/-- `pack_one`. -/
def packOne : ℕ → WriteBlock → LuaObject → Except PackError WriteBlock
  | 0, _, _ => .error .tooDepth
  | depth + 1, b, v =>
    match v with
    | .scalar .nil => .ok b.nil
    | .scalar (.integer x) => .ok (b.integer x)
    | .scalar (.real n) => .ok (b.real n)
    | .scalar (.boolean x) => .ok (b.boolean x)
    | .scalar (.string str) => .ok (b.string str (toInt32 str.length))
    | .scalar (.userdata p) => .ok (b.pointer p)
    | .scalar (.other typename) => .error (.unsupport typename)
    | .table pairs rawlen metapairs => wbTable (packOne depth) b pairs rawlen metapairs

/-- `pack_from`. -/
def packFrom (b : WriteBlock) (values : List LuaObject) : Except PackError WriteBlock :=
  values.foldlM (packOne (maxDepth + 1)) b

/-- `luaseri_pack`, with what `seri` copies into the buffer. -/
def luaseriPack (values : List LuaObject) : Except PackError (Option (List UInt8)) := do
  let b ← packFrom .init values
  return seriCopy (b.filled ++ [b.current]) b.len

end ZTask
