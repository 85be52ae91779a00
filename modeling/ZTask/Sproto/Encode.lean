import ZTask.Seri.Value
import ZTask.Sproto.Pack
import ZTask.Sproto.Schema

/-!
# Encoding

`sproto_encode` with the functions that it calls, and the callback `encode` of `lsproto.c`, which
fetches the values from a table. A text begins with a header, which has a record for each field that
is there: the value of the field, if it is small, or zero, if it stands among the data behind the
header; an odd record stands for tags that are left out. Room is made for as long a header as the
type may need, and the data are moved to their place in the end.

Tables have no metamethods, and decimals are left out. What Lua makes of a string where it wants a
number, and of a number where it wants a string, is given (`LuaConversion`).

The stack of Lua is taken to have the room that is needed. `lencode` asks `luaL_checkstack` for
`ENCODE_DEEPLEVEL*2 + 8` slots, and the callback keeps three of them for each level of an array or a
map of structs, so that this is certain for about 45 levels only; what happens when a slot behind
the reserved ones is written is not in the model.
-/

namespace ZTask

open Lib

variable {n : ℕ} {σ : Type}

/-! ## Values -/

/-- The pairs of a table, in the order of `lua_next`. -/
abbrev LuaPairs := List (LuaObject × LuaObject)

/-- The conversions of `lobject.c` between numbers and strings. -/
structure LuaConversion where
  /-- `lua_tointegerx` of a string -/
  integerOf : List UInt8 → Option Int64
  /-- `lua_tolstring` of a number -/
  textOf : LuaScalar → List UInt8

/-- `lua_tointegerx` -/
def LuaConversion.tointegerx (conv : LuaConversion) : LuaObject → Option Int64
  | .scalar (.integer i) => some i
  | .scalar (.real bits) => realToInteger bits
  | .scalar (.string bytes) => conv.integerOf bytes
  | _ => none

/-- `lua_tolstring` -/
def LuaConversion.tolstring (conv : LuaConversion) : LuaObject → Option (List UInt8)
  | .scalar (.string bytes) => some bytes
  | .scalar (.integer i) => some (conv.textOf (.integer i))
  | .scalar (.real bits) => some (conv.textOf (.real bits))
  | _ => none

/-- `lua_getfield` -/
def getfield : LuaPairs → List UInt8 → LuaObject
  | [], _ => .scalar .nil
  | (.scalar k, v) :: pairs, name => if k = .string name then v else getfield pairs name
  | (.table _ _ _, _) :: pairs, name => getfield pairs name

/-- What `lua_next` finds in a table. -/
def valuesOf (pairs : LuaPairs) : List LuaObject := (pairs.map Prod.snd).filter fun v ↦ !v.isNil

/-- `lua_typename` of `lua_type`. -/
def LuaObject.typename : LuaObject → String
  | .scalar .nil => "nil"
  | .scalar (.boolean _) => "boolean"
  | .scalar (.integer _) | .scalar (.real _) => "number"
  | .scalar (.string _) => "string"
  | .scalar (.userdata _) => "userdata"
  | .scalar (.other typename) => typename
  | .table _ _ _ => "table"

/-! ## The callback of an encoder -/

/-- `struct sproto_arg` of an encoder: the field, the index in an array, and where the value goes,
in a buffer or in a union. -/
structure EncodeArg (n : ℕ) where
  field : SprotoField n
  index : ℕ
  value : ℕ
  length : ℤ

/-- What a callback returns, if it is not `SPROTO_CB_ERROR`: the size, with the number that it has
stored in a union. -/
inductive EncodeAnswer
  /-- `SPROTO_CB_NIL` -/
  | nil
  /-- `SPROTO_CB_NOARRAY` -/
  | noArray
  | size (sz u : ℕ)
deriving DecidableEq, Repr

/-- `sproto_callback`, with its own data and the buffer. -/
abbrev EncodeCallback (n : ℕ) (σ : Type) :=
  EncodeArg n → σ → Lib.Block UInt8 → Sproto (EncodeAnswer × σ × Lib.Block UInt8)

/-- The conversion of an `int` to `size_t`. -/
def asSizeT (i : ℤ) : ℕ := (i % 2 ^ 64).toNat

/-- Written cells of a buffer. -/
def fetchBytes (block : Lib.Block UInt8) (off len : ℕ) : Sproto (List UInt8) :=
  match Lib.Block.read? (block.drop off) len with
  | some bytes => .ok bytes
  | none => .error .outside

/-! ## Fields that are no arrays -/

/-- `fill_size` -/
def fillSize (block : Lib.Block UInt8) (data sz : ℕ) : Sproto (Lib.Block UInt8 × ℕ) := do
  let block ← fillBytes block data (toLittle 4 sz)
  return (block, sz + 4)

/-- `encode_integer` and `encode_uint64`: a number of `w` bytes. -/
def encodeNumber (w v : ℕ) (block : Lib.Block UInt8) (data : ℕ) (size : ℤ) :
    Sproto (Lib.Block UInt8 × ℕ) :=
  if asSizeT size < 4 + w then .error .failed
  else do
    let block ← fillBytes block (data + 4) (toLittle w v)
    fillSize block data w

def encodeInteger : ℕ → Lib.Block UInt8 → ℕ → ℤ → Sproto (Lib.Block UInt8 × ℕ) := encodeNumber 4

def encodeUint64 : ℕ → Lib.Block UInt8 → ℕ → ℤ → Sproto (Lib.Block UInt8 × ℕ) := encodeNumber 8

/-- `encode_object` -/
def encodeObject (cb : EncodeCallback n σ) (arg : EncodeArg n) (ud : σ)
    (block : Lib.Block UInt8) (data : ℕ) (size : ℤ) : Sproto (ℕ × σ × Lib.Block UInt8) :=
  if size < 4 then .error .failed
  else do
    let (answer, ud, block) ← cb { arg with value := data + 4, length := size - 4 } ud block
    match answer with
    | .nil => return (0, ud, block)
    | .noArray => .error .failed
    | .size sz _ =>
      -- the assertion that the buffer does not overflow
      if size - 4 < sz then .error .outside
      else
        let (block, sz) ← fillSize block data sz
        return (sz, ud, block)

/-! ## Arrays -/

/-- The variables of the loops over the elements. -/
structure EncodeArray (σ : Type) where
  index : ℕ
  block : Lib.Block UInt8
  buffer : ℕ
  size : ℤ
  ud : σ

/-- `uint32_to_uint64` -/
def uint32ToUint64 (negative : Bool) (block : Lib.Block UInt8) (buffer : ℕ) :
    Sproto (Lib.Block UInt8) :=
  fillBytes block (buffer + 4) (List.replicate 4 (if negative then 0xff else 0))

/-- The loop that rearranges the first `i` numbers of four bytes behind `start`. -/
def rearrange (start : ℕ) : ℕ → Lib.Block UInt8 → Sproto (Lib.Block UInt8)
  | 0, block => .ok block
  | i + 1, block => do
    let word ← fetchBytes block (start + i * 4) 4
    let block ← fillBytes block (start + i * 8) word
    let sign ← fetchBytes block (start + i * 8 + 3) 1
    let block ← uint32ToUint64 (sign.any fun c ↦ c &&& 0x80 ≠ 0) block (start + i * 8)
    rearrange start i block

/-- The loop of `encode_integer_array` behind `start`: whether there is no array, and `intlen`. -/
def integerArrayLoop (cb : EncodeCallback n σ) (arg : EncodeArg n) (start : ℕ) :
    ℕ → ℕ → EncodeArray σ → Sproto (Bool × ℕ × EncodeArray σ)
  | 0, _, _ => .error .unbounded
  | fuel + 1, intlen, s => do
    let (answer, ud, block) ← cb { arg with index := s.index, length := 8 } s.ud s.block
    match answer with
    | .nil => return (false, intlen, { s with ud, block })
    | .noArray => return (true, intlen, { s with ud, block })
    | .size sz u =>
      if sz = 0 then .error .failed
      else if asSizeT s.size < 8 then .error .failed
      else if sz = 4 then
        let block ← fillBytes block s.buffer (toLittle 4 u)
        let block ← if intlen =
            8 then uint32ToUint64 (2 ^ 31 ≤ u % 2 ^ 32) block s.buffer else .ok block
        integerArrayLoop cb arg start fuel intlen
          ⟨s.index + 1, block, s.buffer + intlen, s.size - intlen, ud⟩
      else if sz ≠ 8 then .error .failed
      else if intlen = 4 then
        -- the numbers so far get eight bytes, too
        let size := s.size - (s.index - 1) * 4
        if asSizeT size < 8 then .error .failed
        else
          let buffer := s.buffer + (s.index - 1) * 4
          let block ← rearrange start (s.index - 1) block
          let block ← fillBytes block buffer (toLittle 8 u)
          integerArrayLoop cb arg start fuel 8 ⟨s.index + 1, block, buffer + 8, size - 8, ud⟩
      else
        let block ← fillBytes block s.buffer (toLittle 8 u)
        integerArrayLoop cb arg start fuel intlen
          ⟨s.index + 1, block, s.buffer + intlen, s.size - intlen, ud⟩

/-- `encode_integer_array`: where the array ends, or none if it is not one. -/
def encodeIntegerArray (cb : EncodeCallback n σ) (arg : EncodeArg n) (ud : σ)
    (block : Lib.Block UInt8) (buffer : ℕ) (size : ℤ) : Sproto (Option ℕ × σ × Lib.Block UInt8) :=
  if size < 1 then .error .failed
  else do
    let (noarray, intlen, s) ← integerArrayLoop cb arg (buffer + 1) (size.toNat + 1) 4
      ⟨1, block, buffer + 1, size - 1, ud⟩
    if s.buffer = buffer + 1 then return (if noarray then none else some buffer, s.ud, s.block)
    else
      let block ← fillBytes s.block buffer [UInt8.ofNat intlen]
      return (if noarray then none else some s.buffer, s.ud, block)

/-- The loop of `encode_array` over booleans. -/
def booleanArrayLoop (cb : EncodeCallback n σ) (arg : EncodeArg n) :
    ℕ → EncodeArray σ → Sproto (Option ℕ × σ × Lib.Block UInt8)
  | 0, _ => .error .unbounded
  | fuel + 1, s => do
    let (answer, ud, block) ← cb { arg with index := s.index, length := 4 } s.ud s.block
    match answer with
    | .nil => return (some s.buffer, ud, block)
    | .noArray => return (none, ud, block)
    | .size _ u =>
      if s.size < 1 then .error .failed
      else
        let block ← fillBytes block s.buffer [if u = 0 then 0 else 1]
        booleanArrayLoop cb arg fuel ⟨s.index + 1, block, s.buffer + 1, s.size - 1, ud⟩

/-- The loop of `encode_array` over strings and structs. -/
def objectArrayLoop (cb : EncodeCallback n σ) (arg : EncodeArg n) :
    ℕ → EncodeArray σ → Sproto (Option ℕ × σ × Lib.Block UInt8)
  | 0, _ => .error .unbounded
  | fuel + 1, s =>
    if s.size < 4 then .error .failed
    else do
      let size := s.size - 4
      let (answer, ud, block) ← cb ⟨arg.field, s.index, s.buffer + 4, size⟩ s.ud s.block
      match answer with
      | .nil => return (some s.buffer, ud, block)
      | .noArray => return (none, ud, block)
      | .size sz _ =>
        let (block, _) ← fillSize block s.buffer sz
        objectArrayLoop cb arg fuel ⟨s.index + 1, block, s.buffer + 4 + sz, size - sz, ud⟩

/-- The elements of `encode_array`: where the array ends, or none if it is not one. -/
def encodeElements (cb : EncodeCallback n σ) (arg : EncodeArg n) (ud : σ) (block : Lib.Block UInt8)
    (buffer : ℕ) (size : ℤ) : Sproto (Option ℕ × σ × Lib.Block UInt8) :=
  match arg.field.kind with
  | .integer => encodeIntegerArray cb arg ud block buffer size
  | .boolean => booleanArrayLoop cb arg (size.toNat + 1) ⟨1, block, buffer, size, ud⟩
  | _ => objectArrayLoop cb arg (size.toNat + 1) ⟨1, block, buffer, size, ud⟩

/-- `encode_array` -/
def encodeArray (cb : EncodeCallback n σ) (arg : EncodeArg n) (ud : σ)
    (block : Lib.Block UInt8) (data : ℕ) (size : ℤ) : Sproto (ℕ × σ × Lib.Block UInt8) :=
  if size < 4 then .error .failed
  else do
    let buffer := data + 4
    let (last, ud, block) ← encodeElements cb arg ud block buffer (size - 4)
    match last with
    | none => return (0, ud, block)
    | some last =>
      let (block, sz) ← fillSize block data (last - buffer)
      return (sz, ud, block)

/-! ## Types -/

/-- The variables of `sproto_encode`. -/
structure Encoding (σ : Type) where
  block : Lib.Block UInt8
  ud : σ
  data : ℕ
  size : ℤ
  index : ℕ
  lasttag : ℤ

/-- What becomes of a field. -/
inductive FieldAnswer
  /-- The loop goes on without it. -/
  | absent
  /-- `sproto_encode` returns 0. -/
  | stop
  | encoded (value sz : ℕ)
deriving DecidableEq, Repr

/-- A field that is an integer or a boolean. -/
def encodeScalar (cb : EncodeCallback n σ) (arg : EncodeArg n) (s : Encoding σ) :
    Sproto (FieldAnswer × σ × Lib.Block UInt8) := do
  let (answer, ud, block) ← cb { arg with length := 8 } s.ud s.block
  match answer with
  | .nil => return (.absent, ud, block)
  | .noArray => return (.stop, ud, block)
  | .size sz u =>
    if sz = 4 then
      if u < 0x7fff then return (.encoded ((u + 1) * 2) 2, ud, block)
      else
        let (block, sz) ← encodeInteger u block s.data s.size
        return (.encoded 0 sz, ud, block)
    else if sz = 8 then
      let (block, sz) ← encodeUint64 u block s.data s.size
      return (.encoded 0 sz, ud, block)
    else .error .failed

/-- What `sproto_encode` makes of a field, before its record. -/
def encodeField (cb : EncodeCallback n σ) (f : SprotoField n) (s : Encoding σ) :
    Sproto (FieldAnswer × σ × Lib.Block UInt8) :=
  let arg : EncodeArg n := ⟨f, 0, 0, 0⟩
  if f.array then do
    let (sz, ud, block) ← encodeArray cb arg s.ud s.block s.data s.size
    return (.encoded 0 sz, ud, block)
  else
    match f.kind with
    | .integer | .boolean => encodeScalar cb arg s
    | _ => do
      let (sz, ud, block) ← encodeObject cb arg s.ud s.block s.data s.size
      return (.encoded 0 sz, ud, block)

/-- The record of a field, and one in front of it if tags are left out. -/
def putRecord (header tag value : ℕ) (s : Encoding σ) : Sproto (Encoding σ) :=
  let skip := tag - s.lasttag - 1
  if 0 < skip then
    let skip := (skip - 1) * 2 + 1
    if 0xffff < skip then .error .failed
    else do
      let block ← fillBytes s.block (header + 2 + 2 * s.index) (toLittle 2 skip.toNat)
      let block ← fillBytes block (header + 2 + 2 * s.index + 2) (toLittle 2 value)
      return { s with block, index := s.index + 2, lasttag := tag }
  else do
    let block ← fillBytes s.block (header + 2 + 2 * s.index) (toLittle 2 value)
    return { s with block, index := s.index + 1, lasttag := tag }

/-- The loop of `sproto_encode`, and whether it was left. -/
def encodeFields (cb : EncodeCallback n σ) (header : ℕ) :
    List (SprotoField n) → Encoding σ → Sproto (Bool × Encoding σ)
  | [], s => .ok (false, s)
  | f :: fs, s => do
    let (answer, ud, block) ← encodeField cb f s
    let s := { s with ud, block }
    match answer with
    | .absent => encodeFields cb header fs s
    | .stop => return (true, s)
    | .encoded value sz =>
      if sz = 0 then encodeFields cb header fs s
      else do
        let s := if value = 0 then { s with data := s.data + sz, size := s.size - sz } else s
        let s ← putRecord header f.tag value s
        encodeFields cb header fs s

/-- `sproto_encode`: the number of bytes. -/
def sprotoEncode (cb : EncodeCallback n σ) (st : SprotoType n)
    (block : Lib.Block UInt8) (buffer : ℕ) (size : ℤ) (ud : σ) : Sproto (ℕ × σ × Lib.Block UInt8) :=
  let headerSz := 2 + st.maxn * 2
  if size < headerSz then .error .failed
  else do
    let (stopped, s) ← encodeFields cb buffer st.f ⟨block, ud, buffer + headerSz,
        size - headerSz, 0, -1⟩
    if stopped then return (0, s.ud, s.block)
    else
      let block ← fillBytes s.block buffer (toLittle 2 s.index)
      let datasz := s.data - (buffer + headerSz)
      let block ←
        if s.index = st.maxn then .ok block
        else do
          let bytes ← fetchBytes block (buffer + headerSz) datasz
          fillBytes block (buffer + 2 + s.index * 2) bytes
      return (2 + s.index * 2 + datasz, s.ud, block)

/-! ## `lsproto.c` -/

/-- `ENCODE_DEEPLEVEL` -/
def encodeDeeplevel : ℕ := 64

/-- `struct encode_ud`: the table, the tag of the array that was entered last and its pairs, and how
far `lua_next` has come in it. -/
structure EncodeUd where
  table : LuaPairs
  arrayTag : Option ℕ
  array : LuaPairs
  iter : ℕ

/-- What `encode` starts with for a table. -/
def EncodeUd.start (table : LuaPairs) : EncodeUd := ⟨table, none, [], 0⟩

/-- An array is entered, if it is a new one; it may be none. -/
def EncodeUd.enter (self : EncodeUd) (arg : EncodeArg n) : Sproto (Bool × EncodeUd) :=
  let f := arg.field
  if self.arrayTag = some f.tag then .ok (true, self)
  else
    let self := { self with arrayTag := some f.tag, array := [] }
    match getfield self.table f.name with
    | .scalar .nil => .ok (false, self)
    | .scalar s => .error (.raised (.notArray f.name arg.index (LuaObject.scalar s).typename))
    | .table pairs _ _ => .ok (true, { self with array := pairs })

/-- An element of the array: the next one of a map, or the one at the index. -/
def EncodeUd.element (self : EncodeUd) (arg : EncodeArg n) : LuaObject × EncodeUd :=
  if arg.field.key.isSome then
    match (valuesOf self.array)[self.iter]? with
    | none => (.scalar .nil, { self with iter := 0 })
    | some v => (v, { self with iter := self.iter + 1 })
  else (rawgeti self.array arg.index, self)

/-- The value that the callback is asked for; none if there is no array. -/
def EncodeUd.fetch (self : EncodeUd) (arg : EncodeArg n) : Sproto (Option LuaObject × EncodeUd) :=
  if 0 < arg.index then do
    let (isArray, self) ← self.enter arg
    if isArray then
      let (v, self) := self.element arg
      return (some v, self)
    else return (none, self)
  else .ok (some (getfield self.table arg.field.name), self)

/-- A number, in four bytes if they are enough. -/
def integerAnswer (v : Int64) : EncodeAnswer :=
  let vh := v.toInt / 2 ^ 31
  if vh = 0 ∨ vh = -1 then .size 4 (v.toInt % 2 ^ 32).toNat else .size 8 (v.toInt % 2 ^ 64).toNat

/-- `luaL_error` about a value of another type. -/
def isNot {α : Type} (what : String) (arg : EncodeArg n) (v : LuaObject) : Sproto α :=
  .error (.raised (.isNot what arg.field.name arg.index v.typename))

/-- What `encode` does with a value, with the callback for what is in it. -/
def encodeValue (conv : LuaConversion) (cb : EncodeCallback n EncodeUd)
    (types : Fin n → SprotoType n)
    (arg : EncodeArg n) (v : LuaObject) (self : EncodeUd) (block : Lib.Block UInt8) :
    Sproto (EncodeAnswer × EncodeUd × Lib.Block UInt8) :=
  match arg.field.kind with
  | .integer =>
    match conv.tointegerx v with
    | none => isNot "an integer" arg v
    | some i => .ok (integerAnswer i, self, block)
  | .boolean =>
    match v with
    | .scalar (.boolean b) => .ok (.size 4 (if b then 1 else 0), self, block)
    | _ => isNot "a boolean" arg v
  | .string =>
    match conv.tolstring v with
    | none => isNot "a string" arg v
    | some bytes =>
      if asSizeT arg.length < bytes.length then .error .failed
      else do
        let block ← fillBytes block arg.value bytes
        return (.size bytes.length 0, self, block)
  | .struct st =>
    match v with
    | .table pairs _ _ => do
      let (r, _, block) ← sprotoEncode cb (types st) block arg.value arg.length (.start pairs)
      return (.size r 0, self, block)
    | .scalar _ => isNot "a table" arg v

/-- `encode`, that may go `64 - deep` tables deep. -/
def encode (conv : LuaConversion) (types : Fin n → SprotoType n) : ℕ → EncodeCallback n EncodeUd
  | 0, _, _, _ => .error (.raised .tooDeep)
  | left + 1, arg, self, block => do
    let (found, self) ← self.fetch arg
    match found with
    | none => return (.noArray, self, block)
    | some v =>
      if v.isNil then return (.nil, self, block)
      else encodeValue conv (encode conv types left) types arg v self block

/-- The loop of `lencode`, with a buffer of `sz` bytes: the text, and the size of the buffer from
now on. -/
def lencodeLoop (conv : LuaConversion) (types : Fin n → SprotoType n) (st : Fin n)
    (table : LuaPairs) :
    ℕ → ℕ → Sproto (List UInt8 × ℕ)
  | 0, _ => .error .unbounded
  | fuel + 1, sz =>
    match sprotoEncode (encode conv types encodeDeeplevel) (types st) (.alloc sz) 0 sz
      (.start table) with
    | .error .failed => do
      let _ ← expandBuffer sz (sz * 2)
      lencodeLoop conv types st table fuel (sz * 2)
    | .error e => .error e
    | .ok (r, _, block) => do
      let text ← pushPacked block r
      return (text, sz)

/-- `lencode`, with a buffer of `osz` bytes: it is doubled until the text fits. The call of
`luaL_checkstack` for `ENCODE_DEEPLEVEL*2 + 8` slots is left out, with the stack whose slots it asks
for. -/
def Sproto.lencode (conv : LuaConversion) (types : Fin n → SprotoType n) (st : Option (Fin n))
    (v : LuaObject) (osz : ℕ) : Sproto (List UInt8 × ℕ) :=
  match st with
  | none => if v.isNil then .ok ([], osz) else .error (.raised (.argument 2 "nil" v.typename))
  | some st =>
    match v with
    | .table pairs _ _ => lencodeLoop conv types st pairs 32 osz
    | .scalar _ => .error (.raised (.argument 2 "table" v.typename))

end ZTask
