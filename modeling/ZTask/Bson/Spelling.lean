import ZTask.Bson.Encode

/-!
# How values are spelled

The encoder is run by a layout: what it writes for a value, or the error that it stops with, and the
room that it asks for on the way (`layOne`). The code's functions are these layouts run on the
buffer (`appendOne_eq`, `encodeBson_eq`).

## Why a layout

The encoder writes into a buffer that it doubles on the way, and comes back to fill in lengths. A
layout says what is written and how much room is asked for, in order, without a buffer; the lengths
are known then. That the buffer does what a layout says is `Lib.Writing`, and is used here for each
function of the source once. Everything further about the encoder is about layouts.
-/

namespace ZTask

open Lib

/-! ## Room -/

/-- `bson_reserve` and what is put behind it: the number that is reserved, and how many bytes are
put. -/
def bsonSupply : Supply (ℤ × ℕ) ℤ BsonError where
  width := Prod.snd
  grant size cap d :=
    match reservedCap size cap d.1 with
    | .error e => .error e
    | .ok cap => if size + d.2 ≤ cap then .ok cap else .error .outside

abbrev BsonLayout := Layout bsonSupply UInt8

/-- Bytes for which `sz` bytes are reserved. -/
def layPiece (sz : ℤ) (xs : List UInt8) : BsonLayout := .one (sz, xs.length) xs rfl

/-! ## Scalar values -/

def layByte (v : UInt8) : BsonLayout := layPiece 1 [v]

def layNumber (w n : ℕ) : BsonLayout := layPiece w (toLittle w n)

def layBytes (bytes : List UInt8) : BsonLayout := layPiece (toInt32 bytes.length) bytes

/-- A C string. -/
def layCstring (text : List UInt8) : BsonLayout :=
  match textFault text with
  | some copied =>
    .refuse [(toInt32 (text.length + 1), (text.take copied).length)] (.raised .invalidUtf8)
  | none => layPiece (toInt32 (text.length + 1)) (text ++ [0])

def layKey (type : UInt8) (key : List UInt8) : BsonLayout := (layByte type).append (layCstring key)

/-- A length in front of what is laid out. -/
def layCounted (length : ℕ → ℤ) (p : BsonLayout) : BsonLayout :=
  .framed (4, 4) (fun n ↦ lengthBytes (length n)) (fun _ ↦ length_toLittle ..) p

def layBinary (buffer : List UInt8) : BsonLayout :=
  layCounted (fun _ ↦ buffer.length - 1) (layBytes buffer)

def layInteger (key : List UInt8) (i : Int64) : BsonLayout :=
  if is32bit i.toInt then
    (layKey BsonType.int32.code key).append (layNumber 4 (i.toInt % 2 ^ 32).toNat)
  else (layKey BsonType.int64.code key).append (layNumber 8 (i.toInt % 2 ^ 64).toNat)

/-- The document in a userdata. -/
def layMemory (memory : List UInt8) : BsonLayout :=
  if memory.length < 4 then .refuse [] .outside
  else
    let sz := toInt32 (ofLittle (memory.take 4))
    if 0 ≤ sz ∧ sz ≤ memory.length then layPiece sz (memory.take sz.toNat)
    else .refuse [(sz, 0)] .outside

def layRegex (content : List UInt8) : BsonLayout :=
  let str := content.dropLast
  let i := (regexOptions str).length
  if content = [] then .refuse [] .outside
  else if i = str.length then
    match textFault (content ++ [0]) with
    | some copied => .refuse [(0, ((content ++ [0]).take copied).length)] (.raised .invalidUtf8)
    | none => .refuse [(0, 0)] .outside
  else (layCstring (str.take (str.length - i - 1))).append (layCstring (regexOptions str))

def layTagged (subt : UInt8) (content : List UInt8) : BsonLayout :=
  match BsonType.ofCode? subt with
  | some .binary => layBinary content
  | some .objectId =>
    if content.length ≠ 12 then .refuse []
      (.raised (.invalidObjectIdText (content.takeWhile (· ≠ 0))))
    else layBytes content
  | some .jsCode | some .dbPointer | some .symbol | some .codeWs => layBytes content
  | some .date =>
    if content.length ≠ 4 then .refuse [] (.raised .invalidDate)
    else layNumber 8 ((ofLittle content * 1000 : ℤ) % 2 ^ 64).toNat
  | some .timestamp =>
    if content.length ≠ 8 then .refuse [] (.raised .invalidTimestamp)
    else (layNumber 4 ((ofLittle (content.take 4) : ℤ) % 2 ^ 32).toNat).append
      (layNumber 4 ((ofLittle (content.drop 4) : ℤ) % 2 ^ 32).toNat)
  | some .regex => layRegex content
  | some .minKey | some .maxKey | some .null => .nil
  | _ => .refuse [] (.raised (.invalidSubtype subt))

def layText (key str : List UInt8) : BsonLayout :=
  (layKey BsonType.string.code key).append (layCounted (fun _ ↦ str.length + 1) (layCstring str))

def layString (key : List UInt8) : List UInt8 → BsonLayout
  | zero :: subt :: content =>
    if zero = 0 then (layKey subt key).append (layTagged subt content)
    else layText key (zero :: subt :: content)
  | str => layText key str

/-! ## Tables -/

/-- A document with these fields. -/
def layDocument (body : BsonLayout) : BsonLayout := layCounted (fun n ↦ n) (body.append (layByte 0))

section Tables

variable (realText : UInt64 → List UInt8) (one : List UInt8 → BsonObject → BsonLayout)

def layElement (element : BsonObject × ℕ) : BsonLayout :=
  one (decimal (element.2 % 2 ^ 32)) element.1

def layArray (elements : List BsonObject) : BsonLayout :=
  layDocument (.all (elements.zipIdx.map (layElement one)))

def layPair (pair : LuaScalar × BsonObject) : BsonLayout :=
  match pair.1 with
  | .integer i => one (decimalInt i.toInt) pair.2
  | .real bits => one (realText bits) pair.2
  | .string key => one key pair.2
  | k => .refuse [] (.raised (.invalidKeyType k.typename))

def layDict (pairs : List (LuaScalar × BsonObject)) : BsonLayout :=
  layDocument (.all (pairs.map (layPair realText one)))

def layTable (key : List UInt8) (pairs : List (LuaScalar × BsonObject)) (elements : List BsonObject)
    (metalen : Option (Option (List BsonObject)))
    (metapairs : Option (List (LuaScalar × BsonObject))) : BsonLayout :=
  match metalen, metapairs with
  | some none, _ => .refuse [] (.raised .lenNotInteger)
  | some (some elements), _ => (layKey BsonType.array.code key).append (layArray one elements)
  | none, some pairs => (layKey BsonType.document.code key).append (layDict realText one pairs)
  | none, none =>
    match isRawarray pairs elements.length with
    | .error e => .refuse [] e
    | .ok true => (layKey BsonType.array.code key).append (layArray one elements)
    | .ok false => (layKey BsonType.document.code key).append (layDict realText one pairs)

end Tables

/-- A value under a key, with so many levels left. -/
def layOne (realText : UInt64 → List UInt8) (left : ℕ) (key : List UInt8) : BsonObject → BsonLayout
  | .boolean b => (layKey BsonType.boolean.code key).append (layByte (if b then 1 else 0))
  | .integer i => layInteger key i
  | .real bits => (layKey BsonType.real.code key).append (layNumber 8 bits.toNat)
  | .string bytes => layString key bytes
  | .userdata memory => (layKey BsonType.document.code key).append (layMemory memory)
  | .other typename => .refuse [] (.raised (.invalidValueType typename))
  | .table pairs elements metalen metapairs =>
    match left with
    | 0 => .refuse [] (.raised .tooDeep)
    | left + 1 => layTable realText (layOne realText left) key pairs elements metalen metapairs

/-- The document of a value. -/
def layBson (realText : UInt64 → List UInt8) : BsonObject → BsonLayout
  | .table pairs _ _ metapairs =>
    layDict realText (layOne realText bsonMaxDepth) (metapairs.getD pairs)
  | _ => .refuse [] (.raised (.badArgument 1 "table"))

/-- Keys and values, of which `i` have been given before. -/
def layOrdered (realText : UInt64 → List UInt8) (one : List UInt8 → BsonObject → BsonLayout) :
    ℕ → List BsonObject → BsonLayout
  | i, key :: v :: args =>
    match luaTolstring realText key with
    | none => .refuse [] (.raised (.needString (i + 1)))
    | some key => (one key v).append (layOrdered realText one (i + 2) args)
  | _, _ => .nil

/-! ## What is spelled -/

theorem lengthBytes_natCast (n : ℕ) : lengthBytes n = toLittle 4 n := by
  have hmod : ((n : ℤ) % 2 ^ 32).toNat = n % 256 ^ 4 := by omega
  rw [lengthBytes, hmod, toLittle_mod]

theorem layCstring_out {text bytes : List UInt8} :
    (layCstring text).out = .ok bytes ↔ textFault text = none ∧ bytes = text ++ [0] := by
  rw [layCstring]
  cases textFault text with
  | none =>
    constructor
    · intro h
      cases h
      exact ⟨rfl, rfl⟩
    · rintro ⟨-, rfl⟩
      rfl
  | some copied =>
    constructor
    · intro h
      cases h
    · rintro ⟨h, -⟩
      cases h

theorem layKey_out {type : UInt8} {key bytes : List UInt8} :
    (layKey type key).out = .ok bytes ↔ textFault key = none ∧ bytes = type :: (key ++ [0]) := by
  rw [layKey, Layout.append_out_eq_ok]
  constructor
  · rintro ⟨xs, ys, hxs, hys, rfl⟩
    cases hxs
    obtain ⟨hkey, rfl⟩ := layCstring_out.mp hys
    exact ⟨hkey, rfl⟩
  · rintro ⟨hkey, rfl⟩
    exact ⟨[type], key ++ [0], rfl, layCstring_out.mpr ⟨hkey, rfl⟩, rfl⟩

theorem layCounted_out {length : ℕ → ℤ} {p : BsonLayout} {bytes : List UInt8} :
    (layCounted length p).out = .ok bytes ↔
      ∃ xs, p.out = .ok xs ∧ bytes = lengthBytes (length (4 + xs.length)) ++ xs :=
  Layout.framed_out_eq_ok

theorem layDocument_out {body : BsonLayout} {bytes : List UInt8} :
    (layDocument body).out = .ok bytes ↔ ∃ xs, body.out = .ok xs ∧ bytes = wrap xs := by
  have hwrap : ∀ xs : List UInt8, lengthBytes ((4 + (xs ++ [0]).length : ℕ) : ℤ) ++ (xs ++ [0]) =
      wrap xs := by
    intro xs
    have hsum : 4 + (xs ++ [0]).length = xs.length + 5 := by
      rw [List.length_append, List.length_singleton]
      omega
    rw [lengthBytes_natCast, hsum, wrap]
  rw [layDocument, layCounted_out]
  constructor
  · rintro ⟨zs, hzs, rfl⟩
    obtain ⟨xs, ys, hxs, hys, rfl⟩ := Layout.append_out_eq_ok.mp hzs
    cases hys
    exact ⟨xs, hxs, hwrap xs⟩
  · rintro ⟨xs, hxs, rfl⟩
    exact ⟨xs ++ [0], Layout.append_out_eq_ok.mpr ⟨xs, [0], hxs, rfl, rfl⟩, (hwrap xs).symm⟩

theorem exists_wrap_of_layBson {realText : UInt64 → List UInt8} {v : BsonObject} {doc : List UInt8}
    (h : (layBson realText v).out = .ok doc) : ∃ body, doc = wrap body := by
  cases v with
  | table =>
    obtain ⟨body, -, hdoc⟩ := layDocument_out.mp h
    exact ⟨body, hdoc⟩
  | boolean | integer | real | string | userdata | other => cases h

/-! ## The functions of the buffer -/

private theorem putBytes_append (xs ys : List UInt8) :
    (putBytes xs >>= fun _ ↦ putBytes ys) = putBytes (xs ++ ys) := by
  funext b
  by_cases hxs : (b.written.length : ℤ) + xs.length ≤ b.room
  · have hput : putBytes xs b = .ok ((), { b with written := b.written ++ xs }) := if_pos hxs
    rw [Writing.bind_ok hput, putBytes, putBytes]
    dsimp only
    rw [List.length_append, List.length_append, ← List.append_assoc, Int.natCast_add,
      Int.natCast_add, Int.add_assoc]
  · have hput : putBytes xs b = .error .outside := if_neg hxs
    have hboth : putBytes (xs ++ ys) b = .error .outside := by
      refine if_neg fun hall ↦ hxs ?_
      rw [List.length_append] at hall
      omega
    rw [Writing.bind_error hput, hboth]

section Reserve

variable {b : Sink UInt8 ℤ} {sz : ℤ} {xs : List UInt8} {n : ℕ} {cap : ℤ} {e : BsonError}

theorem bsonReserve_ok (h : reservedCap b.written.length b.room sz = .ok cap) :
    bsonReserve sz b = .ok ((), { b with room := cap }) := by
  rw [bsonReserve, h]

private theorem bsonReserve_error (h : reservedCap b.written.length b.room sz = .error e) :
    bsonReserve sz b = .error e := by
  rw [bsonReserve, h]

private theorem grant_ok (h : reservedCap b.written.length b.room sz = .ok cap) :
    bsonSupply.grantAll b.written.length b.room [(sz, n)] =
      if (b.written.length : ℤ) + n ≤ cap then .ok cap else .error .outside := by
  rw [Supply.grantAll_singleton]
  show (match reservedCap _ _ _ with | .error e => _ | .ok cap => _) = _
  rw [h]

private theorem grant_error (h : reservedCap b.written.length b.room sz = .error e) :
    bsonSupply.grantAll b.written.length b.room [(sz, n)] = .error e := by
  rw [Supply.grantAll_singleton]
  show (match reservedCap _ _ _ with | .error e => _ | .ok cap => _) = _
  rw [h]

end Reserve

/-- Bytes that are put where room has been made for them. -/
theorem reserve_put (sz : ℤ) (xs : List UInt8) :
    (bsonReserve sz >>= fun _ ↦ putBytes xs) = (layPiece sz xs).run := by
  funext b
  cases hcap : reservedCap b.written.length b.room sz with
  | error e =>
    rw [Writing.bind_error (bsonReserve_error hcap)]
    exact (Layout.run_no_room (grant_error hcap)).symm
  | ok cap =>
    rw [Writing.bind_ok (bsonReserve_ok hcap)]
    by_cases hfits : (b.written.length : ℤ) + xs.length ≤ cap
    · have hput : putBytes xs { b with room := cap } = .ok ((), ⟨b.written ++ xs, cap⟩) :=
        if_pos hfits
      exact hput.trans (Layout.run_ok ((grant_ok hcap).trans (if_pos hfits)) rfl).symm
    · exact (if_neg hfits).trans (Layout.run_no_room ((grant_ok hcap).trans (if_neg hfits))).symm

/-- Bytes that are put before an error is noticed. -/
theorem reserve_put_fail (sz : ℤ) (xs : List UInt8) (e : BsonError) :
    (bsonReserve sz >>= fun _ ↦ putBytes xs >>= fun _ ↦ (Writing.fail e : BsonEncode PUnit)) =
      (Layout.refuse [(sz, xs.length)] e : BsonLayout).run := by
  funext b
  cases hcap : reservedCap b.written.length b.room sz with
  | error e' =>
    rw [Writing.bind_error (bsonReserve_error hcap)]
    exact (Layout.run_no_room (grant_error hcap)).symm
  | ok cap =>
    rw [Writing.bind_ok (bsonReserve_ok hcap)]
    by_cases hfits : (b.written.length : ℤ) + xs.length ≤ cap
    · have hput : putBytes xs { b with room := cap } = .ok ((), ⟨b.written ++ xs, cap⟩) :=
        if_pos hfits
      rw [Writing.bind_ok hput]
      exact (Layout.run_refused ((grant_ok hcap).trans (if_pos hfits)) rfl).symm
    · have hput : putBytes xs { b with room := cap } = .error .outside := if_neg hfits
      rw [Writing.bind_error hput]
      exact (Layout.run_no_room ((grant_ok hcap).trans (if_neg hfits))).symm

/-- Room that is made before the encoder reads outside. -/
theorem reserve_outside (sz : ℤ) :
    (bsonReserve sz >>= fun _ ↦ (Writing.fail .outside : BsonEncode PUnit)) =
      (Layout.refuse [(sz, 0)] .outside : BsonLayout).run := by
  funext b
  cases hcap : reservedCap b.written.length b.room sz with
  | error e =>
    rw [Writing.bind_error (bsonReserve_error hcap)]
    exact (Layout.run_no_room (grant_error hcap)).symm
  | ok cap =>
    rw [Writing.bind_ok (bsonReserve_ok hcap)]
    by_cases hfits : (b.written.length : ℤ) + (0 : ℕ) ≤ cap
    · exact (Layout.run_refused ((grant_ok hcap).trans (if_pos hfits)) rfl).symm
    · exact (Layout.run_no_room ((grant_ok hcap).trans (if_neg hfits))).symm

/-- A length that is put in front in the end. -/
theorem reserveLength_bind (length : ℕ → ℤ) (p : BsonLayout) :
    (reserveLength >>= fun off ↦ p.run >>= fun _ ↦ Writing.size >>= fun size ↦
      writeLength (length (size - off)) off) = (layCounted length p).run := by
  have hplace : (bsonReserve 4 >>= fun _ ↦ putBytes [0, 0, 0, 0]) = (layPiece 4 [0, 0, 0, 0]).run :=
    reserve_put 4 [0, 0, 0, 0]
  have hreserve : reserveLength =
      (Writing.size >>= fun off ↦ (layPiece 4 [0, 0, 0, 0]).run >>= fun _ ↦
      pure off) := by
    rw [← hplace]
    simp only [reserveLength, bind_assoc]
  rw [hreserve, bind_assoc]
  simp only [bind_assoc, pure_bind]
  exact @Layout.run_framed _ _ _ _ bsonSupply p (4, 4) (fun n ↦ lengthBytes (length n))
    (fun _ ↦ length_toLittle ..) [0, 0, 0, 0] rfl

private theorem reserveLength_const (length : ℤ) (p : BsonLayout) :
    (reserveLength >>= fun off ↦ p.run >>= fun _ ↦ writeLength length off) =
      (layCounted (fun _ ↦ length) p).run :=
  reserveLength_bind (fun _ ↦ length) p

/-! ## The encoder -/

private theorem writeByte_eq (v : UInt8) : writeByte v = (layByte v).run := reserve_put 1 [v]

private theorem writeNumber_eq (w n : ℕ) :
    writeNumber w n = (layNumber w n).run := reserve_put w (toLittle w n)

private theorem appendBytes_eq (bytes : List UInt8) : appendBytes bytes = (layBytes bytes).run :=
  reserve_put _ bytes

theorem writeString_eq (text : List UInt8) : writeString text = (layCstring text).run := by
  rw [writeString, layCstring]
  cases textFault text with
  | none =>
    rw [putBytes_append]
    exact reserve_put _ _
  | some copied => exact reserve_put_fail _ _ _

private theorem appendKey_eq (type : UInt8) (key : List UInt8) :
    appendKey type key = (layKey type key).run := by
  rw [appendKey, writeByte_eq, writeString_eq, Layout.run_append]
  rfl

theorem writeBinary_eq (buffer : List UInt8) : writeBinary buffer = (layBinary buffer).run := by
  rw [writeBinary, appendBytes_eq]
  exact reserveLength_const _ _

private theorem appendInteger_eq (key : List UInt8) (i : Int64) :
    appendInteger key i = (layInteger key i).run := by
  rw [appendInteger, layInteger]
  split
  · rw [appendKey_eq, writeInt32, writeNumber_eq, Layout.run_append]
  · rw [appendKey_eq, writeInt64, writeNumber_eq, Layout.run_append]

private theorem appendReal_eq (key : List UInt8) (bits : UInt64) :
    appendReal key bits = ((layKey BsonType.real.code key).append
      (layNumber 8 bits.toNat)).run := by
  rw [appendReal, appendKey_eq, writeDouble, writeNumber_eq, Layout.run_append]

private theorem appendUserdata_eq (key memory : List UInt8) :
    appendUserdata key memory =
      ((layKey BsonType.document.code key).append (layMemory memory)).run := by
  rw [← Layout.run_append, appendUserdata, appendKey_eq, layMemory]
  split
  · rfl
  · dsimp only
    split
    · rw [reserve_put]
    · rw [reserve_outside]

theorem writeRegex_eq (content : List UInt8) : writeRegex content = (layRegex content).run := by
  rw [writeRegex, layRegex]
  split
  · rfl
  · split
    · cases textFault (content ++ [0]) with
      | none => exact reserve_outside 0
      | some copied => exact reserve_put_fail 0 _ _
    · rw [writeString_eq, writeString_eq, Layout.run_append]

private theorem writeTagged_eq (subt : UInt8) (content : List UInt8) :
    writeTagged subt content = (layTagged subt content).run := by
  rw [writeTagged, layTagged]
  cases BsonType.ofCode? subt with
  | none => rfl
  | some type =>
    cases type with
    | binary => exact writeBinary_eq content
    | jsCode | dbPointer | symbol | codeWs => exact appendBytes_eq content
    | regex => exact writeRegex_eq content
    | minKey | maxKey | null => exact Layout.run_nil.symm
    | objectId =>
      dsimp only
      split
      · rfl
      · exact appendBytes_eq content
    | date =>
      dsimp only
      split
      · rfl
      · exact writeNumber_eq _ _
    | timestamp =>
      dsimp only
      split
      · rfl
      · rw [writeInt32, writeInt32, writeNumber_eq, writeNumber_eq, Layout.run_append]
    | real | string | document | array | undefined | boolean | int32 | int64 => rfl

theorem appendText_eq (key str : List UInt8) : appendText key str = (layText key str).run := by
  rw [appendText, layText, appendKey_eq, writeString_eq, ← Layout.run_append]
  congr 1
  funext _
  exact reserveLength_const _ _

private theorem appendString_eq (key str : List UInt8) :
    appendString key str = (layString key str).run := by
  rcases str with _ | ⟨zero, _ | ⟨subt, content⟩⟩
  · exact appendText_eq key []
  · exact appendText_eq key [zero]
  · rw [appendString, layString]
    split
    · rw [appendKey_eq, writeTagged_eq, Layout.run_append]
    · exact appendText_eq _ _

private theorem closeDocument_eq (body : BsonLayout) :
    (reserveLength >>= fun length ↦ body.run >>= fun _ ↦ closeDocument length) =
      (layDocument body).run := by
  have hassoc : (reserveLength >>= fun length ↦ body.run >>= fun _ ↦ closeDocument length) =
      (reserveLength >>= fun length ↦ (body.append (layByte 0)).run >>=
        fun _ ↦ Writing.size >>= fun size ↦
        writeLength (size - length : ℕ) length) := by
    simp only [closeDocument, writeByte_eq, ← Layout.run_append, bind_assoc]
  rw [hassoc]
  exact reserveLength_bind (fun n ↦ n) (body.append (layByte 0))

section Tables

variable {realText : UInt64 → List UInt8} {write : List UInt8 → BsonObject → BsonEncode PUnit}
  {lay : List UInt8 → BsonObject → BsonLayout} (hone : ∀ key v, write key v = (lay key v).run)
include hone

private theorem packArray_eq (elements : List BsonObject) :
    packArray write elements = (layArray lay elements).run := by
  have hloop : (fun element : BsonObject × ℕ ↦ write (decimal (element.2 % 2 ^ 32)) element.1) =
      fun element ↦ (layElement lay element).run := funext fun element ↦ hone _ _
  rw [packArray, layArray, hloop, Layout.run_forM, closeDocument_eq]

private theorem packDictData_eq (pair : LuaScalar × BsonObject) :
    packDictData realText write pair = (layPair realText lay pair).run := by
  obtain ⟨k, v⟩ := pair
  cases k with
  | integer i => exact hone _ _
  | real bits => exact hone _ _
  | string key => exact hone _ _
  | nil | boolean | userdata | other => rfl

private theorem packDict_eq (pairs : List (LuaScalar × BsonObject)) :
    packDict realText write pairs = (layDict realText lay pairs).run := by
  have hloop : packDictData realText write = fun pair ↦ (layPair realText lay pair).run :=
    funext fun pair ↦ packDictData_eq hone pair
  rw [packDict, layDict, hloop, Layout.run_forM, closeDocument_eq]

theorem appendTable_eq (key : List UInt8) (pairs : List (LuaScalar × BsonObject))
    (elements : List BsonObject) (metalen : Option (Option (List BsonObject)))
    (metapairs : Option (List (LuaScalar × BsonObject))) :
    appendTable realText write key pairs elements metalen metapairs =
      (layTable realText lay key pairs elements metalen metapairs).run := by
  have harray : ∀ elements, (appendKey BsonType.array.code key >>=
      fun _ ↦ packArray write elements) =
      ((layKey BsonType.array.code key).append (layArray lay elements)).run := fun elements ↦ by
    rw [appendKey_eq, packArray_eq hone, Layout.run_append]
  have hdict : ∀ pairs, (appendKey BsonType.document.code key >>=
      fun _ ↦ packDict realText write pairs) =
      ((layKey BsonType.document.code key).append (layDict realText lay pairs)).run :=
        fun pairs ↦ by
    rw [appendKey_eq, packDict_eq hone, Layout.run_append]
  rw [appendTable.eq_def, layTable.eq_def]
  rcases metalen with _ | _ | counted
  · cases metapairs with
    | none =>
      dsimp only
      rcases isRawarray pairs elements.length with e | _ | _
      · rfl
      · exact hdict pairs
      · exact harray elements
    | some entries => exact hdict entries
  · rfl
  · exact harray counted

end Tables

/-- `append_one` is its layout. -/
theorem appendOne_eq (realText : UInt64 → List UInt8) (left : ℕ) (key : List UInt8)
    (v : BsonObject) :
    appendOne realText left key v = (layOne realText left key v).run := by
  induction left generalizing key v with
  | zero =>
    cases v with
    | boolean b => rw [appendOne, layOne, appendKey_eq, writeByte_eq, Layout.run_append]
    | integer i => rw [appendOne, layOne, appendInteger_eq]
    | real bits => rw [appendOne, layOne, appendReal_eq]
    | string bytes => rw [appendOne, layOne, appendString_eq]
    | userdata memory => rw [appendOne, layOne, appendUserdata_eq]
    | other typename => rw [appendOne, layOne]; rfl
    | table pairs elements metalen metapairs => rw [appendOne, layOne]; rfl
  | succ left ih =>
    cases v with
    | boolean b => rw [appendOne, layOne, appendKey_eq, writeByte_eq, Layout.run_append]
    | integer i => rw [appendOne, layOne, appendInteger_eq]
    | real bits => rw [appendOne, layOne, appendReal_eq]
    | string bytes => rw [appendOne, layOne, appendString_eq]
    | userdata memory => rw [appendOne, layOne, appendUserdata_eq]
    | other typename => rw [appendOne, layOne]; rfl
    | table pairs elements metalen metapairs =>
      rw [appendOne, layOne]
      exact appendTable_eq ih key pairs elements metalen metapairs

theorem encodeBson_eq (realText : UInt64 → List UInt8) (v : BsonObject) :
    encodeBson realText v = (layBson realText v).run := by
  cases v with
  | table pairs elements metalen metapairs =>
      exact packDict_eq (appendOne_eq realText bsonMaxDepth) _
  | boolean | integer | real | string | userdata | other => rfl

section Ordered

variable {realText : UInt64 → List UInt8} {write : List UInt8 → BsonObject → BsonEncode PUnit}
  {lay : List UInt8 → BsonObject → BsonLayout} (hone : ∀ key v, write key v = (lay key v).run)
include hone

private theorem packOrdered_eq : ∀ (i : ℕ) (args : List BsonObject),
    packOrdered realText write i args = (layOrdered realText lay i args).run
  | _, [] => Layout.run_nil.symm
  | _, [_] => Layout.run_nil.symm
  | i, key :: v :: args => by
    rw [packOrdered, layOrdered]
    cases luaTolstring realText key with
    | none => rfl
    | some key =>
      dsimp only
      rw [hone, packOrdered_eq (i + 2) args, Layout.run_append]

theorem packOrderedDict_eq (args : List BsonObject) :
    packOrderedDict realText write args = (layDocument (layOrdered realText lay 0 args)).run := by
  rw [packOrderedDict, packOrdered_eq hone, closeDocument_eq]

end Ordered

end ZTask
