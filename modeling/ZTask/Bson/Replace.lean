import ZTask.Bson.Index
import ZTask.Bson.Scalars

/-!
# Replacing a value

`lreplace` writes a new value over the old one, at the place that the index gives. For a value of
the kind that the field has, as many bytes are written as the old value takes up, and they are read
as the new value (`OfKind.written`); so decoding gives the same table with one entry changed
(`ldecode_lreplace`).

A place is kept in an `int` above five bits for the type, hence the bound on the size of the
document.

## One place

The index has for a key the place of its value and the type. `OfKind` lists the values that can be
put there, which are those of a fixed size; for them the bytes before and behind stay where they are
(`overwrite_wrap`). The fields of the document are determined by its bytes (`Fields.unique`), so the
table that is decoded afterwards is the same but for one entry (`fill_get_update`).

## Which keys are indexed

`lmakeindex` goes over the fields at the top of the document and notes those of a fixed size; a key
that comes twice has the place of the last. So the keys of the document have to be different. Those
of a table are, but an integer and a string may be written as the same key.
-/

namespace ZTask

open Lib

attribute [local irreducible] toInt32

/-! ## The functions -/

/-- `luaL_checknumber` of the third argument. What is no float is converted by Lua. -/
def checkNumber (convert : BsonObject → Option UInt64) : BsonObject → Except BsonError UInt64
  | .real bits => .ok bits
  | v =>
    match convert v with
    | some bits => .ok bits
    | none => .error (.raised (.badArgument 3 "number"))

/-- `lua_toboolean`. -/
def BsonObject.toBoolean : BsonObject → Bool
  | .boolean b => b
  | v => !v.isNil

/-- `replace_object`. The text of a number does not begin with a zero byte. -/
def replaceObject (type : BsonType) : BsonObject → BsonEncode PUnit
  | .string (zero :: subt :: content) =>
    if content.length + 2 < 6 ∨ zero ≠ 0 ∨
      subt ≠ type.code then encodeRaise (.typeMismatch type.code.toNat)
    else
      match type with
      | .objectId => if content.length ≠ 12 then encodeRaise .invalidObjectId else putBytes content
      | .date =>
        if content.length ≠ 4 then encodeRaise .invalidDate
          else writeInt64 (ofLittle content * 1000)
      | .timestamp =>
        if content.length ≠ 8 then encodeRaise .invalidTimestamp
        else do
          writeInt32 (ofLittle (content.take 4))
          writeInt32 (ofLittle (content.drop 4))
      | _ => return ()
  | .string _ | .integer _ | .real _ => encodeRaise (.typeMismatch type.code.toNat)
  | _ => encodeRaise (.badArgument 3 "string")

/-- The `switch` of `lreplace`. -/
def replaceValue (convert : BsonObject → Option UInt64) (type : ℕ) (v : BsonObject) :
    BsonEncode PUnit :=
  match BsonType.ofCode? (.ofNat type) with
  | some .real =>
    match checkNumber convert v with
    | .ok bits => writeDouble bits
    | .error e => Writing.fail e
  | some .boolean => writeByte (if v.toBoolean then 1 else 0)
  | some .objectId => replaceObject .objectId v
  | some .date => replaceObject .date v
  | some .timestamp => replaceObject .timestamp v
  | some .int32 =>
    match v with
    | .integer i => writeInt32 i.toInt
    | _ => encodeRaise (.notInteger 32)
  | some .int64 =>
    match v with
    | .integer i => writeInt64 i.toInt
    | _ => encodeRaise (.notInteger 64)
  | _ => encodeRaise (.cannotReplaceType type)

/-- Bytes of the block from a pointer on are others now. -/
def overwrite (block : List UInt8) (p : ℤ) (bytes : List UInt8) : Except BsonError (List UInt8) :=
  if 0 ≤ p ∧ p + bytes.length ≤ block.length then
    .ok (block.take p.toNat ++ (bytes ++ block.drop (p.toNat + bytes.length)))
  else .error .outside

/-- `lreplace`, with the table that `lmakeindex` has left: the block after it. It writes into the
block as into a buffer with room for 16 bytes. -/
def lreplace (convert : BsonObject → Option UInt64) (block : List UInt8) (index : Option BsonIndex)
    (key : List UInt8) (v : BsonObject) : Except BsonError (List UInt8) :=
  match index with
  | none => .error (.raised .noIndex)
  | some index =>
    match index key with
    | none => .error (.raised (.cannotReplaceKey key))
    | some id =>
      match replaceValue convert (id % 2 ^ 5).toNat v ⟨[], 16⟩ with
      | .error e => .error e
      | .ok (_, b) => overwrite block (id / 2 ^ 5) b.written

/-! ## New values -/

/-- The values of the kind of a type of a fixed size. -/
inductive OfKind : BsonType → BsonObject → Prop
  | real (bits : UInt64) : OfKind .real (.real bits)
  | boolean (b : Bool) : OfKind .boolean (.boolean b)
  | objectId {id : List UInt8} : id.length = 12 →
      OfKind .objectId (.string (0 :: BsonType.objectId.code :: id))
  | date {d : List UInt8} : d.length = 4 → OfKind .date (.string (0 :: BsonType.date.code :: d))
  | timestamp {ts : List UInt8} : ts.length = 8 →
      OfKind .timestamp (.string (0 :: BsonType.timestamp.code :: ts))
  | int32 {i : Int64} : is32bit i.toInt = true → OfKind .int32 (.integer i)
  | int64 (i : Int64) : OfKind .int64 (.integer i)

section Written

variable {xs content post : List UInt8} {type : BsonType} {new : BsonObject}

private theorem reserve_replaced {sz : ℤ} (h : xs.length + sz ≤ 16) :
    bsonReserve sz ⟨xs, 16⟩ = .ok ((), ⟨xs, 16⟩) := by
  refine bsonReserve_ok ?_
  exact if_pos h

private theorem writeNumber_replaced {w n : ℕ} (h : xs.length + w ≤ 16) :
    writeNumber w n ⟨xs, 16⟩ = .ok ((), ⟨xs ++ toLittle w n, 16⟩) := by
  have hput : putBytes (toLittle w n) ⟨xs, 16⟩ = .ok ((), ⟨xs ++ toLittle w n, 16⟩) := by
    refine if_pos ?_
    rw [length_toLittle]
    dsimp only
    omega
  rw [writeNumber, Writing.bind_ok (reserve_replaced (by omega)), hput]

private theorem replaceObject_objectId (hlen : content.length = 12) :
    replaceObject .objectId (.string (0 :: BsonType.objectId.code :: content)) ⟨[], 16⟩ =
      .ok ((), ⟨content, 16⟩) := by
  rw [replaceObject, if_neg (by rw [hlen]; decide)]
  rw [if_neg (not_not_intro hlen)]
  refine if_pos ?_
  rw [hlen]
  decide

private theorem replaceObject_date (hlen : content.length = 4) :
    replaceObject .date (.string (0 :: BsonType.date.code :: content)) ⟨[], 16⟩ =
      .ok ((), ⟨toLittle 8 ((ofLittle content * 1000 : ℤ) % 2 ^ 64).toNat, 16⟩) := by
  rw [replaceObject, if_neg (by rw [hlen]; decide)]
  rw [if_neg (not_not_intro hlen)]
  exact writeNumber_replaced (Nat.le_add_left 8 8)

private theorem replaceObject_timestamp (hlen : content.length = 8) :
    replaceObject .timestamp (.string (0 :: BsonType.timestamp.code :: content)) ⟨[], 16⟩ =
      .ok ((), ⟨content, 16⟩) := by
  have htake : (content.take 4).length = 4 := by
    rw [List.length_take]
    omega
  have hinc : lengthBytes (ofLittle (content.take 4)) = content.take 4 :=
    (lengthBytes_natCast _).trans (bytes_of_length htake)
  have hts : lengthBytes (ofLittle (content.drop 4)) = content.drop 4 :=
    (lengthBytes_natCast _).trans (bytes_of_length (by rw [List.length_drop]; omega))
  have hfirst : writeInt32 (ofLittle (content.take 4)) ⟨[], 16⟩ =
      .ok ((), ⟨[] ++ lengthBytes (ofLittle (content.take 4)), 16⟩) :=
    writeNumber_replaced (Nat.le_add_left 4 12)
  have hsecond : writeInt32 (ofLittle (content.drop 4)) ⟨content.take 4, 16⟩ =
      .ok ((), ⟨content.take 4 ++ lengthBytes (ofLittle (content.drop 4)), 16⟩) :=
    writeNumber_replaced (by omega)
  rw [hinc, List.nil_append] at hfirst
  rw [hts, List.take_append_drop] at hsecond
  rw [replaceObject, if_neg (by rw [hlen]; decide)]
  rw [if_neg (not_not_intro hlen), Writing.bind_ok hfirst, hsecond]

/-- What is written over a value of its kind is as long, and is read as the new value. -/
theorem OfKind.written (h : OfKind type new) (convert : BsonObject → Option UInt64) :
    ∃ bytes, replaceValue convert type.code.toNat new ⟨[], 16⟩ = .ok ((), ⟨bytes, 16⟩) ∧
      bytes.length = type.fieldSize ∧
      ∀ post, scalarOf type (bytes ++ post) = some (new.data, bytes.length) := by
  rw [replaceValue.eq_def, UInt8.ofNat_toNat, BsonType.ofCode?_code]
  cases h with
  | real bits =>
    refine ⟨toLittle 8 bits.toNat, writeNumber_replaced (Nat.le_add_left 8 8), length_toLittle ..,
      fun post ↦ ?_⟩
    rw [scalarOf, fixedOf_append (length_toLittle ..), ofNat_bytes]
    rfl
  | boolean b =>
    refine ⟨[if b then 1 else 0], by cases b <;> rfl, rfl, fun post ↦ ?_⟩
    have hone : [if b then (1 : UInt8) else 0].length = 1 := rfl
    rw [scalarOf, fixedOf_append hone]
    cases b <;> rfl
  | objectId hlen =>
    refine ⟨_, replaceObject_objectId hlen, hlen, fun post ↦ ?_⟩
    rw [scalarOf, fixedOf_append hlen]
    rfl
  | date hlen =>
    refine ⟨_, replaceObject_date hlen, length_toLittle .., fun post ↦ ?_⟩
    rw [scalarOf, fixedOf_append (length_toLittle ..), dateBytes_toLittle hlen]
    rfl
  | timestamp hlen =>
    refine ⟨_, replaceObject_timestamp hlen, hlen, fun post ↦ ?_⟩
    rw [scalarOf, fixedOf_append hlen]
    rfl
  | @int32 i hsmall =>
    rw [is32bit, Bool.and_eq_true, decide_eq_true_eq, decide_eq_true_eq] at hsmall
    have hwrite : writeInt32 i.toInt ⟨[], 16⟩ =
        .ok ((), ⟨toLittle 4 (i.toInt % 2 ^ 32).toNat, 16⟩) :=
      writeNumber_replaced (Nat.le_add_left 4 12)
    refine ⟨_, hwrite, length_toLittle .., fun post ↦ ?_⟩
    rw [scalarOf, fixedOf_append (length_toLittle ..), toInt32_toLittle (by omega) (by omega),
      Int64.ofInt_toInt]
    rfl
  | int64 i =>
    have hlo := i.le_toInt
    have hhi := i.toInt_lt
    have hvalue : Int64.ofNat (ofLittle (toLittle 8 (i.toInt % 2 ^ 64).toNat)) = i :=
      Int64.toInt_inj.mp (int64_toLittle (by omega) (by omega))
    have hwrite : writeInt64 i.toInt ⟨[], 16⟩ =
        .ok ((), ⟨toLittle 8 (i.toInt % 2 ^ 64).toNat, 16⟩) :=
      writeNumber_replaced (Nat.le_add_left 8 8)
    refine ⟨_, hwrite, length_toLittle .., fun post ↦ ?_⟩
    rw [scalarOf, fixedOf_append (length_toLittle ..), hvalue]
    rfl

end Written

/-! ## Places -/

section Place

variable {front value value' post xs ys zs ws : List UInt8} {type : BsonType} {p : ℕ}

private theorem overwrite_append (hlen : ws.length = ys.length) :
    overwrite (xs ++ (ys ++ zs)) xs.length ws = .ok (xs ++ (ws ++ zs)) := by
  have hdrop : (xs ++ (ys ++ zs)).drop (xs.length + ws.length) = zs := by
    calc (xs ++ (ys ++ zs)).drop (xs.length + ws.length)
        = ((xs ++ (ys ++ zs)).drop xs.length).drop ys.length := by rw [hlen, List.drop_drop]
      _ = zs := by rw [List.drop_left, List.drop_left]
  have hfits : 0 ≤ (xs.length : ℤ) ∧ (xs.length : ℤ) + ws.length ≤ (xs ++ (ys ++ zs)).length := by
    simp only [List.length_append]
    omega
  rw [overwrite, if_pos hfits, Int.toNat_natCast, List.take_left, hdrop]

/-- As many other bytes among the fields of a document. -/
theorem overwrite_wrap (hlen : value'.length = value.length) :
    overwrite (wrap (front ++ (value ++ post))) (4 + front.length : ℕ) value' =
      .ok (wrap (front ++ (value' ++ post))) := by
  have hsplit : ∀ mid, wrap (front ++ (mid ++ post)) =
      toLittle 4 ((front ++ (mid ++ post)).length + 5) ++ front ++ (mid ++ (post ++ [0])) := by
    intro mid
    rw [wrap]
    simp only [List.append_assoc]
  have hall : (front ++ (value' ++ post)).length = (front ++ (value ++ post)).length := by
    simp only [List.length_append, hlen]
  have hplace : 4 + front.length =
      (toLittle 4 ((front ++ (value ++ post)).length + 5) ++ front).length := by
    rw [List.length_append, length_toLittle]
  rw [hsplit value, hsplit value', hall, hplace, overwrite_append hlen]

private theorem indexId_eq (hsize : 0 < type.fieldSize) (hp : p < 2 ^ 26) :
    indexId type.code p = p * 2 ^ 5 + type.code.toNat := by
  have hcode := (code_of_fieldSize hsize).2
  have hmod : ((p : ℤ) % 2 ^ 32).toNat = p := by omega
  rw [indexId, hmod, Nat.lor_comm, ← Nat.shiftLeft_add_eq_or_of_lt hcode, Nat.shiftLeft_eq,
    toInt32_of_lt (by omega) (by omega)]
  omega

end Place

/-! ## Decoding after replacing -/

section Table

variable {before behind : List (LuaScalar × LuaData)} {k name : LuaScalar}
    {v w : LuaData} {t t' : LuaTable}

theorem fill_get_congr (h : t.get name = t'.get name) (fields : List (LuaScalar × LuaData)) :
    (t.fill fields).get name = (t'.fill fields).get name := by
  induction fields generalizing t t' with
  | nil => exact h
  | cons field fields ih =>
    rw [LuaTable.fill_cons, LuaTable.fill_cons]
    refine ih ?_
    show Function.update t.get _ _ _ = Function.update t'.get _ _ _
    by_cases hname : name = field.1
    · rw [hname, Function.update_self, Function.update_self]
    · rw [Function.update_of_ne hname, Function.update_of_ne hname, h]

/-- Another value under a key that does not come again. -/
theorem fill_get_update (hk : k ∉ behind.map Prod.fst) (t : LuaTable) :
    (t.fill (before ++ (k, w) :: behind)).get =
      Function.update (t.fill (before ++ (k, v) :: behind)).get k w := by
  have hsplit : ∀ u, t.fill (before ++ (k, u) :: behind) =
      ((t.fill before).set k u).fill behind := fun u ↦ by
    rw [LuaTable.fill, List.foldl_append]
    rfl
  rw [hsplit w, hsplit v]
  -- the fields behind leave the key alone, and do to the other keys what they did
  funext name
  by_cases hname : name = k
  · rw [hname, Function.update_self, LuaTable.fill_get_of_notMem hk]
    exact Function.update_self _ _ _
  · rw [Function.update_of_ne hname]
    refine fill_get_congr ?_ behind
    exact (Function.update_of_ne hname _ _).trans (Function.update_of_ne hname _ _).symm

end Table

/-! ## Documents of the encoder -/

/-- A document that the encoder returns. -/
def Encoded (doc : List UInt8) : Prop :=
  ∃ realText, (∃ v, lencode realText v = .ok doc) ∨ ∃ args, lencodeOrder realText args = .ok doc

/-- The fields of a document have different keys. -/
def DistinctKeys (doc : List UInt8) : Prop :=
  ∀ body fields, doc = wrap body → Fields false body fields → (fields.map Prod.fst).Nodup

/-- A document has a value of a type under a key. -/
def HasField (doc key : List UInt8) (type : BsonType) : Prop :=
  ∃ value post v behind front before, doc = wrap (front ++ (value ++ post)) ∧
    FieldAt false key type value post v behind front before

section Unique

variable {body body' rest rest' key key' : List UInt8} {fields fields' : List (LuaScalar × LuaData)}
  {type type' : BsonType} {array : Bool}

/-- The fields of bytes are determined. -/
theorem Fields.unique (h : Fields array body fields) (h' : Fields array body fields') :
    fields = fields' := by
  induction h generalizing fields' with
  | nil =>
    cases h'
    rfl
  | @scalar array key rest type v n fields hkey hv _ ih =>
    generalize hbody : type.code :: (key ++ 0 :: rest) = body at h'
    cases h' with
    | nil => cases hbody
    | scalar hkey' hv' hbehind =>
      obtain ⟨rfl, rfl, rfl⟩ := field_inj hkey hkey' hbody
      cases hv.symm.trans hv'
      rw [ih hbehind]
    | nested hkey' hinner =>
      obtain ⟨rfl, rfl, rfl⟩ := field_inj hkey hkey' hbody
      cases type <;> cases hinner <;> cases hv
  | @nested array inner key body₁ rest type inside fields hkey hinner hsmall _ _ ihin ih =>
    generalize hbody : type.code :: (key ++ 0 :: (wrap body₁ ++ rest)) = body at h'
    cases h' with
    | nil => cases hbody
    | scalar hkey' hv =>
      obtain ⟨rfl, rfl, rfl⟩ := field_inj hkey hkey' hbody
      cases type <;> cases hinner <;> cases hv
    | nested hkey' hinner' hsmall' hinside hbehind =>
      obtain ⟨rfl, rfl, hrest⟩ := field_inj hkey hkey' hbody
      obtain ⟨rfl, rfl⟩ := wrap_append_inj hsmall hsmall' hrest
      cases hinner.symm.trans hinner'
      rw [ihin hinside, ih hbehind]

private theorem distinctKeys_wrap (hf : Fields false body fields) :
    DistinctKeys (wrap body) ↔ (fields.map Prod.fst).Nodup := by
  constructor
  · exact fun h ↦ h body fields rfl hf
  · intro hnodup body' fields' hbody hf'
    obtain rfl := wrap_inj hbody
    rwa [hf'.unique hf]

end Unique

section Document

variable {doc body : List UInt8} {get : LuaScalar → LuaData} {keyed : List (LuaData × LuaData)}

theorem Encoded.exists_wrap (h : Encoded doc) : ∃ body, doc = wrap body := by
  obtain ⟨realText, ⟨v, hv⟩ | ⟨args, hargs⟩⟩ := h
  · exact exists_wrap_of_layBson (lencode_eq_ok hv)
  · rw [lencodeOrder, packOrderedDict_eq (appendOne_eq realText bsonMaxDepth)] at hargs
    split_ifs at hargs
    split at hargs
    next => cases hargs
    next hrun =>
      cases hargs
      obtain ⟨xs, hxs, hwritten⟩ := Layout.of_run hrun
      obtain ⟨body, -, hdoc⟩ := layDocument_out.mp hxs
      exact ⟨body, by rw [hwritten, List.nil_append, hdoc]⟩

/-- A document that is decoded has fields, and the table is made of them. -/
theorem fields_of_ldecode {data : LuaData} (hsmall : body.length + 5 < 2 ^ 31)
    (h : ldecode (wrap body) = .ok data) :
    ∃ fields, Fields false body fields ∧ data = tableOf fields := by
  have hlen := length_wrap body
  have hfront := frontInt_wrap hsmall []
  rw [List.append_nil, ← hlen] at hfront
  rcases ldecode_cases (by omega) hfront with ⟨body', fields, hbody, hlen', hf⟩ | ⟨body',
      hbody, hs⟩ | ⟨m, hm⟩
  · obtain rfl := wrap_inj hbody
    rw [ldecode_fields hlen' hf] at h
    exact ⟨fields, hf, (Except.ok.inj h).symm⟩
  · rw [hbody, length_wrap] at hlen
    rw [hbody, ldecode_strays (by omega) hs] at h
    cases h
  · rw [hm] at h
    cases h

private theorem lreplace_eq {convert : BsonObject → Option UInt64} {index : BsonIndex}
    {key bytes : List UInt8} {id : ℤ} {new : BsonObject} (hindex : index key = some id)
    (hwrite : replaceValue convert (id % 2 ^ 5).toNat new ⟨[], 16⟩ = .ok ((), ⟨bytes, 16⟩)) :
    lreplace convert doc (some index) key new = overwrite doc (id / 2 ^ 5) bytes := by
  rw [lreplace, hindex]
  dsimp only
  rw [hwrite]

/-- A value that is replaced through its place. -/
theorem lreplace_field (convert : BsonObject → Option UInt64) {index : BsonIndex}
    {key value post front : List UInt8} {type : BsonType} {v : LuaData}
    {before behind : List (LuaScalar × LuaData)} {new : BsonObject}
    (hfield : FieldAt false key type value post v behind front before) (hsize : 0 < type.fieldSize)
    (hsmall : 4 + front.length < 2 ^ 26)
    (hindex : index key = some (indexId type.code (4 + front.length : ℕ)))
    (hnew : OfKind type new) :
    ∃ value', value'.length = value.length ∧
      lreplace convert (wrap (front ++ (value ++ post))) (some index) key new =
        .ok (wrap (front ++ (value' ++ post))) ∧
      Fields false (front ++ (value' ++ post)) (before ++ (.string key, new.data) :: behind) := by
  obtain ⟨value', hwrite, hlen', hread⟩ := hnew.written convert
  have hlen : value'.length = value.length := by
    rw [hlen', scalarOf_fieldSize hsize hfield.value_eq]
  -- the type and the place are taken apart again
  have hplace := indexId_eq hsize hsmall
  have hcode := (code_of_fieldSize hsize).2
  have htype : (indexId type.code (4 + front.length : ℕ) % 2 ^ 5).toNat =
      type.code.toNat := by omega
  have hoffset : indexId type.code (4 + front.length : ℕ) / 2 ^ 5 =
      (4 + front.length : ℕ) := by omega
  refine ⟨value', hlen, ?_, hfield.replace hsize hlen (hread post)⟩
  rw [lreplace_eq hindex (by rwa [htype]), hoffset]
  exact overwrite_wrap hlen

/-- In a document with different keys that the encoder returned and that is decoded, `lmakeindex`
finds the values of a fixed size, all of them. Where it found one, a new value of the same kind can
be put, and then the same is decoded but for this value. -/
theorem ldecode_lreplace (convert : BsonObject → Option UInt64) (hencoded : Encoded doc)
    (hdistinct : DistinctKeys doc) (hsmall : doc.length < 2 ^ 26)
    (hdecode : ldecode doc = .ok (.table get keyed)) :
    ∃ index, lmakeindex doc = .ok index ∧
      (∀ key type, HasField doc key type → 0 < type.fieldSize → ∃ id, index key = some id) ∧
      ∀ key id, index key = some id →
        ∃ type, HasField doc key type ∧ 0 < type.fieldSize ∧ ∀ new, OfKind type new →
          ∃ doc', lreplace convert doc (some index) key new = .ok doc' ∧ doc'.length = doc.length ∧
            ldecode doc' = .ok (.table (Function.update get (.string key) new.data) keyed) := by
  obtain ⟨body, rfl⟩ := hencoded.exists_wrap
  rw [length_wrap] at hsmall
  obtain ⟨fields, hf, hdata⟩ := fields_of_ldecode (by omega) hdecode
  obtain ⟨index, hmake, honly, hall⟩ := lmakeindex_fields (by omega) hf
  refine ⟨index, hmake, fun key type hfield hsize ↦ ?_, fun key id hid ↦ ?_⟩
  · obtain ⟨value, post, v, behind, front, before, hbody, hfield⟩ := hfield
    exact Option.ne_none_iff_exists'.mp
      (hall key _ ⟨type, value, post, v, behind, front, before, wrap_inj hbody, hfield, hsize, rfl⟩)
  obtain ⟨type, value, post, v, behind, front, before, rfl, hfield, hsize, rfl⟩ := honly key id hid
  refine ⟨type, ⟨_, _, _, _, _, _, rfl, hfield⟩, hsize, fun new hnew ↦ ?_⟩
  rw [List.length_append] at hsmall
  obtain ⟨value', hlen, hreplace, hf'⟩ :=
    lreplace_field convert hfield hsize (by omega) hid hnew
  have hall : (front ++ (value' ++ post)).length = (front ++ (value ++ post)).length := by
    simp only [List.length_append, hlen]
  -- keys are distinct, so no later field hides the replaced one
  have hrest : .string key ∉ behind.map Prod.fst := by
    have hnodup := hdistinct _ _ rfl (hfield.fields hsize)
    rw [List.map_append, List.map_cons] at hnodup
    exact (List.nodup_cons.mp hnodup.of_append_right).1
  rw [ldecode_fields (by rw [List.length_append]; omega) (hfield.fields hsize),
    tableOf_eq] at hdecode
  cases hdecode
  refine ⟨_, hreplace, ?_, ?_⟩
  · rw [length_wrap, length_wrap, hall]
  · rw [ldecode_fields (by rw [hall, List.length_append]; omega) hf', tableOf_eq,
      fill_get_update hrest]
    rfl

/-- `{a = true, b = 7}` -/
def flagAndNumber : List UInt8 := wrap [8, 97, 0, 1, 16, 98, 0, 7, 0, 0, 0]

/-- The index has a place for `a`, and one for `b`. It can be made `{a = false, b = 7}`. -/
theorem ldecode_lreplace_boolean : ∃ index, lmakeindex flagAndNumber = .ok index ∧
    (index [97] = some (indexId 8 7) ∧ index [98] = some (indexId 16 11)) ∧
    lreplace (fun _ ↦ none) flagAndNumber (some index) [97] (.boolean false) =
      .ok (wrap [8, 97, 0, 0, 16, 98, 0, 7, 0, 0, 0]) ∧
    (∀ key type, HasField flagAndNumber key type → 0 < type.fieldSize → ∃ id, index key = some id) ∧
    ∀ key id, index key = some id →
      ∃ type, HasField flagAndNumber key type ∧ 0 < type.fieldSize ∧ ∀ new, OfKind type new →
        ∃ doc', lreplace (fun _ ↦ none) flagAndNumber (some index) key new = .ok doc' ∧
          doc'.length = flagAndNumber.length ∧
          ldecode doc' = .ok (.table (Function.update (LuaTable.empty.fill
            [(.string [97], .scalar (.boolean true)), (.string [98], .scalar (.integer 7))]).get
              (.string key) new.data) []) := by
  have hone : scalarOf .boolean ([1] ++ [16, 98, 0, 7, 0, 0, 0]) =
      some (.scalar (.boolean true), 1) := rfl
  have hseven : scalarOf .int32 [7, 0, 0, 0] = some (.scalar (.integer 7), 4) := by
    have hvalue : Int64.ofInt (frontInt [7, 0, 0, 0]) = 7 := by decide +kernel
    rw [scalarOf, fixedOf, if_pos (by decide), ← hvalue]
    rfl
  have hnumber : Fields false (BsonType.int32.code :: ([98] ++ 0 :: [7, 0, 0, 0]))
      [(fieldKey false [98], .scalar (.integer 7))] := .scalar (by decide) hseven .nil
  have hf : Fields false (BsonType.boolean.code :: ([97] ++ 0 :: ([1] ++ [16, 98, 0, 7, 0, 0, 0])))
      [(fieldKey false [97], .scalar (.boolean true)),
        (fieldKey false [98], .scalar (.integer 7))] :=
    .scalar (by decide) hone hnumber
  have hencode : lencode (fun _ ↦ []) (.table [(.string [97], .boolean true),
      (.string [98], .integer 7)]
      [] none none) = .ok flagAndNumber := by
    decide +kernel
  have hdecode : ldecode flagAndNumber = .ok (.table (LuaTable.empty.fill
      [(.string [97], .scalar (.boolean true)), (.string [98], .scalar (.integer 7))]).get []) :=
    (ldecode_fields (by decide) hf).trans (congrArg _ (tableOf_eq _))
  obtain ⟨index, hmake, hreplace⟩ := ldecode_lreplace (fun _ ↦ none) ⟨_, .inl ⟨_, hencode⟩⟩
    ((distinctKeys_wrap hf).mpr (by decide)) (by decide) hdecode
  have hplaces : (lmakeindex flagAndNumber).map (fun index ↦ (index [97], index [98])) =
      .ok (some (indexId 8 7), some (indexId 16 11)) := by decide +kernel
  rw [hmake] at hplaces
  obtain ⟨hflag, hnumber⟩ := Prod.mk.inj (Except.ok.inj hplaces)
  refine ⟨index, hmake, ⟨hflag, hnumber⟩, ?_, hreplace⟩
  have htype : (indexId 8 7 % 2 ^ 5).toNat = 8 := by decide +kernel
  have hwrite : replaceValue (fun _ ↦ none) (indexId 8 7 % 2 ^ 5).toNat (.boolean false) ⟨[], 16⟩ =
      .ok ((), ⟨[0], 16⟩) := by
    rw [htype]
    rfl
  exact (lreplace_eq hflag hwrite).trans (by decide +kernel)

end Document

end ZTask
