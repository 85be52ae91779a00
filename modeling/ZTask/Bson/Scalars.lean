import ZTask.Bson.Data

/-!
# Scalar values there and back

What the encoder writes for a supported value that is no table, the decoder reads as this value
(`SpellsField`, `Supported.spellsField`).

## Types and values

A Lua value has the type that the encoder gives it: an integer has four bytes or eight, and a string
with a tag is something else than a text. For each of them there is a lemma about what the decoder
reads, and `Supported.spellsField` collects them.
-/

namespace ZTask

open Lib

variable {key bytes content rest : List UInt8} {v : LuaData} {realText : UInt64 → List UInt8}

/-- The bytes are a field with this key, of a scalar type, and it has this value. -/
def SpellsField (key bytes : List UInt8) (v : LuaData) : Prop :=
  ∃ (type : BsonType) (content : List UInt8), bytes = type.code :: (key ++ 0 :: content) ∧
    ∀ rest, scalarOf type (content ++ rest) = some (v, content.length)

theorem SpellsField.fields {array : Bool} {fields : List (LuaScalar × LuaData)}
    (h : SpellsField key bytes v) (hkey : 0 ∉ key) (hrest : Fields array rest fields) :
    Fields array (bytes ++ rest) ((fieldKey array key, v) :: fields) := by
  obtain ⟨type, content, rfl, hscalar⟩ := h
  have hbytes : type.code :: (key ++ 0 :: content) ++ rest =
      type.code :: (key ++ 0 :: (content ++ rest)) := by
    rw [List.cons_append, List.append_assoc, List.cons_append]
  rw [hbytes]
  refine .scalar hkey (hscalar rest) ?_
  rwa [List.drop_left]

/-! ## Numbers -/

theorem fixedOf_append {n : ℕ} (hlen : content.length = n) (value : List UInt8 → LuaScalar)
    (rest : List UInt8) : fixedOf n value (content ++ rest) =
        some (.scalar (value content), content.length) := by
  rw [fixedOf, if_pos (by rw [List.length_append]; omega), List.take_left' hlen, hlen]

theorem toInt32_toLittle {i : ℤ} (hlo : -2 ^ 31 ≤ i) (hhi : i < 2 ^ 31) :
    toInt32 (ofLittle (toLittle 4 (i % 2 ^ 32).toNat)) = i := by
  have hvalue : (((i % 2 ^ 32).toNat : ℕ) : ℤ) = i % 2 ^ 32 := Int.toNat_of_nonneg (by omega)
  rw [ofLittle_toLittle_of_lt (by omega), hvalue]
  obtain ⟨k, hk⟩ := toInt32_eq (i % 2 ^ 32)
  have hge := toInt32_ge (i % 2 ^ 32)
  have hlt := toInt32_lt (i % 2 ^ 32)
  omega

private theorem frontInt_lengthBytes {n : ℕ} (hn : n < 2 ^ 31) (rest : List UInt8) :
    frontInt (lengthBytes n ++ rest) = n := by
  rw [lengthBytes_natCast, frontInt, List.take_left' (length_toLittle ..),
    ofLittle_toLittle_of_lt (by omega), toInt32_of_lt (by omega) (by omega)]

private theorem length_lengthBytes (n : ℤ) : (lengthBytes n).length = 4 := length_toLittle ..

theorem int64_toLittle {x : ℤ} (hlo : -2 ^ 63 ≤ x) (hhi : x < 2 ^ 63) :
    (Int64.ofNat (ofLittle (toLittle 8 (x % 2 ^ 64).toNat))).toInt = x := by
  have hlt : (x % 2 ^ 64).toNat < 256 ^ 8 := by omega
  rw [ofLittle_toLittle_of_lt hlt, Int64.toInt_ofNat', Int.toNat_of_nonneg (by omega),
    show Int64.size = 2 ^ 64 from rfl, Int.bmod]
  omega

theorem bytes_of_length {n : ℕ} (h : content.length = n) :
    toLittle n (ofLittle content) = content := by
  rw [← h, toLittle_ofLittle]

/-! ## One value -/

private theorem spellsField_of_out (type : BsonType) {p : BsonLayout}
    (h : ((layKey type.code key).append p).out = .ok bytes)
    (hvalue : ∀ content, p.out = .ok content →
      ∀ rest, scalarOf type (content ++ rest) = some (v, content.length)) :
        SpellsField key bytes v := by
  obtain ⟨content, hcontent, rfl⟩ := append_layKey_out h
  exact ⟨type, content, rfl, hvalue content hcontent⟩

theorem spellsField_boolean {b : Bool}
    (h : ((layKey BsonType.boolean.code key).append (layByte (if b then 1 else 0))).out =
    .ok bytes) :
    SpellsField key bytes (.scalar (.boolean b)) := by
  refine spellsField_of_out _ h fun content hcontent rest ↦ ?_
  cases hcontent
  have hone : [if b then (1 : UInt8) else 0].length = 1 := rfl
  rw [scalarOf, fixedOf_append hone]
  cases b <;> rfl

theorem spellsField_integer {i : Int64} (h : (layInteger key i).out = .ok bytes) :
    SpellsField key bytes (.scalar (.integer i)) := by
  have hlo := i.le_toInt
  have hhi := i.toInt_lt
  rw [layInteger] at h
  split at h
  next hsmall =>
    rw [is32bit, Bool.and_eq_true, decide_eq_true_eq, decide_eq_true_eq] at hsmall
    refine spellsField_of_out _ h fun content hcontent rest ↦ ?_
    cases hcontent
    rw [scalarOf, fixedOf_append (length_toLittle ..), toInt32_toLittle (by omega) (by omega),
      Int64.ofInt_toInt]
  next =>
    refine spellsField_of_out _ h fun content hcontent rest ↦ ?_
    cases hcontent
    have hvalue : Int64.ofNat (ofLittle (toLittle 8 (i.toInt % 2 ^ 64).toNat)) = i :=
      Int64.toInt_inj.mp (int64_toLittle (by omega) (by omega))
    rw [scalarOf, fixedOf_append (length_toLittle ..), hvalue]

theorem spellsField_real {bits : UInt64}
    (h : ((layKey BsonType.real.code key).append (layNumber 8 bits.toNat)).out = .ok bytes) :
    SpellsField key bytes (.scalar (.real bits)) := by
  refine spellsField_of_out _ h fun content hcontent rest ↦ ?_
  cases hcontent
  rw [scalarOf, fixedOf_append (length_toLittle ..), ofNat_bytes]

theorem spellsField_text {str : List UInt8} (h : (layText key str).out = .ok bytes)
    (hsmall : bytes.length < 2 ^ 31) : SpellsField key bytes (.scalar (.string str)) := by
  obtain ⟨content, hcontent, rfl⟩ := append_layKey_out h
  obtain ⟨xs, hxs, rfl⟩ := layCounted_out.mp hcontent
  obtain ⟨-, rfl⟩ := layCstring_out.mp hxs
  have hcast : (str.length : ℤ) + 1 = (str.length + 1 : ℕ) := by omega
  rw [hcast] at hsmall ⊢
  refine ⟨_, _, rfl, fun rest ↦ ?_⟩
  simp only [List.length_cons, List.length_append, length_lengthBytes, List.length_nil] at hsmall
  have hfront : frontInt (lengthBytes (str.length + 1 : ℕ) ++ (str ++ [0]) ++ rest) =
      (str.length + 1 : ℕ) := by
    rw [List.append_assoc]
    exact frontInt_lengthBytes (by omega) _
  have hdrop : (lengthBytes (str.length + 1 : ℕ) ++ (str ++ [0]) ++ rest).drop 4 = str ++
      (0 :: rest) := by
    rw [List.append_assoc, List.drop_left' (length_lengthBytes _), List.append_assoc,
      List.singleton_append]
  have hlen : (lengthBytes (str.length + 1 : ℕ) ++ (str ++ [0])).length = 4 + (str.length + 1) := by
    rw [List.length_append, length_lengthBytes, List.length_append, List.length_singleton]
  rw [scalarOf, stringOf, hfront, hdrop, if_pos, hlen,
    show ((str.length + 1 : ℕ) - 1 : ℤ).toNat = str.length by omega, List.take_left,
      Int.toNat_natCast]
  rw [List.length_append, hlen]
  omega

theorem spellsField_binary {subtype : UInt8} {buffer : List UInt8}
    (h : ((layKey BsonType.binary.code key).append (layBinary (subtype :: buffer))).out = .ok bytes)
    (hsmall : bytes.length < 2 ^ 31) :
    SpellsField key bytes (.scalar (.string (0 :: BsonType.binary.code :: subtype :: buffer))) := by
  obtain ⟨content, hcontent, rfl⟩ := append_layKey_out h
  obtain ⟨xs, hxs, rfl⟩ := layCounted_out.mp hcontent
  cases hxs
  refine ⟨_, _, rfl, fun rest ↦ ?_⟩
  have hlength : ((subtype :: buffer).length : ℤ) - 1 = (buffer.length : ℕ) := by
    rw [List.length_cons]
    omega
  rw [hlength] at hsmall ⊢
  simp only [List.length_cons, List.length_append, length_lengthBytes] at hsmall
  have hfront : frontInt (lengthBytes buffer.length ++
      (subtype :: buffer) ++ rest) = buffer.length := by
    rw [List.append_assoc]
    exact frontInt_lengthBytes (by omega) _
  have hdrop : (lengthBytes buffer.length ++ (subtype :: buffer) ++ rest).drop 4 =
      (subtype :: buffer) ++ rest := by
    rw [List.append_assoc, List.drop_left' (length_lengthBytes _)]
  have hlen : (lengthBytes buffer.length ++ (subtype :: buffer)).length = 5 + buffer.length := by
    rw [List.length_append, length_lengthBytes, List.length_cons]
    omega
  have hone : 1 + ((buffer.length : ℕ) : ℤ).toNat = (subtype :: buffer).length := by
    rw [List.length_cons]
    omega
  rw [scalarOf, binaryOf, hfront, hdrop, if_pos, hlen, hone, List.take_left, Int.toNat_natCast]
  rw [List.length_append, hlen]
  omega

theorem regexOptions_append {pattern options : List UInt8} (h : 0 ∉ options) :
    regexOptions (pattern ++ 0 :: options) = options := by
  have hreverse : (pattern ++ 0 :: options).reverse = options.reverse ++ 0 :: pattern.reverse := by
    rw [List.reverse_append, List.reverse_cons, List.append_assoc, List.singleton_append]
  rw [regexOptions, hreverse, List.takeWhile_append_of_pos, List.takeWhile_cons_of_neg (by simp),
    List.append_nil, List.reverse_reverse]
  intro b hb
  rw [List.mem_reverse] at hb
  exact decide_eq_true fun hzero ↦ h (hzero ▸ hb)

theorem layRegex_eq {pattern options : List UInt8} (h : 0 ∉ options) :
    layRegex (pattern ++ 0 :: (options ++ [0])) =
      (layCstring pattern).append (layCstring options) := by
  have hlast : (pattern ++ 0 :: (options ++ [0])).dropLast = pattern ++ 0 :: options := by
    rw [← List.cons_append, ← List.append_assoc, List.dropLast_concat]
  have hne : pattern ++ 0 :: (options ++ [0]) ≠ [] := by simp
  have hlen : (pattern ++ 0 :: options).length = pattern.length + 1 + options.length := by
    rw [List.length_append, List.length_cons]
    omega
  have htake : (pattern ++ 0 :: options).take
      ((pattern ++ 0 :: options).length - options.length - 1) =
      pattern := List.take_left' (by omega)
  rw [layRegex, hlast, regexOptions_append h, if_neg hne, if_neg (by omega), htake]

private theorem layRegex_out {pattern options content : List UInt8} (h : 0 ∉ options)
    (hout : (layRegex (pattern ++ 0 :: (options ++ [0]))).out = .ok content) :
    content = pattern ++ 0 :: (options ++ [0]) := by
  rw [layRegex_eq h] at hout
  obtain ⟨xs, ys, hxs, hys, rfl⟩ := Layout.append_out_eq_ok.mp hout
  obtain ⟨-, rfl⟩ := layCstring_out.mp hxs
  obtain ⟨-, rfl⟩ := layCstring_out.mp hys
  rw [List.append_assoc, List.singleton_append]

theorem layTagged_objectId_out (hlen : content.length = 12) :
    (layTagged BsonType.objectId.code content).out = .ok content := by
  rw [layTagged, BsonType.ofCode?_code]
  dsimp only
  rw [if_neg (not_not_intro hlen)]
  rfl

theorem layTagged_date_out (hlen : content.length = 4) :
    (layTagged BsonType.date.code content).out =
      .ok (toLittle 8 ((ofLittle content * 1000 : ℤ) % 2 ^ 64).toNat) := by
  rw [layTagged, BsonType.ofCode?_code]
  dsimp only
  rw [if_neg (not_not_intro hlen)]
  rfl

theorem layTagged_timestamp_out (hlen : content.length = 8) :
    (layTagged BsonType.timestamp.code content).out = .ok content := by
  have hinc : lengthBytes (ofLittle (content.take 4)) = content.take 4 :=
    (lengthBytes_natCast _).trans (bytes_of_length (by rw [List.length_take]; omega))
  have hts : lengthBytes (ofLittle (content.drop 4)) = content.drop 4 :=
    (lengthBytes_natCast _).trans (bytes_of_length (by rw [List.length_drop]; omega))
  rw [layTagged, BsonType.ofCode?_code]
  dsimp only
  rw [if_neg (not_not_intro hlen), Layout.append_out_eq_ok]
  exact ⟨content.take 4, content.drop 4, congrArg Except.ok hinc, congrArg Except.ok hts,
    (List.take_append_drop 4 content).symm⟩

theorem dateBytes_toLittle (hlen : content.length = 4) :
    dateBytes (toLittle 8 ((ofLittle content * 1000 : ℤ) % 2 ^ 64).toNat) = content := by
  have hlt := ofLittle_lt content
  rw [hlen] at hlt
  rw [dateBytes, int64_toLittle (by omega) (by omega), Int.mul_tdiv_cancel _ (by decide)]
  exact (lengthBytes_natCast _).trans (bytes_of_length hlen)

private theorem spellsField_tagged {str : List UInt8} (htagged : Tagged str)
    (h : (layString key str).out = .ok bytes) (hsmall : bytes.length < 2 ^ 31) :
    SpellsField key bytes (.scalar (.string str)) := by
  cases htagged with
  | binary subtype buffer => exact spellsField_binary h hsmall
  | objectId hlen =>
    refine spellsField_of_out .objectId h fun content hcontent rest ↦ ?_
    cases (layTagged_objectId_out hlen).symm.trans hcontent
    rw [scalarOf, fixedOf_append hlen, hlen]
  | date hlen =>
    refine spellsField_of_out .date h fun content hcontent rest ↦ ?_
    cases (layTagged_date_out hlen).symm.trans hcontent
    rw [scalarOf, fixedOf_append (length_toLittle ..), dateBytes_toLittle hlen, length_toLittle]
  | timestamp hlen =>
    refine spellsField_of_out .timestamp h fun content hcontent rest ↦ ?_
    cases (layTagged_timestamp_out hlen).symm.trans hcontent
    rw [scalarOf, fixedOf_append hlen, hlen]
  | @regex pattern options hpattern hoptions =>
    refine spellsField_of_out .regex h fun content hcontent rest ↦ ?_
    rw [layRegex_out hoptions hcontent]
    exact scalarOf_regex rest hpattern hoptions
  | null =>
    refine spellsField_of_out .null h fun content hcontent rest ↦ ?_
    cases hcontent
    rfl

/-- What is written for a supported value that is no table is a field with this value. -/
theorem Supported.spellsField {left : ℕ} {v : BsonObject} (h : Supported v)
    (hscalar : ∀ pairs elements, v ≠ .table pairs elements none none)
    (hout : (layOne realText left key v).out = .ok bytes) (hsmall : bytes.length < 2 ^ 31) :
    SpellsField key bytes v.data := by
  cases h with
  | boolean b =>
    rw [layOne.eq_def] at hout
    exact spellsField_boolean hout
  | integer i =>
    rw [layOne.eq_def] at hout
    exact spellsField_integer hout
  | real bits =>
    rw [layOne.eq_def] at hout
    exact spellsField_real hout
  | @text str hhead =>
    rw [layOne.eq_def] at hout
    rcases str with _ | ⟨b, _ | ⟨c, str⟩⟩
    · exact spellsField_text hout hsmall
    · exact spellsField_text hout hsmall
    · have hb : b ≠ 0 := fun hzero ↦ hhead (by rw [hzero]; rfl)
      have hplain : layString key (b :: c :: str) = layText key (b :: c :: str) := if_neg hb
      exact spellsField_text (hplain ▸ hout) hsmall
  | tagged htagged =>
    rw [layOne.eq_def] at hout
    exact spellsField_tagged htagged hout hsmall
  | table => exact absurd rfl (hscalar _ _)

end ZTask
