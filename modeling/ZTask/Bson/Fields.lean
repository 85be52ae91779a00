import ZTask.Bson.Reading

/-!
# The fields of a document

A document is its length, its fields, and a byte that is zero. Which bytes are the fields of a table
is a relation (`Fields`); where the decoder leaves the block is another one (`Strays`). Decoding
gives the table of the fields (`Fields.unpack`), looks at a byte outside of the block if the fields
stray (`Strays.unpack`), and raises an error otherwise (`unpackFields_cases`).

The decoder strays at a document or an array whose length is negative: the reader moves back, and
the byte at the end of the document is looked for in front of the block.
-/

namespace ZTask

open Lib

attribute [local irreducible] toInt32

/-! ## Documents -/

/-- Whether the fields of a nested document are put under numbers; none for a scalar type. -/
def BsonType.inner : BsonType → Option Bool
  | .document => some false
  | .array => some true
  | _ => none

/-- Fields are put into a table one after the other. -/
def LuaTable.fill (t : LuaTable) (fields : List (LuaScalar × LuaData)) : LuaTable :=
  fields.foldl (fun t field ↦ t.set field.1 field.2) t

/-- The table of the fields. -/
def tableOf (fields : List (LuaScalar × LuaData)) : LuaData := (LuaTable.empty.fill fields).data

/-- Bytes that are fields, and what they are put into the table as. -/
inductive Fields : Bool → List UInt8 → List (LuaScalar × LuaData) → Prop
  | nil {array : Bool} : Fields array [] []
  | scalar {array : Bool} {key rest : List UInt8} {type : BsonType} {v : LuaData} {n : ℕ}
      {fields : List (LuaScalar × LuaData)} :
      0 ∉ key → scalarOf type rest = some (v, n) → Fields array (rest.drop n) fields →
      Fields array (type.code :: (key ++ 0 :: rest)) ((fieldKey array key, v) :: fields)
  | nested {array inner : Bool} {key body rest : List UInt8} {type : BsonType}
      {inside fields : List (LuaScalar × LuaData)} :
      0 ∉ key → type.inner = some inner → body.length + 5 < 2 ^ 31 → Fields inner body inside →
      Fields array rest fields →
      Fields array (type.code :: (key ++ 0 :: (wrap body ++ rest)))
        ((fieldKey array key, tableOf inside) :: fields)

/-- The length in front leads back to before the block; so far that it is not noticed, but not so
far that the number of bytes left wraps. The bytes are at `q`. -/
def LeadsBack (q : ℕ) (rest : List UInt8) : Prop :=
  4 ≤ rest.length ∧ -2 ^ 31 + 5 ≤ frontInt rest ∧ q + frontInt rest < 1 ∧
    rest.length - frontInt rest + 1 < 2 ^ 31

instance LeadsBack.decidable (q : ℕ) (rest : List UInt8) : Decidable (LeadsBack q rest) :=
  inferInstanceAs (Decidable (_ ∧ _))

/-- Fields at `off` among which the decoder comes to a document whose length leads back. -/
inductive Strays : ℕ → List UInt8 → Prop
  | scalar {off n : ℕ} {key rest : List UInt8} {type : BsonType} {v : LuaData} :
      0 ∉ key → scalarOf type rest = some (v, n) →
      Strays (off + (key.length + 2) + n) (rest.drop n) →
        Strays off (type.code :: (key ++ 0 :: rest))
  | nested {off : ℕ} {inner : Bool} {key body rest : List UInt8} {type : BsonType}
      {inside : List (LuaScalar × LuaData)} :
      0 ∉ key → type.inner = some inner → body.length + 5 < 2 ^ 31 → Fields inner body inside →
      Strays (off + (key.length + 2) + (body.length + 5)) rest →
      Strays off (type.code :: (key ++ 0 :: (wrap body ++ rest)))
  | inside {off : ℕ} {inner : Bool} {key body rest : List UInt8} {type : BsonType} :
      0 ∉ key → type.inner = some inner → body.length + 5 < 2 ^ 31 →
      Strays (off + (key.length + 2) + 4) body →
      Strays off (type.code :: (key ++ 0 :: (wrap body ++ rest)))
  | here {off : ℕ} {inner : Bool} {key rest : List UInt8} {type : BsonType} :
      0 ∉ key → type.inner = some inner → LeadsBack (off + (key.length + 2)) rest →
      Strays off (type.code :: (key ++ 0 :: rest))

theorem frontInt_wrap {body : List UInt8} (h : body.length + 5 < 2 ^ 31) (rest : List UInt8) :
    frontInt (wrap body ++ rest) = (body.length + 5 : ℕ) := by
  have htake : (wrap body ++ rest).take 4 = toLittle 4 (body.length + 5) := by
    rw [wrap, List.append_assoc, List.take_left' (length_toLittle 4 _)]
  rw [frontInt, htake, ofLittle_toLittle_of_lt (by omega), toInt32_of_lt (by omega) (by omega)]

theorem drop_wrap (body rest : List UInt8) : (wrap body ++ rest).drop 4 = body ++ 0 :: rest := by
  rw [wrap, List.append_assoc, List.drop_left' (length_toLittle 4 _), List.append_assoc,
    List.singleton_append]

theorem LuaTable.fill_cons (t : LuaTable) (field : LuaScalar × LuaData)
    (fields : List (LuaScalar × LuaData)) :
    t.fill (field :: fields) = (t.set field.1 field.2).fill fields := rfl

/-! ## One field -/

section Step

variable {block rest key : List UInt8} {e bound : ℕ} {br : BsonReader} {t : LuaTable} {array : Bool}
  {bt : UInt8} {dict : Bool → BsonDecode LuaData}

private theorem unpackFields_nil (h : br.Shows block e []) :
    unpackFields block dict array (bound + 1) t br = (.ok t, br) := by
  have hzero : br.size = 0 := h.size_eq
  exact if_pos hzero

private theorem unpackFields_step (h : br.Shows block e (bt :: rest)) :
    unpackFields block dict array (bound + 1) t br =
      (readCstring block >>= fun key ↦ unpackValue block dict bt >>= fun v ↦
        unpackFields block dict array bound (t.set (fieldKey array key) v)) (br.advance
          (1 : ℕ)) := by
  have hne : br.size ≠ 0 := by
    rw [h.size_eq, List.length_cons]
    omega
  exact (if_neg hne).trans (Failing.bind_ok h.readBsonByte)

theorem unpackFields_cons (h : br.Shows block e (bt :: (key ++ 0 :: rest))) (hkey : 0 ∉ key) :
    unpackFields block dict array (bound + 1) t br =
      (unpackValue block dict bt >>= fun v ↦
        unpackFields block dict array bound (t.set (fieldKey array key) v))
        (br.advance (key.length + 2 : ℕ)) := by
  have hone : 1 ≤ (bt :: (key ++ 0 :: rest)).length := Nat.succ_le_succ (Nat.zero_le _)
  have hbehind := h.advance hone
  have hmove := h.advance_advance hone (key.length + 1 : ℕ)
  have hsum : ((1 : ℕ) + (key.length + 1 : ℕ) : ℤ) = (key.length + 2 : ℕ) := by omega
  rw [unpackFields_step h, Failing.bind_ok (hbehind.readCstring hkey), hmove, hsum]

theorem BsonReader.Shows.behindKey (h : br.Shows block e (bt :: (key ++ 0 :: rest))) :
    (br.advance (key.length + 2 : ℕ)).Shows block e rest := by
  have hdrop : (bt :: (key ++ 0 :: rest)).drop (key.length + 2) = rest := by
    rw [List.drop_succ_cons, ← List.drop_drop, List.drop_left]
    rfl
  have hbehind := h.advance (show key.length + 2 ≤ (bt :: (key ++ 0 :: rest)).length by
    simp only [List.length_cons, List.length_append]
    omega)
  rwa [hdrop] at hbehind

private theorem unpackFields_no_key (h : br.Shows block e (bt :: rest)) (hno : 0 ∉ rest) :
    ∃ m br', unpackFields block dict array (bound + 1) t br = (.error (.raised m), br') := by
  have hbehind := h.advance (show 1 ≤ (bt :: rest).length from Nat.succ_le_succ (Nat.zero_le _))
  rw [unpackFields_step h]
  exact ⟨_, _, Failing.bind_error (hbehind.readCstring_none hno)⟩

end Step

/-! ## A nested document -/

section Nested

variable {block rest body : List UInt8} {e bound : ℕ} {br : BsonReader} {array : Bool}

private theorem unpackDict_step (h : br.Shows block e rest) (hfour : 4 ≤ rest.length) :
    unpackDict block (bound + 1) array br =
      unpackBody block (fun t ↦
        (unpackFields block (unpackDict block bound) array bound .empty t).1)
        (toInt32 (frontInt rest - 5)) (br.advance (4 : ℕ)) := by
  rw [unpackDict, Failing.bind_ok (h.readInt32 hfour)]

section Body

variable {fields : BsonReader → Except BsonError LuaTable} {sz p : ℤ} {br₁ br₂ br₃ : BsonReader}

private theorem unpackBody_ok (hread : readBytes sz br₁ = (.ok p, br₂))
    (hbyte : readBsonByte block br₂ = (.ok 0, br₃)) :
    unpackBody block fields sz br₁ =
      (Failing.lift (fields ⟨p, sz⟩) >>= fun table ↦ pure table.data) br₃ := by
  rw [unpackBody, Failing.bind_ok hread, Failing.bind_ok hbyte, if_neg]
  exact fun hne ↦ hne rfl

private theorem unpackBody_end {b : UInt8} (hread : readBytes sz br₁ = (.ok p, br₂))
    (hbyte : readBsonByte block br₂ = (.ok b, br₃)) (hb : b ≠ 0) :
    unpackBody block fields sz br₁ = (.error (.raised .invalidEnd), br₃) := by
  rw [unpackBody, Failing.bind_ok hread, Failing.bind_ok hbyte, if_pos hb]
  rfl

private theorem unpackBody_no_end {err : BsonError} (hread : readBytes sz br₁ = (.ok p, br₂))
    (hbyte : readBsonByte block br₂ = (.error err, br₃)) :
    unpackBody block fields sz br₁ = (.error err, br₃) := by
  rw [unpackBody, Failing.bind_ok hread]
  exact Failing.bind_error hbyte

private theorem unpackBody_short {err : BsonError} (hread : readBytes sz br₁ = (.error err, br₂)) :
    unpackBody block fields sz br₁ = (.error err, br₂) := by
  rw [unpackBody]
  exact Failing.bind_error hread

end Body

/-- The reader of the fields. -/
theorem BsonReader.Shows.inside (h : br.Shows block e (wrap body ++ rest)) :
    (⟨br.ptr + 4, body.length⟩ : BsonReader).Shows block (e - (rest.length + 1)) body where
  small := h.small
  le_length := by
    have hle := h.le_length
    omega
  stands := by
    obtain ⟨before, after, hblock, hptr⟩ := h.split
    have hend := h.ptr_eq
    have hword := length_toLittle 4 (body.length + 5)
    have hsplit : block = (before ++ (toLittle 4 (body.length + 5) ++ body)) ++ 0 ::
        (rest ++ after) := by
      rw [hblock, wrap]
      simp only [List.append_assoc, List.cons_append, List.nil_append]
    rw [List.length_append, length_wrap] at hend
    refine ⟨before ++ toLittle 4 (body.length + 5), ?_⟩
    rw [List.append_assoc, hsplit, List.take_left' (by simp only [List.length_append]; omega)]
  ptr_eq := by
    obtain ⟨before, after, -, hptr⟩ := h.split
    have hend := h.ptr_eq
    rw [List.length_append, length_wrap] at hend
    show br.ptr + 4 + _ = _
    omega
  size_eq := rfl

/-- A document that is there. -/
theorem unpackDict_wrap (h : br.Shows block e (wrap body ++ rest))
    (hsmall : body.length + 5 < 2 ^ 31) :
    unpackDict block (bound + 1) array br =
      (Failing.lift (unpackFields block (unpackDict block bound) array bound .empty
        ⟨br.ptr + 4, body.length⟩).1 >>= fun table ↦ pure table.data)
        (br.advance (body.length + 5 : ℕ)) := by
  have hlen : (wrap body ++ rest).length = body.length + 5 + rest.length := by
    rw [List.length_append, length_wrap]
  have hfour : 4 ≤ (wrap body ++ rest).length := by omega
  have hbehind := h.advance (show 4 + body.length ≤ (wrap body ++ rest).length by omega)
  rw [← List.drop_drop, drop_wrap, List.drop_left] at hbehind
  have hsize : toInt32 (frontInt (wrap body ++ rest) - 5) = body.length := by
    rw [frontInt_wrap hsmall, toInt32_of_lt (by omega) (by omega)]
    omega
  have hread : readBytes (body.length : ℤ) (br.advance (4 : ℕ)) =
      (.ok (br.ptr + 4), br.advance (4 + body.length : ℕ)) := by
    have hfits := (h.advance hfour).size_eq
    rw [List.length_drop] at hfits
    rw [BsonReader.Shows.readBytes (by omega), h.advance_advance hfour]
    rfl
  have hbyte := hbehind.readBsonByte
  rw [h.advance_advance (by omega)] at hbyte
  have hsum : ((4 + body.length : ℕ) + (1 : ℕ) : ℤ) = (body.length + 5 : ℕ) := by omega
  rw [unpackDict_step h hfour, hsize, unpackBody_ok hread hbyte, hsum]

theorem unpackDict_error (h : br.Shows block e (wrap body ++ rest))
    (hsmall : body.length + 5 < 2 ^ 31) {err : BsonError} {br₁ : BsonReader}
    (herror : unpackFields block (unpackDict block bound) array bound .empty ⟨br.ptr + 4,
    body.length⟩ =
      (.error err, br₁)) :
    unpackDict block (bound + 1) array br = (.error err, br.advance (body.length + 5 : ℕ)) := by
  rw [unpackDict_wrap h hsmall, herror]
  rfl

/-- A document whose length leads back to before the block. -/
theorem unpackDict_back (h : br.Shows block e rest) {q : ℕ} (hq : br.ptr = q)
    (hback : LeadsBack q rest) :
    ∃ br', unpackDict block (bound + 1) array br = (.error .outside, br') := by
  obtain ⟨hfour, hlo, hneg, hhi⟩ := hback
  have hsize := (h.advance hfour).size_eq
  rw [List.length_drop] at hsize
  have hfive : toInt32 (frontInt rest - 5) = frontInt rest - 5 :=
    toInt32_of_lt (by omega) (by omega)
  have hread := BsonReader.Shows.readBytes
    (show frontInt rest - 5 ≤ (br.advance (4 : ℕ)).size by omega)
  rw [h.advance_advance hfour] at hread
  generalize hz : ((4 : ℕ) : ℤ) + (frontInt rest - 5) = z at hread
  have hleft : (br.advance z).size = rest.length - frontInt rest + 1 := by
    show toInt32 (br.size - z) = _
    rw [h.size_eq, toInt32_of_lt (by omega) (by omega)]
    omega
  have hbytes : bytesAt block (br.advance z).ptr 1 = .error .outside := by
    have hptr : (br.advance z).ptr = br.ptr + z := rfl
    rw [bytesAt, if_neg (by omega)]
  have hbyte : readBsonByte block (br.advance z) = (.error .outside, br.advance z) := by
    have hcheck : checkReader ((1 : ℕ) : ℤ) (br.advance z) = (.ok (), br.advance z) := by
      rw [checkReader, if_neg (by omega)]
    refine Failing.bind_error ((Failing.bind_ok hcheck).trans ((Failing.bind_ok (show readerPtr
      (br.advance z) = (.ok (br.advance z).ptr, br.advance z) from rfl)).trans ?_))
    rw [hbytes]
    rfl
  rw [unpackDict_step h hfour, hfive]
  exact ⟨_, unpackBody_no_end hread hbyte⟩

/-- A length that is not negative is the number that the bytes are. -/
theorem toLittle_frontInt (hfour : 4 ≤ rest.length) {n : ℕ} (hn : frontInt rest = n) :
    toLittle 4 n = rest.take 4 := by
  have hlen : (rest.take 4).length = 4 := by
    rw [List.length_take]
    omega
  have hlt := ofLittle_lt (rest.take 4)
  rw [hlen] at hlt
  obtain ⟨k, hk⟩ := toInt32_eq (ofLittle (rest.take 4))
  have hhi := toInt32_lt (ofLittle (rest.take 4))
  rw [frontInt] at hn
  have hvalue : ofLittle (rest.take 4) = n := by omega
  have hback := toLittle_ofLittle (rest.take 4)
  rwa [hlen, hvalue] at hback

/-- The length and the byte at the end are those of a document. -/
theorem exists_wrap (hfour : 4 ≤ rest.length) {n : ℕ} (hn : frontInt rest = (n + 5 : ℕ))
    (hend : rest[n + 4]? = some 0) :
    ∃ body rest', rest = wrap body ++ rest' ∧ body.length + 5 < 2 ^ 31 := by
  have hlt : n + 4 < rest.length := (List.getElem?_eq_some_iff.mp hend).1
  have hhi : frontInt rest < 2 ^ 31 := toInt32_lt _
  have hlen : ((rest.drop 4).take n).length = n := by
    rw [List.length_take, List.length_drop]
    omega
  have hlast : rest.drop (n + 4) = 0 :: rest.drop (n + 5) := by
    rw [List.drop_eq_getElem_cons hlt, (List.getElem?_eq_some_iff.mp hend).2]
  refine ⟨(rest.drop 4).take n, rest.drop (n + 5), ?_, by omega⟩
  rw [wrap, hlen, toLittle_frontInt hfour hn, List.append_assoc, List.append_assoc,
    List.singleton_append, ← hlast, Nat.add_comm n 4, ← List.drop_drop, List.take_append_drop,
    List.take_append_drop]

private theorem readBsonByte_short {br' : BsonReader} (hsize : br'.size < 1) :
    ∃ m, readBsonByte block br' = (.error (.raised m), br') := by
  have hcheck : checkReader ((1 : ℕ) : ℤ) br' =
      (.error (.raised (.invalidBlock br'.size (1 : ℕ))), br') := if_pos hsize
  exact ⟨_, Failing.bind_error (Failing.bind_error hcheck)⟩

theorem unpackFields_negative (hbound : 0 < bound) {dict : Bool → BsonDecode LuaData} {t : LuaTable}
    (hneg : br.size < 0) :
    ∃ m br', unpackFields block dict array bound t br = (.error (.raised m), br') := by
  obtain ⟨bound, rfl⟩ := Nat.exists_eq_succ_of_ne_zero (Nat.ne_of_gt hbound)
  obtain ⟨m, hm⟩ := @readBsonByte_short block br (by omega)
  exact ⟨m, _, (if_neg (show br.size ≠ 0 by omega)).trans (Failing.bind_error hm)⟩

theorem BsonReader.Shows.back (h : br.Shows block e rest) {z : ℤ} (hlo : 0 ≤ br.ptr + z)
    (hhi : z ≤ rest.length) : ∃ rest', (br.advance z).Shows block e rest' := by
  have hsmall := h.small
  have hle := h.le_length
  have hend := h.ptr_eq
  refine ⟨(block.take e).drop (br.ptr + z).toNat, hsmall, hle, List.drop_suffix .., ?_, ?_⟩
  · show br.ptr + z + _ = _
    rw [List.length_drop, List.length_take]
    omega
  · show toInt32 (br.size - z) = _
    rw [h.size_eq, toInt32_of_lt (by omega) (by omega), List.length_drop, List.length_take]
    omega

/-- The reader stands on a byte that is not the end of a document with fields. -/
theorem unpackBody_raised {fields : BsonReader → Except BsonError LuaTable} {sz p : ℤ}
    {br₁ br₂ : BsonReader} {behind : List UInt8} (hread : readBytes sz br₁ = (.ok p, br₂))
    (h : br₂.Shows block e behind)
    (hzero : behind.head? = some 0 → ∃ m, fields ⟨p, sz⟩ = .error (.raised m)) :
    ∃ m br', unpackBody block fields sz br₁ = (.error (.raised m), br') := by
  cases behind with
  | nil =>
    obtain ⟨m, hm⟩ := @readBsonByte_short block br₂ (by
      rw [h.size_eq, List.length_nil]
      decide)
    exact ⟨m, _, unpackBody_no_end hread hm⟩
  | cons b behind =>
    by_cases hb : b = 0
    · obtain ⟨m, hm⟩ := hzero (by rw [hb]; rfl)
      have hbyte := h.readBsonByte
      rw [hb] at hbyte
      refine ⟨m, br₂.advance (1 : ℕ), (unpackBody_ok hread hbyte).trans ?_⟩
      rw [hm]
      rfl
    · exact ⟨_, _, unpackBody_end hread h.readBsonByte hb⟩

/-- No document is there, and none whose length leads back. -/
theorem unpackDict_other (h : br.Shows block e rest) {q : ℕ} (hq : br.ptr = q) (hbound : 0 < bound)
    (hlen : frontInt rest < -2 ^ 31 + 5 → rest.length + 1 < 2 ^ 31)
    (hno : ∀ body rest', rest = wrap body ++ rest' → ¬body.length + 5 < 2 ^ 31)
    (hback : ¬LeadsBack q rest) :
    ∃ m br', unpackDict block (bound + 1) array br = (.error (.raised m), br') := by
  by_cases hfour : 4 ≤ rest.length
  · have hsize := (h.advance hfour).size_eq
    rw [List.length_drop] at hsize
    have hlo : -2 ^ 31 ≤ frontInt rest := toInt32_ge _
    have hhi : frontInt rest < 2 ^ 31 := toInt32_lt _
    have hend := h.ptr_eq
    rw [unpackDict_step h hfour]
    by_cases hwrap : frontInt rest < -2 ^ 31 + 5
    · -- The difference wraps, to a number that is too big.
      have hlen := hlen hwrap
      obtain ⟨k, hk⟩ := toInt32_eq (frontInt rest - 5)
      have hkhi := toInt32_lt (frontInt rest - 5)
      have hklo := toInt32_ge (frontInt rest - 5)
      obtain ⟨m, hm⟩ := BsonReader.Shows.readBytes_short
        (show (br.advance (4 : ℕ)).size < toInt32 (frontInt rest - 5) by omega)
      exact ⟨m, _, unpackBody_short hm⟩
    · have hfive : toInt32 (frontInt rest - 5) = frontInt rest - 5 :=
        toInt32_of_lt (by omega) (by omega)
      rw [hfive]
      by_cases hshort : (br.advance (4 : ℕ)).size < frontInt rest - 5
      · obtain ⟨m, hm⟩ := BsonReader.Shows.readBytes_short hshort
        exact ⟨m, _, unpackBody_short hm⟩
      · have hread := BsonReader.Shows.readBytes (Int.not_lt.mp hshort)
        rw [h.advance_advance hfour] at hread
        by_cases hpos : 5 ≤ frontInt rest
        · -- The end is looked for within what is left.
          obtain ⟨n, hn⟩ := Int.eq_ofNat_of_zero_le (show 0 ≤ frontInt rest - 5 by omega)
          have hfront : frontInt rest = (n + 5 : ℕ) := by omega
          have hsum : ((4 : ℕ) : ℤ) + (frontInt rest - 5) = (n + 4 : ℕ) := by omega
          rw [hsum] at hread
          refine unpackBody_raised hread (h.advance (by omega)) fun hzero ↦ ?_
          rw [List.head?_drop] at hzero
          obtain ⟨body, rest', hrest, hbody⟩ := exists_wrap hfour hfront hzero
          exact absurd hbody (hno body rest' hrest)
        · -- The reader has been moved back.
          have hneg : frontInt rest - 5 < 0 := by omega
          by_cases hout : q + frontInt rest < 1
          · have hhuge : ¬rest.length - frontInt rest + 1 < 2 ^ 31 := fun hin ↦
              hback ⟨hfour, by omega, hout, hin⟩
            have hwrapped : (br.advance ((4 : ℕ) + (frontInt rest - 5))).size < 1 := by
              obtain ⟨k, hk⟩ := toInt32_eq (br.size - ((4 : ℕ) + (frontInt rest - 5)))
              have hkhi := toInt32_lt (br.size - ((4 : ℕ) + (frontInt rest - 5)))
              have hsz := h.size_eq
              have hsmall := h.small
              have hle := h.le_length
              have hrest := h.length_le
              show toInt32 _ < 1
              omega
            obtain ⟨m, hm⟩ := @readBsonByte_short block _ hwrapped
            exact ⟨m, _, unpackBody_no_end hread hm⟩
          · obtain ⟨behind, hbehind⟩ := h.back
              (show 0 ≤ br.ptr + ((4 : ℕ) + (frontInt rest - 5)) by omega) (by omega)
            refine unpackBody_raised hread hbehind fun _ ↦ ?_
            obtain ⟨m, br', hm⟩ := @unpackFields_negative block bound
              ⟨(br.advance (4 : ℕ)).ptr,
                frontInt rest - 5⟩ array hbound (unpackDict block bound) .empty hneg
            exact ⟨m, congrArg Prod.fst hm⟩
  · obtain ⟨m, hm⟩ := h.readRaw_short (Nat.lt_of_not_le hfour)
    rw [unpackDict]
    exact ⟨m, br, Failing.bind_error (Failing.bind_error hm)⟩

end Nested

/-! ## All fields -/

section Fields

variable {block rest : List UInt8} {e bound depth off : ℕ} {br : BsonReader} {array : Bool}

theorem BsonType.inner_eq_some {type : BsonType} {inner : Bool} (h : type.inner = some inner) :
    type = if inner then .array else .document := by
  cases type <;> cases h <;> rfl

theorem unpackValue_nested {dict : Bool → BsonDecode LuaData} {type : BsonType} {inner : Bool}
    (h : type.inner = some inner) : unpackValue block dict type.code = dict inner := by
  rw [unpackValue, BsonType.ofCode?_code]
  cases type <;> cases h <;> rfl

theorem inner_of_ofCode? {type : BsonType} (h : type.inner = none) :
    type ≠ .document ∧ type ≠ .array := by
  constructor <;> rintro rfl <;> cases h

/-- The fields of a table are decoded. -/
theorem Fields.unpack {fields : List (LuaScalar × LuaData)} (hf : Fields array rest fields)
    (h : br.Shows block e rest) (hbound : rest.length < bound) (hdepth : rest.length < depth)
    (t : LuaTable) :
    ∃ br', unpackFields block (unpackDict block depth) array bound t br =
      (.ok (t.fill fields), br') := by
  induction hf generalizing e br bound depth t with
  | nil =>
    obtain ⟨bound, rfl⟩ := Nat.exists_eq_succ_of_ne_zero (Nat.ne_of_gt (Nat.zero_lt_of_lt hbound))
    exact ⟨br, unpackFields_nil h⟩
  | @scalar array key rest type v n fields hkey hv _ ih =>
    obtain ⟨bound, rfl⟩ := Nat.exists_eq_succ_of_ne_zero (Nat.ne_of_gt (Nat.zero_lt_of_lt hbound))
    have hbehind := h.behindKey
    have hle := scalarOf_le hv
    have hvalue := unpackValue_of_scalarOf hbehind (unpackDict block depth) hv
    simp only [List.length_cons, List.length_append] at hbound hdepth
    rw [unpackFields_cons h hkey, Failing.bind_ok hvalue, LuaTable.fill_cons]
    exact ih (hbehind.advance hle) (by rw [List.length_drop]; omega)
      (by rw [List.length_drop]; omega) _
  | @nested array inner key body rest type inside fields hkey htype hsmall _ _ ihin ih =>
    obtain ⟨bound, rfl⟩ := Nat.exists_eq_succ_of_ne_zero (Nat.ne_of_gt (Nat.zero_lt_of_lt hbound))
    obtain ⟨depth, rfl⟩ := Nat.exists_eq_succ_of_ne_zero (Nat.ne_of_gt (Nat.zero_lt_of_lt hdepth))
    have hbehind := h.behindKey
    simp only [List.length_cons, List.length_append, length_wrap] at hbound hdepth
    obtain ⟨br₁, hin⟩ := @ihin _ depth depth _ hbehind.inside (by omega) (by omega) LuaTable.empty
    have hvalue : unpackDict block (depth + 1) inner (br.advance (key.length + 2 : ℕ)) =
        (.ok (tableOf inside),
          (br.advance (key.length + 2 : ℕ)).advance (body.length + 5 : ℕ)) := by
      rw [unpackDict_wrap hbehind hsmall, hin]
      rfl
    have hnext := hbehind.advance (show body.length + 5 ≤ (wrap body ++ rest).length by
      rw [List.length_append, length_wrap]
      omega)
    rw [List.drop_left' (length_wrap body)] at hnext
    rw [unpackFields_cons h hkey, unpackValue_nested htype, Failing.bind_ok hvalue,
      LuaTable.fill_cons]
    exact ih hnext (by omega) (by omega) _

theorem unpackDict_fields {body : List UInt8} {inner : Bool} {inside : List (LuaScalar × LuaData)}
    (h : br.Shows block e (wrap body ++ rest)) (hsmall : body.length + 5 < 2 ^ 31)
    (hin : Fields inner body inside) (hdepth : body.length < depth) :
    unpackDict block (depth + 1) inner br =
      (.ok (tableOf inside), br.advance (body.length + 5 : ℕ)) := by
  obtain ⟨br₁, hunpack⟩ := hin.unpack h.inside hdepth hdepth .empty
  rw [unpackDict_wrap h hsmall, hunpack]
  rfl

theorem BsonReader.Shows.behindDict {body : List UInt8} (h : br.Shows block e (wrap body ++ rest)) :
    (br.advance (body.length + 5 : ℕ)).Shows block e rest := by
  have hnext := h.advance (show body.length + 5 ≤ (wrap body ++ rest).length by
    rw [List.length_append, length_wrap]
    omega)
  rwa [List.drop_left' (length_wrap body)] at hnext

/-- The decoder looks at a byte outside of the block. -/
theorem Strays.unpack (hs : Strays off rest) (h : br.Shows block e rest) (hoff : br.ptr = off)
    (hbound : rest.length < bound) (hdepth : rest.length < depth) (array : Bool) (t : LuaTable) :
    ∃ br', unpackFields block (unpackDict block depth) array bound t br =
      (.error .outside, br') := by
  induction hs generalizing e br bound depth array t with
  | @scalar off n key rest type v hkey hv _ ih =>
    obtain ⟨bound, rfl⟩ := Nat.exists_eq_succ_of_ne_zero (Nat.ne_of_gt (Nat.zero_lt_of_lt hbound))
    have hbehind := h.behindKey
    have hle := scalarOf_le hv
    have hvalue := unpackValue_of_scalarOf hbehind (unpackDict block depth) hv
    simp only [List.length_cons, List.length_append] at hbound hdepth
    rw [unpackFields_cons h hkey, Failing.bind_ok hvalue]
    refine ih (hbehind.advance hle) ?_ (by rw [List.length_drop]; omega)
      (by rw [List.length_drop]; omega) _ _
    show br.ptr + (key.length + 2 : ℕ) + n = _
    omega
  | @nested off inner key body rest type inside hkey htype hsmall hin _ ih =>
    obtain ⟨bound, rfl⟩ := Nat.exists_eq_succ_of_ne_zero (Nat.ne_of_gt (Nat.zero_lt_of_lt hbound))
    obtain ⟨depth, rfl⟩ := Nat.exists_eq_succ_of_ne_zero (Nat.ne_of_gt (Nat.zero_lt_of_lt hdepth))
    have hbehind := h.behindKey
    simp only [List.length_cons, List.length_append, length_wrap] at hbound hdepth
    have hvalue := unpackDict_fields hbehind hsmall hin (show body.length < depth by omega)
    rw [unpackFields_cons h hkey, unpackValue_nested htype, Failing.bind_ok hvalue]
    refine ih hbehind.behindDict ?_ (by omega) (by omega) _ _
    show br.ptr + (key.length + 2 : ℕ) + (body.length + 5 : ℕ) = _
    omega
  | @inside off inner key body rest type hkey htype hsmall _ ih =>
    obtain ⟨bound, rfl⟩ := Nat.exists_eq_succ_of_ne_zero (Nat.ne_of_gt (Nat.zero_lt_of_lt hbound))
    obtain ⟨depth, rfl⟩ := Nat.exists_eq_succ_of_ne_zero (Nat.ne_of_gt (Nat.zero_lt_of_lt hdepth))
    have hbehind := h.behindKey
    simp only [List.length_cons, List.length_append, length_wrap] at hbound hdepth
    obtain ⟨br₁, hunpack⟩ := @ih _ depth depth _ hbehind.inside (by
      show br.ptr + (key.length + 2 : ℕ) + 4 = _
      omega) (by omega) (by omega) inner .empty
    rw [unpackFields_cons h hkey, unpackValue_nested htype]
    exact ⟨_, Failing.bind_error (unpackDict_error hbehind hsmall hunpack)⟩
  | @here off inner key rest type hkey htype hback =>
    obtain ⟨bound, rfl⟩ := Nat.exists_eq_succ_of_ne_zero (Nat.ne_of_gt (Nat.zero_lt_of_lt hbound))
    obtain ⟨depth, rfl⟩ := Nat.exists_eq_succ_of_ne_zero (Nat.ne_of_gt (Nat.zero_lt_of_lt hdepth))
    have hbehind := h.behindKey
    obtain ⟨br', hvalue⟩ := @unpackDict_back block rest e depth _ inner hbehind (off +
        (key.length + 2))
      (by
        show br.ptr + (key.length + 2 : ℕ) = _
        omega) hback
    rw [unpackFields_cons h hkey, unpackValue_nested htype]
    exact ⟨br', Failing.bind_error hvalue⟩

/-- Bytes that are not fields and do not stray: an error is raised. -/
theorem unpackFields_cases (h : br.Shows block e rest) (hoff : br.ptr = off)
    (hbound : rest.length < bound) (hdepth : rest.length < depth) (hlen : rest.length + 1 < 2 ^ 31)
    (array : Bool) (t : LuaTable) :
    (∃ fields, Fields array rest fields) ∨ Strays off rest ∨
      ∃ m br', unpackFields block (unpackDict block depth) array bound t br =
        (.error (.raised m), br') := by
  -- on the bytes that are left: those behind a field are fewer, and so are those inside a nested
  -- document
  induction hn : rest.length using Nat.strongRecOn generalizing rest e br off bound
    depth array t with
  | _ n ih =>
    obtain ⟨bound, rfl⟩ := Nat.exists_eq_succ_of_ne_zero (Nat.ne_of_gt (Nat.zero_lt_of_lt hbound))
    obtain ⟨depth, rfl⟩ := Nat.exists_eq_succ_of_ne_zero (Nat.ne_of_gt (Nat.zero_lt_of_lt hdepth))
    cases rest with
    | nil => exact .inl ⟨[], .nil⟩
    | cons bt more =>
      -- without a zero byte the key never ends
      rcases cstring_cases more with ⟨key, rest, rfl, hkey⟩ | hno
      · have hbehind := h.behindKey
        have hptr : (br.advance (key.length + 2 : ℕ)).ptr = (off + (key.length + 2) : ℕ) := by
          show br.ptr + (key.length + 2 : ℕ) = _
          omega
        simp only [List.length_cons, List.length_append] at hbound hdepth hlen hn
        have hstep := @unpackFields_cons block rest key e bound br t array bt
            (unpackDict block (depth + 1))
          h hkey
        cases hcode : BsonType.ofCode? bt with
        | none =>
          refine .inr (.inr ⟨_, _, hstep.trans (Failing.bind_error (unpackValue_unknown hcode _))⟩)
        | some type =>
          obtain rfl := BsonType.code_of_ofCode? hcode
          cases hinner : type.inner with
          | none =>
            obtain ⟨hdocument, harray⟩ := inner_of_ofCode? hinner
            have hvalue := unpackValue_scalar hbehind (unpackDict block (depth + 1))
                hdocument harray
            cases hv : scalarOf type rest with
            | none =>
              rw [hv] at hvalue
              obtain ⟨m, br', hm⟩ := hvalue
              exact .inr (.inr ⟨m, br', hstep.trans (Failing.bind_error hm)⟩)
            | some p =>
              obtain ⟨v, k⟩ := p
              have hle := scalarOf_le hv
              rw [hv] at hvalue
              rw [hstep, Failing.bind_ok hvalue]
              have hdrop : (rest.drop k).length = rest.length - k := List.length_drop
              have hptr' : ((br.advance (key.length + 2 : ℕ)).advance k).ptr =
                  (off + (key.length + 2) + k : ℕ) := by
                show (br.advance (key.length + 2 : ℕ)).ptr + k = _
                omega
              rcases ih _ (by omega) (hbehind.advance hle) hptr' (show _ < bound by omega)
                (show _ < depth + 1 by omega) (by omega) array
                  (t.set (fieldKey array key) v) hdrop with
                    ⟨fields, hf⟩ | hs | hraised
              · exact .inl ⟨_, .scalar hkey hv hf⟩
              · exact .inr (.inl (.scalar hkey hv hs))
              · exact .inr (.inr hraised)
          | some inner =>
            rw [hstep, unpackValue_nested hinner]
            by_cases hdict : ∃ body rest', rest = wrap body ++ rest' ∧ body.length + 5 < 2 ^ 31
            · obtain ⟨body, rest, rfl, hsmall⟩ := hdict
              rw [List.length_append, length_wrap] at hbound hdepth hlen hn
              have hin : (⟨(br.advance (key.length + 2 : ℕ)).ptr + 4, body.length⟩ :
                  BsonReader).ptr =
                  (off + (key.length + 2) + 4 : ℕ) := by
                show (br.advance (key.length + 2 : ℕ)).ptr + 4 = _
                omega
              rcases ih body.length (by omega) hbehind.inside hin (show body.length <
                  depth by omega)
                (show body.length < depth by omega) (by omega) inner .empty rfl with
                ⟨inside, hf⟩ | hs | ⟨m, br', hm⟩
              · have hvalue :=
                  unpackDict_fields hbehind hsmall hf (show body.length < depth by omega)
                rw [Failing.bind_ok hvalue]
                have hptr' : ((br.advance (key.length + 2 : ℕ)).advance (body.length + 5 : ℕ)).ptr =
                    (off + (key.length + 2) + (body.length + 5) : ℕ) := by
                  show (br.advance (key.length + 2 : ℕ)).ptr + (body.length + 5 : ℕ) = _
                  omega
                rcases ih rest.length (by omega) hbehind.behindDict hptr' (show _ < bound by omega)
                  (show _ < depth + 1 by omega) (by omega) array
                      (t.set (fieldKey array key) (tableOf inside)) rfl with ⟨fields,
                        hf'⟩ | hs | hraised
                · exact .inl ⟨_, .nested hkey hinner hsmall hf hf'⟩
                · exact .inr (.inl (.nested hkey hinner hsmall hf hs))
                · exact .inr (.inr hraised)
              · exact .inr (.inl (.inside hkey hinner hsmall hs))
              · exact .inr (.inr ⟨m, _, Failing.bind_error (unpackDict_error hbehind hsmall hm)⟩)
            · -- a stated length that is no document here leads back, outside, or to an error
              by_cases hback : LeadsBack (off + (key.length + 2)) rest
              · exact .inr (.inl (.here hkey hinner hback))
              · obtain ⟨m, br', hm⟩ := @unpackDict_other block rest e depth _ inner hbehind
                  (off + (key.length + 2)) hptr (by omega) (fun _ ↦ by omega)
                  (fun body rest' hrest hsmall ↦ hdict ⟨body, rest', hrest, hsmall⟩) hback
                exact .inr (.inr ⟨m, br', Failing.bind_error hm⟩)
      · exact .inr (.inr (unpackFields_no_key h hno))

end Fields

end ZTask
