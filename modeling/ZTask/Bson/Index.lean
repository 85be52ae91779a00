import ZTask.Bson.Safety

/-!
# The index of a document

`lmakeindex` goes over the fields of a document once more, with lengths of its own for what it
skips, and notes for each field of a fixed size where its value is. The place and the type are
packed into one `int`.

A field is one of a document at a place if the bytes in front of it are fields (`FieldAt`); what
`lmakeindex` notes are such fields (`Fields.indexed`). A field whose length is negative gives back
bytes that have been read, to the fields behind it. So the fields in front of a place look at bytes
behind it; but none of them at bytes of the value there, if it is of a fixed size
(`FieldAt.replace`).
-/

namespace ZTask

open Lib

attribute [local irreducible] toInt32

/-! ## The functions of the index -/

/-- `field_size` of `lmakeindex`; zero for a value that is not indexed. -/
def BsonType.fieldSize : BsonType → ℕ
  | .int64 | .timestamp | .date | .real => 8
  | .boolean => 1
  | .objectId => 12
  | .int32 => 4
  | _ => 0

/-- The table of `lmakeindex`. -/
abbrev BsonIndex := List UInt8 → Option ℤ

/-- What is noted for a value of type `bt` at the pointer: the type below the place, in an `int`. -/
def indexId (bt : UInt8) (p : ℤ) : ℤ :=
  toInt32 (bt.toNat ||| (p % 2 ^ 32).toNat <<< 5 : ℕ)

section Functions

variable (block : List UInt8)

/-- The `switch` of `lmakeindex`: what it passes of the value, and `field_size`. -/
def skipValue (bt : UInt8) : BsonDecode ℕ :=
  match BsonType.ofCode? bt with
  | some .int64 => return BsonType.int64.fieldSize
  | some .timestamp => return BsonType.timestamp.fieldSize
  | some .date => return BsonType.date.fieldSize
  | some .real => return BsonType.real.fieldSize
  | some .boolean => return BsonType.boolean.fieldSize
  | some .jsCode | some .symbol | some .string => skipCounted fun sz ↦ sz
  | some .codeWs | some .array | some .document => skipCounted fun sz ↦ toInt32 (sz - 4)
  | some .binary => skipCounted fun sz ↦ toInt32 (sz + 1)
  | some .objectId => return BsonType.objectId.fieldSize
  | some .minKey | some .maxKey | some .null => return 0
  | some .regex => do
    let _ ← readCstring block
    let _ ← readCstring block
    return 0
  | some .int32 => return BsonType.int32.fieldSize
  | some .dbPointer => skipCounted fun sz ↦ toInt32 (sz + 12)
  | some .undefined | none => bsonRaise (.invalidType bt)
where
  skipCounted (length : ℤ → ℤ) : BsonDecode ℕ := do
    let sz ← readInt32 block
    let _ ← readBytes (length sz)
    return 0

/-- What `lmakeindex` does behind the `switch`. -/
def noteField (bt : UInt8) (key : List UInt8) (index : BsonIndex) (size : ℕ) :
    BsonDecode BsonIndex :=
  if 0 < size then do
    let p ← readerPtr
    let _ ← readBytes size
    return Function.update index key (some (indexId bt p))
  else return index

/-- The loop of `lmakeindex`. -/
def indexFields : ℕ → BsonIndex → BsonDecode BsonIndex
  | 0, _ => Failing.fail .unbounded
  | bound + 1, index => fun br ↦
    if br.size = 0 then (.ok index, br)
    else
      (do
        let bt ← readBsonByte block
        let key ← readCstring block
        let size ← skipValue block bt
        let index ← noteField bt key index size
        indexFields bound index) br

/-- `lmakeindex`: the table that the userdata is given. -/
def lmakeindex : Except BsonError BsonIndex := do
  let len ← bsonLength block
  (indexFields block (block.length + 1) (fun _ ↦ none) ⟨4, toInt32 (len - 5)⟩).1

end Functions

/-! ## Skipping values -/

/-- For the types whose length may be negative: how many bytes there are more than it says. -/
def BsonType.counted : BsonType → Option ℕ
  | .dbPointer => some 16
  | .jsCode | .symbol => some 4
  | .codeWs => some 0
  | _ => none

private theorem scalarOf_counted {type : BsonType} {extra : ℕ} (h : type.counted = some extra) :
    scalarOf type = countedOf type extra := by
  cases type <;> cases h <;> rfl

theorem fixedOf_eq_some {n k : ℕ} {value : List UInt8 → LuaScalar} {rest : List UInt8} {v : LuaData}
    (h : fixedOf n value rest = some (v, k)) : k = n := by
  rw [fixedOf] at h
  split_ifs at h
  cases h
  rfl

theorem scalarOf_fieldSize {type : BsonType} {rest : List UInt8} {v : LuaData} {n : ℕ}
    (hsize : 0 < type.fieldSize) (h : scalarOf type rest = some (v, n)) : n = type.fieldSize := by
  cases type with
  | real | boolean | objectId | date | int32 | timestamp | int64 =>
    rw [scalarOf] at h
    exact fixedOf_eq_some h
  | string | document | array | binary | undefined | null | regex | dbPointer | jsCode
      | symbol | codeWs
    | minKey | maxKey => exact absurd hsize (Nat.lt_irrefl 0)

section Skip

variable {block rest key : List UInt8} {e n : ℕ} {br : BsonReader} {type : BsonType} {v : LuaData}

private theorem skipValue_fixed (hsize : 0 < type.fieldSize) :
    skipValue block type.code br = (.ok type.fieldSize, br) := by
  rw [skipValue, BsonType.ofCode?_code]
  cases type with
  | real | boolean | objectId | date | int32 | timestamp | int64 => rfl
  | string | document | array | binary | undefined | null | regex | dbPointer | jsCode
      | symbol | codeWs
    | minKey | maxKey => exact absurd hsize (Nat.lt_irrefl 0)

theorem BsonReader.Shows.skipCounted (h : br.Shows block e rest) (hfour : 4 ≤ rest.length)
    {length : ℤ → ℤ} {n : ℕ} (hlength : length (frontInt rest) = n - 4) (hn : n ≤ rest.length) :
    skipValue.skipCounted block length br = (.ok 0, br.advance n) := by
  have hsize := (h.advance hfour).size_eq
  rw [List.length_drop] at hsize
  have hread := readBytes (show (n : ℤ) - 4 ≤ (br.advance (4 : ℕ)).size by omega)
  rw [h.advance_advance hfour] at hread
  have hsum : ((4 : ℕ) : ℤ) + ((n : ℤ) - 4) = n := by omega
  rw [hsum] at hread
  rw [skipValue.skipCounted, Failing.bind_ok (h.readInt32 hfour), hlength]
  exact Failing.bind_ok hread

theorem BsonReader.Shows.skip_counted {extra : ℕ} (h : br.Shows block e rest)
    (hv : countedOf type extra rest = some (v, n)) {length : ℤ → ℤ}
    (hlength : ∀ sz : ℤ, -2 ^ 31 ≤ sz → sz < 2 ^ 31 → -2 ^ 31 ≤ sz + extra - 4 →
      sz + extra - 4 < 2 ^ 31 → length sz = sz + extra - 4) :
    skipValue.skipCounted block length br = (.ok 0, br.advance n) := by
  have hsmall := h.small
  have hle := h.le_length
  have hrest := h.length_le
  have hlo : -2 ^ 31 ≤ frontInt rest := toInt32_ge _
  have hhi : frontInt rest < 2 ^ 31 := toInt32_lt _
  rw [countedOf] at hv
  split_ifs at hv with hfits
  obtain ⟨hfour, hnonneg, hfits⟩ := hfits
  cases hv
  refine h.skipCounted hfour ?_ (by omega)
  rw [hlength _ hlo hhi (by omega) (by omega)]
  omega

/-- Two C strings are passed. -/
theorem BsonReader.Shows.skip_regex (h : br.Shows block e rest) (hv : regexOf rest = some (v, n)) :
    (ZTask.readCstring block >>= fun _ ↦ ZTask.readCstring block >>= fun _ ↦
    (pure 0 : BsonDecode ℕ)) br =
      (.ok 0, br.advance n) := by
  rcases cstring_cases rest with ⟨r1, rest₁, rfl, h1⟩ | hno
  · rw [regexOf, splitCstring_append _ h1] at hv
    rcases cstring_cases rest₁ with ⟨r2, rest₂, rfl, h2⟩ | hno
    · simp only [splitCstring_append _ h2, Option.some.injEq, Prod.mk.injEq] at hv
      have hone : r1.length + 1 ≤ (r1 ++ 0 :: (r2 ++ 0 :: rest₂)).length := by
        rw [List.length_append, List.length_cons]
        omega
      have hdrop : (r1 ++ 0 :: (r2 ++ 0 :: rest₂)).drop (r1.length + 1) = r2 ++ 0 :: rest₂ := by
        rw [← List.drop_drop, List.drop_left]
        rfl
      have hbehind := h.advance hone
      rw [hdrop] at hbehind
      have hmove := h.advance_advance hone (r2.length + 1 : ℕ)
      rw [← Int.natCast_add, hv.2] at hmove
      rw [Failing.bind_ok (h.readCstring h1), Failing.bind_ok (hbehind.readCstring h2), hmove]
      rfl
    · simp only [splitCstring_none hno] at hv
      cases hv
  · rw [regexOf, splitCstring_none hno] at hv
    cases hv

/-- A scalar value that is not indexed is passed. -/
theorem skipValue_variable (h : br.Shows block e rest) (hsize : type.fieldSize = 0)
    (hv : scalarOf type rest = some (v, n)) :
    skipValue block type.code br = (.ok 0, br.advance n) := by
  have hsmall := h.small
  have hle := h.le_length
  have hrest := h.length_le
  have hzero : br.advance (0 : ℕ) = br := by
    have hbr := h.size_eq
    rw [BsonReader.advance, Int.natCast_zero, Int.add_zero, Int.sub_zero,
      toInt32_of_lt (by omega) (by omega)]
  rw [skipValue, BsonType.ofCode?_code]
  cases type with
  | real | boolean | objectId | date | int32 | timestamp | int64 => cases hsize
  | document | array | undefined => cases hv
  | minKey | maxKey | null =>
    rw [scalarOf] at hv
    rw [fixedOf_eq_some hv, hzero]
    rfl
  | jsCode | symbol =>
    rw [scalarOf] at hv
    exact h.skip_counted hv fun sz _ _ _ _ ↦ by omega
  | codeWs =>
    rw [scalarOf] at hv
    refine h.skip_counted hv fun sz _ _ hlo hhi ↦ ?_
    rw [Int.natCast_zero, Int.add_zero] at hlo hhi ⊢
    exact toInt32_of_lt hlo hhi
  | dbPointer =>
    rw [scalarOf] at hv
    refine h.skip_counted hv fun sz _ _ hlo hhi ↦ ?_
    have hsum : sz + ((16 : ℕ) : ℤ) - 4 = sz + 12 := by omega
    rw [hsum] at hlo hhi ⊢
    exact toInt32_of_lt hlo hhi
  | string =>
    rw [scalarOf, stringOf] at hv
    split_ifs at hv with hfits
    cases hv
    exact h.skipCounted hfits.1 (by omega) (by omega)
  | binary =>
    rw [scalarOf, binaryOf] at hv
    split_ifs at hv with hfits
    cases hv
    refine h.skipCounted (by omega) ?_ (by omega)
    rw [toInt32_of_lt (by omega) (by omega)]
    omega
  | regex =>
    rw [scalarOf] at hv
    exact h.skip_regex hv

/-- A nested document is passed. -/
theorem skipValue_wrap {body : List UInt8} {inner : Bool} (h : br.Shows block e (wrap body ++ rest))
    (htype : type.inner = some inner) (hsmall : body.length + 5 < 2 ^ 31) :
    skipValue block type.code br = (.ok 0, br.advance (body.length + 5 : ℕ)) := by
  have hlen : (wrap body ++ rest).length = body.length + 5 + rest.length := by
    rw [List.length_append, length_wrap]
  have hskip : skipValue.skipCounted block (fun sz ↦ toInt32 (sz - 4)) br =
      (.ok 0, br.advance (body.length + 5 : ℕ)) := by
    refine h.skipCounted (by omega) ?_ (by omega)
    rw [frontInt_wrap hsmall, toInt32_of_lt (by omega) (by omega)]
  rw [skipValue, BsonType.ofCode?_code, BsonType.inner_eq_some htype]
  cases inner with
  | false => exact hskip
  | true => exact hskip

end Skip

/-! ## Fields at a place -/

/-- Fields that begin with the bytes `front` and the fields `before`, and then have the value `v` in
the bytes `value`, of a type and under a key; `post` are the bytes behind it, and `behind` their
fields. The fields in front may look at bytes behind what they use up. -/
inductive FieldAt (array : Bool) (key : List UInt8) (type : BsonType) (value post : List UInt8)
    (v : LuaData) (behind : List (LuaScalar × LuaData)) :
    List UInt8 → List (LuaScalar × LuaData) → Prop
  | here : 0 ∉ key → scalarOf type (value ++ post) = some (v, value.length) →
    Fields array post behind →
      FieldAt array key type value post v behind (type.code :: (key ++ [0])) []
  | scalar {key' used front : List UInt8} {type' : BsonType} {v' : LuaData}
      {before : List (LuaScalar × LuaData)} :
      0 ∉ key' → scalarOf type' (used ++ (front ++ (value ++ post))) = some (v', used.length) →
      FieldAt array key type value post v behind front before →
      FieldAt array key type value post v behind (type'.code :: (key' ++ 0 :: (used ++ front)))
        ((fieldKey array key', v') :: before)
  | nested {inner : Bool} {key' body front : List UInt8} {type' : BsonType}
      {inside before : List (LuaScalar × LuaData)} :
      0 ∉ key' → type'.inner = some inner → body.length + 5 < 2 ^ 31 → Fields inner body inside →
      FieldAt array key type value post v behind front before →
      FieldAt array key type value post v behind (type'.code :: (key' ++ 0 :: (wrap body ++ front)))
        ((fieldKey array key', tableOf inside) :: before)

section FieldAt

variable {array : Bool} {key value value' post front : List UInt8} {type : BsonType} {v w : LuaData}
  {before behind : List (LuaScalar × LuaData)}

theorem FieldAt.value_eq (h : FieldAt array key type value post v behind front before) :
    scalarOf type (value ++ post) = some (v, value.length) := by
  induction h with
  | here _ hv _ => exact hv
  | scalar _ _ _ ih => exact ih
  | nested _ _ _ _ _ ih => exact ih

theorem FieldAt.two_le (h : FieldAt array key type value post v behind front before) :
    2 ≤ front.length := by
  cases h <;> simp only [List.length_cons, List.length_append, List.length_nil] <;> omega

/-- Either there is a field in front, or the type is what comes next. -/
theorem FieldAt.front_cases (h : FieldAt array key type value post v behind front before) :
    4 ≤ front.length ∨ front.head? = some type.code := by
  cases h with
  | here => exact .inr rfl
  | scalar _ _ hfield =>
    have htwo := hfield.two_le
    refine .inl ?_
    simp only [List.length_cons, List.length_append]
    omega
  | nested _ _ _ _ hfield =>
    have htwo := hfield.two_le
    refine .inl ?_
    simp only [List.length_cons, List.length_append]
    omega

end FieldAt

/-! ## What a value depends on -/

section Local

variable {xs ys ys' : List UInt8} {type : BsonType} {v : LuaData} {n : ℕ}

private theorem frontInt_append (h : 4 ≤ xs.length) (ys : List UInt8) :
    frontInt (xs ++ ys) = frontInt xs := by
  rw [frontInt, frontInt, List.take_append_of_le_length h]

private theorem take_drop_append {i j : ℕ} (h : i + j ≤ xs.length) (ys : List UInt8) :
    ((xs ++ ys).drop i).take j = (xs.drop i).take j := by
  rw [List.drop_append_of_le_length (by omega), List.take_append_of_le_length]
  rw [List.length_drop]
  omega

private theorem fixedOf_congr {k : ℕ} {value : List UInt8 → LuaScalar}
    (hall : (xs ++ ys').length = (xs ++ ys).length) (hn : k ≤ xs.length) :
    fixedOf k value (xs ++ ys') = fixedOf k value (xs ++ ys) := by
  rw [fixedOf, fixedOf, hall, List.take_append_of_le_length hn, List.take_append_of_le_length hn]

private theorem countedOf_congr {extra : ℕ} (hall : (xs ++ ys').length = (xs ++ ys).length)
    (hfour : 4 ≤ xs.length) (hv : countedOf type extra (xs ++ ys) = some (v, n))
    (hn : n ≤ xs.length) :
    countedOf type extra (xs ++ ys') = some (v, n) := by
  rw [countedOf, frontInt_append hfour] at hv ⊢
  split_ifs at hv with hfits
  cases hv
  rw [if_pos (hall ▸ hfits)]
  dsimp only
  rw [List.take_append_of_le_length hn, List.take_append_of_le_length hn]

private theorem stringOf_congr (hall : (xs ++ ys').length = (xs ++ ys).length)
    (hv : stringOf (xs ++ ys) = some (v, n)) (hn : n ≤ xs.length) :
    stringOf (xs ++ ys') = some (v, n) := by
  have hfour : 4 ≤ xs.length := by
    rw [stringOf] at hv
    split_ifs at hv
    cases hv
    omega
  rw [stringOf, frontInt_append hfour] at hv ⊢
  split_ifs at hv with hfits
  cases hv
  rw [if_pos (hall ▸ hfits), take_drop_append (by omega), take_drop_append (by omega)]

private theorem binaryOf_congr (hall : (xs ++ ys').length = (xs ++ ys).length)
    (hv : binaryOf (xs ++ ys) = some (v, n)) (hn : n ≤ xs.length) :
    binaryOf (xs ++ ys') = some (v, n) := by
  have hfour : 4 ≤ xs.length := by
    rw [binaryOf] at hv
    split_ifs at hv
    cases hv
    omega
  rw [binaryOf, frontInt_append hfour] at hv ⊢
  split_ifs at hv with hfits
  cases hv
  rw [if_pos (hall ▸ hfits), take_drop_append (by omega), take_drop_append (by omega)]

/-- Where a C string ends does not depend on what follows. -/
theorem splitCstring_congr {key rest : List UInt8} (h : splitCstring (xs ++ ys) = some (key, rest))
    (hlen : key.length + 1 ≤ xs.length) :
    ∃ zs, xs = key ++ 0 :: zs ∧ 0 ∉ key := by
  rcases cstring_cases (xs ++ ys) with ⟨key', rest', hsplit, hkey⟩ | hno
  · rw [hsplit, splitCstring_append _ hkey] at h
    cases h
    have htake := congrArg (List.take (key.length + 1)) hsplit
    rw [List.take_append_of_le_length hlen, ← List.singleton_append, ← List.append_assoc,
      List.take_left' (by rw [List.length_append, List.length_singleton])] at htake
    refine ⟨xs.drop (key.length + 1), ?_, hkey⟩
    rw [← List.singleton_append, ← List.append_assoc, ← htake, List.take_append_drop]
  · rw [splitCstring_none hno] at h
    cases h

private theorem regexOf_congr (hv : regexOf (xs ++ ys) = some (v, n)) (hn : n ≤ xs.length) :
    regexOf (xs ++ ys') = some (v, n) := by
  cases h1 : splitCstring (xs ++ ys) with
  | none =>
    rw [regexOf, h1] at hv
    cases hv
  | some first =>
    obtain ⟨r1, rest₁⟩ := first
    cases h2 : splitCstring rest₁ with
    | none =>
      simp only [regexOf, h1, h2] at hv
      cases hv
    | some second =>
      obtain ⟨r2, rest₂⟩ := second
      simp only [regexOf, h1, h2, Option.some.injEq, Prod.mk.injEq] at hv
      obtain ⟨rfl, rfl⟩ := hv
      obtain ⟨zs₁, rfl, hr1⟩ := splitCstring_congr h1 (by omega)
      rw [List.append_assoc, List.cons_append, splitCstring_append _ hr1] at h1
      cases h1
      simp only [List.length_append, List.length_cons] at hn
      obtain ⟨zs₂, rfl, hr2⟩ := splitCstring_congr h2 (by omega)
      have hsplit₁ : r1 ++ 0 :: (r2 ++ 0 :: zs₂) ++ ys' = r1 ++ 0 :: (r2 ++ 0 :: (zs₂ ++ ys')) := by
        simp only [List.append_assoc, List.cons_append]
      rw [hsplit₁, regexOf, splitCstring_append _ hr1]
      dsimp only
      rw [splitCstring_append _ hr2]

/-- A value depends on the bytes that it uses up, on a length in front that it gives back, and on
how many bytes there are. -/
theorem scalarOf_congr (hlen : ys'.length = ys.length) (hv : scalarOf type (xs ++ ys) = some (v, n))
    (hn : n ≤ xs.length) (hfour : type.counted ≠ none → 4 ≤ xs.length) :
    scalarOf type (xs ++ ys') = some (v, n) := by
  have hall : (xs ++ ys').length = (xs ++ ys).length := by
    rw [List.length_append, List.length_append, hlen]
  cases type with
  | document | array | undefined => cases hv
  | string =>
    rw [scalarOf] at hv ⊢
    exact stringOf_congr hall hv hn
  | binary =>
    rw [scalarOf] at hv ⊢
    exact binaryOf_congr hall hv hn
  | regex =>
    rw [scalarOf] at hv ⊢
    exact regexOf_congr hv hn
  | dbPointer | jsCode | symbol | codeWs =>
    rw [scalarOf] at hv ⊢
    exact countedOf_congr hall (hfour (by rintro ⟨⟩)) hv hn
  | real | boolean | objectId | date | minKey | maxKey | null | int32 | timestamp | int64 =>
    rw [scalarOf] at hv ⊢
    obtain rfl := fixedOf_eq_some hv
    rwa [fixedOf_congr hall hn]

end Local

/-! ## Bytes that are given back -/

section Back

variable {used rest : List UInt8} {type : BsonType} {v : LuaData} {n extra : ℕ}

/-- If most of the length is given back, then it is negative, or zero: what comes next is one of its
bytes, and no type of a fixed size. -/
theorem countedOf_few (hextra : type.counted = some extra)
    (hv : countedOf type extra rest = some (v, n))
    (hn : n ≤ 1) : ∃ b, rest[n]? = some b ∧ (b = 0 ∨ 0xF0 ≤ b) := by
  rw [countedOf] at hv
  split_ifs at hv with hfits
  obtain ⟨hfour, hnonneg, -⟩ := hfits
  cases hv
  generalize hz : (frontInt rest + extra).toNat = n at hn
  have hfront : frontInt rest = n - extra := by omega
  have hlen : (rest.take 4).length = 4 := by
    rw [List.length_take]
    omega
  have hlt := ofLittle_lt (rest.take 4)
  have hback := toLittle_ofLittle (rest.take 4)
  rw [hlen] at hlt hback
  obtain ⟨k, hk⟩ := toInt32_eq (ofLittle (rest.take 4))
  rw [frontInt] at hfront
  have hbytes : rest.take 4 = toLittle 4 (((n : ℤ) - extra) % 2 ^ 32).toNat := by
    rw [← hback]
    congr 1
    omega
  have hget : rest[n]? = (toLittle 4 (((n : ℤ) - extra) % 2 ^ 32).toNat)[n]? := by
    rw [← hbytes, List.getElem?_take_of_lt (by omega)]
  rw [hget]
  -- six lengths are left, whose bytes are known
  have htwo : n = 0 ∨ n = 1 := by omega
  have hthree : extra = 0 ∨ extra = 4 ∨ extra = 16 := by
    cases type <;> cases hextra
    · exact .inr (.inr rfl)
    · exact .inr (.inl rfl)
    · exact .inr (.inl rfl)
    · exact .inl rfl
  rcases htwo with rfl | rfl <;> rcases hthree with rfl | rfl | rfl <;> exact ⟨_, rfl, by decide⟩

theorem code_of_fieldSize (h : 0 < type.fieldSize) : type.code ≠ 0 ∧ type.code.toNat < 2 ^ 5 := by
  cases type with
  | real | boolean | objectId | date | int32 | timestamp | int64 => decide
  | string | document | array | binary | undefined | null | regex | dbPointer | jsCode
      | symbol | codeWs
    | minKey | maxKey => exact absurd h (Nat.lt_irrefl 0)

variable {array : Bool} {key value post front : List UInt8} {type' : BsonType} {v' : LuaData}
  {before behind : List (LuaScalar × LuaData)}

/-- A length that is given back is in front of the value that is at the place. -/
theorem FieldAt.four_le (h : FieldAt array key type value post v behind front before)
    (hsize : 0 < type.fieldSize)
    (hv : scalarOf type' (used ++ (front ++ rest)) = some (v', used.length))
    (hcounted : type'.counted ≠ none) : 4 ≤ (used ++ front).length := by
  have htwo := h.two_le
  rw [List.length_append]
  rcases h.front_cases with hfour | hhead
  · omega
  · -- the type comes next, but the next byte is one of the length that has been given back
    by_contra hfew
    obtain ⟨extra, hextra⟩ := Option.ne_none_iff_exists'.mp hcounted
    rw [scalarOf_counted hextra] at hv
    obtain ⟨b, hb, hcode⟩ := countedOf_few hextra hv (by omega)
    have hnext : (used ++ (front ++ rest))[used.length]? = some type.code := by
      rw [List.getElem?_append_right (Nat.le_refl _), Nat.sub_self, ← List.head?_eq_getElem?]
      exact (List.head?_append_of_ne_nil _ (List.ne_nil_of_length_pos (by omega))).trans hhead
    have hbyte : b = type.code := Option.some.inj (hb.symm.trans hnext)
    have htype := code_of_fieldSize hsize
    rw [hbyte] at hcode
    rcases hcode with hzero | hbig
    · exact htype.1 hzero
    · have hbig := UInt8.le_iff_toNat_le.mp hbig
      exact Nat.lt_irrefl _ (Nat.lt_of_lt_of_le htype.2 (Nat.le_trans (by decide) hbig))

/-- Other bytes that are a value of the same type, and as many, are read there; nothing else
changes. -/
theorem FieldAt.replace {value' : List UInt8} {w : LuaData}
    (h : FieldAt array key type value post v behind front before) (hsize : 0 < type.fieldSize)
    (hlen : value'.length = value.length)
    (hw : scalarOf type (value' ++ post) = some (w, value'.length)) :
    Fields array (front ++ (value' ++ post)) (before ++ (fieldKey array key, w) :: behind) := by
  -- over the fields in front of the place; each is read as before, whatever the value is
  induction h with
  | here hkey _ hbehind =>
    rw [List.cons_append, List.append_assoc, List.singleton_append, List.nil_append]
    refine .scalar hkey hw ?_
    rwa [List.drop_left]
  | @scalar key' used front type' v' before hkey hv hfield ih =>
    have hall : (value' ++ post).length = (value ++ post).length := by
      rw [List.length_append, List.length_append, hlen]
    have hv' : scalarOf type' (used ++ (front ++ (value' ++ post))) = some (v', used.length) := by
      rw [← List.append_assoc]
      refine scalarOf_congr hall (by rwa [List.append_assoc]) ?_ (hfield.four_le hsize hv)
      rw [List.length_append]
      exact Nat.le_add_right _ _
    rw [List.cons_append, List.append_assoc, List.cons_append, List.append_assoc, List.cons_append]
    refine .scalar hkey hv' ?_
    rwa [List.drop_left]
  | nested hkey hinner hsmall hinside _ ih =>
    rw [List.cons_append, List.append_assoc, List.cons_append, List.append_assoc, List.cons_append]
    exact .nested hkey hinner hsmall hinside ih

theorem FieldAt.fields (h : FieldAt array key type value post v behind front before)
    (hsize : 0 < type.fieldSize) :
    Fields array (front ++ (value ++ post)) (before ++ (fieldKey array key, v) :: behind) :=
  h.replace hsize rfl h.value_eq

end Back

/-! ## Bytes determine what they spell -/

section Unique

variable {body body' rest rest' key key' : List UInt8} {type type' : BsonType}

theorem wrap_inj (h : wrap body = wrap body') : body = body' := by
  have hdrop := congrArg (List.drop 4) h
  rw [← List.append_nil (wrap body), ← List.append_nil (wrap body'), drop_wrap, drop_wrap] at hdrop
  exact (List.append_inj' hdrop rfl).1

theorem wrap_append_inj (hsmall : body.length + 5 < 2 ^ 31) (hsmall' : body'.length + 5 < 2 ^ 31)
    (h : wrap body ++ rest = wrap body' ++ rest') : body = body' ∧ rest = rest' := by
  have hfront := frontInt_wrap hsmall rest
  rw [h, frontInt_wrap hsmall'] at hfront
  obtain ⟨hwrap, hrest⟩ := List.append_inj h (by rw [length_wrap, length_wrap]; omega)
  exact ⟨wrap_inj hwrap, hrest⟩

theorem field_inj (hkey : 0 ∉ key) (hkey' : 0 ∉ key')
    (h : type.code :: (key ++ 0 :: rest) = type'.code :: (key' ++ 0 :: rest')) :
    type = type' ∧ key = key' ∧ rest = rest' := by
  rw [List.cons.injEq] at h
  have htype := congrArg BsonType.ofCode? h.1
  have hsplit := congrArg splitCstring h.2
  rw [BsonType.ofCode?_code, BsonType.ofCode?_code] at htype
  rw [splitCstring_append _ hkey, splitCstring_append _ hkey'] at hsplit
  cases hsplit
  exact ⟨Option.some.inj htype, rfl, rfl⟩

end Unique

/-! ## The loop -/

/-- Among the fields that are at `p` there is one of a fixed size with the key, and `id` is its type
and its place. -/
def IndexedAt (array : Bool) (p : ℕ) (rest key : List UInt8) (id : ℤ) : Prop :=
  ∃ type value post v behind front before, rest = front ++ (value ++ post) ∧
    FieldAt array key type value post v behind front before ∧ 0 < type.fieldSize ∧
    id = indexId type.code (p + front.length : ℕ)

section Loop

variable {block rest key key' : List UInt8} {e n p bound : ℕ} {br : BsonReader} {type : BsonType}
  {v : LuaData} {array : Bool} {index : BsonIndex} {id : ℤ}

/-- A field that is behind a scalar value. -/
theorem IndexedAt.behind_scalar (hkey : 0 ∉ key') (hv : scalarOf type rest = some (v, n))
    (h : IndexedAt array (p + (key'.length + 2) + n) (rest.drop n) key id) :
    IndexedAt array p (type.code :: (key' ++ 0 :: rest)) key id := by
  obtain ⟨type₁, value, post, v₁, behind, front, before, hrest, hfield, hsize, rfl⟩ := h
  have hused : (rest.take n).length = n := by
    rw [List.length_take, Nat.min_eq_left (scalarOf_le hv)]
  have hsplit : rest.take n ++ (front ++ (value ++ post)) = rest := by
    rw [← hrest, List.take_append_drop]
  have hv' : scalarOf type (rest.take n ++ (front ++ (value ++ post))) =
      some (v, (rest.take n).length) := by
    rw [hsplit, hused, hv]
  refine ⟨type₁, value, post, v₁, behind, _, _, ?_, .scalar hkey hv' hfield, hsize, ?_⟩
  · rw [List.cons_append, List.append_assoc, List.cons_append, List.append_assoc, hsplit]
  · congr 2
    simp only [List.length_cons, List.length_append, hused]
    omega

theorem IndexedAt.behind_nested {body : List UInt8} {inner : Bool}
    {inside : List (LuaScalar × LuaData)}
    (hkey : 0 ∉ key') (hinner : type.inner = some inner) (hsmall : body.length + 5 < 2 ^ 31)
    (hinside : Fields inner body inside)
    (h : IndexedAt array (p + (key'.length + 2) + (body.length + 5)) rest key id) :
    IndexedAt array p (type.code :: (key' ++ 0 :: (wrap body ++ rest))) key id := by
  obtain ⟨type₁, value, post, v₁, behind, front, before, rfl, hfield, hsize, rfl⟩ := h
  refine ⟨type₁, value, post, v₁, behind, _, _, ?_,
    .nested hkey hinner hsmall hinside hfield, hsize, ?_⟩
  · rw [List.cons_append, List.append_assoc, List.cons_append, List.append_assoc]
  · congr 2
    simp only [List.length_cons, List.length_append, length_wrap]
    omega

/-- The field that is in front. -/
theorem IndexedAt.front {fields : List (LuaScalar × LuaData)} (hkey : 0 ∉ key)
    (hsize : 0 < type.fieldSize) (hv : scalarOf type rest = some (v, n))
    (hbehind : Fields array (rest.drop n) fields) :
    IndexedAt array p (type.code :: (key ++ 0 :: rest)) key
      (indexId type.code (p + (key.length + 2) : ℕ)) := by
  have hused : (rest.take n).length = n := by
    rw [List.length_take, Nat.min_eq_left (scalarOf_le hv)]
  have hv' : scalarOf type (rest.take n ++ rest.drop n) = some (v, (rest.take n).length) := by
    rw [List.take_append_drop, hused, hv]
  refine ⟨type, rest.take n, rest.drop n, v, fields, _, _, ?_, .here hkey hv' hbehind, hsize, ?_⟩
  · rw [List.take_append_drop, List.cons_append, List.append_assoc, List.singleton_append]
  · congr 2
    rw [List.length_cons, List.length_append, List.length_singleton]

private theorem indexFields_cons {bt : UInt8} (h : br.Shows block e (bt :: (key ++ 0 :: rest)))
    (hkey : 0 ∉ key) :
    indexFields block (bound + 1) index br =
      (skipValue block bt >>= fun size ↦ noteField bt key index size >>= fun index ↦
        indexFields block bound index) (br.advance (key.length + 2 : ℕ)) := by
  have hne : br.size ≠ 0 := by
    rw [h.size_eq, List.length_cons]
    omega
  have hone : 1 ≤ (bt :: (key ++ 0 :: rest)).length := Nat.succ_le_succ (Nat.zero_le _)
  have hmove := h.advance_advance hone (key.length + 1 : ℕ)
  have hsum : ((1 : ℕ) + (key.length + 1 : ℕ) : ℤ) = (key.length + 2 : ℕ) := by omega
  refine (if_neg hne).trans ((Failing.bind_ok h.readBsonByte).trans ?_)
  rw [Failing.bind_ok ((h.advance hone).readCstring hkey), hmove, hsum]

private theorem noteField_zero {bt : UInt8} : noteField bt key index 0 br = (.ok index, br) := rfl

private theorem noteField_pos {bt : UInt8} (h : br.Shows block e rest) (hpos : 0 < n)
    (hle : n ≤ rest.length) :
    noteField bt key index n br =
      (.ok (Function.update index key (some (indexId bt br.ptr))), br.advance n) := by
  rw [noteField, if_pos hpos, Failing.bind_ok (show readerPtr br = (.ok br.ptr, br) from rfl)]
  exact Failing.bind_ok (BsonReader.Shows.readBytes (by rw [h.size_eq]; omega))

/-- The index when a value that begins at `ptr` has been passed. -/
def noted (type : BsonType) (key : List UInt8) (ptr : ℤ) (index : BsonIndex) : BsonIndex :=
  if 0 < type.fieldSize then Function.update index key (some (indexId type.code ptr)) else index

theorem noted_eq_some {ptr : ℤ} {name : List UInt8} (h : noted type key ptr index name = some id) :
    index name = some id ∨ name = key ∧ 0 < type.fieldSize ∧ id = indexId type.code ptr := by
  rw [noted] at h
  by_cases hpos : 0 < type.fieldSize
  · rw [if_pos hpos] at h
    by_cases hname : name = key
    · rw [hname, Function.update_self] at h
      exact .inr ⟨hname, hpos, (Option.some.inj h).symm⟩
    · rw [Function.update_of_ne hname] at h
      exact .inl h
  · rw [if_neg hpos] at h
    exact .inl h

theorem noted_self (hpos : 0 < type.fieldSize) (ptr : ℤ) : noted type key ptr index key ≠ none := by
  rw [noted, if_pos hpos, Function.update_self]
  exact Option.some_ne_none _

private theorem noted_ne_none {name : List UInt8} (h : index name ≠ none) (ptr : ℤ) :
    noted type key ptr index name ≠ none := by
  by_cases hpos : 0 < type.fieldSize
  · by_cases hname : name = key
    · rw [hname]
      exact noted_self hpos ptr
    · rwa [noted, if_pos hpos, Function.update_of_ne hname]
  · rwa [noted, if_neg hpos]

/-- A scalar value in the loop: it is passed, and noted if it is of a fixed size. -/
theorem indexFields_scalar (h : br.Shows block e (type.code :: (key ++ 0 :: rest))) (hkey : 0 ∉ key)
    (hv : scalarOf type rest = some (v, n)) :
    indexFields block (bound + 1) index br =
      indexFields block bound (noted type key (br.ptr + (key.length + 2 : ℕ)) index)
        ((br.advance (key.length + 2 : ℕ)).advance n) := by
  have hbehind := h.behindKey
  rw [indexFields_cons h hkey]
  -- a value of a fixed size is passed by `read_bytes` at the end, any other in the `switch`
  rcases Nat.eq_zero_or_pos type.fieldSize with hzero | hpos
  · rw [Failing.bind_ok (skipValue_variable hbehind hzero hv),
      Failing.bind_ok noteField_zero, noted, if_neg (by omega)]
  · obtain rfl := scalarOf_fieldSize hpos hv
    rw [Failing.bind_ok (skipValue_fixed hpos),
      Failing.bind_ok (noteField_pos hbehind hpos (scalarOf_le hv)), noted, if_pos hpos]
    rfl

/-- A field that is found is the one in front, or behind it. -/
theorem IndexedAt.scalar_cases (hkey : 0 ∉ key') (hv : scalarOf type rest = some (v, n))
    (h : IndexedAt array p (type.code :: (key' ++ 0 :: rest)) key id) :
    key = key' ∧ 0 < type.fieldSize ∨ ∃ q id', IndexedAt array q (rest.drop n) key id' := by
  obtain ⟨type₁, value, post, v₁, behind, front, before, hrest, hfield, hsize, -⟩ := h
  cases hfield with
  | here hkey₁ _ _ =>
    rw [List.cons_append, List.append_assoc, List.singleton_append] at hrest
    obtain ⟨rfl, rfl, -⟩ := field_inj hkey hkey₁ hrest
    exact .inl ⟨rfl, hsize⟩
  | scalar hkey₁ hv₁ hfield =>
    rw [List.cons_append, List.append_assoc, List.cons_append, List.append_assoc] at hrest
    obtain ⟨rfl, rfl, rfl⟩ := field_inj hkey hkey₁ hrest
    cases hv.symm.trans hv₁
    rw [List.drop_left]
    exact .inr ⟨0, _, _, _, _, _, _, _, _, rfl, hfield, hsize, rfl⟩
  | nested hkey₁ hinner =>
    rw [List.cons_append, List.append_assoc, List.cons_append, List.append_assoc] at hrest
    obtain ⟨rfl, rfl, rfl⟩ := field_inj hkey hkey₁ hrest
    cases type <;> cases hinner <;> cases hv

/-- A field that is found is behind a nested document. -/
theorem IndexedAt.nested_cases {body : List UInt8} {inner : Bool} (hkey : 0 ∉ key')
    (hinner : type.inner = some inner) (hsmall : body.length + 5 < 2 ^ 31)
    (h : IndexedAt array p (type.code :: (key' ++ 0 :: (wrap body ++ rest))) key id) :
    ∃ q id', IndexedAt array q rest key id' := by
  obtain ⟨type₁, value, post, v₁, behind, front, before, hrest, hfield, hsize, -⟩ := h
  cases hfield with
  | here hkey₁ hv₁ _ =>
    rw [List.cons_append, List.append_assoc, List.singleton_append] at hrest
    obtain ⟨rfl, rfl, -⟩ := field_inj hkey hkey₁ hrest
    cases type <;> cases hinner <;> cases hv₁
  | scalar hkey₁ hv₁ hfield =>
    rw [List.cons_append, List.append_assoc, List.cons_append, List.append_assoc] at hrest
    obtain ⟨rfl, rfl, -⟩ := field_inj hkey hkey₁ hrest
    cases type <;> cases hinner <;> cases hv₁
  | nested hkey₁ hinner₁ hsmall₁ hinside hfield =>
    rw [List.cons_append, List.append_assoc, List.cons_append, List.append_assoc] at hrest
    obtain ⟨rfl, rfl, hinside⟩ := field_inj hkey hkey₁ hrest
    obtain ⟨rfl, rfl⟩ := wrap_append_inj hsmall hsmall₁ hinside
    exact ⟨0, _, _, _, _, _, _, _, _, rfl, hfield, hsize, rfl⟩

/-- The loop comes to the end of the fields, and notes what is among them: only that, and all of it.
-/
theorem Fields.indexed {fields : List (LuaScalar × LuaData)} (hf : Fields array rest fields)
    (h : br.Shows block e rest) (hptr : br.ptr = p) (hbound : rest.length < bound)
    (index : BsonIndex) :
    ∃ index' br', indexFields block bound index br = (.ok index', br') ∧
      (∀ name id, index' name = some id → index name = some id ∨ IndexedAt array p rest name id) ∧
      (∀ name, index name ≠ none → index' name ≠ none) ∧
      ∀ q name id, IndexedAt array q rest name id → index' name ≠ none := by
  -- on the fields as they stand in the document; a later one of the same key replaces the earlier
  induction hf generalizing e br bound p index with
  | nil =>
    obtain ⟨bound, rfl⟩ := Nat.exists_eq_succ_of_ne_zero (Nat.ne_of_gt (Nat.zero_lt_of_lt hbound))
    have hzero : br.size = 0 := h.size_eq
    refine ⟨index, br, if_pos hzero, fun name id hid ↦ .inl hid, fun name hname ↦ hname, ?_⟩
    rintro q name id ⟨type, value, post, v, behind, front, before, hnil, hfield, -⟩
    have htwo := hfield.two_le
    have hlen := congrArg List.length hnil
    rw [List.length_nil, List.length_append] at hlen
    omega
  | @scalar array key rest type v n fields hkey hv hbehind ih =>
    obtain ⟨bound, rfl⟩ := Nat.exists_eq_succ_of_ne_zero (Nat.ne_of_gt (Nat.zero_lt_of_lt hbound))
    simp only [List.length_cons, List.length_append] at hbound
    have hle := scalarOf_le hv
    have hptr₁ : ((br.advance (key.length + 2 : ℕ)).advance n).ptr =
        (p + (key.length + 2) + n : ℕ) := by
      show br.ptr + (key.length + 2 : ℕ) + n = _
      omega
    obtain ⟨index', br', hloop, honly, hkeeps, hall⟩ := ih (h.behindKey.advance hle) hptr₁
      (show (rest.drop n).length < bound by rw [List.length_drop]; omega)
      (noted type key (br.ptr + (key.length + 2 : ℕ)) index)
    refine ⟨index', br', (indexFields_scalar h hkey hv).trans hloop, fun name id hid ↦ ?_,
      fun name hname ↦ hkeeps name (noted_ne_none hname _), fun q name id hat ↦ ?_⟩
    · rcases honly name id hid with hid₁ | hat
      · -- it is not of a later field: it has been noted now, or before
        rcases noted_eq_some hid₁ with hold | ⟨rfl, hsize, rfl⟩
        · exact .inl hold
        · have hplace : br.ptr + (name.length + 2 : ℕ) = (p + (name.length + 2) : ℕ) := by omega
          rw [hplace]
          exact .inr (.front hkey hsize hv hbehind)
      · exact .inr (.behind_scalar hkey hv hat)
    · rcases hat.scalar_cases hkey hv with ⟨rfl, hsize⟩ | ⟨q', id', hat'⟩
      · exact hkeeps name (noted_self hsize _)
      · exact hall q' name id' hat'
  | @nested array inner key body rest type inside fields hkey hinner hsmall hinside _ _ ih =>
    obtain ⟨bound, rfl⟩ := Nat.exists_eq_succ_of_ne_zero (Nat.ne_of_gt (Nat.zero_lt_of_lt hbound))
    simp only [List.length_cons, List.length_append, length_wrap] at hbound
    have hbehind := h.behindKey
    have hptr₁ : ((br.advance (key.length + 2 : ℕ)).advance (body.length + 5 : ℕ)).ptr =
        (p + (key.length + 2) + (body.length + 5) : ℕ) := by
      show br.ptr + (key.length + 2 : ℕ) + (body.length + 5 : ℕ) = _
      omega
    obtain ⟨index', br', hloop, honly, hkeeps, hall⟩ := ih hbehind.behindDict hptr₁
      (show rest.length < bound by omega) index
    refine ⟨index', br', ?_, fun name id hid ↦ ?_, hkeeps, fun q name id hat ↦ ?_⟩
    · rw [indexFields_cons h hkey, Failing.bind_ok (skipValue_wrap hbehind hinner hsmall),
        Failing.bind_ok noteField_zero, hloop]
    · exact (honly name id hid).imp_right (.behind_nested hkey hinner hsmall hinside)
    · obtain ⟨q', id', hat'⟩ := hat.nested_cases hkey hinner hsmall
      exact hall q' name id' hat'

end Loop

/-- **The index.** `lmakeindex` notes the fields of the document that have a fixed size. -/
theorem lmakeindex_fields {body : List UInt8} {fields : List (LuaScalar × LuaData)}
    (hsmall : body.length + 5 < 2 ^ 31) (hf : Fields false body fields) :
    ∃ index, lmakeindex (wrap body) = .ok index ∧
      (∀ key id, index key = some id → IndexedAt false 4 body key id) ∧
      ∀ key id, IndexedAt false 4 body key id → index key ≠ none := by
  have hlen := length_wrap body
  have hfront := frontInt_wrap hsmall []
  rw [List.append_nil] at hfront
  have hsize : toInt32 (((body.length + 5 : ℕ) : ℤ) - 5) = body.length := by
    rw [toInt32_of_lt (by omega) (by omega)]
    omega
  obtain ⟨index, br', hloop, honly, -, hall⟩ :=
    hf.indexed (shows_wrap hsmall).inside (Int.zero_add 4)
    (show body.length < (wrap body).length + 1 by omega) fun _ ↦ none
  refine ⟨index, ?_, fun key id hid ↦ (honly key id hid).resolve_left (fun hnone ↦ nomatch hnone),
    hall 4⟩
  have hlength : bsonLength (wrap body) = .ok ((body.length + 5 : ℕ) : ℤ) := by
    rw [bsonLength_eq (by omega), hfront]
  rw [lmakeindex, hlength]
  show (indexFields (wrap body) _ _ ⟨4, toInt32 (((body.length + 5 : ℕ) : ℤ) - 5)⟩).1 = _
  rw [hsize]
  exact congrArg Prod.fst hloop

end ZTask
