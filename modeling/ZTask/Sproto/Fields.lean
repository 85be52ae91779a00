import ZTask.Sproto.Arrays

/-!
# Fields

What `sproto_encode` makes of a field, before its record is put into the header.

## Which function encodes a field

An array goes to `encode_array`, a string or a struct to `encode_object`, and an integer or a
boolean is answered by the callback and goes into the record of the field if it is small enough.
Each of the three has its lemma, and `encodeField_comes` collects them.
-/

namespace ZTask

open Lib

variable {n : ℕ} {conv : LuaConversion} {types : Fin n → SprotoType n} {f : SprotoField n}
  {block block' : Lib.Block UInt8} {off size left : ℕ} {table : LuaPairs} {self ud : EncodeUd}
  {sub : Fin n → LuaPairs → SprotoDraft}

/-! ## Arrays -/

private theorem elementsDraft_comes (h : FieldReady table f self) {pairs : LuaPairs} {rawlen : ℕ}
    {metapairs : Option LuaPairs} (hget : getfield table f.name = .table pairs rawlen metapairs)
    (hcb : EncodesTables types (encode conv types left) sub) (hroomy : Roomy block off size)
    (hmax : size < encodeMaxsize) :
    (elementsDraft conv sub f (arrayItems f pairs)).Comes sprotoExits size
      (ArrayDone block off (self.entered f pairs 0))
      (encodeElements (encode conv types (left + 1)) ⟨f, 0, 0, 0⟩ self block off size) := by
  have hitems : arrayItems f pairs = [] ++ arrayItems f pairs := rfl
  have hfuel : size < (size : ℤ).toNat + 1 := by omega
  have hmax' : 0 + size < encodeMaxsize := by omega
  unfold elementsDraft encodeElements
  dsimp only
  cases hk : f.kind with
  | integer => exact encodeIntegerArray_comes h hget hk hroomy
  | boolean => exact booleanArrayLoop_comes h hget hk hroomy hitems rfl hfuel hmax'
  | _ =>
    have hkind : f.kind ≠ .integer ∧ f.kind ≠ .boolean := by
      rw [hk]
      exact ⟨fun heq ↦ (by cases heq), fun heq ↦ (by cases heq)⟩
    exact objectArrayLoop_comes h hget hkind hcb hroomy hitems rfl hfuel hmax'

theorem fetch_noArray (h : FieldReady table f self) (hget : getfield table f.name = .scalar .nil)
    (value : ℕ) (length : ℤ) :
    encode conv types (left + 1) ⟨f, 1, value, length⟩ self block =
      .ok (.noArray, { self with arrayTag := some f.tag, array := [] }, block) := by
  have hother : self.arrayTag ≠ some f.tag := fun heq ↦ Nat.lt_irrefl _ (h.other _ heq)
  have hget' : getfield self.table f.name = .scalar .nil := by rw [h.table, hget]
  rw [encode, EncodeUd.fetch, if_pos (Nat.one_pos), EncodeUd.enter]
  dsimp only
  rw [if_neg hother, hget']
  rfl

private theorem fetch_notArray (h : FieldReady table f self) {s : LuaScalar} (hs : s ≠ .nil)
    (hget : getfield table f.name = .scalar s) (value : ℕ) (length : ℤ) :
    encode conv types (left + 1) ⟨f, 1, value, length⟩ self block =
      .error (.raised (.notArray f.name 1 (LuaObject.scalar s).typename)) := by
  have hother : self.arrayTag ≠ some f.tag := fun heq ↦ Nat.lt_irrefl _ (h.other _ heq)
  have hget' : getfield self.table f.name = .scalar s := by rw [h.table, hget]
  rw [encode, EncodeUd.fetch, if_pos (Nat.one_pos), EncodeUd.enter]
  dsimp only
  rw [if_neg hother, hget']
  cases s with
  | nil => exact absurd rfl hs
  | _ => rfl

/-- **`encode_array`** -/
theorem encodeArray_comes (h : FieldReady table f self)
    (hcb : EncodesTables types (encode conv types left) sub) (hroomy : Roomy block off size) :
    (arrayDraft conv sub f (getfield table f.name)).Comes sprotoExits size
    (ValueDone table f block off)
      (encodeArray (encode conv types (left + 1)) ⟨f, 0, 0, 0⟩ self block off size) := by
  have hfit := hroomy.fits
  have hsmall := hroomy.small
  cases hget : getfield table f.name with
  | table pairs rawlen metapairs =>
    rw [encodeArray, arrayDraft]
    by_cases hsize : (size : ℤ) < 4
    · rw [if_pos hsize]
      exact .noRoom (show size < 4 + _ by omega)
    · rw [if_neg hsize]
      dsimp only
      rw [show (size : ℤ) - 4 = (size - 4 : ℕ) by omega]
      have helements := @elementsDraft_comes _ conv types f block (off + 4)
          (size - 4) left table self sub h
        _ _ _ hget hcb (hroomy.drop rfl (by omega)) (by omega)
      refine .framed (by omega) helements fun r xs _ hxs hpost ↦ ?_
      obtain ⟨last, ud, block₁⟩ := r
      obtain ⟨rfl, rfl, hfilled⟩ :
        last = some (off + 4 + xs.length) ∧ ud = _ ∧ Filled block (off + 4) block₁ xs := hpost
      obtain ⟨block', hfill, hfilled'⟩ := fillSize_eq hfilled (by omega)
      dsimp only
      rw [Nat.add_sub_cancel_left, hfill]
      exact ⟨_, rfl, rfl, h.entered pairs, hfilled'⟩
  | scalar s =>
    by_cases hs : s = .nil
    · -- there is no array, and nothing is written
      obtain rfl := hs
      have hfirst : ∀ value length, encode conv types (left + 1) ⟨f, 1, value, length⟩ self block =
          (Except.ok ({ self with arrayTag := some f.tag, array := [] }, block)).map
            (.noArray, ·) :=
        fetch_noArray h hget
      rw [encodeArray_first hfirst]
      simp only [Int.ofNat_lt]
      refine .guard fun hroom ↦ .wrote (Nat.zero_le _) rfl
        ⟨rfl, ⟨h.table, h.iter, fun tag htag ↦ ?_⟩, .nil block off⟩
      obtain rfl := Option.some.inj htag
      exact Nat.le_refl _
    · have hfirst : ∀ value length, encode conv types (left + 1) ⟨f, 1, value, length⟩ self block =
          (Except.error (.raised (.notArray f.name 1 (LuaObject.scalar s).typename))).map
            (.noArray, ·) :=
        fetch_notArray h hs hget
      rw [encodeArray_first hfirst]
      simp only [Int.ofNat_lt]
      have hdraft : arrayDraft conv sub f (.scalar s) =
          (Draft.raise (.notArray f.name 1 (LuaObject.scalar s).typename)).atLeast
            (arrayRoom f) := by
        cases s with
        | nil => exact absurd rfl hs
        | _ => rfl
      rw [hdraft]
      exact .guard fun _ ↦ .raised (Nat.zero_le _) rfl

/-! ## Values -/

/-- What the callback does with a field that is no array. -/
theorem encode_single (h : FieldReady table f self) {v : LuaObject}
    (hget : getfield table f.name = v) (value : ℕ) (length : ℤ) :
    encode conv types (left + 1) ⟨f, 0, value, length⟩ self block =
      if v.isNil then .ok (.nil, self, block)
      else encodeValue conv (encode conv types left) types ⟨f, 0, value, length⟩ v self block := by
  have hfetch : self.fetch ⟨f, 0, value, length⟩ = .ok (some v, self) := by
    rw [EncodeUd.fetch, if_neg (Nat.lt_irrefl 0)]
    dsimp only
    rw [h.table, hget]
  by_cases hnil : v.isNil = true
  · rw [if_pos hnil]
    exact encode_nil hfetch hnil
  · rw [if_neg hnil]
    exact encode_value hfetch (Bool.of_not_eq_true hnil)

/-- **`encode_object`** -/
theorem encodeObject_comes (h : FieldReady table f self)
    (hkind : f.kind ≠ .integer ∧ f.kind ≠ .boolean)
    (hcb : EncodesTables types (encode conv types left) sub) (hroomy : Roomy block off size)
    {v : LuaObject} (hget : getfield table f.name = v) :
    (if v.isNil then (Draft.text []).atLeast 4
    else withLength (itemDraft conv sub f 0 v)).Comes sprotoExits
      size (ValueDone table f block off)
      (encodeObject (encode conv types (left + 1)) ⟨f, 0, 0, 0⟩ self block off size) := by
  have hfit := hroomy.fits
  rw [encodeObject]
  by_cases hsize : (size : ℤ) < 4
  · rw [if_pos hsize]
    refine .noRoom ?_
    split
    · show size < 4
      omega
    · show size < 4 + _
      omega
  · rw [if_neg hsize]
    dsimp only
    rw [encode_single h hget]
    by_cases hnil : v.isNil = true
    · rw [if_pos hnil, if_pos hnil]
      exact .wrote (by show 4 ≤ size; omega) rfl ⟨rfl, h.fieldLeft, .nil block off⟩
    · rw [if_neg hnil, if_neg hnil, show (size : ℤ) - 4 = (size - 4 : ℕ) by omega]
      have hitem := @encodeValue_item _ conv types _ block (off + 4) (size - 4) _ _ hcb hkind
        (hroomy.drop rfl (by omega)) 0 v self
      refine .framed (by omega) hitem fun r xs _ hxs hpost ↦ ?_
      obtain ⟨answer, ud, block₁⟩ := r
      obtain ⟨rfl, rfl, hfilled⟩ : answer = _ ∧ ud = _ ∧ Filled block (off + 4) block₁ xs := hpost
      obtain ⟨block', hfill, hfilled'⟩ := fillSize_eq hfilled (by omega)
      dsimp only
      rw [if_neg (by omega), hfill]
      exact ⟨_, rfl, rfl, h.fieldLeft, hfilled'⟩

/-! ## The whole field -/

/-- What becomes of a field: nothing, or a record with its value, which stands behind the header if
the value in the record is zero. -/
def FieldDone (table : LuaPairs) (f : SprotoField n) (record : Option ℕ)
    (block : Lib.Block UInt8) (off : ℕ)
    (r : FieldAnswer × EncodeUd × Lib.Block UInt8) (xs : List UInt8) : Prop :=
  FieldLeft table f r.2.1 ∧ Filled block off r.2.2 xs ∧
    ((record = none ∧ xs = [] ∧ (r.1 = .absent ∨ r.1 = .encoded 0 0)) ∨
      ∃ value sz, record = some value ∧ r.1 = .encoded value sz ∧ sz ≠ 0 ∧
        xs.length = if value = 0 then sz else 0)

/-- An integer or a boolean takes four bytes or eight. -/
theorem scalarAnswer_size {index : ℕ} {v : LuaObject} {a : EncodeAnswer}
    (h : scalarAnswer conv f index v = .ok a) : ∃ u, a = .size 4 u ∨ a = .size 8 u := by
  unfold scalarAnswer at h
  split at h
  · split at h
    · cases h
    · cases h
      rw [integerAnswer]
      split
      · exact ⟨_, .inl rfl⟩
      · exact ⟨_, .inr rfl⟩
  · split at h
    · cases h
      exact ⟨_, .inl rfl⟩
    · cases h

private theorem encodeScalar_comes (h : FieldReady table f self)
    (hkind : f.kind = .integer ∨ f.kind = .boolean)
    (hroomy : Roomy block off size) {v : LuaObject} (hget : getfield table f.name = v)
    (hnil : ¬v.isNil = true) {index : ℕ} {lasttag : ℤ} {p : SprotoDraft} {value : ℕ}
    (hp : ∀ e, scalarAnswer conv f 0 v = .error e → p = .raise e)
    (hp' : ∀ a, scalarAnswer conv f 0 v = .ok a → p = .text (scalarBytes a) ∧
    value = recordValue a) :
    p.Comes sprotoExits size (FieldDone table f (some value) block off)
      (encodeScalar (encode conv types (left + 1)) ⟨f, 0, 0, 0⟩
        ⟨block, self, off, size, index, lasttag⟩) := by
  rw [encodeScalar]
  dsimp only
  rw [encode_single h hget, if_neg hnil]
  cases hanswer : scalarAnswer conv f 0 v with
  | error e =>
    rw [hp e hanswer, encodeValue_error hkind hanswer]
    exact .raised (Nat.zero_le _) rfl
  | ok a =>
    obtain ⟨rfl, rfl⟩ := hp' a hanswer
    rw [encodeValue_ok hkind hanswer, Sproto.ok_bind]
    dsimp only
    obtain ⟨u, rfl | rfl⟩ := scalarAnswer_size hanswer
    · dsimp only
      rw [if_pos rfl, scalarBytes, recordValue]
      by_cases hu : u < 0x7fff
      · -- the value goes into the record
        rw [if_pos hu, if_pos hu, if_pos hu]
        refine .wrote (Nat.zero_le _) rfl ⟨h.fieldLeft, .nil block off,
          .inr ⟨_, 2, rfl, rfl, by decide, ?_⟩⟩
        rw [if_neg (by omega)]
        rfl
      · rw [if_neg hu, if_neg hu, if_neg hu]
        refine (encodeNumber_comes hroomy (by decide) u).map fun r xs hout _ hpost ↦ ?_
        obtain ⟨hfilled, hlen⟩ := hpost
        refine ⟨_, rfl, h.fieldLeft, hfilled, .inr ⟨_, _, rfl, rfl, ?_, ?_⟩⟩
        · cases hout
          rw [hlen, List.length_append, length_toLittle]
          omega
        · rw [if_pos rfl, hlen]
    · dsimp only
      rw [if_neg (by decide), if_pos rfl, scalarBytes]
      refine (encodeNumber_comes hroomy (Nat.le_refl 8) u).map fun r xs hout _ hpost ↦ ?_
      obtain ⟨hfilled, hlen⟩ := hpost
      refine ⟨_, rfl, h.fieldLeft, hfilled, .inr ⟨0, _, rfl, rfl, ?_, ?_⟩⟩
      · cases hout
        rw [hlen, List.length_append, length_toLittle]
        omega
      · rw [if_pos rfl, hlen]

theorem length_withLength {p : SprotoDraft} {xs : List UInt8} (h : (withLength p).out = .ok xs) :
    4 ≤ xs.length := by
  obtain ⟨ys, -, rfl⟩ := Draft.framed_out_eq_ok.mp h
  rw [List.length_append, length_toLittle]
  exact Nat.le_add_right 4 _

/-- Nothing is written for nil, and four bytes at least for a value that has its length in front. -/
theorem FieldDone.of_valueDone {r : ℕ × EncodeUd × Lib.Block UInt8} {xs : List UInt8}
    {v : LuaObject} (h : ValueDone table f block off r xs)
    (hout : v.isNil = true ∧ xs = [] ∨ v.isNil = false ∧ 4 ≤ xs.length) :
    FieldDone table f (if v.isNil then none else some 0) block off (.encoded 0 r.1, r.2.1,
      r.2.2) xs := by
  obtain ⟨hlen, hleft, hfilled⟩ := h
  refine ⟨hleft, hfilled, ?_⟩
  rcases hout with ⟨hnil, rfl⟩ | ⟨hnil, hfour⟩
  · rw [if_pos hnil]
    refine .inl ⟨rfl, rfl, .inr ?_⟩
    rw [hlen]
    rfl
  · rw [hnil, if_neg Bool.false_ne_true]
    exact .inr ⟨0, r.1, rfl, rfl, by omega, by rw [if_pos rfl, hlen]⟩

private theorem arrayDraft_out {v : LuaObject} {xs : List UInt8}
    (h : (arrayDraft conv sub f v).out = .ok xs) :
    v.isNil = true ∧ xs = [] ∨ v.isNil = false ∧ 4 ≤ xs.length := by
  cases v with
  | table pairs rawlen metapairs => exact .inr ⟨rfl, length_withLength h⟩
  | scalar s =>
    cases s with
    | nil =>
      cases h
      exact .inl ⟨rfl, rfl⟩
    | _ => cases h

variable {index : ℕ} {lasttag : ℤ}

private theorem objectDraft_out {v : LuaObject} {p : SprotoDraft} {xs : List UInt8}
    (h : (if v.isNil then (Draft.text []).atLeast 4 else withLength p).out = .ok xs) :
    v.isNil = true ∧ xs = [] ∨ v.isNil = false ∧ 4 ≤ xs.length := by
  by_cases hnil : v.isNil = true
  · rw [if_pos hnil] at h
    cases h
    exact .inl ⟨hnil, rfl⟩
  · rw [if_neg hnil] at h
    exact .inr ⟨Bool.of_not_eq_true hnil, length_withLength h⟩

/-- An integer or a boolean, or nil instead of it. -/
theorem encodeScalar_field (h : FieldReady table f self)
    (hkind : f.kind = .integer ∨ f.kind = .boolean)
    (hroomy : Roomy block off size) {v : LuaObject} (hget : getfield table f.name = v)
    {p : SprotoDraft} {value : ℕ} (hp : ∀ e, scalarAnswer conv f 0 v = .error e → p = .raise e)
    (hp' : ∀ a, scalarAnswer conv f 0 v = .ok a → p = .text (scalarBytes a) ∧
    value = recordValue a) :
    (if v.isNil then .text [] else p).Comes sprotoExits size
      (FieldDone table f (if v.isNil then none else some value) block off)
      (encodeScalar (encode conv types (left + 1)) ⟨f, 0, 0, 0⟩
        ⟨block, self, off, size, index, lasttag⟩) := by
  by_cases hnil : v.isNil = true
  · rw [if_pos hnil, if_pos hnil, encodeScalar]
    dsimp only
    rw [encode_single h hget, if_pos hnil]
    exact .wrote (Nat.zero_le _) rfl ⟨h.fieldLeft, .nil block off, .inl ⟨rfl, rfl, .inl rfl⟩⟩
  · rw [if_neg hnil, if_neg hnil]
    exact encodeScalar_comes h hkind hroomy hget hnil hp hp'

/-- **A field, with the callback for its values.** -/
theorem encodeField_comes (h : FieldReady table f self)
    (hcb : EncodesTables types (encode conv types left) sub) (hroomy : Roomy block off size) :
    (fieldDraft conv sub table f).Comes sprotoExits size
      (FieldDone table f (fieldRecord conv table f) block off)
      (encodeField (encode conv types (left + 1)) f ⟨block, self, off, size, index, lasttag⟩) := by
  obtain ⟨v, hget⟩ : ∃ v, getfield table f.name = v := ⟨_, rfl⟩
  rw [fieldDraft, fieldRecord, encodeField, hget]
  dsimp only
  by_cases harray : f.array = true
  · rw [if_pos harray, if_pos harray, if_pos harray]
    have hcomes := encodeArray_comes h hcb hroomy
    rw [hget] at hcomes
    exact hcomes.map fun r xs hout _ hpost ↦ ⟨_, rfl, .of_valueDone hpost (arrayDraft_out hout)⟩
  · rw [if_neg harray, if_neg harray, if_neg harray]
    have hobject : f.kind ≠ .integer ∧ f.kind ≠ .boolean → _ := fun hkind ↦
      encodeObject_comes h hkind hcb hroomy hget
    cases hk : f.kind with
    | integer =>
      refine encodeScalar_field h (.inl hk) hroomy hget (fun e he ↦ by rw [he]) fun a ha ↦ ?_
      rw [ha]
      exact ⟨rfl, rfl⟩
    | boolean =>
      refine encodeScalar_field h (.inr hk) hroomy hget (fun e he ↦ by rw [he]) fun a ha ↦ ?_
      rw [ha]
      exact ⟨rfl, rfl⟩
    | _ =>
      rw [hk] at hobject
      refine (hobject ⟨fun heq ↦ (by cases heq), fun heq ↦ (by cases heq)⟩).map
        fun r xs hout _ hpost ↦ ?_
      exact ⟨_, rfl, .of_valueDone hpost (objectDraft_out hout)⟩

/-- A field of a table that is too deep. -/
theorem encodeField_deep (f : SprotoField n) (table : LuaPairs) (block : Lib.Block UInt8)
    (self : EncodeUd) :
    (deepDraft f).Comes sprotoExits size (FieldDone table f none block off)
      (encodeField (encode conv types 0) f ⟨block, self, off, size, index, lasttag⟩) := by
  have hdeep : ∀ arg, encode conv types 0 arg self block = .error (.raised .tooDeep) := fun _ ↦ rfl
  rw [encodeField, deepDraft]
  dsimp only
  by_cases harray : f.array = true
  · have hfirst : ∀ value length, encode conv types 0 ⟨f, 1, value, length⟩ self block =
        (Except.error (.raised .tooDeep)).map (.noArray, ·) := fun _ _ ↦ rfl
    rw [if_pos harray, if_pos harray, encodeArray_first hfirst]
    simp only [Int.ofNat_lt]
    by_cases hsize : size < arrayRoom f
    · rw [if_pos hsize]
      exact .noRoom (by show size < max (arrayRoom f) 0; omega)
    · rw [if_neg hsize]
      exact .raised (by show max (arrayRoom f) 0 ≤ size; omega) rfl
  · rw [if_neg harray, if_neg harray]
    have hobject : ((Draft.raise .tooDeep).atLeast 4 : SprotoDraft).Comes sprotoExits size
        (fun _ _ ↦ False)
        (encodeObject (encode conv types 0) ⟨f, 0, 0, 0⟩ self block off size) := by
      rw [encodeObject]
      by_cases hsize : (size : ℤ) < 4
      · rw [if_pos hsize]
        exact .noRoom (by show size < 4; omega)
      · rw [if_neg hsize, hdeep]
        exact .raised (by show 4 ≤ size; omega) rfl
    cases hk : f.kind with
    | integer => exact .raised (Nat.zero_le _) rfl
    | boolean => exact .raised (Nat.zero_le _) rfl
    | _ => exact hobject.map fun r xs _ _ hfalse ↦ hfalse.elim

end ZTask
