import ZTask.Lib.Draft
import ZTask.Sproto.Encode

/-!
# What a table becomes

What `sproto_encode` writes for a table, and the room that it takes (`textDraft`): the fields of its
type, with the conversions that Lua makes, arrays up to their first nil, and of maps the values
only.

An array of integers needs eight bytes for each, if one of them needs as many. Room for the first of
these is only looked for after the room that the others take twice is taken off, in `size_t`: if
three or more stand before it, the buffer may be overrun.
-/

namespace ZTask

open Lib

variable {n : ℕ}

abbrev SprotoDraft := Draft UInt8 SprotoMessage

def sprotoExits : Exits SprotoMessage SprotoFault := ⟨.raised, .failed, .outside⟩

/-! ## Items -/

/-- The elements from the index `i` on, up to the first nil. -/
def itemsFrom (pairs : LuaPairs) : ℕ → ℕ → List LuaObject
  | 0, _ => []
  | fuel + 1, i =>
    let v := rawgeti pairs i
    if v.isNil then [] else v :: itemsFrom pairs fuel (i + 1)

/-- The elements of an array. No text is as long as to hold more. -/
def arrayItems (f : SprotoField n) (pairs : LuaPairs) : List LuaObject :=
  if f.key.isSome then valuesOf pairs else itemsFrom pairs encodeMaxsize 1

/-- What the callback answers for an integer or a boolean. -/
def scalarAnswer (conv : LuaConversion) (f : SprotoField n) (index : ℕ) (v : LuaObject) :
    Except SprotoMessage EncodeAnswer :=
  match f.kind with
  | .integer =>
    match conv.tointegerx v with
    | none => .error (.isNot "an integer" f.name index v.typename)
    | some i => .ok (integerAnswer i)
  | _ =>
    match v with
    | .scalar (.boolean b) => .ok (.size 4 (if b then 1 else 0))
    | _ => .error (.isNot "a boolean" f.name index v.typename)

/-- What is written of a string or a struct. -/
def itemDraft (conv : LuaConversion) (sub : Fin n → LuaPairs → SprotoDraft)
    (f : SprotoField n) (index : ℕ) (v : LuaObject) : SprotoDraft :=
  match f.kind with
  | .struct st =>
    match v with
    | .table pairs _ _ => sub st pairs
    | .scalar _ => .raise (.isNot "a table" f.name index v.typename)
  | _ =>
    match conv.tolstring v with
    | none => .raise (.isNot "a string" f.name index v.typename)
    | some bytes => .text bytes

/-- The length stands in front. -/
def withLength (p : SprotoDraft) : SprotoDraft :=
  p.framed 4 (fun xs ↦ toLittle 4 xs.length) fun _ ↦ Nat.le_of_eq (length_toLittle 4 _)

/-! ## Arrays -/

/-- Four bytes are enough. -/
def Narrow (i : Int64) : Prop := -2 ^ 31 ≤ i.toInt ∧ i.toInt < 2 ^ 31

instance (i : Int64) : Decidable (Narrow i) :=
  inferInstanceAs (Decidable (-2 ^ 31 ≤ i.toInt ∧ i.toInt < 2 ^ 31))

def AllNarrow (is : List Int64) : Prop := ∀ i ∈ is, Narrow i

instance (is : List Int64) : Decidable (AllNarrow is) := List.decidableBAll Narrow is

/-- The bytes of an integer. -/
def integerBytes (w : ℕ) (i : Int64) : List UInt8 := toLittle w (i.toInt % 2 ^ 64).toNat

/-- The bytes that each integer of an array takes. -/
def integersWidth (is : List Int64) : ℕ := if AllNarrow is then 4 else 8

/-- An array of integers. -/
def integersText (is : List Int64) : List UInt8 :=
  if is = [] then [] else UInt8.ofNat (integersWidth is) ::
    is.flatMap (integerBytes (integersWidth is))

/-- The room for an array of integers: behind the last one of four bytes there have to be four more.
-/
def integersRoom (is : List Int64) : ℕ :=
  if is = [] then 1 else if AllNarrow is then 4 * is.length + 5 else 8 * is.length + 1

theorem length_integersText_le (is : List Int64) : (integersText is).length ≤ integersRoom is := by
  have hflat : ∀ w, (is.flatMap (integerBytes w)).length = w * is.length := by
    intro w
    induction is with
    | nil => rfl
    | cons i is ih =>
      rw [List.flatMap_cons, List.length_append, ih, integerBytes, length_toLittle,
        List.length_cons, Nat.mul_succ, Nat.add_comm]
  rw [integersText, integersRoom]
  split
  · exact Nat.zero_le _
  · rw [List.length_cons, hflat, integersWidth]
    split
    · omega
    · exact Nat.le_refl _

/-- Three integers of four bytes or more are followed by the first one of eight. -/
def LateWide (is : List Int64) (i : Int64) : Prop := 3 ≤ is.length ∧ AllNarrow is ∧ ¬Narrow i

instance (is : List Int64) (i : Int64) : Decidable (LateWide is i) :=
  inferInstanceAs (Decidable (3 ≤ is.length ∧ AllNarrow is ∧ ¬Narrow i))

/-- An array of integers, with those that have been written. -/
def integersDraft (conv : LuaConversion) (f : SprotoField n) (is : List Int64) :
    List LuaObject → SprotoDraft
  | [] => ⟨integersRoom is, .ok (integersText is), true,
    fun h ↦ by cases h; exact length_integersText_le is⟩
  | v :: vs =>
    match conv.tointegerx v with
    | none =>
      ⟨integersRoom is, .error (.isNot "an integer" f.name (is.length + 1) v.typename), true,
        fun h ↦ by cases h⟩
    | some i => (integersDraft conv f (is ++ [i]) vs).andSteady !decide (LateWide is i)

/-- The items of an array, from an index on, and what is wanted behind them. -/
def itemsDraft (one : ℕ → LuaObject → SprotoDraft) (last : SprotoDraft) :
    ℕ → List LuaObject → SprotoDraft
  | _, [] => last
  | i, v :: vs => (one i v).append (itemsDraft one last (i + 1) vs)

/-- An element of an array of booleans. -/
def booleanDraft (f : SprotoField n) (index : ℕ) : LuaObject → SprotoDraft
  | .scalar (.boolean b) => .text [if b then 1 else 0]
  | v => .raise (.isNot "a boolean" f.name index v.typename)

/-- The elements of an array. -/
def elementsDraft (conv : LuaConversion) (sub : Fin n → LuaPairs → SprotoDraft) (f : SprotoField n)
    (vs : List LuaObject) : SprotoDraft :=
  match f.kind with
  | .integer => integersDraft conv f [] vs
  | .boolean => itemsDraft (booleanDraft f) (.text []) 1 vs
  | _ => itemsDraft (fun i v ↦ withLength (itemDraft conv sub f i v))
      ((Draft.text []).atLeast 4) 1 vs

/-- The room that is wanted before the first element. -/
def arrayRoom (f : SprotoField n) : ℕ :=
  match f.kind with
  | .integer => 5
  | .boolean => 4
  | _ => 8

/-- What is written of an array, if it is one. -/
def arrayDraft (conv : LuaConversion) (sub : Fin n → LuaPairs → SprotoDraft) (f : SprotoField n) :
    LuaObject → SprotoDraft
  | .scalar .nil => (Draft.text []).atLeast (arrayRoom f)
  | .scalar s => (Draft.raise (.notArray f.name 1 (LuaObject.scalar s).typename)).atLeast
      (arrayRoom f)
  | .table pairs _ _ => withLength (elementsDraft conv sub f (arrayItems f pairs))

/-! ## Fields -/

/-- The value in the record of an integer or a boolean. -/
def recordValue : EncodeAnswer → ℕ
  | .size 4 u => if u < 0x7fff then (u + 1) * 2 else 0
  | _ => 0

/-- What is written of an integer or a boolean behind the header. -/
def scalarBytes : EncodeAnswer → List UInt8
  | .size 4 u => if u < 0x7fff then [] else toLittle 4 4 ++ toLittle 4 u
  | .size 8 u => toLittle 4 8 ++ toLittle 8 u
  | _ => []

/-- What is written of a field behind the header. -/
def fieldDraft (conv : LuaConversion) (sub : Fin n → LuaPairs → SprotoDraft) (table : LuaPairs)
    (f : SprotoField n) : SprotoDraft :=
  let v := getfield table f.name
  if f.array then arrayDraft conv sub f v
  else
    match f.kind with
    | .integer | .boolean =>
      if v.isNil then .text []
      else
        match scalarAnswer conv f 0 v with
        | .ok a => .text (scalarBytes a)
        | .error e => .raise e
    | _ => if v.isNil then (Draft.text []).atLeast 4 else withLength (itemDraft conv sub f 0 v)

/-- The value in the record of a field; there is none if the field is nil. -/
def fieldRecord (conv : LuaConversion) (table : LuaPairs) (f : SprotoField n) : Option ℕ :=
  let v := getfield table f.name
  if v.isNil then none
  else if f.array then some 0
  else
    match f.kind with
    | .integer | .boolean => some (((scalarAnswer conv f 0 v).toOption.map recordValue).getD 0)
    | _ => some 0

/-- The callback is called for no field, since the table is too deep. -/
def deepDraft (f : SprotoField n) : SprotoDraft :=
  (Draft.raise .tooDeep).atLeast
    (if f.array then arrayRoom f
    else
      match f.kind with
      | .integer | .boolean => 0
      | _ => 4)

/-! ## Types -/

/-- The words of the header behind the first one, for the tags and values of fields. -/
def recordWords : ℤ → List (ℕ × ℕ) → List ℕ
  | _, [] => []
  | last, (tag, value) :: es =>
    (if last + 1 < tag then [((tag - last - 2) * 2 + 1).toNat] else []) ++ value ::
      recordWords tag es

/-- The fields that have a record. -/
def recordsOf (record : SprotoField n → Option ℕ) (fs : List (SprotoField n)) : List (ℕ × ℕ) :=
  fs.filterMap fun f ↦ (record f).map fun value ↦ (f.tag, value)

/-- The header of a text. -/
def headerText (words : List ℕ) : List UInt8 :=
  toLittle 2 words.length ++ words.flatMap (toLittle 2)

theorem length_headerText (words : List ℕ) : (headerText words).length = 2 + words.length * 2 := by
  have hflat : (words.flatMap (toLittle 2)).length = words.length * 2 := by
    induction words with
    | nil => rfl
    | cons word words ih =>
      rw [List.flatMap_cons, List.length_append, ih, length_toLittle, List.length_cons]
      omega
  rw [headerText, List.length_append, length_toLittle, hflat]

/-- There are no more words than the type provides for: where fields are left out, there may be one
more instead of them. -/
theorem length_recordWords_le (record : SprotoField n → Option ℕ)
    (fs : List (SprotoField n)) {l r : ℤ}
    (hlr : l ≤ r) (hasc : (fs.map SprotoField.tag).Pairwise (· < ·))
    (hr : ∀ f ∈ fs, r < f.tag) (k : ℕ) :
    (recordWords l (recordsOf record fs)).length + k ≤
      SprotoType.maxnLoop r (fs.length + k) fs + if l < r then 1 else 0 := by
  induction fs generalizing l r k with
  | nil =>
    rw [SprotoType.maxnLoop]
    show 0 + k ≤ 0 + k + _
    omega
  | cons f fs ih =>
    rw [List.map_cons, List.pairwise_cons] at hasc
    have hfront : ∀ g ∈ fs, (f.tag : ℤ) < g.tag := by
      intro g hg
      have hlt := hasc.1 g.tag (List.mem_map_of_mem hg)
      omega
    have hf := hr f List.mem_cons_self
    rw [SprotoType.maxnLoop, List.length_cons]
    cases hrec : record f with
    | none =>
      -- the field is left out
      have hskip : recordsOf record (f :: fs) = recordsOf record fs := by
        rw [recordsOf, List.filterMap_cons_none (by rw [hrec]; rfl)]
        rfl
      rw [hskip]
      by_cases hgt : r + 1 < (f.tag : ℤ)
      · rw [if_pos hgt]
        have hrest := ih (show l ≤ f.tag by omega) hasc.2 hfront (k + 2)
        rw [if_pos (by omega)] at hrest
        rw [show fs.length + 1 + k + 1 = fs.length + (k + 2) by omega]
        omega
      · rw [if_neg hgt]
        have hrest := ih (show l ≤ f.tag by omega) hasc.2 hfront (k + 1)
        rw [if_pos (by omega)] at hrest
        rw [show fs.length + 1 + k = fs.length + (k + 1) by omega]
        omega
    | some value =>
      have hput : recordsOf record (f :: fs) = (f.tag, value) :: recordsOf record fs := by
        rw [recordsOf, List.filterMap_cons_some (by rw [hrec]; rfl)]
        rfl
      rw [hput, recordWords, List.length_append, List.length_cons]
      have hgap : (if l + 1 < (f.tag : ℤ) then [((f.tag - l - 2) * 2 + 1).toNat] else []).length ≤
          (if r + 1 < (f.tag : ℤ) then 1 else 0) + if l < r then 1 else 0 := by
        split
        · rw [List.length_singleton]
          split <;> split <;> omega
        · exact Nat.zero_le _
      by_cases hgt : r + 1 < (f.tag : ℤ)
      · have hrest := ih (Int.le_refl f.tag) hasc.2 hfront (k + 2)
        rw [if_neg (Int.lt_irrefl _)] at hrest
        rw [if_pos hgt] at hgap ⊢
        rw [show fs.length + 1 + k + 1 = fs.length + (k + 2) by omega]
        omega
      · have hrest := ih (Int.le_refl f.tag) hasc.2 hfront (k + 1)
        rw [if_neg (Int.lt_irrefl _)] at hrest
        rw [if_neg hgt] at hgap ⊢
        rw [show fs.length + 1 + k = fs.length + (k + 1) by omega]
        omega

/-- The words of the header. -/
def headerWords (record : SprotoField n → Option ℕ) (st : SprotoType n) : List ℕ :=
  recordWords (-1) (recordsOf record st.f)

theorem length_headerWords_le (record : SprotoField n → Option ℕ) (st : SprotoType n) :
    (headerWords record st).length ≤ st.maxn := by
  have h := length_recordWords_le record st.f (Int.le_refl (-1)) st.ascending (fun f _ ↦ by omega) 0
  rwa [if_neg (Int.lt_irrefl _)] at h

private theorem length_header_le (record : SprotoField n → Option ℕ) (st : SprotoType n) :
    (headerText (headerWords record st)).length ≤ 2 + st.maxn * 2 := by
  have h := length_headerWords_le record st
  rw [length_headerText]
  omega

/-- What is written of a table. -/
def structDraft (st : SprotoType n) (record : SprotoField n → Option ℕ)
    (draft : SprotoField n → SprotoDraft) : SprotoDraft :=
  (Draft.all (st.f.map draft)).framed (2 + st.maxn * 2) (fun _ ↦ headerText (headerWords record st))
    fun _ ↦ length_header_le record st

/-- What is written of a table that may be so many tables deep. -/
def textDraft (conv : LuaConversion) (types : Fin n → SprotoType n) :
    ℕ → Fin n → LuaPairs → SprotoDraft
  | 0, st, _ => structDraft (types st) (fun _ ↦ none) deepDraft
  | left + 1, st, table =>
    structDraft (types st) (fieldRecord conv table)
      (fieldDraft conv (textDraft conv types left) table)

/-! ## Types without arrays of integers -/

variable {conv : LuaConversion} {types : Fin n → SprotoType n}
    {sub : Fin n → LuaPairs → SprotoDraft}
  {f : SprotoField n}

theorem itemDraft_steady (hsub : ∀ st table, (sub st table).steady = true) (i : ℕ) (v : LuaObject) :
    (itemDraft conv sub f i v).steady = true := by
  unfold itemDraft
  split
  · split
    · exact hsub _ _
    · rfl
  · split
    · rfl
    · rfl

private theorem itemsDraft_steady {one : ℕ → LuaObject → SprotoDraft} {last : SprotoDraft}
    (hone : ∀ i v, (one i v).steady = true) (hlast : last.steady = true) (i : ℕ)
    (vs : List LuaObject) :
    (itemsDraft one last i vs).steady = true := by
  induction vs generalizing i with
  | nil => exact hlast
  | cons v vs ih => exact Draft.append_steady_of (hone i v) (ih (i + 1))

theorem booleanDraft_steady (i : ℕ) (v : LuaObject) : (booleanDraft f i v).steady = true := by
  unfold booleanDraft
  split
  · rfl
  · rfl

theorem arrayDraft_steady (hsub : ∀ st table, (sub st table).steady = true) (hf : f.kind ≠ .integer)
    (v : LuaObject) : (arrayDraft conv sub f v).steady = true := by
  cases v with
  | scalar s =>
    cases s with
    | _ => rfl
  | table pairs rawlen metapairs =>
    show (elementsDraft conv sub f (arrayItems f pairs)).steady = true
    unfold elementsDraft
    split
    next hkind => exact absurd hkind hf
    next => exact itemsDraft_steady booleanDraft_steady rfl 1 _
    next =>
      refine itemsDraft_steady (fun i v ↦ ?_) rfl 1 _
      exact itemDraft_steady hsub i v

private theorem fieldDraft_steady (hsub : ∀ st table, (sub st table).steady = true)
    (hf : f.array = true → f.kind ≠ .integer) (table : LuaPairs) :
    (fieldDraft conv sub table f).steady = true := by
  rw [fieldDraft]
  by_cases harray : f.array = true
  · rw [if_pos harray]
    exact arrayDraft_steady hsub (hf harray) _
  · rw [if_neg harray]
    split
    · split
      · rfl
      · split
        · rfl
        · rfl
    · split
      · rfl
      · split
        · rfl
        · rfl
    · split
      · rfl
      · exact itemDraft_steady hsub 0 _

theorem textDraft_steady (h : ∀ st, ∀ f ∈ (types st).f, f.array = true →
    f.kind ≠ .integer) (left : ℕ)
    (st : Fin n) (table : LuaPairs) : (textDraft conv types left st table).steady = true := by
  induction left generalizing st table with
  | zero =>
    refine Draft.all_steady fun p hp ↦ ?_
    obtain ⟨f, -, rfl⟩ := List.mem_map.mp hp
    rfl
  | succ left ih =>
    refine Draft.all_steady fun p hp ↦ ?_
    obtain ⟨f, hf, rfl⟩ := List.mem_map.mp hp
    exact fieldDraft_steady ih (h st f hf) table

end ZTask
