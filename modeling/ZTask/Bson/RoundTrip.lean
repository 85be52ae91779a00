import ZTask.Bson.Encodable
import ZTask.Bson.Safety

/-!
# Documents there and back

A document that is encoded is decoded to what its table is read as, provided that no key has a zero
byte in it (`ldecode_lencode`). A zero byte ends the key for the decoder, and it takes what is
behind for the value. So a table that is encoded is given back if and only if no key has a zero byte
and no array has a length that is not its last key (`roundTrips_iff`).

## Fields

A document is a list of fields. `Spells` says that some bytes are one field, whatever is behind
them; so the fields that a loop writes are the fields that are read (`fields_flatten`). The values
are gone through by induction, nested documents and arrays among them (`Supported.spells`).

## What is lost

`NulFree` is asked of the keys at every depth. `Fields.nulFree` is the other direction: a key that
has been decoded has no zero byte, so a table with such a key is not given back. Room for the
document is needed where the encoder is to return at all; that the capacity stays an `int` is
`HasRoom`, and without it neither a document nor an error comes (`roundTrips_iff`).
-/

namespace ZTask

open Lib

variable {realText : UInt64 → List UInt8} {pairs : List (LuaScalar × BsonObject)}
  {elements : List BsonObject} {key bytes doc : List UInt8} {left : ℕ} {v : BsonObject}
  {array : Bool}

/-! ## Fields one after the other -/

/-- The bytes are one field in front of any others. -/
def Spells (array : Bool) (bytes : List UInt8) (field : LuaScalar × LuaData) : Prop :=
  ∀ rest fields, Fields array rest fields → Fields array (bytes ++ rest) (field :: fields)

/-- The fields of a loop. -/
theorem fields_flatten {α : Type} {f : α → BsonLayout}
    {field : α → LuaScalar × LuaData} {as : List α}
    {xss : List (List UInt8)} (h : List.Forall₂ (fun p xs ↦ p.out = .ok xs) (as.map f) xss)
    (hsmall : xss.flatten.length < 2 ^ 31)
    (hspells : ∀ a ∈ as, ∀ xs, (f a).out = .ok xs → xs.length < 2 ^ 31 →
    Spells array xs (field a)) :
    Fields array xss.flatten (as.map field) := by
  induction as generalizing xss with
  | nil =>
    cases h
    exact .nil
  | cons a as ih =>
    rw [List.map_cons] at h
    cases h with
    | @cons _ xs _ xss hxs h =>
      rw [List.flatten_cons, List.length_append] at hsmall
      rw [List.flatten_cons, List.map_cons]
      exact hspells a List.mem_cons_self xs hxs (by omega) _ _
        (ih h (by omega) fun b hb ↦ hspells b (List.mem_cons_of_mem _ hb))

private theorem spells_nested {type : BsonType} {inner : Bool} {body : List UInt8}
    {inside : List (LuaScalar × LuaData)} (htype : type.inner = some inner) (hkey : 0 ∉ key)
    (hsmall : body.length + 5 < 2 ^ 31) (hinside : Fields inner body inside) :
    Spells array (type.code :: (key ++ 0 :: wrap body)) (fieldKey array key, tableOf inside) := by
  intro rest fields hrest
  rw [List.cons_append, List.append_assoc, List.cons_append]
  exact .nested hkey htype hsmall hinside hrest

/-! ## Keys of arrays -/

theorem not_mem_decimal (n : ℕ) : 0 ∉ decimal n := by
  intro h
  have hpos := (toNat_lt_of_isDigit (isDigit_of_mem_decimal h)).1
  exact absurd hpos (by decide)

theorem not_mem_decimalInt (n : ℤ) : 0 ∉ decimalInt n := by
  rw [decimalInt]
  split
  · intro h
    rcases List.mem_cons.mp h with h | h
    · cases h
    · exact not_mem_decimal _ h
  · exact not_mem_decimal _

private theorem fieldKey_decimal {i : ℕ} (hi : i + 1 < 2 ^ 31) :
    fieldKey true (decimal i) = .integer (.ofNat (i + 1)) := by
  have hscan : scanInt (decimal i) = some ((i : ℤ), []) := by
    have h := @scanInt_decimal [] i (fun b hb ↦ (nomatch hb))
    rwa [List.append_nil] at h
  have hvalue : strtol (decimal i) = i := by
    rw [strtol, hscan]
    dsimp only
    omega
  rw [fieldKey, if_pos rfl, hvalue, toInt32_of_lt (by omega) (by omega)]
  rfl

theorem nodup_indices (h : elements.length < 2 ^ 31) :
    (elements.zipIdx.map fun e ↦ LuaScalar.integer (.ofNat (e.2 + 1))).Nodup := by
  have hrange : (elements.zipIdx.map fun e ↦ LuaScalar.integer (.ofNat (e.2 + 1))) =
      (List.range' 0 elements.length).map fun i ↦ LuaScalar.integer (.ofNat (i + 1)) := by
    rw [← List.zipIdx_map_snd 0 elements, List.map_map]
    rfl
  rw [hrange]
  refine List.Nodup.map_on ?_ List.nodup_range'
  intro i hi j hj heq
  rw [List.mem_range'_1] at hi hj
  have hsucc := ofNat_inj_of_lt (by omega) (by omega) (LuaScalar.integer.inj heq)
  omega

/-- An array is read with the keys of the sequence. -/
theorem tableOf_elements (h : RawTable pairs elements) (hseq : IsSequence pairs elements.length) :
    tableOf (elements.zipIdx.map fun e ↦ (fieldKey true (decimal (e.2 % 2 ^ 32)), e.1.view)) =
      tableOf (pairs.map fun pair ↦ (pair.1, pair.2.view)) := by
  have hsmall := h.small
  have hindex : ∀ e ∈ elements.zipIdx, e.2 < elements.length := fun e he ↦
    (List.getElem?_eq_some_iff.mp (List.mem_zipIdx_iff_getElem?.mp he)).1
  have hkeys : elements.zipIdx.map (fun e ↦ (fieldKey true (decimal (e.2 % 2 ^ 32)), e.1.view)) =
      elements.zipIdx.map fun e ↦ (.integer (.ofNat (e.2 + 1)), e.1.view) := by
    refine List.map_congr_left fun e he ↦ ?_
    have hlt := hindex e he
    rw [Nat.mod_eq_of_lt (by omega), fieldKey_decimal (by omega)]
  rw [hkeys]
  refine tableOf_eq_of_mem ?_ ?_ fun x ↦ ?_
  · rw [List.map_map]
    exact nodup_indices hsmall
  · rw [List.map_map]
    exact h.nodup
  · rw [List.mem_map, List.mem_map]
    constructor
    · rintro ⟨e, he, rfl⟩
      exact ⟨_, h.of_mem_zipIdx hseq he, rfl⟩
    · rintro ⟨⟨k, v⟩, hmem, rfl⟩
      obtain ⟨i, hi, rfl⟩ := (hseq k).mp (List.mem_map.mpr ⟨_, hmem, rfl⟩)
      exact ⟨(v, i), h.mem_zipIdx hi hmem, rfl⟩

/-! ## What is written is read -/

private theorem fieldKey_text (hkind : IsNamed pairs ∨ IsSequence pairs elements.length)
    (hkeys : KeysNulFree pairs elements) {pair : LuaScalar × BsonObject} (hmem : pair ∈ pairs) :
    ∃ name, 0 ∉ name ∧ layPair realText (fun name v ↦ layOne realText left name v) pair =
      layOne realText left name pair.2 ∧ fieldKey false name = nameKey pair.1 := by
  obtain ⟨k, v⟩ := pair
  rcases hkind with hnamed | hseq
  · obtain ⟨name, hname⟩ := hnamed _ hmem
    obtain rfl : k = .string name := hname
    exact ⟨name, hkeys _ hmem name rfl, rfl, rfl⟩
  · obtain ⟨i, -, rfl⟩ := (hseq k).mp (List.mem_map.mpr ⟨_, hmem, rfl⟩)
    exact ⟨_, not_mem_decimalInt _, rfl, rfl⟩

section Tables

variable (hone : ∀ pair ∈ pairs, ∀ array name bytes,
    (layOne realText left name pair.2).out = .ok bytes →
  bytes.length < 2 ^ 31 → 0 ∉ name → Spells array bytes (fieldKey array name, pair.2.view))
include hone

/-- The fields of a document. -/
theorem fields_dict (hkind : IsNamed pairs ∨ IsSequence pairs elements.length)
    (hkeys : KeysNulFree pairs elements)
    (hout : (layDict realText (layOne realText left) pairs).out = .ok bytes)
    (hsmall : bytes.length < 2 ^ 31) :
    ∃ body, bytes = wrap body ∧
      Fields false body (pairs.map fun pair ↦ (nameKey pair.1, pair.2.view)) := by
  rw [layDict, layDocument_out] at hout
  obtain ⟨body, hbody, rfl⟩ := hout
  obtain ⟨xss, hxss, rfl⟩ := Layout.all_out_eq_ok.mp hbody
  rw [length_wrap] at hsmall
  refine ⟨_, rfl, fields_flatten hxss (by omega) fun pair hmem xs hxs hlen ↦ ?_⟩
  obtain ⟨name, hnul, hlay, hname⟩ :=
    @fieldKey_text realText pairs elements left hkind hkeys pair hmem
  rw [← hname]
  exact hone pair hmem false name xs (by rwa [← hlay]) hlen hnul

private theorem fields_array (h : RawTable pairs elements) (hseq : IsSequence pairs elements.length)
    (hout : (layArray (layOne realText left) elements).out = .ok bytes)
    (hsmall : bytes.length < 2 ^ 31) :
    ∃ body, bytes = wrap body ∧ Fields true body
      (elements.zipIdx.map fun e ↦ (fieldKey true (decimal (e.2 % 2 ^ 32)), e.1.view)) := by
  rw [layArray, layDocument_out] at hout
  obtain ⟨body, hbody, rfl⟩ := hout
  obtain ⟨xss, hxss, rfl⟩ := Layout.all_out_eq_ok.mp hbody
  rw [length_wrap] at hsmall
  refine ⟨_, rfl, fields_flatten hxss (by omega) fun e he xs hxs hlen ↦ ?_⟩
  exact hone _ (h.of_mem_zipIdx hseq he) true _ xs hxs hlen (not_mem_decimal _)

end Tables

/-- What is written for a supported value is a field, which is read as the value. -/
theorem Supported.spells (h : Supported v) (hnul : Throughout KeysNulFree v)
    (hout : (layOne realText left key v).out = .ok bytes) (hsmall : bytes.length < 2 ^ 31)
    (hkey : 0 ∉ key) (array : Bool) : Spells array bytes (fieldKey array key, v.view) := by
  -- on the value: what is not a table is laid out as one field
  induction h generalizing left key bytes array with
  | boolean b =>
    exact fun rest fields hrest ↦
      ((Supported.boolean b).spellsField (fun _ _ ↦ nofun) hout hsmall).fields hkey hrest
  | integer i =>
    exact fun rest fields hrest ↦
      ((Supported.integer i).spellsField (fun _ _ ↦ nofun) hout hsmall).fields hkey hrest
  | real bits =>
    exact fun rest fields hrest ↦
      ((Supported.real bits).spellsField (fun _ _ ↦ nofun) hout hsmall).fields hkey hrest
  | text hhead =>
    exact fun rest fields hrest ↦
      ((Supported.text hhead).spellsField (fun _ _ ↦ nofun) hout hsmall).fields hkey hrest
  | tagged htagged =>
    exact fun rest fields hrest ↦
      ((Supported.tagged htagged).spellsField (fun _ _ ↦ nofun) hout hsmall).fields hkey hrest
  | @table pairs elements hraw hkind hsupported ih =>
    obtain ⟨hkeys, hvalues⟩ := throughout_table.mp hnul
    cases left with
    | zero => cases hout
    | succ left =>
      have hone := fun pair hmem array name bytes hout hlen hname ↦
        @ih pair hmem name bytes left (hvalues pair hmem) hout hlen hname array
      change (layTable realText (layOne realText left) key pairs elements none none).out = _ at hout
      obtain ⟨isArray, hisraw⟩ := hraw.isRawarray_ok
      simp only [layTable.eq_def, hisraw] at hout
      rw [view_table]
      -- an array is laid out under the names of its indices, any other table under its keys
      cases isArray with
      | true =>
        obtain ⟨xs, hxs, rfl⟩ := append_layKey_out hout
        have hseq := hraw.isSequence hkind hisraw
        simp only [List.length_cons, List.length_append] at hsmall
        obtain ⟨body, rfl, hfields⟩ := fields_array hone hraw hseq hxs (by omega)
        rw [length_wrap] at hsmall
        have hread : (fun pair : LuaScalar × BsonObject ↦ (readKey pairs elements pair.1,
            pair.2.view)) =
            fun pair ↦ (pair.1, pair.2.view) := by
          funext pair
          rw [readKey, hisraw]
        rw [hread, ← tableOf_elements hraw hseq]
        exact spells_nested rfl hkey (by omega) hfields
      | false =>
        obtain ⟨xs, hxs, rfl⟩ := append_layKey_out hout
        simp only [List.length_cons, List.length_append] at hsmall
        obtain ⟨body, rfl, hfields⟩ := fields_dict hone hkind hkeys hxs (by omega)
        rw [length_wrap] at hsmall
        have hread : (fun pair : LuaScalar × BsonObject ↦ (readKey pairs elements pair.1,
            pair.2.view)) =
            fun pair ↦ (nameKey pair.1, pair.2.view) := by
          funext pair
          rw [readKey, hisraw]
        rw [hread]
        exact spells_nested rfl hkey (by omega) hfields

/-- A document without zero bytes in its keys is decoded to what its table is read as. -/
theorem ldecode_lencode (h : Supported (.table pairs elements none none)) (hnamed : IsNamed pairs)
    (hnul : Throughout KeysNulFree (.table pairs elements none none))
    (hout : (layBson realText (.table pairs elements none none)).out = .ok doc)
    (hsmall : doc.length < 2 ^ 31) :
    ldecode doc = .ok (BsonObject.table pairs elements none none).view := by
  obtain ⟨hkeys, hvalues⟩ := throughout_table.mp hnul
  cases h with
  | table hraw hkind hsupported =>
    have hone : ∀ pair ∈ pairs, ∀ array name bytes,
        (layOne realText bsonMaxDepth name pair.2).out = .ok bytes →
          bytes.length < 2 ^ 31 → 0 ∉ name →
        Spells array bytes (fieldKey array name, pair.2.view) :=
      fun pair hmem array name bytes hout hlen hname ↦
        (hsupported pair hmem).spells (hvalues pair hmem) hout hlen hname array
    obtain ⟨body, rfl, hfields⟩ := fields_dict hone hkind hkeys hout hsmall
    have hread : (pairs.map fun pair ↦ (nameKey pair.1, pair.2.view)) =
        pairs.map fun pair ↦ (readKey pairs elements pair.1, pair.2.view) := by
      refine List.map_congr_left fun pair hmem ↦ ?_
      obtain ⟨name, hname⟩ := hnamed pair hmem
      have hsame : nameKey (.string name) = .string name := rfl
      rw [readKey_named hnamed hmem, hname, hsame]
    rw [length_wrap] at hsmall
    rw [view_table, ← hread]
    exact ldecode_fields hsmall hfields

/-! ## Zero bytes in keys -/

/-- No key in the value has a zero byte. -/
inductive NulFree : LuaData → Prop
  | scalar (s : LuaScalar) : NulFree (.scalar s)
  | table {get : LuaScalar → LuaData} {keyed : List (LuaData × LuaData)} :
      (∀ key, get (.string key) ≠ .nil → 0 ∉ key) → (∀ k, NulFree (get k)) →
        NulFree (.table get keyed)

theorem nulFree_fill {t : LuaTable} {fields : List (LuaScalar × LuaData)} (ht : NulFree t.data)
    (h : ∀ field ∈ fields, (∀ key, field.1 = .string key → 0 ∉ key) ∧ NulFree field.2) :
    NulFree (t.fill fields).data := by
  induction fields generalizing t with
  | nil => exact ht
  | cons field fields ih =>
    obtain ⟨hkey, hvalue⟩ := h field List.mem_cons_self
    rw [LuaTable.fill_cons]
    refine ih ?_ fun f hf ↦ h f (List.mem_cons_of_mem _ hf)
    cases ht with
    | table hkeys hvalues =>
      show NulFree (.table (Function.update t.get field.1 field.2) t.keyed)
      refine .table (fun key hne ↦ ?_) fun k ↦ ?_
      · by_cases heq : field.1 = .string key
        · exact hkey key heq
        · refine hkeys key ?_
          rwa [Function.update_of_ne (Ne.symm heq)] at hne
      · by_cases heq : k = field.1
        · rw [heq, Function.update_self]
          exact hvalue
        · rw [Function.update_of_ne heq]
          exact hvalues k

private theorem nulFree_tableOf {fields : List (LuaScalar × LuaData)}
    (h : ∀ field ∈ fields, (∀ key, field.1 = .string key → 0 ∉ key) ∧ NulFree field.2) :
    NulFree (tableOf fields) :=
  nulFree_fill (.table (fun _ hne ↦ absurd rfl hne) fun _ ↦ .scalar .nil) h

private theorem scalar_of_scalarOf {type : BsonType} {rest : List UInt8} {w : LuaData} {n : ℕ}
    (h : scalarOf type rest = some (w, n)) : ∃ s, w = .scalar s := by
  cases type with
  | string =>
    rw [scalarOf, stringOf] at h
    split at h <;> cases h
    exact ⟨_, rfl⟩
  | binary =>
    rw [scalarOf, binaryOf] at h
    split at h <;> cases h
    exact ⟨_, rfl⟩
  | regex =>
    rw [scalarOf, regexOf] at h
    split at h
    · cases h
    · split at h <;> cases h
      exact ⟨_, rfl⟩
  | dbPointer | jsCode | symbol | codeWs =>
    rw [scalarOf, countedOf] at h
    split at h <;> cases h
    exact ⟨_, rfl⟩
  | document | array | undefined => cases h
  | real | boolean | objectId | date | minKey | maxKey | null | int32 | timestamp | int64 =>
    rw [scalarOf, fixedOf] at h
    split at h <;> cases h
    exact ⟨_, rfl⟩

private theorem fieldKey_nulFree (hkey : 0 ∉ key) (name : List UInt8)
    (h : fieldKey array key = .string name) :
    0 ∉ name := by
  cases array with
  | false =>
    cases h
    exact hkey
  | true => cases h

/-- A key that is decoded has no zero byte. -/
theorem Fields.nulFree {fields : List (LuaScalar × LuaData)} (h : Fields array bytes fields) :
    ∀ field ∈ fields, (∀ key, field.1 = .string key → 0 ∉ key) ∧ NulFree field.2 := by
  induction h with
  | nil => exact fun field hfield ↦ (nomatch hfield)
  | scalar hkey hv _ ih =>
    intro field hfield
    rcases List.mem_cons.mp hfield with rfl | hfield
    · obtain ⟨s, rfl⟩ := scalar_of_scalarOf hv
      exact ⟨fieldKey_nulFree hkey, .scalar s⟩
    · exact ih field hfield
  | nested hkey _ _ _ _ ihin ih =>
    intro field hfield
    rcases List.mem_cons.mp hfield with rfl | hfield
    · exact ⟨fieldKey_nulFree hkey, nulFree_tableOf ihin⟩
    · exact ih field hfield

theorem Supported.throughout_of_nulFree (h : Supported v) (hnul : NulFree v.data) :
    Throughout KeysNulFree v := by
  induction h with
  | boolean | integer | real | text | tagged => exact .scalar fun _ _ _ _ heq ↦ (nomatch heq)
  | @table pairs elements hraw hkind hsupported ih =>
    rw [data_table, tableOf_eq] at hnul
    have hget : ∀ pair ∈ pairs, (LuaTable.empty.fill (dataPairsOf pairs)).get pair.1 =
        pair.2.data :=
      fun pair hmem ↦ LuaTable.fill_get_of_mem (nodup_dataPairsOf hraw.nodup)
        (List.mem_map.mpr ⟨pair, hmem, rfl⟩)
    cases hnul with
    | table hkeys hvalues =>
      refine throughout_table.mpr ⟨fun pair hmem key hkey ↦ hkeys key ?_,
        fun pair hmem ↦ ih pair hmem ?_⟩
      · rw [← hkey, hget pair hmem]
        exact (hsupported pair hmem).data_ne_nil
      · rw [← hget pair hmem]
        exact hvalues pair.1

/-! ## Room -/

/-- The capacity of the buffer stays an `int` when the room for the document is made. -/
def HasRoom (realText : UInt64 → List UInt8) (v : BsonObject) : Prop :=
  ∃ cap, bsonSupply.grantAll 0 64 (layBson realText v).demands = .ok cap

private theorem growCap_lt {need cap cap' : ℤ} {bound : ℕ} (h : growCap need bound cap = .ok cap') :
    cap' < 2 ^ 31 := by
  induction bound generalizing cap with
  | zero => cases h
  | succ bound ih =>
    rw [growCap] at h
    split at h
    · cases h
    · split at h
      · exact ih h
      · cases h
        omega

private theorem growCap_not_raised {need cap : ℤ} {bound : ℕ} (m : BsonMessage) :
    growCap need bound cap ≠ .error (.raised m) := by
  induction bound generalizing cap with
  | zero => nofun
  | succ bound ih =>
    rw [growCap]
    split
    · nofun
    · split
      · exact ih
      · nofun

/-- What one demand needs, if there is room for it. -/
theorem grant_eq_ok {size : ℕ} {cap cap' : ℤ} {d : ℤ × ℕ} (hcap : cap < 2 ^ 31)
    (h : bsonSupply.grant size cap d = .ok cap') : (size : ℤ) + d.2 ≤ cap' ∧ cap' < 2 ^ 31 := by
  dsimp only [bsonSupply] at h
  cases hres : reservedCap size cap d.1 with
  | error e =>
    rw [hres] at h
    cases h
  | ok cap'' =>
    rw [hres] at h
    dsimp only at h
    split at h
    · cases h
      refine ⟨by assumption, ?_⟩
      rw [reservedCap] at hres
      split at hres
      · cases hres
        exact hcap
      · exact growCap_lt hres
    · cases h

private theorem grant_not_raised {size : ℕ} {cap : ℤ} {d : ℤ × ℕ} (m : BsonMessage) :
    bsonSupply.grant size cap d ≠ .error (.raised m) := by
  intro h
  dsimp only [bsonSupply] at h
  cases hres : reservedCap size cap d.1 with
  | error e =>
    rw [hres] at h
    cases h
    rw [reservedCap] at hres
    split at hres
    · cases hres
    · exact growCap_not_raised m hres
  | ok cap' =>
    rw [hres] at h
    dsimp only at h
    split at h <;> cases h

theorem grantAll_eq_ok {ds : List (ℤ × ℕ)} {size : ℕ} {cap cap' : ℤ} (hcap : cap < 2 ^ 31)
    (hsize : (size : ℤ) ≤ cap) (h : bsonSupply.grantAll size cap ds = .ok cap') :
    ((size + (ds.map bsonSupply.width).sum : ℕ) : ℤ) ≤ cap' ∧ cap' < 2 ^ 31 := by
  induction ds generalizing size cap with
  | nil =>
    cases h
    exact ⟨hsize, hcap⟩
  | cons d ds ih =>
    rw [Supply.grantAll] at h
    cases hgrant : bsonSupply.grant size cap d with
    | error e =>
      rw [hgrant] at h
      cases h
    | ok cap'' =>
      rw [hgrant] at h
      obtain ⟨hle, hlt⟩ := grant_eq_ok hcap hgrant
      have hnext := ih hlt (by exact_mod_cast hle) h
      rw [List.map_cons, List.sum_cons, ← Nat.add_assoc]
      exact hnext

theorem grantAll_not_raised {ds : List (ℤ × ℕ)} {size : ℕ} {cap : ℤ} (m : BsonMessage) :
    bsonSupply.grantAll size cap ds ≠ .error (.raised m) := by
  induction ds generalizing size cap with
  | nil => nofun
  | cons d ds ih =>
    rw [Supply.grantAll]
    cases hgrant : bsonSupply.grant size cap d with
    | error e =>
      dsimp only
      rw [← hgrant]
      exact grant_not_raised m
    | ok cap' => exact ih

private theorem lencode_no_room (h : ¬HasRoom realText v) :
    ∃ e, lencode realText v = .error e ∧ ∀ m, e ≠ .raised m := by
  cases hgrant : bsonSupply.grantAll 0 64 (layBson realText v).demands with
  | ok cap => exact absurd ⟨cap, hgrant⟩ h
  | error e =>
    refine ⟨e, ?_, fun m hm ↦ ?_⟩
    · rw [lencode, encodeBson_eq, Layout.run_no_room hgrant]
    · rw [hm] at hgrant
      exact grantAll_not_raised m hgrant

theorem lencode_ok (hroom : HasRoom realText v) (hout : (layBson realText v).out = .ok doc) :
    lencode realText v = .ok doc ∧ doc.length < 2 ^ 31 := by
  obtain ⟨cap, hgrant⟩ := hroom
  obtain ⟨hle, hlt⟩ := grantAll_eq_ok (by decide) (by decide) hgrant
  rw [← (layBson realText v).length_out hout] at hle
  refine ⟨?_, by omega⟩
  rw [lencode, encodeBson_eq, Layout.run_ok hgrant hout]
  rfl

private theorem lencode_refused {e : BsonError} (hroom : HasRoom realText v)
    (hout : (layBson realText v).out = .error e) : lencode realText v = .error e := by
  obtain ⟨cap, hgrant⟩ := hroom
  rw [lencode, encodeBson_eq, Layout.run_refused hgrant hout]

/-! ## The round trip -/

/-- Encoding raises an error, or the document is decoded to what the value holds. -/
def RoundTrips (realText : UInt64 → List UInt8) (v : BsonObject) : Prop :=
  (∃ m, lencode realText v = .error (.raised m)) ∨
    ∃ doc, lencode realText v = .ok doc ∧ ldecode doc = .ok v.data

/-- A document that is decoded to what its value holds has no zero byte in a key. -/
theorem throughout_of_ldecode (h : Supported v) (hout : (layBson realText v).out = .ok doc)
    (hsmall : doc.length < 2 ^ 31) (hdecode : ldecode doc = .ok v.data) :
    Throughout KeysNulFree v := by
  obtain ⟨body, rfl⟩ := exists_wrap_of_layBson hout
  have hfront := frontInt_wrap (show body.length + 5 < 2 ^ 31 by rwa [← length_wrap]) []
  rw [List.append_nil, ← length_wrap] at hfront
  rcases ldecode_cases (by rw [length_wrap]; omega) hfront with
      ⟨body', fields, hbody, hlen, hf⟩ | hs | ⟨m, hm⟩
  · rw [hbody, ldecode_fields hlen hf] at hdecode
    refine h.throughout_of_nulFree ?_
    rw [← Except.ok.inj hdecode]
    exact nulFree_tableOf hf.nulFree
  · obtain ⟨body', hbody, hstrays⟩ := hs
    rw [hbody, length_wrap] at hsmall
    rw [hbody, ldecode_strays hsmall hstrays] at hdecode
    cases hdecode
  · rw [hm] at hdecode
    cases hdecode

/-- A table of names comes back, or an error is raised, if and only if there is room for its
document, and if it can be encoded at all, no key in it has a zero byte and no array a length that
is not its last key. -/
theorem roundTrips_iff (h : Supported (.table pairs elements none none)) (hnamed : IsNamed pairs) :
    RoundTrips realText (.table pairs elements none none) ↔
      HasRoom realText (.table pairs elements none none) ∧
        (Encodable (bsonMaxDepth + 1) (.table pairs elements none none) →
          Throughout KeysNulFree (.table pairs elements none none) ∧
          Throughout EndsWithLength (.table pairs elements none none)) := by
  -- laying out ends exactly if all is encodable within the depth, and is refused otherwise
  have hsettles : Settles (Encodable (bsonMaxDepth + 1) (.table pairs elements none none))
      (layBson realText (.table pairs elements none none)) := by
    cases h with
    | table hraw hkind hsupported =>
      rw [encodable_table]
      exact settles_dict (fun pair hmem name ↦
        (hsupported pair hmem).settles bsonMaxDepth name) hkind
  constructor
  · intro htrips
    have hroom : HasRoom realText (.table pairs elements none none) := by
      by_contra hno
      obtain ⟨e, he, hnot⟩ := lencode_no_room hno
      rcases htrips with ⟨m, hm⟩ | ⟨doc, hdoc, -⟩
      · rw [he] at hm
        exact hnot m (Except.error.inj hm)
      · rw [he] at hdoc
        cases hdoc
    refine ⟨hroom, fun hencodable ↦ ?_⟩
    rcases hsettles with ⟨-, doc, hout⟩ | ⟨hno, -⟩
    · obtain ⟨hlencode, hsmall⟩ := lencode_ok hroom hout
      have hdecode : ldecode doc = .ok (BsonObject.table pairs elements none none).data := by
        rcases htrips with ⟨m, hm⟩ | ⟨doc', hdoc', hdecode⟩
        · rw [hlencode] at hm
          cases hm
        · rw [hlencode] at hdoc'
          cases hdoc'
          exact hdecode
      -- from what the decoder gives back: a key with a zero byte would not have come through
      have hnul := throughout_of_ldecode h hout hsmall hdecode
      refine ⟨hnul, (view_eq_data_iff h).mp ?_⟩
      rw [ldecode_lencode h hnamed hnul hout hsmall] at hdecode
      exact Except.ok.inj hdecode
    · exact absurd hencodable hno
  · rintro ⟨hroom, hcond⟩
    rcases hsettles with ⟨hencodable, doc, hout⟩ | ⟨-, m, hm⟩
    · obtain ⟨hnul, hends⟩ := hcond hencodable
      obtain ⟨hlencode, hsmall⟩ := lencode_ok hroom hout
      refine .inr ⟨doc, hlencode, ?_⟩
      rw [ldecode_lencode h hnamed hnul hout hsmall, (view_eq_data_iff h).mpr hends]
    · exact .inl ⟨m, lencode_refused hroom hm⟩

private theorem isNamed_singleton (k : List UInt8) (v : BsonObject) : IsNamed [(.string k, v)] := by
  intro pair hmem
  rw [List.mem_singleton.mp hmem]
  exact ⟨k, rfl⟩

private theorem supported_singleton (k : List UInt8) (h : Supported v) (hnil : v.isNil = false) :
    Supported (.table [(.string k, v)] [] none none) := by
  refine .table ⟨List.nodup_singleton _, ?_, fun hpos ↦ absurd hpos (by decide), by decide, rfl⟩
    (.inl (isNamed_singleton k v)) ?_
  · intro pair hmem
    rw [List.mem_singleton.mp hmem]
    exact hnil
  · intro pair hmem
    rw [List.mem_singleton.mp hmem]
    exact h

/-- `{7, "hi"}`, in the order of its indices. -/
def twoPairs : List (LuaScalar × BsonObject) :=
  [(.integer 1, .integer 7), (.integer 2, .string [104, 105])]

theorem rawTable_two : RawTable twoPairs [.integer 7, .string [104, 105]] where
  nodup := by decide
  not_nil := by decide
  border _ := by decide
  small := by decide
  elements_eq := rfl

theorem isSequence_two : IsSequence twoPairs 2 := by
  intro k
  constructor
  · intro hmem
    rcases List.mem_cons.mp hmem with rfl | hmem
    · exact ⟨0, by decide, rfl⟩
    · exact ⟨1, by decide, List.mem_singleton.mp hmem⟩
  · rintro ⟨i, hi, rfl⟩
    obtain rfl | rfl : i = 0 ∨ i = 1 := by omega
    · exact List.mem_cons_self
    · exact List.mem_cons_of_mem _ List.mem_cons_self

theorem supported_two : Supported (.table twoPairs [.integer 7, .string [104, 105]] none none) := by
  refine .table rawTable_two (.inr isSequence_two) fun pair hmem ↦ ?_
  rcases List.mem_cons.mp hmem with rfl | hmem
  · exact .integer 7
  · rw [List.mem_singleton.mp hmem]
    exact .text (by decide)

/-- `{a = {7, "hi"}}` -/
def nestedPairs : List (LuaScalar × BsonObject) :=
  [(.string [97], .table twoPairs [.integer 7, .string [104, 105]] none none)]

theorem roundTrips_iff_nested : RoundTrips (fun _ ↦ []) (.table nestedPairs [] none none) := by
  have hscalar : ∀ P, ∀ pair ∈ twoPairs, Throughout P pair.2 := by
    intro P pair hmem
    refine .scalar fun pairs elements metalen metapairs heq ↦ ?_
    rcases List.mem_cons.mp hmem with rfl | hmem
    · cases heq
    · rw [List.mem_singleton.mp hmem] at heq
      cases heq
  have hnul : Throughout KeysNulFree (.table nestedPairs [] none none) := by
    refine .table ?_ fun pair hmem ↦ ?_
    · intro pair hmem key hkey
      rw [List.mem_singleton.mp hmem] at hkey
      cases hkey
      decide
    · rw [List.mem_singleton.mp hmem]
      refine .table ?_ (hscalar KeysNulFree)
      intro pair hmem key hkey
      rcases List.mem_cons.mp hmem with rfl | hmem
      · cases hkey
      · rw [List.mem_singleton.mp hmem] at hkey
        cases hkey
  have hends : Throughout EndsWithLength (.table nestedPairs [] none none) := by
    refine .table (.inl rfl) fun pair hmem ↦ ?_
    rw [List.mem_singleton.mp hmem]
    exact .table (.inr ⟨_, rfl⟩) (hscalar EndsWithLength)
  exact (roundTrips_iff (supported_singleton [97] supported_two rfl) (isNamed_singleton [97] _)).mpr
    ⟨⟨64, rfl⟩, fun _ ↦ ⟨hnul, hends⟩⟩

/-- `{["a\0\n"] = null}` is encoded, and decoded to `{a = null, [""] = null}`. -/
theorem not_roundTrips : ¬∀ (realText : UInt64 → List UInt8) (pairs : List (LuaScalar × BsonObject))
    (elements : List BsonObject), Supported (.table pairs elements none none) → IsNamed pairs →
    RoundTrips realText (.table pairs elements none none) := by
  intro hall
  have hsupported : Supported (.string [0, 10]) := .tagged .null
  have htrips := hall (fun _ ↦ []) _ _ (supported_singleton [97, 0, 10] hsupported rfl)
    (isNamed_singleton _ _)
  have hlencode : lencode (fun _ ↦ [])
      (.table [(.string [97, 0, 10], .string [0, 10])] [] none none) =
      .ok (wrap (BsonType.null.code :: ([97] ++ 0 :: [10, 0]))) := by
    rfl
  have hnull : ∀ rest, scalarOf .null rest = some (.scalar (.string [0, 10]), 0) := fun rest ↦ by
    rw [scalarOf, fixedOf, if_pos (Nat.zero_le _)]
    rfl
  have hsecond : Fields false (BsonType.null.code :: ([] ++ 0 :: []))
      [(fieldKey false [], .scalar (.string [0, 10]))] := .scalar (by decide) (hnull _) .nil
  have hfields : Fields false (BsonType.null.code :: ([97] ++ 0 :: [10, 0]))
      [(fieldKey false [97], .scalar (.string [0, 10])),
        (fieldKey false [], .scalar (.string [0, 10]))] :=
    .scalar (by decide) (hnull _) hsecond
  have hdecode := ldecode_fields (by decide) hfields
  rcases htrips with ⟨m, hm⟩ | ⟨doc, hdoc, hdata⟩
  · rw [hlencode] at hm
    cases hm
  · rw [hlencode] at hdoc
    cases hdoc
    rw [hdecode, data_table] at hdata
    have heq := Except.ok.inj hdata
    rw [tableOf_eq, tableOf_eq] at heq
    injection heq with hget
    have hvalue := congrFun hget (.string [97])
    cases hvalue

end ZTask
