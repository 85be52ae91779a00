import ZTask.Bson.Extents
import ZTask.Bson.RoundTrip

/-!
# Whether every entry is kept

A table is encoded if an error is raised for it, or the document that is written has a field for
each of its entries (`HoldEntries`): the field has the name of the key, it ends where it is read to
end, and it is what `append_one` writes for the value. A document that is encoded has all its fields
from the pairs of the table; an array has them from the elements up to the length. So the fields of
an array are those of the entries only if the keys are the numbers up to the length
(`keepsEntries_iff`), and `is_rawarray` does not see to that: a table whose length happens to be its
last key loses the entries with other keys (`not_keepsEntries`).

The other conditions are about the names and values one by one. A zero byte in a key ends the name
there, a value may not tell its own extent (`BsonObject.Delimited`), and the encoder may read
outside of a value or run out of capacities that are an `int`, which it does without raising an
error.
-/

namespace ZTask

open Lib

variable {realText : UInt64 → List UInt8} {pairs : List (LuaScalar × BsonObject)}
  {elements : List BsonObject} {key doc : List UInt8} {left : ℕ} {type : BsonType}
  {b : Sink UInt8 ℤ} {p : BsonLayout}

/-! ## Entries in a document -/

/-- The text of a key in a document. -/
def keyText (realText : UInt64 → List UInt8) : LuaScalar → Option (List UInt8)
  | .integer i => some (decimalInt i.toInt)
  | .real bits => some (realText bits)
  | .string key => some key
  | _ => none

/-- The name of the field for a key: in an array its index, from zero on; in a document its text. -/
def FieldName (realText : UInt64 → List UInt8) (type : BsonType) (k : LuaScalar)
    (name : List UInt8) : Prop :=
  (type = .array ∧ ∃ i, k = .integer (.ofNat (i + 1)) ∧ name = decimal i) ∨
    type = .document ∧ keyText realText k = some name

/-- The field has the name of the key and is what `append_one` writes for the value. -/
def IsEntry (realText : UInt64 → List UInt8) (left : ℕ) (type : BsonType)
    (pair : LuaScalar × BsonObject) (field : BsonField) : Prop :=
  FieldName realText type pair.1 field.name ∧
    (layOne realText left field.name pair.2).out = .ok field.written

/-- The fields of the document are those of the entries, in some order. -/
def HoldEntries (realText : UInt64 → List UInt8) (left : ℕ) (type : BsonType)
    (pairs : List (LuaScalar × BsonObject)) (doc : List UInt8) : Prop :=
  ∃ fields : List BsonField, doc = wrap (fields.flatMap BsonField.written) ∧
    (∀ field ∈ fields, field.Sound) ∧
    ∃ entries, entries.Perm pairs ∧ List.Forall₂ (IsEntry realText left type) entries fields

/-- `is_rawarray` holds of sequences only. When the table is encoded, by itself or as the value of a
key behind what is in the buffer, an error is raised or the document holds its entries. -/
def KeepsEntries (realText : UInt64 → List UInt8) (left : ℕ) (key : List UInt8) (b : Sink UInt8 ℤ)
    (pairs : List (LuaScalar × BsonObject)) (elements : List BsonObject) : Prop :=
  (isRawarray pairs elements.length = .ok true → IsSequence pairs elements.length) ∧
    ((∃ m, lencode realText (.table pairs elements none none) = .error (.raised m)) ∨
      ∃ doc, lencode realText (.table pairs elements none none) = .ok doc ∧
        HoldEntries realText bsonMaxDepth .document pairs doc) ∧
    ((∃ m, appendTable realText (appendOne realText left) key pairs elements none none b =
        .error (.raised m)) ∨
      ∃ b' type doc, appendTable realText (appendOne realText left) key pairs elements none none b =
          .ok ((), b') ∧
        b'.written = b.written ++ type.code :: (key ++ 0 :: doc) ∧
        HoldEntries realText left type pairs doc)

/-! ## What the entries have to be like -/

/-- No key has a zero byte in its text, and each value tells its extent. -/
def EntriesFit (realText : UInt64 → List UInt8) (pairs : List (LuaScalar × BsonObject)) : Prop :=
  ∀ pair ∈ pairs, (∀ name, keyText realText pair.1 = some name → 0 ∉ name) ∧ pair.2.Delimited

/-- Taken in order, the entries are written up to one for which an error is raised, or all of them,
and then they have to be good. -/
def Orderly {α : Type} (lay : α → BsonLayout) (good : Prop) : List α → Prop
  | [] => good
  | a :: as => (∃ m, (lay a).out = .error (.raised m)) ∨
      (∃ bytes, (lay a).out = .ok bytes) ∧ Orderly lay good as

/-- The entries of a table with a key, in the order in which they are written. -/
def TableOrderly (realText : UInt64 → List UInt8) (left : ℕ)
    (pairs : List (LuaScalar × BsonObject)) (elements : List BsonObject) : Prop :=
  match isRawarray pairs elements.length with
  | .ok true => Orderly (layElement (layOne realText left)) (EntriesFit realText pairs)
      elements.zipIdx
  | _ => Orderly (layPair realText (layOne realText left)) (EntriesFit realText pairs) pairs

/-- The capacity of the buffer stays an `int` when the room is made. -/
def HasRoomFor (p : BsonLayout) (b : Sink UInt8 ℤ) : Prop :=
  ∃ cap, bsonSupply.grantAll b.written.length b.room p.demands = .ok cap

/-- The size of the buffer is at most its capacity, which is an `int`. -/
def Buffered (b : Sink UInt8 ℤ) : Prop := (b.written.length : ℤ) ≤ b.room ∧ b.room < 2 ^ 31

/-! ## Runs -/

theorem run_no_room (h : ¬HasRoomFor p b) : ∃ e, p.run b = .error e ∧ ∀ m, e ≠ .raised m := by
  cases hgrant : bsonSupply.grantAll b.written.length b.room p.demands with
  | ok cap => exact absurd ⟨cap, hgrant⟩ h
  | error e =>
    refine ⟨e, Layout.run_no_room hgrant, fun m hm ↦ ?_⟩
    rw [hm] at hgrant
    exact grantAll_not_raised m hgrant

private theorem length_lt_of_room (hb : Buffered b) (h : HasRoomFor p b) {xs : List UInt8}
    (hout : p.out = .ok xs) : xs.length < 2 ^ 31 := by
  obtain ⟨cap, hgrant⟩ := h
  obtain ⟨hle, hlt⟩ := grantAll_eq_ok hb.2 hb.1 hgrant
  rw [← p.length_out hout] at hle
  omega

/-- A run raises an error, or what it writes has a property. -/
def Comes (p : BsonLayout) (b : Sink UInt8 ℤ) (Q : List UInt8 → Prop) : Prop :=
  (∃ m, p.run b = .error (.raised m)) ∨
    ∃ b' xs, p.run b = .ok ((), b') ∧ b'.written = b.written ++ xs ∧ Q xs

private theorem comes_iff (hb : Buffered b) {Q : List UInt8 → Prop} :
    Comes p b Q ↔ HasRoomFor p b ∧ ((∃ m, p.out = .error (.raised m)) ∨
      ∃ xs, p.out = .ok xs ∧ xs.length < 2 ^ 31 ∧ Q xs) := by
  constructor
  · intro hcomes
    have hroom : HasRoomFor p b := by
      by_contra hno
      obtain ⟨e, he, hnot⟩ := run_no_room hno
      rcases hcomes with ⟨m, hm⟩ | ⟨b', xs, hrun, -⟩
      · exact hnot m (Except.error.inj (he.symm.trans hm))
      · cases he.symm.trans hrun
    refine ⟨hroom, ?_⟩
    obtain ⟨cap, hgrant⟩ := hroom
    cases hout : p.out with
    | error e =>
      rcases hcomes with ⟨m, hm⟩ | ⟨b', xs, hrun, -⟩
      · exact .inl ⟨m, congrArg Except.error
          (Except.error.inj ((Layout.run_refused hgrant hout).symm.trans hm))⟩
      · cases (Layout.run_refused hgrant hout).symm.trans hrun
    | ok xs =>
      rcases hcomes with ⟨m, hm⟩ | ⟨b', ys, hrun, hwritten, hQ⟩
      · cases (Layout.run_ok hgrant hout).symm.trans hm
      · have hsink := (Layout.run_ok hgrant hout).symm.trans hrun
        obtain ⟨-, rfl⟩ := Prod.mk.inj (Except.ok.inj hsink)
        obtain rfl := List.append_cancel_left hwritten
        exact .inr ⟨xs, rfl, length_lt_of_room hb ⟨cap, hgrant⟩ hout, hQ⟩
  · rintro ⟨⟨cap, hgrant⟩, ⟨m, hout⟩ | ⟨xs, hout, -, hQ⟩⟩
    · exact .inl ⟨m, Layout.run_refused hgrant hout⟩
    · exact .inr ⟨_, xs, Layout.run_ok hgrant hout, rfl, hQ⟩

private theorem orderly_iff {α : Type} {lay : α → BsonLayout} {good : Prop} {as : List α} :
    Orderly lay good as ↔ (∃ m, (Layout.all (as.map lay)).out = .error (.raised m)) ∨
      (∃ bytes, (Layout.all (as.map lay)).out = .ok bytes) ∧ good := by
  induction as with
  | nil => exact ⟨fun h ↦ .inr ⟨⟨[], rfl⟩, h⟩, fun h ↦ h.elim (fun ⟨_, hm⟩ ↦ nomatch hm) And.right⟩
  | cons a as ih =>
    have hall : Layout.all ((a :: as).map lay) = (lay a).append (Layout.all (as.map lay)) := rfl
    rw [Orderly, ih, hall]
    cases hout : (lay a).out with
    | error e =>
      rw [Layout.append_out_error hout]
      simp
    | ok xs =>
      rw [Layout.append_out_ok hout]
      cases (Layout.all (as.map lay)).out with
      | error e => simp [Except.map]
      | ok ys => simp [Except.map]

/-! ## The fields -/

theorem length_written_le {fields : List BsonField} {field : BsonField} (h : field ∈ fields) :
    field.written.length ≤ (fields.flatMap BsonField.written).length := by
  obtain ⟨front, back, rfl⟩ := List.append_of_mem h
  rw [List.flatMap_append, List.flatMap_cons, List.length_append, List.length_append]
  omega

private theorem exists_isEntry {entries : List (LuaScalar × BsonObject)} {fields : List BsonField}
    (h : List.Forall₂ (IsEntry realText left type) entries fields) {pair : LuaScalar × BsonObject}
    (hmem : pair ∈ entries) : ∃ field ∈ fields, IsEntry realText left type pair field := by
  induction h with
  | nil => cases hmem
  | @cons entry field entries fields hentry _ ih =>
    rcases List.mem_cons.mp hmem with rfl | hbehind
    · exact ⟨field, List.mem_cons_self, hentry⟩
    · obtain ⟨field', hfield', hentry'⟩ := ih hbehind
      exact ⟨field', List.mem_cons_of_mem _ hfield', hentry'⟩

/-- A field that is sound has a name without a zero byte, and a value that tells its extent. -/
theorem entriesFit_of_holdEntries (h : HoldEntries realText left type pairs doc)
    (hsmall : doc.length < 2 ^ 31) : EntriesFit realText pairs := by
  obtain ⟨fields, rfl, hsound, entries, hperm, hentries⟩ := h
  intro pair hmem
  obtain ⟨field, hfield, hname, hout⟩ := exists_isEntry hentries (hperm.mem_iff.mpr hmem)
  obtain ⟨hzero, hvalue⟩ := hsound field hfield
  have hle := length_written_le hfield
  rw [length_wrap] at hsmall
  refine ⟨fun name htext ↦ ?_, ?_⟩
  · rcases hname with ⟨-, i, hk, -⟩ | ⟨-, htext'⟩
    · rw [hk] at htext
      obtain rfl := Option.some.inj htext
      exact not_mem_decimalInt _
    · rw [htext'] at htext
      rwa [← Option.some.inj htext]
  · obtain ⟨type', value, hwritten, hone⟩ := layOne_writesField hout (by omega)
    obtain ⟨fieldType, fieldName, fieldValue⟩ := field
    obtain ⟨hcode, hbehind⟩ := List.cons.inj hwritten
    obtain rfl := code_inj hcode
    obtain rfl : fieldValue = value := (List.cons.inj (List.append_cancel_left hbehind)).2
    exact hone.mp hvalue

/-- The entries in the order in which they are written. -/
theorem holdEntries_of_layouts {α : Type} {lay : α → BsonLayout}
    {entry : α → LuaScalar × BsonObject}
    {as : List α} {body : List UInt8} (hout : (Layout.all (as.map lay)).out = .ok body)
    (hsmall : body.length + 5 < 2 ^ 31) (hperm : (as.map entry).Perm pairs)
    (hlay : ∀ a ∈ as, ∀ bytes, (lay a).out = .ok bytes → ∃ name, 0 ∉ name ∧
      FieldName realText type (entry a).1 name ∧
        (layOne realText left name (entry a).2).out = .ok bytes)
    (hdelimited : ∀ a ∈ as, (entry a).2.Delimited) :
    HoldEntries realText left type pairs (wrap body) := by
  have hfields : ∃ fields : List BsonField, body = fields.flatMap BsonField.written ∧
      (∀ field ∈ fields, field.Sound) ∧
      List.Forall₂ (IsEntry realText left type) (as.map entry) fields := by
    clear hperm
    induction as generalizing body with
    | nil =>
      cases hout
      exact ⟨[], rfl, fun _ h ↦ (nomatch h), .nil⟩
    | cons a as ih =>
      obtain ⟨xs, ys, hxs, hys, rfl⟩ := Layout.append_out_eq_ok.mp hout
      rw [List.length_append] at hsmall
      obtain ⟨fields, rfl, hsound, hentries⟩ := ih hys (by omega)
        (fun a' ha' ↦ hlay a' (List.mem_cons_of_mem _ ha'))
        (fun a' ha' ↦ hdelimited a' (List.mem_cons_of_mem _ ha'))
      obtain ⟨name, hzero, hname, hone⟩ := hlay a List.mem_cons_self xs hxs
      obtain ⟨type', value, rfl, hvalue⟩ := layOne_writesField hone (by omega)
      refine ⟨⟨type', name, value⟩ :: fields, rfl, fun field hfield ↦ ?_,
        .cons ⟨hname, hone⟩ hentries⟩
      rcases List.mem_cons.mp hfield with rfl | hbehind
      · exact ⟨hzero, hvalue.mpr (hdelimited a List.mem_cons_self)⟩
      · exact hsound field hbehind
  obtain ⟨fields, rfl, hsound, hentries⟩ := hfields
  exact ⟨fields, rfl, hsound, _, hperm, hentries⟩

/-- The fields of a document. -/
theorem holdEntries_dict {body : List UInt8}
    (hout : (Layout.all (pairs.map (layPair realText (layOne realText left)))).out = .ok body)
    (hsmall : body.length + 5 < 2 ^ 31) (hfit : EntriesFit realText pairs) :
    HoldEntries realText left .document pairs (wrap body) := by
  have hperm : (pairs.map id).Perm pairs := by rw [List.map_id]
  refine holdEntries_of_layouts hout hsmall hperm ?_ fun pair hmem ↦ (hfit pair hmem).2
  intro pair hmem bytes hpair
  have hzero := (hfit pair hmem).1
  obtain ⟨k, v⟩ := pair
  cases k with
  | integer i => exact ⟨_, hzero _ rfl, .inr ⟨rfl, rfl⟩, hpair⟩
  | real bits => exact ⟨_, hzero _ rfl, .inr ⟨rfl, rfl⟩, hpair⟩
  | string key => exact ⟨_, hzero _ rfl, .inr ⟨rfl, rfl⟩, hpair⟩
  | nil | boolean | userdata | other => cases hpair

/-- The fields of an array, if the table is a sequence. -/
theorem holdEntries_array (h : RawTable pairs elements) (hseq : IsSequence pairs elements.length)
    {body : List UInt8}
    (hout : (Layout.all (elements.zipIdx.map (layElement (layOne realText left)))).out = .ok body)
    (hsmall : body.length + 5 < 2 ^ 31) (hfit : EntriesFit realText pairs) :
    HoldEntries realText left .array pairs (wrap body) := by
  have hlength := h.small
  have hperm : (elements.zipIdx.map fun e ↦ (LuaScalar.integer (.ofNat (e.2 + 1)),
      e.1)).Perm pairs := by
    refine (List.perm_ext_iff_of_nodup ?_ h.nodup.of_map).mpr fun pair ↦ ?_
    · have hnodup := nodup_indices hlength
      refine List.Nodup.of_map Prod.fst ?_
      rwa [List.map_map]
    · rw [List.mem_map]
      constructor
      · rintro ⟨e, he, rfl⟩
        exact h.of_mem_zipIdx hseq he
      · obtain ⟨k, v⟩ := pair
        intro hmem
        obtain ⟨i, hi, rfl⟩ := (hseq k).mp (List.mem_map.mpr ⟨_, hmem, rfl⟩)
        exact ⟨(v, i), h.mem_zipIdx hi hmem, rfl⟩
  refine holdEntries_of_layouts hout hsmall hperm ?_
    fun e he ↦ (hfit _ (h.of_mem_zipIdx hseq he)).2
  intro e he bytes helement
  have hindex : e.2 < elements.length :=
    (List.getElem?_eq_some_iff.mp (List.mem_zipIdx_iff_getElem?.mp he)).1
  rw [layElement, Nat.mod_eq_of_lt (by omega)] at helement
  exact ⟨decimal e.2, not_mem_decimal _, .inl ⟨rfl, e.2, rfl, rfl⟩, helement⟩

/-! ## The table by itself, and with a key -/

private theorem layDocument_out_error {body : BsonLayout} {e : BsonError} :
    (layDocument body).out = .error e ↔ body.out = .error e := by
  have hcounted : (layDocument body).out = (body.append (layByte 0)).out.map fun xs ↦
      lengthBytes ((4 + xs.length : ℕ) : ℤ) ++ xs := rfl
  rw [hcounted]
  cases hout : body.out with
  | error e' =>
    rw [Layout.append_out_error hout]
    rfl
  | ok xs =>
    rw [Layout.append_out_ok hout]
    exact ⟨fun h ↦ (nomatch h), fun h ↦ (nomatch h)⟩

section Document

variable {α : Type} {lay : α → BsonLayout} {as : List α}
  (hhold : ∀ body, (Layout.all (as.map lay)).out = .ok body → body.length + 5 < 2 ^ 31 →
    EntriesFit realText pairs → HoldEntries realText left type pairs (wrap body))
include hhold

private theorem document_comes_iff (hb : Buffered b) :
    Comes (layDocument (.all (as.map lay))) b (HoldEntries realText left type pairs) ↔
      HasRoomFor (layDocument (.all (as.map lay))) b ∧
        Orderly lay (EntriesFit realText pairs) as := by
  rw [comes_iff hb, orderly_iff]
  refine and_congr_right fun hroom ↦ or_congr (exists_congr fun m ↦ layDocument_out_error) ?_
  constructor
  · rintro ⟨xs, hout, hsmall, hentries⟩
    obtain ⟨body, hbody, -⟩ := layDocument_out.mp hout
    exact ⟨⟨body, hbody⟩, entriesFit_of_holdEntries hentries hsmall⟩
  · rintro ⟨⟨body, hbody⟩, hfit⟩
    have hout := layDocument_out.mpr ⟨body, hbody, rfl⟩
    have hsmall := length_lt_of_room hb hroom hout
    refine ⟨wrap body, hout, hsmall, hhold body hbody ?_ hfit⟩
    rwa [length_wrap] at hsmall

private theorem nested_comes_iff (hb : Buffered b) :
    Comes ((layKey type.code key).append (layDocument (.all (as.map lay)))) b (fun xs ↦
        ∃ type doc, xs = type.code :: (key ++ 0 :: doc) ∧
          HoldEntries realText left type pairs doc) ↔
      HasRoomFor ((layKey type.code key).append (layDocument (.all (as.map lay)))) b ∧
        (Utf8.Text key → Orderly lay (EntriesFit realText pairs) as) := by
  rw [comes_iff hb, orderly_iff]
  refine and_congr_right fun hroom ↦ ?_
  rcases settles_key type.code key with ⟨htext, front, hfront⟩ | ⟨htext, m, hm⟩
  · rw [forall_prop_of_true htext]
    obtain ⟨-, rfl⟩ := layKey_out.mp hfront
    refine or_congr (exists_congr fun m ↦ ?_) ?_
    · rw [Layout.append_out_ok hfront, ← layDocument_out_error]
      cases (layDocument (.all (as.map lay))).out with
      | error e => exact Iff.rfl
      | ok xs => exact ⟨fun h ↦ (nomatch h), fun h ↦ (nomatch h)⟩
    · constructor
      · rintro ⟨xs, hout, hsmall, type', doc, rfl, hentries⟩
        obtain ⟨doc', hdoc, hxs⟩ := append_layKey_out hout
        obtain ⟨body, hbody, -⟩ := layDocument_out.mp hdoc
        refine ⟨⟨body, hbody⟩, entriesFit_of_holdEntries hentries ?_⟩
        simp only [List.length_cons, List.length_append] at hsmall
        omega
      · rintro ⟨⟨body, hbody⟩, hfit⟩
        have hdoc := layDocument_out.mpr ⟨body, hbody, rfl⟩
        have hout := Layout.append_out_eq_ok.mpr ⟨_, _, hfront, hdoc, rfl⟩
        have hsmall := length_lt_of_room hb hroom hout
        refine ⟨_, hout, hsmall, type, wrap body, ?_, hhold body hbody ?_ hfit⟩
        · rw [List.cons_append, List.append_assoc, List.singleton_append]
        · simp only [List.length_cons, List.length_append, length_wrap] at hsmall
          omega
  · refine iff_of_true (.inl ⟨m, Layout.append_out_error hm⟩) fun htext' ↦ absurd htext' htext

end Document

private theorem lencode_comes (v : BsonObject) (Q : List UInt8 → Prop) :
    ((∃ m, lencode realText v = .error (.raised m)) ∨ ∃ doc, lencode realText v = .ok doc ∧ Q doc) ↔
      Comes (layBson realText v) ⟨[], 64⟩ Q := by
  rw [lencode, encodeBson_eq, Comes]
  cases hrun : (layBson realText v).run ⟨[], 64⟩ with
  | error e => simp
  | ok r =>
    obtain ⟨u, b'⟩ := r
    simp

/-- `is_rawarray` holds of sequences only. -/
theorem isRawarray_sequence_iff (h : RawTable pairs elements) :
    (isRawarray pairs elements.length = .ok true → IsSequence pairs elements.length) ↔
      elements.length = 0 ∨ (∀ v, pairs.getLast? ≠ some (.integer (.ofNat elements.length), v)) ∨
        IsSequence pairs elements.length := by
  rw [isRawarray_eq_true h.nodup]
  constructor
  · intro hseq
    by_cases hzero : elements.length = 0
    · exact .inl hzero
    · by_cases hlast : ∃ v, pairs.getLast? = some (.integer (.ofNat elements.length), v)
      · exact .inr (.inr (hseq ⟨Nat.pos_of_ne_zero hzero, hlast⟩))
      · exact .inr (.inl fun v hv ↦ hlast ⟨v, hv⟩)
  · rintro (hzero | hlast | hseq) ⟨hpos, v, hv⟩
    · omega
    · exact absurd hv (hlast v)
    · exact hseq

/-- The table as the value of a key. -/
theorem appendTable_comes (h : RawTable pairs elements) (hb : Buffered b)
    (hraw : isRawarray pairs elements.length = .ok true → IsSequence pairs elements.length) :
    ((∃ m, appendTable realText (appendOne realText left) key pairs elements none none b =
        .error (.raised m)) ∨
      ∃ b' type doc, appendTable realText (appendOne realText left) key pairs elements none none b =
          .ok ((), b') ∧
        b'.written = b.written ++ type.code :: (key ++ 0 :: doc) ∧
        HoldEntries realText left type pairs doc) ↔
      HasRoomFor (layTable realText (layOne realText left) key pairs elements none none) b ∧
        (Utf8.Text key → TableOrderly realText left pairs elements) := by
  have hcomes : ((∃ m, appendTable realText (appendOne realText left) key pairs
      elements none none b =
        .error (.raised m)) ∨
      ∃ b' type doc, appendTable realText (appendOne realText left) key pairs elements none none b =
          .ok ((), b') ∧
        b'.written = b.written ++ type.code :: (key ++ 0 :: doc) ∧
        HoldEntries realText left type pairs doc) ↔
      Comes (layTable realText (layOne realText left) key pairs elements none none) b fun xs ↦
        ∃ type doc, xs = type.code :: (key ++ 0 :: doc) ∧
          HoldEntries realText left type pairs doc := by
    rw [appendTable_eq (appendOne_eq realText left), Comes]
    refine or_congr_right ⟨?_, ?_⟩
    · rintro ⟨b', type, doc, hrun, hwritten, hentries⟩
      exact ⟨b', _, hrun, hwritten, type, doc, rfl, hentries⟩
    · rintro ⟨b', xs, hrun, hwritten, type, doc, rfl, hentries⟩
      exact ⟨b', type, doc, hrun, hwritten, hentries⟩
  rw [hcomes, layTable.eq_def, TableOrderly]
  obtain ⟨isArray, hisraw⟩ := h.isRawarray_ok
  simp only [hisraw]
  cases isArray with
  | true => exact nested_comes_iff (fun _ ↦ holdEntries_array h (hraw hisraw)) hb
  | false => exact nested_comes_iff (fun _ ↦ holdEntries_dict) hb

/-- Every entry is kept, or an error is raised, if and only if the table is empty as an array, or
its length is not the last key, or its keys are the numbers up to the length; and there is room, and
in each of the two ways to write it, as long as no error is raised, no key has a zero byte and each
value tells its extent. -/
theorem keepsEntries_iff (h : RawTable pairs elements) (hb : Buffered b) :
    KeepsEntries realText left key b pairs elements ↔
      (elements.length = 0 ∨ (∀ v, pairs.getLast? ≠ some (.integer (.ofNat elements.length), v)) ∨
        IsSequence pairs elements.length) ∧
      (HasRoom realText (.table pairs elements none none) ∧
        Orderly (layPair realText (layOne realText bsonMaxDepth))
          (EntriesFit realText pairs) pairs) ∧
      HasRoomFor (layTable realText (layOne realText left) key pairs elements none none) b ∧
        (Utf8.Text key → TableOrderly realText left pairs elements) := by
  -- `lencode` starts in its own 64 bytes, `append_table` wherever the buffer stands
  have hstart : Buffered ⟨[], 64⟩ := ⟨by decide, by decide⟩
  have hdocument := (@lencode_comes realText (.table pairs elements none none)
    (HoldEntries realText bsonMaxDepth .document pairs)).trans
    (document_comes_iff (fun _ ↦ holdEntries_dict) hstart)
  rw [KeepsEntries, ← isRawarray_sequence_iff h]
  exact and_congr_right fun hraw ↦ and_congr hdocument (appendTable_comes h hb hraw)

private theorem entriesFit_two : EntriesFit (fun _ ↦ []) twoPairs := by
  intro pair hmem
  rcases List.mem_cons.mp hmem with rfl | hmem
  · exact ⟨fun name hname ↦ by cases hname; decide, trivial⟩
  · rw [List.mem_singleton.mp hmem]
    exact ⟨fun name hname ↦ by cases hname; decide, fun subt content heq ↦ by cases heq⟩

theorem keepsEntries_two : KeepsEntries (fun _ ↦ []) 1 [116] ⟨[], 64⟩ twoPairs
    [.integer 7, .string [104, 105]] :=
  (keepsEntries_iff rawTable_two ⟨by decide, by decide⟩).mpr
    ⟨.inr (.inr isSequence_two),
      ⟨⟨64, rfl⟩, .inr ⟨⟨_, rfl⟩, .inr ⟨⟨_, rfl⟩, entriesFit_two⟩⟩⟩,
      ⟨64, rfl⟩, fun _ ↦ .inr ⟨⟨_, rfl⟩, .inr ⟨⟨_, rfl⟩, entriesFit_two⟩⟩⟩

private theorem rawTable_mixed :
    RawTable [(.string [120], .integer 7), (.integer 1, .integer 9)] [.integer 9] where
  nodup := by decide
  not_nil := by decide
  border _ := by decide
  small := by decide
  elements_eq := rfl

/-- The field `x` of this table is lost. -/
theorem not_keepsEntries : ¬∀ (realText : UInt64 → List UInt8) (left : ℕ) (key : List UInt8)
    (b : Sink UInt8 ℤ) (pairs : List (LuaScalar × BsonObject)) (elements : List BsonObject),
    RawTable pairs elements → Buffered b → KeepsEntries realText left key b pairs elements := by
  intro hall
  obtain ⟨-, -, hkeep⟩ := hall (fun _ ↦ []) 1 [116] ⟨[], 64⟩ _ _ rawTable_mixed
    ⟨by decide, by decide⟩
  have hrun : appendTable (fun _ ↦ []) (appendOne (fun _ ↦ []) 1) [116]
      [(.string [120], .integer 7), (.integer 1, .integer 9)] [.integer 9] none none ⟨[], 64⟩ =
      .ok ((), ⟨[4, 116, 0, 12, 0, 0, 0, 16, 48, 0, 9, 0, 0, 0, 0], 64⟩) := by
    rfl
  rcases hkeep with ⟨m, hm⟩ | ⟨b', type, doc, hok, hwritten, fields, rfl, -, entries,
      hperm, hentries⟩
  · cases hrun.symm.trans hm
  · obtain ⟨-, rfl⟩ := Prod.mk.inj (Except.ok.inj (hrun.symm.trans hok))
    have hcode : type.code = 4 := (List.cons.inj hwritten).1.symm
    have hmem : (LuaScalar.string [120], BsonObject.integer 7) ∈ entries :=
      hperm.mem_iff.mpr List.mem_cons_self
    obtain ⟨field, -, ⟨-, i, hk, -⟩ | ⟨htype, -⟩, -⟩ := exists_isEntry hentries hmem
    · cases hk
    · rw [htype] at hcode
      cases hcode

end ZTask
