import ZTask.Bson.Scalars
import ZTask.Bson.Utf8
import ZTask.Cslave.Decimal
import Mathlib.Data.List.TakeWhile

/-!
# What can be encoded

A supported value is written, or an error is raised: the texts in it and its keys have to be UTF-8,
and there may not be too many levels (`Encodable`, `Supported.settles`).

## Errors

The encoder writes on the way and notices an error late, so what is decided here is only whether
there is one. `Settles` says that a layout is written exactly if a condition holds, and `Supported`
goes along with the value: texts, tables with their keys, and the levels that are left. Which error
is raised first is left open.
-/

namespace ZTask

open Lib

variable {realText : UInt64 → List UInt8} {pairs : List (LuaScalar × BsonObject)}
  {elements : List BsonObject} {key : List UInt8} {left : ℕ} {v : BsonObject}

/-- The texts in a string are UTF-8: the string itself, or the parts of a regex. -/
def TextsValid (bytes : List UInt8) : Prop :=
  (bytes.head? ≠ some 0 → Utf8.Text bytes) ∧
    ∀ pattern options, 0 ∉ options →
      bytes = 0 :: BsonType.regex.code :: (pattern ++ 0 :: (options ++ [0])) →
      Utf8.Text pattern ∧ Utf8.Text options

/-- The texts and the keys in a value are UTF-8, and it has no more levels of tables than are left.
-/
inductive Encodable : ℕ → BsonObject → Prop
  | boolean {left : ℕ} (b : Bool) : Encodable left (.boolean b)
  | integer {left : ℕ} (i : Int64) : Encodable left (.integer i)
  | real {left : ℕ} (bits : UInt64) : Encodable left (.real bits)
  | string {left : ℕ} {bytes : List UInt8} : TextsValid bytes → Encodable left (.string bytes)
  | table {left : ℕ} {pairs : List (LuaScalar × BsonObject)} {elements : List BsonObject} :
      (∀ pair ∈ pairs, ∀ key, pair.1 = .string key → Utf8.Text key) →
      (∀ pair ∈ pairs, Encodable left pair.2) →
        Encodable (left + 1) (.table pairs elements none none)

/-! ## Layouts that settle -/

/-- The layout is written if and only if `P`, and an error is raised otherwise. -/
def Settles (P : Prop) (p : BsonLayout) : Prop :=
  P ∧ (∃ xs, p.out = .ok xs) ∨ ¬P ∧ ∃ m, p.out = .error (.raised m)

section Settles

variable {P Q : Prop} {p q : BsonLayout}

theorem Settles.congr (h : Settles P p) (hiff : P ↔ Q) : Settles Q p := by
  rwa [Settles, ← hiff]

theorem Settles.of_ok {xs : List UInt8} (h : p.out = .ok xs) :
    Settles True p := .inl ⟨trivial, xs, h⟩

theorem Settles.append (hp : Settles P p) (hq : Settles Q q) : Settles (P ∧ Q) (p.append q) := by
  rcases hp with ⟨hP, xs, hxs⟩ | ⟨hP, m, hm⟩
  · rcases hq with ⟨hQ, ys, hys⟩ | ⟨hQ, m, hm⟩
    · exact .inl ⟨⟨hP, hQ⟩, xs ++ ys, Layout.append_out_eq_ok.mpr ⟨xs, ys, hxs, hys, rfl⟩⟩
    · refine .inr ⟨fun h ↦ hQ h.2, m, ?_⟩
      rw [Layout.append_out_ok hxs, hm]
      rfl
  · exact .inr ⟨fun h ↦ hP h.1, m, Layout.append_out_error hm⟩

theorem Settles.counted {length : ℕ → ℤ} (hp : Settles P p) : Settles P (layCounted length p) := by
  rcases hp with ⟨hP, xs, hxs⟩ | ⟨hP, m, hm⟩
  · exact .inl ⟨hP, _, layCounted_out.mpr ⟨xs, hxs, rfl⟩⟩
  · refine .inr ⟨hP, m, ?_⟩
    show p.out.map _ = _
    rw [hm]
    rfl

theorem Settles.document (hp : Settles P p) : Settles P (layDocument p) :=
  ((hp.append (.of_ok (p := layByte 0) rfl)).counted).congr (and_iff_left trivial)

theorem Settles.all {α : Type} {as : List α} {f : α → BsonLayout} {P : α → Prop}
    (h : ∀ a ∈ as, Settles (P a) (f a)) : Settles (∀ a ∈ as, P a) (.all (as.map f)) := by
  rcases Layout.all_out_cases (as.map f) with ⟨hall, hzs⟩ | ⟨q, hq, e, he, hout⟩
  · refine .inl ⟨fun a ha ↦ ?_, hzs⟩
    obtain ⟨xs, hxs⟩ := hall (f a) (List.mem_map.mpr ⟨a, ha, rfl⟩)
    rcases h a ha with ⟨hP, -⟩ | ⟨-, m, hm⟩
    · exact hP
    · rw [hm] at hxs
      cases hxs
  · obtain ⟨a, ha, rfl⟩ := List.mem_map.mp hq
    rcases h a ha with ⟨-, xs, hxs⟩ | ⟨hP, m, hm⟩
    · rw [hxs] at he
      cases he
    · rw [hm] at he
      cases he
      exact .inr ⟨fun hall ↦ hP (hall a ha), m, hout⟩

theorem settles_cstring (text : List UInt8) : Settles (Utf8.Text text) (layCstring text) := by
  rw [layCstring, ← textFault_eq_none]
  cases textFault text with
  | none => exact .inl ⟨rfl, _, rfl⟩
  | some copied => exact .inr ⟨fun h ↦ (by cases h), _, rfl⟩

theorem settles_key (type : UInt8) (key : List UInt8) : Settles (Utf8.Text key) (layKey type key) :=
  ((Settles.of_ok (p := layByte type) rfl).append (settles_cstring key)).congr
    (and_iff_right trivial)

private theorem settles_of_ok {type : UInt8} {xs : List UInt8} (h : p.out = .ok xs) :
    Settles (Utf8.Text key) ((layKey type key).append p) :=
  ((settles_key type key).append (.of_ok h)).congr (and_iff_left trivial)

end Settles

/-! ## Strings -/

private theorem textsValid_text {bytes : List UInt8} (h : bytes.head? ≠ some 0) :
    TextsValid bytes ↔ Utf8.Text bytes := by
  constructor
  · exact fun hvalid ↦ hvalid.1 h
  · refine fun htext ↦ ⟨fun _ ↦ htext, fun pattern options _ hbytes ↦ ?_⟩
    rw [hbytes] at h
    exact absurd rfl h

private theorem textsValid_other {type : BsonType} {content : List UInt8} (h : type ≠ .regex) :
    TextsValid (0 :: type.code :: content) := by
  refine ⟨fun hhead ↦ absurd rfl hhead, fun pattern options _ hbytes ↦ ?_⟩
  have hcode : type.code = BsonType.regex.code := (List.cons.inj (List.cons.inj hbytes).2).1
  have heq := congrArg BsonType.ofCode? hcode
  rw [BsonType.ofCode?_code, BsonType.ofCode?_code] at heq
  exact absurd (Option.some.inj heq) h

private theorem textsValid_regex {pattern options : List UInt8} (h : 0 ∉ options) :
    TextsValid (0 :: BsonType.regex.code :: (pattern ++ 0 :: (options ++ [0]))) ↔
      Utf8.Text pattern ∧ Utf8.Text options := by
  constructor
  · exact fun hvalid ↦ hvalid.2 pattern options h rfl
  · refine fun htexts ↦ ⟨fun hhead ↦ absurd rfl hhead, fun pattern' options' h' hbytes ↦ ?_⟩
    have hcontent : (pattern ++ 0 :: options) ++ [0] = (pattern' ++ 0 :: options') ++ [0] := by
      rw [List.append_assoc, List.append_assoc]
      exact (List.cons.inj (List.cons.inj hbytes).2).2
    have hfront := List.append_cancel_right hcontent
    -- The options are what stands behind the last zero byte.
    have hoptions := @regexOptions_append pattern options h
    rw [hfront, regexOptions_append h'] at hoptions
    rw [hoptions] at hfront ⊢
    rw [← List.append_cancel_right hfront]
    exact htexts

private theorem settles_other (type : BsonType) {content xs : List UInt8} (h : type ≠ .regex)
    (hout : (layTagged type.code content).out = .ok xs) :
    Settles (Utf8.Text key ∧ TextsValid (0 :: type.code :: content))
      (layString key (0 :: type.code :: content)) :=
  (settles_of_ok hout).congr (and_iff_left (textsValid_other h)).symm

private theorem settles_tagged {bytes : List UInt8} (h : Tagged bytes) :
    Settles (Utf8.Text key ∧ TextsValid bytes) (layString key bytes) := by
  cases h with
  | binary subtype buffer =>
    exact settles_other .binary (by decide) (layCounted_out.mpr ⟨_, rfl, rfl⟩)
  | objectId hlen => exact settles_other .objectId (by decide) (layTagged_objectId_out hlen)
  | date hlen => exact settles_other .date (by decide) (layTagged_date_out hlen)
  | timestamp hlen => exact settles_other .timestamp (by decide) (layTagged_timestamp_out hlen)
  | null =>
    have hout : (layTagged BsonType.null.code []).out = .ok [] := rfl
    exact settles_other .null (by decide) hout
  | @regex pattern options hpattern hoptions =>
    have hparts : Settles (Utf8.Text pattern ∧ Utf8.Text options)
        (layTagged BsonType.regex.code (pattern ++ 0 :: (options ++ [0]))) := by
      show Settles _ (layRegex _)
      rw [layRegex_eq hoptions]
      exact (settles_cstring pattern).append (settles_cstring options)
    exact ((settles_key _ key).append hparts).congr
      (and_congr_right fun _ ↦ (textsValid_regex hoptions).symm)

private theorem settles_text {bytes : List UInt8} (h : bytes.head? ≠ some 0) :
    Settles (Utf8.Text key ∧ TextsValid bytes) (layString key bytes) := by
  have htext : Settles (Utf8.Text key ∧ TextsValid bytes) (layText key bytes) :=
    ((settles_key _ key).append (settles_cstring bytes).counted).congr
      (and_congr_right fun _ ↦ (textsValid_text h).symm)
  rcases bytes with _ | ⟨b, _ | ⟨c, bytes⟩⟩
  · exact htext
  · exact htext
  · have hb : b ≠ 0 := fun hzero ↦ h (by rw [hzero]; rfl)
    have hplain : layString key (b :: c :: bytes) = layText key (b :: c :: bytes) := if_neg hb
    rwa [hplain]

/-! ## Tables -/

theorem toNat_lt_of_isDigit {b : UInt8} (h : isDigit b = true) : 0 < b.toNat ∧ b.toNat < 0x80 := by
  revert h
  exact forall_byte (P := fun b ↦ isDigit b = true → 0 < b.toNat ∧
    b.toNat < 0x80) (by decide +kernel) b

private theorem text_decimal (n : ℕ) : Utf8.Text (decimal n) :=
  .of_ascii fun _ hb ↦ (toNat_lt_of_isDigit (isDigit_of_mem_decimal hb)).2

private theorem text_decimalInt (n : ℤ) : Utf8.Text (decimalInt n) := by
  rw [decimalInt]
  split
  · exact .cons (.one (by decide : (45 : UInt8).toNat < 0x80)) (text_decimal _)
  · exact text_decimal _

theorem encodable_table :
    Encodable (left + 1) (.table pairs elements none none) ↔
      ∀ pair ∈ pairs, (∀ key, pair.1 = .string key → Utf8.Text key) ∧ Encodable left pair.2 := by
  constructor
  · intro h
    cases h with
    | table hkeys hvalues => exact fun pair hmem ↦ ⟨hkeys pair hmem, hvalues pair hmem⟩
  · exact fun h ↦ .table (fun pair hmem ↦ (h pair hmem).1) fun pair hmem ↦ (h pair hmem).2

theorem RawTable.of_mem_zipIdx (h : RawTable pairs elements)
    (hseq : IsSequence pairs elements.length)
    {element : BsonObject × ℕ} (hmem : element ∈ elements.zipIdx) :
    (.integer (.ofNat (element.2 + 1)), element.1) ∈ pairs := by
  have hget := List.mem_zipIdx_iff_getElem?.mp hmem
  obtain ⟨hi, -⟩ := List.getElem?_eq_some_iff.mp hget
  obtain ⟨pair, hpair, hkey⟩ := List.mem_map.mp ((hseq _).mpr ⟨element.2, hi, rfl⟩)
  rw [h.elements_eq, List.getElem?_map, List.getElem?_range hi, Option.map_some, ← hkey,
    rawgetOf_mem h.nodup hpair] at hget
  rw [← hkey, ← Option.some.inj hget]
  exact hpair

theorem RawTable.isSequence (h : RawTable pairs elements)
    (hkind : IsNamed pairs ∨ IsSequence pairs elements.length)
    (hraw : isRawarray pairs elements.length = .ok true) : IsSequence pairs elements.length := by
  rcases hkind with hnamed | hseq
  · obtain ⟨hpos, -⟩ := (isRawarray_eq_true h.nodup).mp hraw
    obtain ⟨pair, hmem, hkey⟩ := List.mem_map.mp (h.border hpos)
    obtain ⟨key, hstring⟩ := hnamed pair hmem
    rw [hkey] at hstring
    cases hstring
  · exact hseq

theorem RawTable.isRawarray_ok (h : RawTable pairs elements) :
    ∃ isArray, isRawarray pairs elements.length = .ok isArray := by
  rw [isRawarray]
  split
  next => exact ⟨false, rfl⟩
  next hne =>
    obtain ⟨pair, hmem, hkey⟩ := List.mem_map.mp (h.border (Nat.pos_of_ne_zero hne))
    split
    next hdrop =>
      have hall := List.dropWhile_eq_nil_iff.mp hdrop pair hmem
      exact absurd hkey (of_decide_eq_true hall)
    next => exact ⟨true, rfl⟩
    next => exact ⟨false, rfl⟩

section Tables

variable {lay : List UInt8 → BsonObject → BsonLayout}
  (hone : ∀ pair ∈ pairs, ∀ name, Settles (Utf8.Text name ∧
  Encodable left pair.2) (lay name pair.2))
include hone

theorem settles_array (h : RawTable pairs elements) (hseq : IsSequence pairs elements.length) :
    Settles (∀ pair ∈ pairs, (∀ key, pair.1 = .string key → Utf8.Text key) ∧ Encodable left pair.2)
      (layArray lay elements) := by
  have hall : Settles (∀ element ∈ elements.zipIdx, Encodable left element.1)
      (.all (elements.zipIdx.map (layElement lay))) := by
    refine .all fun element hmem ↦ ?_
    exact (hone _ (h.of_mem_zipIdx hseq hmem) _).congr (and_iff_right (text_decimal _))
  refine hall.document.congr ⟨fun hvalues pair hmem ↦ ?_, fun hpairs element hmem ↦ ?_⟩
  · obtain ⟨k, v⟩ := pair
    obtain ⟨i, hi, rfl⟩ := (hseq k).mp (List.mem_map.mpr ⟨_, hmem, rfl⟩)
    exact ⟨fun key hkey ↦ (nomatch hkey), hvalues _ (h.mem_zipIdx hi hmem)⟩
  · exact (hpairs _ (h.of_mem_zipIdx hseq hmem)).2

theorem settles_dict (hkind : IsNamed pairs ∨ IsSequence pairs elements.length) :
    Settles (∀ pair ∈ pairs, (∀ key, pair.1 = .string key → Utf8.Text key) ∧ Encodable left pair.2)
      (layDict realText lay pairs) := by
  refine (Settles.all fun pair hmem ↦ ?_).document
  obtain ⟨k, v⟩ := pair
  have hvalue := hone _ hmem
  rcases hkind with hnamed | hseq
  · obtain ⟨key, rfl⟩ : ∃ key, k = .string key := hnamed _ hmem
    refine (hvalue key).congr (and_congr_left fun _ ↦ ⟨fun htext key' hkey ↦ ?_,
      fun hall ↦ hall key rfl⟩)
    cases hkey
    exact htext
  · obtain ⟨i, hi, rfl⟩ := (hseq k).mp (List.mem_map.mpr ⟨_, hmem, rfl⟩)
    refine (hvalue _).congr (and_congr_left fun _ ↦ ⟨fun _ key hkey ↦ (nomatch hkey), fun _ ↦ ?_⟩)
    exact text_decimalInt _

end Tables

/-- A supported value is written, or an error is raised. -/
theorem Supported.settles (h : Supported v) (left : ℕ) (key : List UInt8) :
    Settles (Utf8.Text key ∧ Encodable left v) (layOne realText left key v) := by
  -- on the value; each table inside takes one from the depth that is left
  induction h generalizing left key with
  | boolean b =>
    rw [layOne.eq_def]
    exact (settles_of_ok rfl).congr (and_iff_left (.boolean b)).symm
  | integer i =>
    rw [layOne.eq_def]
    show Settles _ (layInteger key i)
    rw [layInteger]
    split <;> exact (settles_of_ok rfl).congr (and_iff_left (.integer i)).symm
  | real bits =>
    rw [layOne.eq_def]
    exact (settles_of_ok rfl).congr (and_iff_left (.real bits)).symm
  | @text bytes hhead =>
    rw [layOne.eq_def]
    refine (settles_text hhead).congr (and_congr_right fun _ ↦ ⟨.string, fun h ↦ ?_⟩)
    cases h with
    | string hvalid => exact hvalid
  | @tagged bytes htagged =>
    rw [layOne.eq_def]
    refine (settles_tagged htagged).congr (and_congr_right fun _ ↦ ⟨.string, fun h ↦ ?_⟩)
    cases h with
    | string hvalid => exact hvalid
  | @table pairs elements hraw hkind hsupported ih =>
    cases left with
    | zero =>
      refine .inr ⟨fun h ↦ ?_, .tooDeep, rfl⟩
      cases h.2
    | succ left =>
      have hone := fun pair hmem name ↦ ih pair hmem left name
      show Settles _ (layTable realText (layOne realText left) key pairs elements none none)
      rw [layTable.eq_def, encodable_table]
      obtain ⟨isArray, hisraw⟩ := hraw.isRawarray_ok
      simp only [hisraw]
      cases isArray with
      | true =>
        exact (settles_key _ key).append (settles_array hone hraw (hraw.isSequence hkind hisraw))
      | false => exact (settles_key _ key).append (settles_dict hone hkind)

end ZTask
