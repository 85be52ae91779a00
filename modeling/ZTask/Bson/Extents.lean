import ZTask.Bson.Scalars
import Mathlib.Data.List.Count
import Mathlib.Data.List.TakeWhile

/-!
# Where a field ends

A field of a document is its type, its name, which ends with the first zero byte, and one value of
the type. Of the value only its extent matters here: a scalar is as long as the decoder takes it to
be, and a nested document or array is as long as the number in front of it says (`OneValue`). So the
bytes of a document are its fields in one way only (`fields_unique`).

What `append_one` writes for a value is such a field, unless there is a zero byte in the name or the
value does not tell its own extent (`BsonObject.Delimited`). The encoder does not look into the
strings with the tag of code, a symbol or a pointer, and copies the memory of a userdata up to the
length that stands in it. It writes the pattern of a regex with the zero bytes that are in it, and
for a binary string without a subtype it writes the length -1.
-/

namespace ZTask

open Lib

variable {realText : UInt64 → List UInt8} {name bytes value content : List UInt8} {left : ℕ}
  {type : BsonType} {v : BsonObject}

/-! ## Fields -/

/-- The bytes are one value of the type, whatever follows them. -/
def OneValue (type : BsonType) (value : List UInt8) : Prop :=
  (∃ v, ∀ rest, scalarOf type (value ++ rest) = some (v, value.length)) ∨
    type.inner ≠ none ∧ ∃ body, value = wrap body ∧ body.length + 5 < 2 ^ 31

structure BsonField where
  type : BsonType
  name : List UInt8
  value : List UInt8

namespace BsonField

def written (field : BsonField) : List UInt8 := field.type.code :: (field.name ++ 0 :: field.value)

/-- The field ends where it is read to end. -/
def Sound (field : BsonField) : Prop := 0 ∉ field.name ∧ OneValue field.type field.value

end BsonField

theorem code_inj {type type' : BsonType} (h : type.code = type'.code) : type = type' := by
  have heq := congrArg BsonType.ofCode? h
  rw [BsonType.ofCode?_code, BsonType.ofCode?_code] at heq
  exact Option.some.inj heq

theorem scalarOf_inner (h : type.inner ≠ none) (rest : List UInt8) : scalarOf type rest = none := by
  cases type with
  | document | array => rfl
  | real | string | binary | undefined | objectId | boolean | date | null | regex
      | dbPointer | jsCode
  | symbol | codeWs | int32 | timestamp | int64 | minKey | maxKey => exact absurd rfl h

/-- Two values at the same place are the same bytes. -/
theorem OneValue.unique {value' rest rest' : List UInt8} (h : OneValue type value)
    (h' : OneValue type value') (heq : value ++ rest = value' ++ rest') : value = value' := by
  have hlength : value.length = value'.length := by
    rcases h with ⟨v, hv⟩ | ⟨hinner, body, rfl, hbody⟩
    · rcases h' with ⟨v', hv'⟩ | ⟨hinner, -⟩
      · have hboth := (hv rest).symm.trans ((congrArg (scalarOf type) heq).trans (hv' rest'))
        exact (Prod.mk.inj (Option.some.inj hboth)).2
      · cases (scalarOf_inner hinner _).symm.trans (hv [])
    · rcases h' with ⟨v', hv'⟩ | ⟨-, body', rfl, hbody'⟩
      · cases (scalarOf_inner hinner _).symm.trans (hv' [])
      · have hfront := (frontInt_wrap hbody rest).symm.trans
          ((congrArg frontInt heq).trans (frontInt_wrap hbody' rest'))
        rw [length_wrap, length_wrap]
        exact_mod_cast hfront
  exact (List.append_inj heq hlength).1

private theorem name_unique {name' rest rest' : List UInt8} (h : 0 ∉ name) (h' : 0 ∉ name')
    (heq : name ++ 0 :: rest = name' ++ 0 :: rest') : name = name' ∧ rest = rest' := by
  have hsplit := congrArg splitCstring heq
  rw [splitCstring_append rest h, splitCstring_append rest' h'] at hsplit
  exact Prod.mk.inj (Option.some.inj hsplit)

/-- **The bytes of a document are its fields in one way only.** -/
theorem fields_unique {fields fields' : List BsonField} (h : ∀ field ∈ fields, field.Sound)
    (h' : ∀ field ∈ fields', field.Sound)
    (heq : fields.flatMap BsonField.written = fields'.flatMap BsonField.written) :
    fields = fields' := by
  induction fields generalizing fields' with
  | nil =>
    cases fields' with
    | nil => rfl
    | cons field fields' => cases heq
  | cons field fields ih =>
    cases fields' with
    | nil => cases heq
    | cons field' fields' =>
      obtain ⟨type, name, value⟩ := field
      obtain ⟨type', name', value'⟩ := field'
      obtain ⟨hname, hvalue⟩ := h _ List.mem_cons_self
      obtain ⟨hname', hvalue'⟩ := h' _ List.mem_cons_self
      simp only [List.flatMap_cons, BsonField.written, List.cons_append, List.append_assoc] at heq
      obtain ⟨hcode, hbehind⟩ := List.cons.inj heq
      obtain rfl := code_inj hcode
      obtain ⟨rfl, hvalues⟩ := name_unique hname hname' hbehind
      obtain rfl := OneValue.unique hvalue hvalue' hvalues
      have hrest := List.append_cancel_left hvalues
      rw [ih (fun f hf ↦ h f (List.mem_cons_of_mem _ hf))
        (fun f hf ↦ h' f (List.mem_cons_of_mem _ hf)) hrest]

/-! ## Values that tell their extent -/

/-- What is behind the tag of a string. -/
def TagDelimited (subt : UInt8) (content : List UInt8) : Prop :=
  match BsonType.ofCode? subt with
  | some .binary => content ≠ []
  | some .regex => content.dropLast.count 0 = 1
  | some .jsCode => OneValue .jsCode content
  | some .dbPointer => OneValue .dbPointer content
  | some .symbol => OneValue .symbol content
  | some .codeWs => OneValue .codeWs content
  | _ => True

/-- What is written for the value ends where it is read to end, if it is written. -/
def BsonObject.Delimited : BsonObject → Prop
  | .string bytes => ∀ subt content, bytes = 0 :: subt :: content → TagDelimited subt content
  | .userdata memory => ∃ body, memory.take (toInt32 (ofLittle (memory.take 4))).toNat = wrap body
  | _ => True

/-- What `append_one` writes for the value is a field of some type, and it is sound just in case the
value is delimited. -/
def WritesField (name bytes : List UInt8) (P : Prop) : Prop :=
  ∃ type value, bytes = BsonField.written ⟨type, name, value⟩ ∧ (OneValue type value ↔ P)

theorem WritesField.congr {P Q : Prop} (h : WritesField name bytes P) (hiff : P ↔ Q) :
    WritesField name bytes Q := by
  obtain ⟨type, value, hbytes, hvalue⟩ := h
  exact ⟨type, value, hbytes, hvalue.trans hiff⟩

theorem SpellsField.writesField {w : LuaData} (h : SpellsField name bytes w) :
    WritesField name bytes True := by
  obtain ⟨type, content, hbytes, hscalar⟩ := h
  exact ⟨type, content, hbytes, iff_true_intro (.inl ⟨w, hscalar⟩)⟩

private theorem writesField_of_out (type : BsonType) {p : BsonLayout} {P : Prop}
    (h : ((layKey type.code name).append p).out = .ok bytes)
    (hvalue : ∀ value, p.out = .ok value → (OneValue type value ↔ P)) :
    WritesField name bytes P := by
  obtain ⟨value, hout, rfl⟩ := append_layKey_out h
  exact ⟨type, value, rfl, hvalue value hout⟩

theorem oneValue_fixed {n : ℕ} {f : List UInt8 → LuaScalar} (hscalar : scalarOf type = fixedOf n f)
    (hlen : value.length = n) : OneValue type value := by
  refine .inl ⟨.scalar (f value), fun rest ↦ ?_⟩
  rw [hscalar]
  exact fixedOf_append hlen f rest

private theorem oneValue_wrap {body : List UInt8} (hinner : type.inner ≠ none)
    (hsmall : body.length + 5 < 2 ^ 31) : OneValue type (wrap body) :=
  .inr ⟨hinner, body, rfl, hsmall⟩

/-! ## Regexes -/

/-- The bytes of a regex end with its second zero byte. -/
theorem oneValue_regex {pattern options : List UInt8} (hoptions : 0 ∉ options) :
    OneValue .regex (pattern ++ 0 :: (options ++ [0])) ↔ 0 ∉ pattern := by
  constructor
  · rintro (⟨v, hv⟩ | ⟨hinner, -⟩)
    · intro hzero
      obtain ⟨front, back, rfl, hfront⟩ := List.eq_append_cons_of_mem hzero
      have hread := hv []
      rw [List.append_nil, List.append_assoc, List.cons_append, scalarOf, regexOf,
        splitCstring_append _ hfront] at hread
      dsimp only at hread
      -- the second C string ends within what is left of the pattern
      have hsecond : ∃ second rest, splitCstring (back ++ 0 :: (options ++ [0])) =
          some (second, rest) ∧
          second.length ≤ back.length := by
        rcases cstring_cases back with ⟨second, rest, rfl, hno⟩ | hno
        · rw [List.append_assoc, List.cons_append, splitCstring_append _ hno]
          refine ⟨_, _, rfl, ?_⟩
          rw [List.length_append]
          omega
        · rw [splitCstring_append _ hno]
          exact ⟨_, _, rfl, Nat.le_refl _⟩
      obtain ⟨second, rest, hsplit, hle⟩ := hsecond
      rw [hsplit] at hread
      have hlen := (Prod.mk.inj (Option.some.inj hread)).2
      simp only [List.length_append, List.length_cons, List.length_nil] at hlen
      omega
    · exact absurd rfl hinner
  · intro hpattern
    exact .inl ⟨_, fun rest ↦ scalarOf_regex rest hpattern hoptions⟩

/-- The options are all of the string, or there is a zero byte in front of them. -/
theorem regexOptions_cases (str : List UInt8) :
    (regexOptions str).length = str.length ∨
      ∃ pattern options, str = pattern ++ 0 :: options ∧ 0 ∉ options := by
  by_cases hzero : (0 : UInt8) ∈ str
  · obtain ⟨back, front, hsplit, hno⟩ := List.eq_append_cons_of_mem (List.mem_reverse.mpr hzero)
    refine .inr ⟨front.reverse, back.reverse, ?_, fun hmem ↦ hno (List.mem_reverse.mp hmem)⟩
    have hreverse := congrArg List.reverse hsplit
    rwa [List.reverse_reverse, List.reverse_append, List.reverse_cons, List.append_assoc,
      List.singleton_append] at hreverse
  · refine .inl ?_
    rw [regexOptions, List.takeWhile_eq_self_iff.mpr, List.reverse_reverse]
    intro b hb
    refine decide_eq_true fun hb' ↦ hzero ?_
    rw [← hb']
    exact List.mem_reverse.mp hb

private theorem writesField_regex
    (h : ((layKey BsonType.regex.code name).append (layRegex content)).out = .ok bytes) :
    WritesField name bytes (content.dropLast.count 0 = 1) := by
  refine writesField_of_out .regex h fun value hout ↦ ?_
  rw [layRegex] at hout
  by_cases hnil : content = []
  · rw [if_pos hnil] at hout
    cases hout
  rw [if_neg hnil] at hout
  rcases regexOptions_cases content.dropLast with hall | ⟨pattern, options, hstr, hoptions⟩
  · rw [if_pos hall] at hout
    cases htext : textFault (content ++ [0]) with
    | none | some copied =>
      rw [htext] at hout
      cases hout
  · have hlen : (pattern ++ 0 :: options).length = pattern.length + 1 + options.length := by
      rw [List.length_append, List.length_cons]
      omega
    have htake : (pattern ++ 0 :: options).take
        ((pattern ++ 0 :: options).length - options.length - 1) = pattern :=
      List.take_left' (by omega)
    rw [hstr, regexOptions_append hoptions, if_neg (by omega), htake] at hout
    obtain ⟨xs, ys, hxs, hys, rfl⟩ := Layout.append_out_eq_ok.mp hout
    obtain ⟨-, rfl⟩ := layCstring_out.mp hxs
    obtain ⟨-, rfl⟩ := layCstring_out.mp hys
    rw [List.append_assoc, List.singleton_append, oneValue_regex hoptions, hstr, List.count_append,
      List.count_cons_self, List.count_eq_zero.mpr hoptions, ← List.count_eq_zero]
    omega

/-! ## What is written for a value -/

private theorem writesField_binary (h :
    ((layKey BsonType.binary.code name).append (layBinary content)).out = .ok bytes)
    (hsmall : bytes.length < 2 ^ 31) : WritesField name bytes (content ≠ []) := by
  cases content with
  | cons subtype buffer =>
    exact (spellsField_binary h hsmall).writesField.congr
      (iff_of_true trivial (List.cons_ne_nil _ _))
  | nil =>
    refine writesField_of_out .binary h fun value hout ↦ iff_of_false ?_ (not_not_intro rfl)
    obtain ⟨xs, hxs, rfl⟩ := layCounted_out.mp hout
    cases hxs
    rintro (⟨v, hv⟩ | ⟨hinner, -⟩)
    · cases hv []
    · exact hinner rfl

private theorem layPiece_out (sz : ℤ) (xs : List UInt8) : (layPiece sz xs).out = .ok xs := rfl

private theorem layMemory_out {memory : List UInt8} (h : (layMemory memory).out = .ok value) :
    value = memory.take (toInt32 (ofLittle (memory.take 4))).toNat := by
  rw [layMemory] at h
  by_cases hfour : memory.length < 4
  · rw [if_pos hfour] at h
    cases h
  · simp only [if_neg hfour] at h
    generalize toInt32 (ofLittle (memory.take 4)) = sz at h ⊢
    by_cases hin : 0 ≤ sz ∧ sz ≤ memory.length
    · rw [if_pos hin, layPiece_out] at h
      exact (Except.ok.inj h).symm
    · rw [if_neg hin] at h
      cases h

private theorem writesField_tagged {subt : UInt8}
    (h : ((layKey subt name).append (layTagged subt content)).out = .ok bytes)
    (hsmall : bytes.length < 2 ^ 31) : WritesField name bytes (TagDelimited subt content) := by
  cases htype : BsonType.ofCode? subt with
  | none =>
    obtain ⟨-, value, -, hvalue, -⟩ := Layout.append_out_eq_ok.mp h
    rw [layTagged, htype] at hvalue
    cases hvalue
  | some type =>
    obtain rfl := BsonType.code_of_ofCode? htype
    cases type with
    | binary => exact writesField_binary h hsmall
    | regex => exact writesField_regex h
    | jsCode | dbPointer | symbol | codeWs =>
      refine writesField_of_out _ h fun value hvalue ↦ ?_
      obtain rfl : content = value := Except.ok.inj hvalue
      exact Iff.rfl
    | null | minKey | maxKey =>
      refine writesField_of_out _ h fun value hvalue ↦ iff_of_true ?_ trivial
      obtain rfl : [] = value := Except.ok.inj hvalue
      have hlen : ([] : List UInt8).length = 0 := rfl
      exact oneValue_fixed (by rw [scalarOf]) hlen
    | objectId =>
      refine writesField_of_out .objectId h fun value hvalue ↦ iff_of_true ?_ trivial
      by_cases hlen : content.length = 12
      · cases (layTagged_objectId_out hlen).symm.trans hvalue
        exact oneValue_fixed (by rw [scalarOf]) hlen
      · rw [layTagged, BsonType.ofCode?_code] at hvalue
        dsimp only at hvalue
        rw [if_pos hlen] at hvalue
        cases hvalue
    | date =>
      refine writesField_of_out .date h fun value hvalue ↦ iff_of_true ?_ trivial
      by_cases hlen : content.length = 4
      · cases (layTagged_date_out hlen).symm.trans hvalue
        exact oneValue_fixed (by rw [scalarOf]) (length_toLittle ..)
      · rw [layTagged, BsonType.ofCode?_code] at hvalue
        dsimp only at hvalue
        rw [if_pos hlen] at hvalue
        cases hvalue
    | timestamp =>
      refine writesField_of_out .timestamp h fun value hvalue ↦ iff_of_true ?_ trivial
      by_cases hlen : content.length = 8
      · cases (layTagged_timestamp_out hlen).symm.trans hvalue
        exact oneValue_fixed (by rw [scalarOf]) hlen
      · rw [layTagged, BsonType.ofCode?_code] at hvalue
        dsimp only at hvalue
        rw [if_pos hlen] at hvalue
        cases hvalue
    | real | string | document | array | undefined | boolean | int32 | int64 =>
      obtain ⟨-, value, -, hvalue, -⟩ := Layout.append_out_eq_ok.mp h
      cases hvalue

private theorem writesField_string {str : List UInt8} (h : (layString name str).out = .ok bytes)
    (hsmall : bytes.length < 2 ^ 31) :
    WritesField name bytes (BsonObject.string str).Delimited := by
  rcases str with _ | ⟨zero, _ | ⟨subt, content⟩⟩
  · exact (spellsField_text h hsmall).writesField.congr (iff_of_true trivial fun _ _ ↦ nofun)
  · exact (spellsField_text h hsmall).writesField.congr (iff_of_true trivial fun _ _ ↦ nofun)
  · by_cases hzero : zero = 0
    · rw [layString, if_pos hzero] at h
      refine (writesField_tagged h hsmall).congr ⟨fun htag subt' content' heq ↦ ?_, fun hall ↦ ?_⟩
      · cases heq
        exact htag
      · exact hall subt content (by rw [hzero])
    · rw [layString, if_neg hzero] at h
      refine (spellsField_text h hsmall).writesField.congr (iff_of_true trivial fun _ _ heq ↦ ?_)
      exact absurd (List.cons.inj heq).1 hzero

private theorem writesField_memory {memory : List UInt8}
    (h : ((layKey BsonType.document.code name).append (layMemory memory)).out = .ok bytes)
    (hsmall : bytes.length < 2 ^ 31) :
    WritesField name bytes (BsonObject.userdata memory).Delimited := by
  obtain ⟨value, hout, rfl⟩ := append_layKey_out h
  refine ⟨.document, value, rfl, ?_⟩
  rw [BsonObject.Delimited, ← layMemory_out hout]
  constructor
  · rintro (⟨v, hv⟩ | ⟨-, body, hbody, -⟩)
    · cases hv []
    · exact ⟨body, hbody⟩
  · rintro ⟨body, rfl⟩
    refine oneValue_wrap (by decide) ?_
    simp only [List.length_cons, List.length_append, length_wrap] at hsmall
    omega

private theorem writesField_document {p : BsonLayout} (hinner : type.inner ≠ none)
    (h : ((layKey type.code name).append (layDocument p)).out = .ok bytes)
    (hsmall : bytes.length < 2 ^ 31) : WritesField name bytes True := by
  obtain ⟨value, hout, rfl⟩ := append_layKey_out h
  obtain ⟨body, -, rfl⟩ := layDocument_out.mp hout
  refine ⟨type, _, rfl, iff_true_intro (oneValue_wrap hinner ?_)⟩
  simp only [List.length_cons, List.length_append, length_wrap] at hsmall
  omega

theorem writesField_table {pairs : List (LuaScalar × BsonObject)} {elements : List BsonObject}
    {metalen : Option (Option (List BsonObject))}
    {metapairs : Option (List (LuaScalar × BsonObject))}
    {lay : List UInt8 → BsonObject → BsonLayout}
    (h : (layTable realText lay name pairs elements metalen metapairs).out = .ok bytes)
    (hsmall : bytes.length < 2 ^ 31) : WritesField name bytes True := by
  rcases metalen with _ | _ | counted
  · cases metapairs with
    | some entries => exact writesField_document (show BsonType.document.inner ≠
        none by decide) h hsmall
    | none =>
      rw [layTable.eq_def] at h
      dsimp only at h
      rcases hraw : isRawarray pairs elements.length with e | _ | _
      · rw [hraw] at h
        cases h
      · rw [hraw] at h
        exact writesField_document (show BsonType.document.inner ≠ none by decide) h hsmall
      · rw [hraw] at h
        exact writesField_document (show BsonType.array.inner ≠ none by decide) h hsmall
  · cases h
  · exact writesField_document (show BsonType.array.inner ≠ none by decide) h hsmall

/-- **What is written for a value is a field, and a sound one just in case the value is delimited.**
-/
theorem layOne_writesField (h : (layOne realText left name v).out = .ok bytes)
    (hsmall : bytes.length < 2 ^ 31) : WritesField name bytes v.Delimited := by
  rw [layOne.eq_def] at h
  cases v with
  | boolean b => exact (spellsField_boolean h).writesField
  | integer i => exact (spellsField_integer h).writesField
  | real bits => exact (spellsField_real h).writesField
  | string str => exact writesField_string h hsmall
  | userdata memory => exact writesField_memory h hsmall
  | other typename => cases h
  | table pairs elements metalen metapairs =>
    cases left with
    | zero => cases h
    | succ left => exact writesField_table h hsmall

end ZTask
