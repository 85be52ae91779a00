import ZTask.Bson.Fields

/-!
# Decoding bytes that need not be a document

What `decode` does with any block that states its own length. It ends, with a table or with an error
that is raised, unless the fields stray (`decodesSafely_iff`). They stray where a nested document or
array has a negative length that leads back to before the block; `not_decodesSafely` is a block of
twelve bytes.

## Three ways to end

`ldecode_cases` has a block that states its length end in one of three ways: it is the document of a
table, it leads outside, or an error is raised. The reader of `Bson.Decode` is bounded by the end of
its document, so reading stays inside as long as the length of every nested document leads forward.
It is compared with what is left as an `int`, and a negative length passes.

## Depth

The reader calls itself for a nested document. How deep the C stack allows that is not in the source
and is taken to suffice.
-/

namespace ZTask

open Lib

variable {block body : List UInt8}

/-! ## What is claimed -/

/-- Decoding ends with a table or with an error that is raised; no byte outside of the block is
read. -/
def DecodesSafely (block : List UInt8) : Prop :=
  (∃ get keyed, ldecode block = .ok (.table get keyed)) ∨ ∃ m, ldecode block = .error (.raised m)

/-- The block is a document whose fields stray. -/
def LeadsOutside (block : List UInt8) : Prop := ∃ body, block = wrap body ∧ Strays 4 body

/-! ## The reader at the start -/

theorem bytesAt_zero {n : ℕ} (hn : n ≤ block.length) : bytesAt block 0 n = .ok (block.take n) := by
  have hin : n = 0 ∨ (0 : ℤ) ≤ 0 ∧ 0 + (n : ℤ) ≤ block.length := .inr ⟨Int.le_refl 0, by omega⟩
  rw [bytesAt, if_pos hin]
  rfl

theorem bsonLength_eq (hlen : 4 ≤ block.length) : bsonLength block = .ok (frontInt block) := by
  rw [bsonLength, bytesAt_zero hlen]
  rfl

private theorem shows_block (hsmall : block.length < 2 ^ 31) :
    (⟨0, block.length⟩ : BsonReader).Shows block block.length block where
  small := hsmall
  le_length := Nat.le_refl _
  stands := ⟨[], List.take_length.symm⟩
  ptr_eq := Int.zero_add _
  size_eq := rfl

private theorem ldecode_eq (hlen : 4 ≤ block.length) (hstated : frontInt block = block.length) :
    ldecode block = (unpackDict block (block.length + 1) false ⟨0, block.length⟩).1 := by
  rw [ldecode, bsonLength_eq hlen, hstated]
  rfl

/-! ## Documents -/

section Document

variable (hsmall : body.length + 5 < 2 ^ 31)
include hsmall

theorem shows_wrap :
    (⟨0, (wrap body).length⟩ : BsonReader).Shows (wrap body) (wrap body).length
    (wrap body ++ []) := by
  rw [List.append_nil]
  exact shows_block (by rwa [length_wrap])

private theorem ldecode_wrap :
    ldecode (wrap body) =
      (unpackDict (wrap body) ((wrap body).length + 1) false ⟨0, (wrap body).length⟩).1 := by
  have hfront := frontInt_wrap hsmall []
  rw [List.append_nil, ← length_wrap] at hfront
  exact ldecode_eq (by rw [length_wrap]; omega) hfront

theorem ldecode_fields {fields : List (LuaScalar × LuaData)} (hf : Fields false body fields) :
    ldecode (wrap body) = .ok (tableOf fields) := by
  have hdepth : body.length < (wrap body).length := by
    rw [length_wrap]
    omega
  rw [ldecode_wrap hsmall, unpackDict_fields (shows_wrap hsmall) hsmall hf hdepth]

theorem ldecode_strays (hs : Strays 4 body) : ldecode (wrap body) = .error .outside := by
  have hdepth : body.length < (wrap body).length := by
    rw [length_wrap]
    omega
  obtain ⟨br', hunpack⟩ := hs.unpack (shows_wrap hsmall).inside (Int.zero_add 4) hdepth
      hdepth false .empty
  rw [ldecode_wrap hsmall, unpackDict_error (shows_wrap hsmall) hsmall hunpack]

end Document

/-! ## Blocks that state their length -/

/-- Every block that states its length is the document of a table, or it leads outside, or an error
is raised. -/
theorem ldecode_cases (hlen : 4 ≤ block.length) (hstated : frontInt block = block.length) :
    (∃ body fields, block = wrap body ∧ body.length + 5 < 2 ^ 31 ∧ Fields false body fields) ∨
      LeadsOutside block ∨ ∃ m, ldecode block = .error (.raised m) := by
  have hhi : frontInt block < 2 ^ 31 := toInt32_lt _
  by_cases hwrap : ∃ body, block = wrap body
  · obtain ⟨body, rfl⟩ := hwrap
    have hbody := length_wrap body
    have hsmall : body.length + 5 < 2 ^ 31 := by omega
    have hdepth : body.length < (wrap body).length := by omega
    rcases unpackFields_cases (shows_wrap hsmall).inside (Int.zero_add 4) hdepth hdepth
        (by omega) false
      .empty with ⟨fields, hf⟩ | hs | ⟨m, br', hm⟩
    · exact .inl ⟨body, fields, rfl, hsmall, hf⟩
    · exact .inr (.inl ⟨body, rfl, hs⟩)
    · refine .inr (.inr ⟨m, ?_⟩)
      rw [ldecode_wrap hsmall, unpackDict_error (shows_wrap hsmall) hsmall hm]
  · have hno : ∀ body rest, block = wrap body ++ rest → ¬body.length + 5 < 2 ^ 31 := by
      intro body rest hblock hsmall
      have hfront := frontInt_wrap hsmall rest
      rw [← hblock, hstated, hblock, List.length_append, length_wrap] at hfront
      have hrest : rest = [] := List.eq_nil_of_length_eq_zero (by omega)
      rw [hrest, List.append_nil] at hblock
      exact hwrap ⟨body, hblock⟩
    have hback : ¬LeadsBack 0 block := fun h ↦ by
      have hneg := h.2.2.1
      omega
    obtain ⟨m, br', hm⟩ := @unpackDict_other block block _ block.length _ false
        (shows_block (by omega)) 0
      rfl (by omega) (fun hneg ↦ by omega) hno hback
    refine .inr (.inr ⟨m, ?_⟩)
    rw [ldecode_eq hlen hstated, hm]

/-- Decoding a block that states its own length is safe unless the block leads outside. -/
theorem decodesSafely_iff (hlen : 4 ≤ block.length)
    (hstated : bsonLength block = .ok block.length) :
    DecodesSafely block ↔ ¬LeadsOutside block := by
  rw [bsonLength_eq hlen] at hstated
  have hstated := Except.ok.inj hstated
  have hhi : frontInt block < 2 ^ 31 := toInt32_lt _
  constructor
  · -- where the fields lead outside, the decoder neither ends nor raises
    rintro hsafe ⟨body, rfl, hs⟩
    have houtside := ldecode_strays (by rw [← length_wrap]; omega) hs
    rcases hsafe with ⟨get, keyed, hok⟩ | ⟨m, hraised⟩
    · exact absurd (hok.symm.trans houtside) (by simp)
    · exact absurd (hraised.symm.trans houtside) (by simp)
  · intro hno
    rcases ldecode_cases hlen hstated with ⟨body, fields, rfl, hsmall, hf⟩ | hout | hraised
    · exact .inl ⟨_, _, ldecode_fields hsmall hf⟩
    · exact absurd hout hno
    · exact .inr hraised

/-- `{a = "hi", b = {c = true}}` -/
def nestedBlock : List UInt8 :=
  wrap [2, 97, 0, 3, 0, 0, 0, 104, 105, 0, 3, 98, 0, 9, 0, 0, 0, 8, 99, 0, 1, 0]

/-- It is decoded, and so does not lead outside. -/
theorem decodesSafely_iff_nested : DecodesSafely nestedBlock ∧ ¬LeadsOutside nestedBlock := by
  have hboolean : scalarOf .boolean [1] = some (.scalar (.boolean true), 1) := rfl
  have hstring : ∀ rest, scalarOf .string ([3, 0, 0, 0, 104, 105, 0] ++ rest) =
      some (.scalar (.string [104, 105]), 7) := by
    intro rest
    have hfront : frontInt ([3, 0, 0, 0, 104, 105, 0] ++ rest) = 3 :=
      show toInt32 (ofLittle [3, 0, 0, 0]) = 3 by decide
    have hlen : ([3, 0, 0, 0, 104, 105, 0] ++ rest).length = 7 + rest.length := List.length_append
    rw [scalarOf, stringOf, hfront, if_pos ⟨by omega, by omega, by omega⟩]
    rfl
  have hinner : Fields false (BsonType.boolean.code :: ([99] ++ 0 :: [1]))
      [(fieldKey false [99], .scalar (.boolean true))] := .scalar (by decide) hboolean .nil
  have hnested : Fields false (BsonType.document.code :: ([98] ++ 0 :: (wrap [8, 99, 0, 1] ++ [])))
      [(fieldKey false [98], tableOf [(fieldKey false [99], .scalar (.boolean true))])] :=
    .nested (by decide) rfl (by decide) hinner .nil
  have hfields : Fields false (BsonType.string.code :: ([97] ++ 0 ::
      ([3, 0, 0, 0, 104, 105, 0] ++ (3 :: ([98] ++ 0 :: (wrap [8, 99, 0, 1] ++ []))))))
      [(fieldKey false [97], .scalar (.string [104, 105])),
        (fieldKey false [98], tableOf [(fieldKey false [99], .scalar (.boolean true))])] :=
    .scalar (by decide) (hstring _) hnested
  have hsafe : DecodesSafely nestedBlock := .inl ⟨_, _, ldecode_fields (by decide) hfields⟩
  have hfront : frontInt nestedBlock = nestedBlock.length := by decide
  exact ⟨hsafe, (decodesSafely_iff (by decide)
    (by rw [bsonLength_eq (by decide), hfront])).mp hsafe⟩

/-- A document in a document, of which the length is -1000. -/
theorem not_decodesSafely : ¬∀ block : List UInt8, 4 ≤ block.length →
    bsonLength block = .ok block.length → DecodesSafely block := by
  intro h
  generalize hblock : ([12, 0, 0, 0, 3, 97, 0, 0x18, 0xFC, 0xFF, 0xFF, 0] : List UInt8) = block
  have houtside : ldecode block = .error .outside := by
    rw [← hblock]
    rfl
  have hfront : frontInt block = block.length := by
    rw [← hblock]
    decide
  have hlen : 4 ≤ block.length := by
    rw [← hblock]
    decide
  rcases h block hlen (by rw [bsonLength_eq hlen, hfront]) with ⟨get, keyed, hok⟩ | ⟨m, hraised⟩
  · exact absurd (hok.symm.trans houtside) (by simp)
  · exact absurd (hraised.symm.trans houtside) (by simp)

end ZTask
