import ZTask.Bson.Decode
import Mathlib.Tactic.SplitIfs

/-!
# Values in a document

The value of each scalar type, as a function of the bytes that are left: what is read, and how many
bytes are used up (`scalarOf`). The decoder computes it, or raises an error where there is none
(`unpackValue_scalar`).

A negative length of code, a symbol or a pointer moves the reader back into the length itself. Fewer
bytes than the length takes are used up then.
-/

namespace ZTask

open Lib

/-! ## Scalar values -/

/-- A C string in front, and what follows its end. -/
def splitCstring : List UInt8 → Option (List UInt8 × List UInt8)
  | [] => none
  | b :: bs => if b = 0 then some ([], bs) else (splitCstring bs).map fun p ↦ (b :: p.1, p.2)

/-- The `int` in front. -/
def frontInt (rest : List UInt8) : ℤ := toInt32 (ofLittle (rest.take 4))

/-- A value of `n` bytes. -/
def fixedOf (n : ℕ) (value : List UInt8 → LuaScalar) (rest : List UInt8) : Option (LuaData × ℕ) :=
  if n ≤ rest.length then some (.scalar (value (rest.take n)), n) else none

/-- A value whose bytes, with the length in front of them, are `extra` more than the length says. -/
def countedOf (type : BsonType) (extra : ℕ) (rest : List UInt8) : Option (LuaData × ℕ) :=
  if 4 ≤ rest.length ∧ 0 ≤ frontInt rest + extra ∧ frontInt rest + extra ≤ rest.length then
    let n := (frontInt rest + extra).toNat
    some (.scalar (.string (0 :: type.code :: rest.take n)), n)
  else none

/-- A string, whose length includes the byte at its end. -/
def stringOf (rest : List UInt8) : Option (LuaData × ℕ) :=
  if 4 ≤ rest.length ∧ 0 < frontInt rest ∧ 4 + frontInt rest ≤ rest.length then
    some (.scalar (.string ((rest.drop 4).take (frontInt rest - 1).toNat)),
      4 + (frontInt rest).toNat)
  else none

/-- A subtype and bytes, whose length does not include the subtype. -/
def binaryOf (rest : List UInt8) : Option (LuaData × ℕ) :=
  if 5 ≤ rest.length ∧ 0 ≤ frontInt rest ∧ 5 + frontInt rest ≤ rest.length then
    some (.scalar (.string (0 :: BsonType.binary.code ::
      (rest.drop 4).take (1 + (frontInt rest).toNat))), 5 + (frontInt rest).toNat)
  else none

/-- Two C strings. -/
def regexOf (rest : List UInt8) : Option (LuaData × ℕ) :=
  match splitCstring rest with
  | none => none
  | some (r1, rest₁) =>
    match splitCstring rest₁ with
    | none => none
    | some (r2, _) =>
      some (.scalar (.string (0 :: BsonType.regex.code :: (r1 ++ 0 :: (r2 ++ [0])))),
        r1.length + 1 + (r2.length + 1))

/-- The date that a `date` field holds. -/
def dateBytes (bytes : List UInt8) : List UInt8 :=
  toLittle 4 ((Int64.ofNat (ofLittle bytes)).toInt.tdiv 1000 % 2 ^ 32).toNat

/-- The value of a type at the front, and the number of bytes that it uses up. -/
def scalarOf : BsonType → List UInt8 → Option (LuaData × ℕ)
  | .real => fixedOf 8 fun bytes ↦ .real (.ofNat (ofLittle bytes))
  | .boolean => fixedOf 1 fun bytes ↦ .boolean (UInt8.ofNat (ofLittle bytes) ≠ 0)
  | .string => stringOf
  | .binary => binaryOf
  | .objectId => fixedOf 12 fun bytes ↦ .string (0 :: BsonType.objectId.code :: bytes)
  | .date => fixedOf 8 fun bytes ↦ .string (0 :: BsonType.date.code :: dateBytes bytes)
  | .minKey => fixedOf 0 fun _ ↦ .string [0, BsonType.minKey.code]
  | .maxKey => fixedOf 0 fun _ ↦ .string [0, BsonType.maxKey.code]
  | .null => fixedOf 0 fun _ ↦ .string [0, BsonType.null.code]
  | .regex => regexOf
  | .int32 => fixedOf 4 fun bytes ↦ .integer (.ofInt (toInt32 (ofLittle bytes)))
  | .timestamp => fixedOf 8 fun bytes ↦ .string (0 :: BsonType.timestamp.code :: bytes)
  | .int64 => fixedOf 8 fun bytes ↦ .integer (.ofNat (ofLittle bytes))
  | .dbPointer => countedOf .dbPointer 16
  | .jsCode => countedOf .jsCode 4
  | .symbol => countedOf .symbol 4
  | .codeWs => countedOf .codeWs 0
  | .document | .array | .undefined => fun _ ↦ none

/-! ## C strings -/

theorem splitCstring_append {key : List UInt8} (rest : List UInt8) (hkey : 0 ∉ key) :
    splitCstring (key ++ 0 :: rest) = some (key, rest) := by
  induction key with
  | nil => rfl
  | cons b key ih =>
    have hb : b ≠ 0 := fun h ↦ hkey (h ▸ List.mem_cons_self)
    rw [List.cons_append, splitCstring, if_neg hb, ih fun h ↦ hkey (List.mem_cons_of_mem _ h)]
    rfl

theorem splitCstring_none {bytes : List UInt8} (h : 0 ∉ bytes) : splitCstring bytes = none := by
  induction bytes with
  | nil => rfl
  | cons b bytes ih =>
    have hb : b ≠ 0 := fun h' ↦ h (h' ▸ List.mem_cons_self)
    rw [splitCstring, if_neg hb, ih fun h' ↦ h (List.mem_cons_of_mem _ h')]
    rfl

/-- A regex is read back as the string that the decoder makes of it. -/
theorem scalarOf_regex {pattern options : List UInt8} (rest : List UInt8) (hpattern : 0 ∉ pattern)
    (hoptions : 0 ∉ options) :
    scalarOf .regex (pattern ++ 0 :: (options ++ [0]) ++ rest) =
      some (.scalar (.string (0 :: BsonType.regex.code :: (pattern ++ 0 :: (options ++ [0])))),
        (pattern ++ 0 :: (options ++ [0])).length) := by
  have hassoc : pattern ++ 0 :: (options ++ [0]) ++ rest = pattern ++ 0 ::
      (options ++ 0 :: rest) := by
    rw [List.append_assoc, List.cons_append, List.append_assoc, List.singleton_append]
  rw [scalarOf, hassoc, regexOf, splitCstring_append _ hpattern]
  dsimp only
  rw [splitCstring_append _ hoptions]
  simp only [List.length_append, List.length_cons, List.length_nil]
  rw [Nat.add_assoc]
  congr 2
  omega

theorem cstring_cases (bytes : List UInt8) :
    (∃ key rest, bytes = key ++ 0 :: rest ∧ 0 ∉ key) ∨ 0 ∉ bytes := by
  by_cases h : (0 : UInt8) ∈ bytes
  · exact .inl (List.eq_append_cons_of_mem h)
  · exact .inr h

/-! ## How much is used up -/

theorem fixedOf_le {n k : ℕ} {value : List UInt8 → LuaScalar} {rest : List UInt8} {v : LuaData}
    (h : fixedOf n value rest = some (v, k)) : k ≤ rest.length := by
  rw [fixedOf] at h
  split_ifs at h with hn
  cases h
  exact hn

private theorem countedOf_le {type : BsonType} {extra k : ℕ} {rest : List UInt8} {v : LuaData}
    (h : countedOf type extra rest = some (v, k)) : k ≤ rest.length := by
  rw [countedOf] at h
  split_ifs at h with hn
  cases h
  omega

theorem regexOf_le {k : ℕ} {rest : List UInt8} {v : LuaData} (h : regexOf rest = some (v, k)) :
    k ≤ rest.length := by
  rcases cstring_cases rest with ⟨r1, rest₁, rfl, h1⟩ | hno
  · rw [regexOf, splitCstring_append _ h1] at h
    rcases cstring_cases rest₁ with ⟨r2, rest₂, rfl, h2⟩ | hno
    · simp only [splitCstring_append _ h2, Option.some.injEq, Prod.mk.injEq] at h
      simp only [List.length_append, List.length_cons]
      omega
    · simp only [splitCstring_none hno] at h
      cases h
  · rw [regexOf, splitCstring_none hno] at h
    cases h

/-- No value uses up more than there is. -/
theorem scalarOf_le {type : BsonType} {k : ℕ} {rest : List UInt8} {v : LuaData}
    (h : scalarOf type rest = some (v, k)) : k ≤ rest.length := by
  cases type with
  | string =>
    rw [scalarOf, stringOf] at h
    split_ifs at h with hn
    cases h
    omega
  | binary =>
    rw [scalarOf, binaryOf] at h
    split_ifs at h with hn
    cases h
    omega
  | regex =>
    rw [scalarOf] at h
    exact regexOf_le h
  | dbPointer | jsCode | symbol | codeWs =>
    rw [scalarOf] at h
    exact countedOf_le h
  | document | array | undefined => cases h
  | real | boolean | objectId | date | minKey | maxKey | null | int32 | timestamp | int64 =>
    rw [scalarOf] at h
    exact fixedOf_le h

end ZTask
