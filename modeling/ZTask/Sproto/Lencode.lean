import ZTask.Sproto.Tables
import ZTask.Sproto.Unpacking

/-!
# `lencode`

The buffer of `lencode` is doubled until `sproto_encode` does not give up any more. What comes of a
table is what its draft lays down, whatever the size of the buffer that a call finds
(`lencode_table`).

## The loop

`sproto_encode` returns -1 when the room is not enough, and nothing of what it has written is used
then. `Lencoded` has the ways in which the loop ends: with the text, with an error of the draft, or
with the error of `expand_buffer` when the size has come to its limit. Each round begins with a
buffer of twice the size (`expandBuffer_double`), so the loop ends.

## What may be overrun

Only an array of integers may have a draft that is not steady: the room that is left when its
integers are spread may be negative, and is not noticed to be. So any other type is encoded within
the buffer (`lencode_inside`). The stack of Lua that `lencode` reserves is left out here.
-/

namespace ZTask

open Lib

variable {n : ℕ} {conv : LuaConversion} {types : Fin n → SprotoType n} {st : Fin n}
    {pairs : LuaPairs}

/-! ## Doubling the buffer -/

/-- The buffer is doubled as long as the room that is wanted is not there. -/
structure Suffices (osz room sz : ℕ) : Prop where
  bufsize : IsBufsize sz
  fits : room ≤ sz
  grown : sz ≠ osz → ∃ sz', osz ≤ sz' ∧ sz = sz' * 2 ∧ sz' < room

/-- How `lencode` ends for a draft, with a buffer of `osz` bytes. -/
inductive Lencoded (d : SprotoDraft) (osz : ℕ) : Sproto (List UInt8 × ℕ) → Prop
  /-- The text, and the size of the buffer from now on. -/
  | text {xs : List UInt8} {sz : ℕ} :
    d.out = .ok xs → Suffices osz d.room sz → Lencoded d osz (.ok (xs, sz))
  /-- A value is of another type than its field. -/
  | raised {e : SprotoMessage} :
      d.out = .error e → d.room ≤ maxBufsize → Lencoded d osz (.error (.raised e))
  /-- The largest buffer is too small. -/
  | tooLarge : maxBufsize < d.room → Lencoded d osz (.error (.raised .tooLarge))
  /-- The buffer is too small, and an array of integers overruns it. -/
  | overrun : osz < d.room → d.steady = false → Lencoded d osz (.error .outside)

theorem Lencoded.double {d : SprotoDraft} {osz : ℕ} {r : Sproto (List UInt8 × ℕ)}
    (hsmall : osz < d.room) (h : Lencoded d (osz * 2) r) : Lencoded d osz r := by
  cases h with
  | @text xs sz hout hsuff =>
    refine .text hout ⟨hsuff.bufsize, hsuff.fits, fun _ ↦ ?_⟩
    by_cases hsz : sz = osz * 2
    · exact ⟨osz, Nat.le_refl _, hsz, hsmall⟩
    · obtain ⟨sz', hle, heq, hlt⟩ := hsuff.grown hsz
      exact ⟨sz', by omega, heq, hlt⟩
  | raised hout hroom => exact .raised hout hroom
  | tooLarge hroom => exact .tooLarge hroom
  | overrun _ hsteady => exact .overrun hsmall hsteady

/-- The next buffer is twice as large, or too large. -/
theorem expandBuffer_double (k : ℕ) (hk : k ≤ 12) :
    expandBuffer (encodeBuffersize * 2 ^ k) (encodeBuffersize * 2 ^ k * 2) =
      if k = 12 then .error (.raised .tooLarge) else .ok (encodeBuffersize * 2 ^ (k + 1)) := by
  have hdouble : encodeBuffersize * 2 ^ k * 2 = encodeBuffersize * 2 ^ (k + 1) := by
    rw [Nat.mul_assoc, Nat.pow_succ]
  have hpos : 0 < encodeBuffersize * 2 ^ k := Nat.mul_pos (by decide) (Nat.two_pow_pos k)
  have hsize : IsBufsize (encodeBuffersize * 2 ^ k) := ⟨k, hk, rfl⟩
  have hmax : encodeBuffersize * 2 ^ k ≤ 2050 * 2 ^ 12 := hsize.le
  have hexpand : expandBuffer (encodeBuffersize * 2 ^ k) (encodeBuffersize * 2 ^ k * 2) =
      if encodeMaxsize < encodeBuffersize * 2 ^ k * 2 then .error (.raised .tooLarge)
      else .ok (encodeBuffersize * 2 ^ k * 2) := by
    rw [expandBuffer, expandLoop, if_neg (by omega), if_neg (Nat.lt_irrefl _)]
    rfl
  rw [hexpand]
  by_cases hlast : k = 12
  · rw [if_pos hlast, hlast]
    exact if_pos (by decide)
  · rw [if_neg hlast, ← hdouble]
    refine if_neg (Nat.not_lt.mpr ?_)
    have hnext : encodeBuffersize * 2 ^ (k + 1) ≤ maxBufsize := IsBufsize.le ⟨k + 1, by omega, rfl⟩
    rw [hdouble]
    exact Nat.le_trans hnext (by decide)

/-- **The loop of `lencode`.** -/
theorem lencodeLoop_lencoded {k fuel : ℕ} (hk : k ≤ 12) (hfuel : 13 ≤ k + fuel) :
    Lencoded (textDraft conv types encodeDeeplevel st pairs) (encodeBuffersize * 2 ^ k)
      (lencodeLoop conv types st pairs fuel (encodeBuffersize * 2 ^ k)) := by
  induction fuel generalizing k with
  | zero => omega
  | succ fuel ih =>
    have hsize : IsBufsize (encodeBuffersize * 2 ^ k) := ⟨k, hk, rfl⟩
    have hmax := hsize.le
    have hroomy : Roomy (.alloc (encodeBuffersize * 2 ^ k)) 0 (encodeBuffersize * 2 ^ k) :=
      ⟨by rw [Lib.Block.length_alloc, Nat.zero_add], by
        rw [Lib.Block.length_alloc]
        exact Nat.le_trans hmax (by decide)⟩
    have hencode := encode_comes conv types encodeDeeplevel st pairs _ 0 _ hroomy
    rw [lencodeLoop]
    generalize sprotoEncode _ _ _ _ _ _ = x at hencode
    cases hencode with
    | @wrote r xs hroom hout hpost =>
      obtain ⟨len, ud, block⟩ := r
      obtain ⟨rfl, hfilled⟩ : len = xs.length ∧ Filled _ 0 block xs := hpost
      dsimp only
      rw [pushPacked_at hfilled.stands]
      exact .text hout ⟨hsize, hroom, fun hne ↦ absurd rfl hne⟩
    | raised hroom hout => exact .raised hout (Nat.le_trans hroom hmax)
    | overrun hroom hsteady => exact .overrun hroom hsteady
    | noRoom hroom =>
      show Lencoded _ _ (expandBuffer _ _ >>= fun _ ↦ lencodeLoop _ _ _ _ _ _)
      rw [expandBuffer_double k hk]
      by_cases hlast : k = 12
      · rw [if_pos hlast]
        refine .tooLarge ?_
        rw [hlast] at hroom
        exact hroom
      · rw [if_neg hlast, Sproto.ok_bind]
        refine .double hroom ?_
        rw [Nat.mul_assoc, ← Nat.pow_succ]
        exact ih (by omega) (by omega)

/-! ## Texts -/

/-- **`lencode` writes what the table stands for**, with the room that it takes: it ends with the
text, or with the first error among the fields, or finds the table too large; only an array of
integers that is not steady may overrun the buffer. -/
theorem lencode_table (conv : LuaConversion) (types : Fin n → SprotoType n) (st : Fin n)
    (pairs : LuaPairs) (rawlen : ℕ) (metapairs : Option LuaPairs) {osz : ℕ} (hosz : IsBufsize osz) :
    Lencoded (textDraft conv types encodeDeeplevel st pairs) osz
      (Sproto.lencode conv types (some st) (.table pairs rawlen metapairs) osz) := by
  obtain ⟨k, hk, rfl⟩ := hosz
  exact lencodeLoop_lencoded hk (by omega)

/-- A type with a number, a text and an array of numbers. -/
def greetingTypes : Fin 1 → SprotoType 1 := fun _ ↦
  ⟨[⟨0, .integer, false, [110], none⟩, ⟨2, .string, false, [115], none⟩,
    ⟨3, .integer, true, [97], none⟩], by decide, by decide, by
      intro g hg hkey
      rcases List.mem_cons.mp hg with rfl | hg
      · cases hkey
      · rcases List.mem_cons.mp hg with rfl | hg
        · cases hkey
        · obtain rfl := List.mem_singleton.mp hg
          cases hkey⟩

/-- No string is a number, and no number is made into a string. -/
def strictConversion : LuaConversion := ⟨fun _ ↦ none, fun _ ↦ []⟩

/-- `{ n = -1, s = "hi", a = { 1, 2 ^ 40 } }` -/
def greetingPairs : LuaPairs :=
  [(.scalar (.string [110]), .scalar (.integer (-1))),
    (.scalar (.string [115]), .scalar (.string [104, 105])),
    (.scalar (.string [97]), .table [(.scalar (.integer 1), .scalar (.integer 1)),
      (.scalar (.integer 2), .scalar (.integer 1099511627776))] 2 none)]

def greetingText : List UInt8 :=
  [4, 0, 0, 0, 1, 0, 0, 0, 0, 0, 4, 0, 0, 0, 255, 255, 255, 255, 2, 0, 0, 0, 104, 105,
    17, 0, 0, 0, 8, 1, 0, 0, 0, 0, 0, 0, 0, 0, 0, 0, 0, 0, 1, 0, 0]

theorem lencode_table_greeting :
    Sproto.lencode strictConversion greetingTypes (some 0) (.table greetingPairs 0 none) 2050 =
      .ok (greetingText, 2050) := by
  have hosz : IsBufsize 2050 := ⟨0, by decide, rfl⟩
  have h := lencode_table strictConversion greetingTypes 0 greetingPairs 0 none hosz
  have hout : (textDraft strictConversion greetingTypes encodeDeeplevel 0 greetingPairs).out =
      .ok greetingText := by
    decide +kernel
  have hroom : (textDraft strictConversion greetingTypes encodeDeeplevel 0 greetingPairs).room ≤
      2050 := by
    decide +kernel
  generalize Sproto.lencode _ _ _ _ _ = r at h ⊢
  cases h with
  | @text xs sz htext hsuff =>
    rw [hout, Except.ok.injEq] at htext
    -- the first buffer is large enough
    by_cases hsz : sz = 2050
    · rw [hsz, htext]
    · obtain ⟨sz', hle, -, hlt⟩ := hsuff.grown hsz
      omega
  | raised herror =>
    rw [hout] at herror
    cases herror
  | tooLarge hlarge => exact absurd (Nat.lt_of_lt_of_le hlarge hroom) (by decide)
  | overrun hlt => omega

/-! ## Without arrays of integers -/

/-- **A type without arrays of integers is encoded within the buffer.** -/
theorem lencode_inside (conv : LuaConversion)
    (h : ∀ st, ∀ f ∈ (types st).f, f.array = true → f.kind ≠ .integer) (st : Option (Fin n))
    (v : LuaObject)
    {osz : ℕ} (hosz : IsBufsize osz) : Sproto.lencode conv types st v osz ≠ .error .outside := by
  intro hout
  obtain ⟨k, hk, rfl⟩ := hosz
  cases st with
  | none =>
    unfold Sproto.lencode at hout
    dsimp only at hout
    split at hout
    · cases hout
    · cases hout
  | some st =>
    cases v with
    | scalar s => cases hout
    | table pairs rawlen metapairs =>
      have hend := @lencodeLoop_lencoded _ conv types st pairs k 32 hk (by omega)
      have hloop : lencodeLoop conv types st pairs 32 (encodeBuffersize * 2 ^ k) =
          .error .outside := hout
      rw [hloop] at hend
      -- the buffer is left by a draft that is not steady only
      cases hend with
      | overrun _ hsteady =>
        rw [textDraft_steady h] at hsteady
        cases hsteady

/-- A type with an array of texts. -/
def namesTypes : Fin 1 → SprotoType 1 := fun _ ↦
  ⟨[⟨0, .string, true, [110], none⟩], by decide, by decide, by
    intro g hg hkey
    obtain rfl := List.mem_singleton.mp hg
    cases hkey⟩

theorem lencode_inside_names :
    Sproto.lencode strictConversion namesTypes (some 0)
      (.table [(.scalar (.string [110]),
        .table [(.scalar (.integer 1), .scalar (.string [104, 105]))] 1 none)] 0 none)
      2050 ≠ .error .outside := by
  refine lencode_inside strictConversion (fun _ f hf _ ↦ ?_) _ _ ⟨0, by decide, rfl⟩
  obtain rfl := List.mem_singleton.mp hf
  intro heq
  cases heq

end ZTask
