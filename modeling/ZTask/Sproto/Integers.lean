import Mathlib.Data.List.Induction
import ZTask.Sproto.Encoding

/-!
# Arrays of integers

`encode_integer_array` writes four bytes for each integer until one comes that needs eight, and then
spreads those that it has written.

## The invariant

`IntegersAt` says which integers stand in the buffer, and in how many bytes each. There are three
kinds of rounds: four bytes among others of four (`IntegersAt.narrow`), eight among others of eight
(`IntegersAt.wide`), and the first of eight behind others of four, which are moved apart from the
last one on (`rearrange_eq`).

## Room

What the integers take up when they are moved apart is subtracted from the room, and the rest is
compared as a `size_t`, so that a negative room passes for a large one. So the first integer of
eight bytes may leave the buffer (`IntegersAt.outside`).
-/

namespace ZTask

open Lib

variable {n : ℕ} {conv : LuaConversion} {types : Fin n → SprotoType n} {f : SprotoField n}
  {block block' : Lib.Block UInt8} {start off : ℕ} {is : List Int64} {i : Int64}

/-! ## Bytes of integers -/

/-- The lowest 32 bits. -/
def lowWord (i : Int64) : ℕ := (i.toInt % 2 ^ 32).toNat

private theorem lowWord_lt (i : Int64) : lowWord i < 2 ^ 32 := by
  rw [lowWord]
  omega

private theorem integerAnswer_narrow (h : Narrow i) : integerAnswer i = .size 4 (lowWord i) := by
  obtain ⟨hlo, hhi⟩ := h
  rw [integerAnswer]
  exact if_pos (by omega)

private theorem integerAnswer_wide (h : ¬Narrow i) :
    integerAnswer i = .size 8 (i.toInt % 2 ^ 64).toNat := by
  rw [Narrow] at h
  rw [integerAnswer]
  exact if_neg (by omega)

private theorem integerBytes_four (i : Int64) : integerBytes 4 i = toLittle 4 (lowWord i) := by
  have hmod : lowWord i = (i.toInt % 2 ^ 64).toNat % 256 ^ 4 := by
    rw [lowWord]
    omega
  rw [integerBytes, hmod, toLittle_mod]

/-- The sign fills up the bytes that are missing. -/
theorem integerBytes_eight (h : Narrow i) :
    integerBytes 8 i = integerBytes 4 i ++
      List.replicate 4 (if 2 ^ 31 ≤ lowWord i then 0xff else 0) := by
  have hsplit := toLittle_add 4 4 (i.toInt % 2 ^ 64).toNat
  obtain ⟨hlo, hhi⟩ := h
  show toLittle (4 + 4) _ = _
  rw [hsplit]
  congr 1
  by_cases hneg : 2 ^ 31 ≤ lowWord i
  · rw [if_pos hneg]
    rw [lowWord] at hneg
    have hhigh : (i.toInt % 2 ^ 64).toNat / 256 ^ 4 = 2 ^ 32 - 1 := by omega
    rw [hhigh]
    rfl
  · rw [if_neg hneg]
    rw [lowWord] at hneg
    have hhigh : (i.toInt % 2 ^ 64).toNat / 256 ^ 4 = 0 := by omega
    rw [hhigh]
    rfl

private theorem sign_bit {u : ℕ} (hu : u < 2 ^ 32) :
    UInt8.ofNat (u / 256 ^ 3) &&& 0x80 ≠ 0 ↔ 2 ^ 31 ≤ u := by
  have hbit : ∀ c : UInt8, c &&& 0x80 ≠ 0 ↔ 128 ≤ c.toNat := by
    intro c
    refine forall_byte (P := fun c ↦ c &&& 0x80 ≠ 0 ↔ 128 ≤ c.toNat) ?_ c
    decide +kernel
  rw [hbit, UInt8.toNat_ofNat']
  omega

private theorem length_integerBytes (w : ℕ) (i : Int64) :
    (integerBytes w i).length = w := length_toLittle w _

theorem length_flatMap_integerBytes (w : ℕ) (is : List Int64) :
    (is.flatMap (integerBytes w)).length = is.length * w := by
  induction is with
  | nil => exact (Nat.zero_mul w).symm
  | cons i is ih =>
    rw [List.flatMap_cons, List.length_append, ih, length_integerBytes,
      List.length_cons, Nat.succ_mul, Nat.add_comm]

private theorem flatMap_concat (w : ℕ) (is : List Int64) (i : Int64) :
    (is ++ [i]).flatMap (integerBytes w) = is.flatMap (integerBytes w) ++ integerBytes w i := by
  rw [List.flatMap_append, List.flatMap_singleton]

/-! ## Rearranging -/

private theorem fetchBytes_sign (h : block.write? off (integerBytes 4 i) = some block') :
    fetchBytes block' (off + 3) 1 = .ok [UInt8.ofNat (lowWord i / 256 ^ 3)] := by
  have hall := Lib.Block.At.of_write? h
  rw [integerBytes_four, show 4 = 3 + 1 by rfl, toLittle_add] at hall
  have hright := hall.right
  rw [length_toLittle] at hright
  exact fetchBytes_eq hright rfl

/-- The last of the integers is spread. -/
theorem rearrange_succ {k : ℕ} (hat : block.At (start + k * 4) (integerBytes 4 i)) (hi : Narrow i)
    (hfits : start + k * 8 + 8 ≤ block.length) :
    ∃ block', block.write? (start + k * 8) (integerBytes 8 i) = some block' ∧
      rearrange start (k + 1) block = rearrange start k block' := by
  have hlen := length_integerBytes 4 i
  obtain ⟨block₁, hwrite₁⟩ := @Lib.Block.write?_eq_some _ block (start + k * 8)
      (integerBytes 4 i) (by omega)
  have hfetch := fetchBytes_sign hwrite₁
  have hnegative : ([UInt8.ofNat (lowWord i / 256 ^ 3)].any fun c ↦ c &&& 0x80 ≠ 0) =
      decide (2 ^ 31 ≤ lowWord i) := by
    rw [List.any_cons, List.any_nil, Bool.or_false]
    exact decide_eq_decide.mpr (sign_bit (lowWord_lt i))
  obtain ⟨block₂, hwrite₂⟩ := @Lib.Block.write?_eq_some _ block₁ (start + k * 8 + 4)
    (List.replicate 4 (if 2 ^ 31 ≤ lowWord i then 0xff else 0))
    (by rw [List.length_replicate, Lib.Block.length_of_write? hwrite₁]; omega)
  refine ⟨block₂, ?_, ?_⟩
  · rw [integerBytes_eight hi, ← Lib.Block.write?_append, hwrite₁, Option.bind_some, hlen, hwrite₂]
  · rw [rearrange, fetchBytes_eq hat hlen.symm, Sproto.ok_bind, fillBytes, hwrite₁,
      Sproto.ok_bind, hfetch, Sproto.ok_bind, hnegative, uint32ToUint64]
    simp only [decide_eq_true_eq]
    rw [fillBytes, hwrite₂, Sproto.ok_bind]

/-- **The integers are spread** from the last one on, so that none is written over before. -/
theorem rearrange_eq (is back : List Int64) (hnarrow : AllNarrow is)
    (hat : block.At start (is.flatMap (integerBytes 4)))
    (hback : block.At (start + is.length * 8) (back.flatMap (integerBytes 8)))
    (hfits : start + is.length * 8 ≤ block.length) :
    ∃ block', rearrange start is.length block = .ok block' ∧
      Filled block start block' ((is ++ back).flatMap (integerBytes 8)) := by
  -- those that have been spread stand behind the others, which have not been touched
  induction is using List.reverseRecOn generalizing block back with
  | nil =>
    refine ⟨block, rfl, .refl block start, ?_⟩
    rwa [List.length_nil, Nat.zero_mul, Nat.add_zero] at hback
  | append_singleton is i ih =>
    rw [flatMap_concat] at hat
    rw [List.length_append, List.length_singleton] at hback hfits
    have hlast := hat.right
    rw [length_flatMap_integerBytes] at hlast
    obtain ⟨block₁, hwrite, heq⟩ := rearrange_succ hlast
      (hnarrow i (List.mem_append_right is List.mem_cons_self)) (by omega)
    have hfront : block₁.At start (is.flatMap (integerBytes 4)) :=
      hat.left.write? hwrite (.inl (by rw [length_flatMap_integerBytes]; omega))
    have hbehind : block₁.At (start + is.length * 8) ((i :: back).flatMap (integerBytes 8)) := by
      have hrest := hback.write? hwrite (.inr (by rw [length_integerBytes]; omega))
      rw [show start + (is.length + 1) * 8 = start + is.length * 8 + (integerBytes 8 i).length by
        rw [length_integerBytes]; omega] at hrest
      exact (Lib.Block.At.of_write? hwrite).append hrest
    obtain ⟨block', hloop, hfilled⟩ :=
      ih (i :: back) (fun j hj ↦ hnarrow j (List.mem_append_left [i] hj))
      hfront hbehind (by rw [Lib.Block.length_of_write? hwrite]; omega)
    refine ⟨block', ?_, ?_⟩
    · rw [List.length_append, List.length_singleton, heq, hloop]
    · rw [List.append_assoc, List.singleton_append]
      exact ⟨(Lib.Block.KeepsFront.of_write? hwrite (by omega)).trans hfilled.keeps (Nat.le_refl _),
        hfilled.stands⟩

private theorem rearrange_outside {k : ℕ} (hat : block.At (start + k * 4) (integerBytes 4 i))
    (hfits : block.length < start + k * 8 + 8) :
    rearrange start (k + 1) block = .error .outside := by
  have hlen := length_integerBytes 4 i
  rw [rearrange, fetchBytes_eq hat hlen.symm, Sproto.ok_bind, fillBytes]
  by_cases hfirst : start + k * 8 + (integerBytes 4 i).length ≤ block.length
  · obtain ⟨block₁, hwrite₁⟩ := Lib.Block.write?_eq_some hfirst
    have hfetch := fetchBytes_sign hwrite₁
    rw [hwrite₁, Sproto.ok_bind, hfetch, Sproto.ok_bind, uint32ToUint64, fillBytes,
      Lib.Block.write?,
      if_neg (by rw [List.length_replicate, Lib.Block.length_of_write? hwrite₁]; omega)]
    rfl
  · rw [Lib.Block.write?, if_neg hfirst]
    rfl

/-! ## The loop -/

/-- The integers have been written, each in so many bytes. -/
structure IntegersAt (block : Lib.Block UInt8) (start size : ℕ) (is : List Int64) (intlen : ℕ)
    (s : EncodeArray EncodeUd) : Prop where
  width : intlen = integersWidth is
  index : s.index = is.length + 1
  buffer : s.buffer = start + is.length * intlen
  size : s.size = size - is.length * intlen
  filled : Filled block start s.block (is.flatMap (integerBytes intlen))

private theorem integersWidth_concat_wide (h : ¬Narrow i) (is : List Int64) :
    integersWidth (is ++ [i]) = 8 :=
  if_neg fun hall ↦ h (hall i (List.mem_append_right is List.mem_cons_self))

private theorem integersWidth_concat_narrow (h : Narrow i) (is : List Int64) :
    integersWidth (is ++ [i]) = integersWidth is := by
  have hiff : (AllNarrow (is ++ [i])) ↔ AllNarrow is := by
    refine ⟨fun hall j hj ↦ hall j (List.mem_append_left [i] hj), fun hall j hj ↦ ?_⟩
    rcases List.mem_append.mp hj with hj | hj
    · exact hall j hj
    · rw [List.mem_singleton.mp hj]
      exact h
  rw [integersWidth, integersWidth]
  exact if_congr hiff rfl rfl

private theorem integersRoom_concat (is : List Int64) (i : Int64) :
    integersRoom (is ++ [i]) = integersWidth (is ++ [i]) * is.length + 9 := by
  have hne : is ++ [i] ≠ [] := List.append_ne_nil_of_right_ne_nil is (List.cons_ne_nil i [])
  rw [integersRoom, if_neg hne, integersWidth, List.length_append, List.length_singleton]
  split <;> omega

theorem width_cases (is : List Int64) :
    integersWidth is = 4 ∧ AllNarrow is ∨ integersWidth is = 8 ∧ ¬AllNarrow is := by
  by_cases h : AllNarrow is
  · exact .inl ⟨if_pos h, h⟩
  · exact .inr ⟨if_neg h, h⟩

theorem length_le_room (is : List Int64) : is.length * integersWidth is + 1 ≤ integersRoom is := by
  rw [integersRoom]
  by_cases hnil : is = []
  · rw [if_pos hnil, hnil, List.length_nil, Nat.zero_mul]
  · rw [if_neg hnil]
    rcases width_cases is with ⟨hwidth, hall⟩ | ⟨hwidth, hall⟩
    · rw [if_pos hall, hwidth]
      omega
    · rw [if_neg hall, hwidth]
      omega

private theorem four_mul_le_room (is : List Int64) : is.length * 4 + 1 ≤ integersRoom is := by
  have hroom := length_le_room is
  rcases width_cases is with hw | hw
  all_goals
    rw [hw.1] at hroom
    omega

private theorem integersRoom_le (is : List Int64) (i : Int64) :
    integersRoom is ≤ integersRoom (is ++ [i]) := by
  rw [integersRoom_concat]
  have hlast : integersRoom is ≤ integersWidth is * is.length + 5 := by
    rw [integersRoom, integersWidth]
    split
    · omega
    · split <;> omega
  have hwidth : integersWidth is ≤ integersWidth (is ++ [i]) := by
    by_cases hi : Narrow i
    · rw [integersWidth_concat_narrow hi]
    · rw [integersWidth_concat_wide hi]
      rcases width_cases is with h | h <;> omega
  have hmul := Nat.mul_le_mul_right is.length hwidth
  omega

theorem integersRoom_le_draft (conv : LuaConversion) (f : SprotoField n) (is : List Int64)
    (vs : List LuaObject) : integersRoom is ≤ (integersDraft conv f is vs).room := by
  induction vs generalizing is with
  | nil => exact Nat.le_refl _
  | cons v vs ih =>
    rw [integersDraft]
    split
    · exact Nat.le_refl _
    · exact Nat.le_trans (integersRoom_le is _) (ih _)

/-! ## The loop, step by step -/

variable {size : ℕ} {s : EncodeArray EncodeUd} {intlen : ℕ} {ud : EncodeUd}

theorem IntegersAt.left (hs : IntegersAt block start size is intlen s)
    (hcome : integersRoom is ≤ size + 1) :
    is.length * intlen ≤ size ∧ s.size = (size - is.length * intlen : ℕ) := by
  have hroom := length_le_room is
  rw [← hs.width] at hroom
  have hsize := hs.size
  rw [← Int.natCast_mul] at hsize
  generalize is.length * intlen = k at *
  omega

/-- An integer of four bytes is written among others like it. -/
theorem IntegersAt.narrow (hs : IntegersAt block start size is 4 s)
    (hroomy : Roomy block start size) (hi : Narrow i) (hfits : is.length * 4 + 8 ≤ size) :
    ∃ block', fillBytes s.block s.buffer (toLittle 4 (lowWord i)) = .ok block' ∧
      IntegersAt block start size (is ++ [i]) 4 ⟨s.index + 1, block', s.buffer + 4,
        s.size - 4, ud⟩ := by
  have hfit := hroomy.fits
  have hlen := hs.filled.length
  obtain ⟨block', hfill, hfilled⟩ := @fillBytes_filled s.block s.buffer (integerBytes 4 i)
    (by rw [length_integerBytes, hs.buffer]; omega)
  refine ⟨block', by rw [← integerBytes_four]; exact hfill, ?_, ?_, ?_, ?_, ?_⟩
  · rw [integersWidth_concat_narrow hi, ← hs.width]
  · rw [List.length_append, List.length_singleton, hs.index]
  · show s.buffer + 4 = _
    rw [List.length_append, List.length_singleton, hs.buffer]
    omega
  · show s.size - 4 = _
    rw [List.length_append, List.length_singleton, hs.size]
    push_cast
    omega
  · rw [flatMap_concat]
    refine hs.filled.append ?_
    rw [length_flatMap_integerBytes, ← hs.buffer]
    exact hfilled

/-- An integer is written among others of eight bytes. -/
theorem IntegersAt.wide (hs : IntegersAt block start size is 8 s) (hroomy : Roomy block start size)
    (hfits : is.length * 8 + 8 ≤ size) :
    ∃ block', fillBytes s.block s.buffer (integerBytes 8 i) = .ok block' ∧
      IntegersAt block start size (is ++ [i]) 8 ⟨s.index + 1, block', s.buffer + 8,
        s.size - 8, ud⟩ := by
  have hfit := hroomy.fits
  have hlen := hs.filled.length
  obtain ⟨block', hfill, hfilled⟩ := @fillBytes_filled s.block s.buffer (integerBytes 8 i)
    (by rw [length_integerBytes, hs.buffer]; omega)
  refine ⟨block', hfill, ?_, ?_, ?_, ?_, ?_⟩
  · -- one that is not narrow stays among them
    rw [integersWidth, if_neg]
    intro hall
    rcases width_cases is with ⟨hwidth, -⟩ | ⟨-, hnot⟩
    · have heq := hs.width
      omega
    · exact hnot fun j hj ↦ hall j (List.mem_append_left [i] hj)
  · rw [List.length_append, List.length_singleton, hs.index]
  · show s.buffer + 8 = _
    rw [List.length_append, List.length_singleton, hs.buffer]
    omega
  · show s.size - 8 = _
    rw [List.length_append, List.length_singleton, hs.size]
    push_cast
    omega
  · rw [flatMap_concat]
    refine hs.filled.append ?_
    rw [length_flatMap_integerBytes, ← hs.buffer]
    exact hfilled

/-- The first integer of eight bytes: the others are spread. -/
theorem IntegersAt.spread (hs : IntegersAt block start size is 4 s)
    (hroomy : Roomy block start size) (hi : ¬Narrow i) (hfits : is.length * 8 + 8 ≤ size) :
    ∃ block₁ block', rearrange start is.length s.block = .ok block₁ ∧
      fillBytes block₁ (s.buffer + is.length * 4) (integerBytes 8 i) = .ok block' ∧
      IntegersAt block start size (is ++ [i]) 8
        ⟨s.index + 1, block', s.buffer + is.length * 4 + 8, s.size - is.length * 4 - 8, ud⟩ := by
  have hfit := hroomy.fits
  have hlen := hs.filled.length
  have hnarrow : AllNarrow is := by
    rcases width_cases is with ⟨-, hall⟩ | ⟨hwidth, -⟩
    · exact hall
    · have heq := hs.width
      omega
  obtain ⟨block₁, hspread, hfilled₁⟩ :=
    rearrange_eq is [] hnarrow hs.filled.stands (Lib.Block.at_nil _ _)
    (by omega)
  rw [List.append_nil] at hfilled₁
  have hplace : s.buffer + is.length * 4 = start + is.length * 8 := by
    rw [hs.buffer]
    omega
  obtain ⟨block', hfill, hfilled⟩ :=
    @fillBytes_filled block₁ (start + is.length * 8) (integerBytes 8 i)
    (by rw [length_integerBytes, hfilled₁.length]; omega)
  refine ⟨block₁, block', hspread, by rw [hplace]; exact hfill, ?_, ?_, ?_, ?_, ?_⟩
  · exact (integersWidth_concat_wide hi is).symm
  · rw [List.length_append, List.length_singleton, hs.index]
  · show s.buffer + is.length * 4 + 8 = _
    rw [List.length_append, List.length_singleton, hplace]
    omega
  · show s.size - is.length * 4 - 8 = _
    rw [List.length_append, List.length_singleton, hs.size]
    push_cast
    omega
  · rw [flatMap_concat]
    have hfront : Filled block start block₁ (is.flatMap (integerBytes 8)) :=
      ⟨hs.filled.keeps.trans hfilled₁.keeps (Nat.le_refl _), hfilled₁.stands⟩
    refine hfront.append ?_
    rw [length_flatMap_integerBytes]
    exact hfilled

/-- The room for it is not there, and the buffer is left. -/
theorem IntegersAt.outside (hs : IntegersAt block start size is 4 s)
    (hroomy : Roomy block start size)
    (hfits : size < is.length * 8) : rearrange start is.length s.block = .error .outside := by
  have hfit := hroomy.fits
  have hlen := hs.filled.length
  have hat := hs.filled.stands
  cases is using List.reverseRecOn with
  | nil =>
    rw [List.length_nil, Nat.zero_mul] at hfits
    exact absurd hfits (Nat.not_lt_zero _)
  | append_singleton is j =>
    rw [flatMap_concat] at hat
    have hlast := hat.right
    rw [length_flatMap_integerBytes] at hlast
    rw [List.length_append, List.length_singleton] at hfits ⊢
    exact rearrange_outside hlast (by omega)

/-! ## The run -/

variable {table pairs : LuaPairs} {rawlen left fuel u : ℕ} {metapairs : Option LuaPairs}
    {self : EncodeUd}
  {cb : EncodeCallback n EncodeUd} {v : LuaObject}

theorem integerArrayLoop_nil (h : cb ⟨f, s.index, 0, 8⟩ s.ud s.block = .ok (.nil, ud, block)) :
    integerArrayLoop cb ⟨f, 0, 0, 0⟩ start (fuel + 1) intlen s =
      .ok (false, intlen, { s with ud, block }) := by
  rw [integerArrayLoop]
  dsimp only
  rw [h]
  rfl

private theorem integerArrayLoop_error {e : SprotoFault}
    (h : cb ⟨f, s.index, 0, 8⟩ s.ud s.block = .error e) :
    integerArrayLoop cb ⟨f, 0, 0, 0⟩ start (fuel + 1) intlen s = .error e := by
  rw [integerArrayLoop]
  dsimp only
  rw [h]
  rfl

private theorem integerArrayLoop_full {sz : ℕ} (hsz : sz ≠ 0)
    (h : cb ⟨f, s.index, 0, 8⟩ s.ud s.block = .ok (.size sz u, ud, block))
    (hfull : asSizeT s.size < 8) :
    integerArrayLoop cb ⟨f, 0, 0, 0⟩ start (fuel + 1) intlen s = .error .failed := by
  rw [integerArrayLoop]
  dsimp only
  rw [h, Sproto.ok_bind]
  dsimp only
  rw [if_neg hsz, if_pos hfull]

theorem integerArrayLoop_four (h : cb ⟨f, s.index, 0, 8⟩ s.ud s.block = .ok (.size 4 u, ud, block))
    (hroom : ¬asSizeT s.size < 8) (hfill : fillBytes block s.buffer (toLittle 4 u) = .ok block') :
    integerArrayLoop cb ⟨f, 0, 0, 0⟩ start (fuel + 1) 4 s =
      integerArrayLoop cb ⟨f, 0, 0, 0⟩ start fuel 4 ⟨s.index + 1, block', s.buffer + 4,
        s.size - 4, ud⟩ := by
  rw [integerArrayLoop]
  dsimp only
  rw [h, Sproto.ok_bind]
  dsimp only
  rw [if_neg (show ¬4 = 0 by decide), if_neg hroom, if_pos rfl, hfill, Sproto.ok_bind,
    if_neg (show ¬4 = 8 by decide)]
  rfl

/-- Four bytes among others of eight. -/
theorem integerArrayLoop_signed {block₁ : Lib.Block UInt8}
    (h : cb ⟨f, s.index, 0, 8⟩ s.ud s.block = .ok (.size 4 u, ud, block))
    (hroom : ¬asSizeT s.size < 8) (hfill : fillBytes block s.buffer (toLittle 4 u) = .ok block₁)
    (hsign : uint32ToUint64 (2 ^ 31 ≤ u % 2 ^ 32) block₁ s.buffer = .ok block') :
    integerArrayLoop cb ⟨f, 0, 0, 0⟩ start (fuel + 1) 8 s =
      integerArrayLoop cb ⟨f, 0, 0, 0⟩ start fuel 8 ⟨s.index + 1, block', s.buffer + 8,
        s.size - 8, ud⟩ := by
  rw [integerArrayLoop]
  dsimp only
  rw [h, Sproto.ok_bind]
  dsimp only
  rw [if_neg (show ¬4 = 0 by decide), if_neg hroom, if_pos rfl, hfill, Sproto.ok_bind,
    if_pos rfl, hsign, Sproto.ok_bind]
  rfl

/-- Eight bytes behind others of four, which are spread. -/
theorem integerArrayLoop_first (h : cb ⟨f, s.index, 0, 8⟩ s.ud s.block = .ok (.size 8 u, ud, block))
    (hroom : ¬asSizeT s.size < 8) :
    integerArrayLoop cb ⟨f, 0, 0, 0⟩ start (fuel + 1) 4 s =
      (if asSizeT (s.size - (s.index - 1) * 4) < 8 then .error .failed
      else do
        let block ← rearrange start (s.index - 1) block
        let block ← fillBytes block (s.buffer + (s.index - 1) * 4) (toLittle 8 u)
        integerArrayLoop cb ⟨f, 0, 0, 0⟩ start fuel 8
          ⟨s.index + 1, block, s.buffer + (s.index - 1) * 4 + 8,
            s.size - (s.index - 1) * 4 - 8, ud⟩) := by
  rw [integerArrayLoop]
  dsimp only
  rw [h, Sproto.ok_bind]
  dsimp only
  rw [if_neg (show ¬8 = 0 by decide), if_neg hroom, if_neg (show ¬8 = 4 by decide),
    if_neg (show ¬8 ≠ 8 from fun hne ↦ hne rfl), if_pos rfl]

theorem integerArrayLoop_eight (h : cb ⟨f, s.index, 0, 8⟩ s.ud s.block = .ok (.size 8 u, ud, block))
    (hroom : ¬asSizeT s.size < 8) (hfill : fillBytes block s.buffer (toLittle 8 u) = .ok block') :
    integerArrayLoop cb ⟨f, 0, 0, 0⟩ start (fuel + 1) 8 s =
      integerArrayLoop cb ⟨f, 0, 0, 0⟩ start fuel 8 ⟨s.index + 1, block', s.buffer + 8,
        s.size - 8, ud⟩ := by
  rw [integerArrayLoop]
  dsimp only
  rw [h, Sproto.ok_bind]
  dsimp only
  rw [if_neg (show ¬8 = 0 by decide), if_neg hroom, if_neg (show ¬8 = 4 by decide),
    if_neg (show ¬8 ≠ 8 from fun hne ↦ hne rfl), if_neg (show ¬8 = 4 by decide), hfill,
      Sproto.ok_bind]
  rfl

/-- What the loop comes to: all elements have been written, and the array is left. -/
def IntegersDone (block : Lib.Block UInt8) (start size : ℕ) (ud : EncodeUd)
    (r : Bool × ℕ × EncodeArray EncodeUd) (xs : List UInt8) : Prop :=
  ∃ is, xs = integersText is ∧ r.1 = false ∧ IntegersAt block start size is r.2.1 r.2.2 ∧
    r.2.2.ud = ud ∧
    integersRoom is ≤ size + 1

private theorem integerArrayLoop_end (h : FieldReady table f self)
    (hget : getfield table f.name = .table pairs rawlen metapairs) {size : ℕ}
    (hlen : (arrayItems f pairs).length = is.length) (hs : IntegersAt block start size is intlen s)
    (hud : s.ud = self.before f pairs is.length) (hmax : is.length < encodeMaxsize) :
    integerArrayLoop (encode conv types (left + 1)) ⟨f, 0, 0, 0⟩ start (fuel + 1) intlen s =
      .ok (false, intlen, { s with ud := self.entered f pairs 0 }) := by
  obtain ⟨v, hfetch, hnil⟩ := fetch_end h hget hlen hmax 0 8
  rw [← hs.index, ← hud] at hfetch
  exact integerArrayLoop_nil (encode_nil hfetch hnil)

/-- Too little room for eight bytes is noticed. -/
theorem integerArrayLoop_short {size : ℕ} (hs : IntegersAt block start size is intlen s)
    (hencode : cb ⟨f, s.index, 0, 8⟩ s.ud s.block = .ok (integerAnswer i, ud, block'))
    (hsize : asSizeT s.size = size - is.length * intlen) (hfull : asSizeT s.size < 8) :
    size + 1 < integersRoom (is ++ [i]) ∧
      integerArrayLoop cb ⟨f, 0, 0, 0⟩ start (fuel + 1) intlen s = .error .failed := by
  have hnext := integersRoom_concat is i
  have hwidth := hs.width
  by_cases hi : Narrow i
  · rw [integerAnswer_narrow hi] at hencode
    refine ⟨?_, integerArrayLoop_full (by decide) hencode hfull⟩
    rw [integersWidth_concat_narrow hi, ← hwidth, Nat.mul_comm] at hnext
    omega
  · rw [integerAnswer_wide hi] at hencode
    refine ⟨?_, integerArrayLoop_full (by decide) hencode hfull⟩
    rw [integersWidth_concat_wide hi] at hnext
    have hle : is.length * intlen ≤ 8 * is.length := by
      rw [Nat.mul_comm]
      refine Nat.mul_le_mul_right _ ?_
      rcases width_cases is with hw | hw <;> omega
    omega

section Step

variable {d : SprotoDraft} {post : Bool × ℕ × EncodeArray EncodeUd → List UInt8 → Prop}

/-- The first integer of eight bytes spreads those that have been written. -/
theorem integerArrayLoop_spreads {size : ℕ} (hs : IntegersAt block start size is 4 s)
    (hroomy : Roomy block start size) (hcome : integersRoom is ≤ size + 1) (hall : AllNarrow is)
    (hi : ¬Narrow i)
    (hencode : cb ⟨f, s.index, 0, 8⟩ s.ud s.block = .ok (integerAnswer i, ud, s.block))
    (hfull : ¬asSizeT s.size < 8) (hroom : integersRoom (is ++ [i]) ≤ d.room)
    (hgo : ∀ {intlen : ℕ} {s' : EncodeArray EncodeUd},
      IntegersAt block start size (is ++ [i]) intlen s' → s'.ud = ud →
      integersRoom (is ++ [i]) ≤ size + 1 →
      d.Comes sprotoExits (size + 1) post (integerArrayLoop cb ⟨f, 0, 0, 0⟩ start fuel intlen s')) :
    (d.andSteady !decide (LateWide is i)).Comes sprotoExits (size + 1) post
      (integerArrayLoop cb ⟨f, 0, 0, 0⟩ start (fuel + 1) 4 s) := by
  have hfit := hroomy.fits
  have hsmall := hroomy.small
  have hlt := hroomy.lt
  have hfour := four_mul_le_room is
  obtain ⟨hshort, hsize⟩ := hs.left hcome
  have hsizeT : asSizeT s.size = size - is.length * 4 := by
    rw [hsize]
    exact asSizeT_natCast (by omega)
  have hnext := integersRoom_concat is i
  rw [integerAnswer_wide hi] at hencode
  rw [integersWidth_concat_wide hi] at hnext
  have hindex : s.index - 1 = is.length := by rw [hs.index, Nat.add_sub_cancel]
  have hindex' : ((s.index : ℤ) - 1) * 4 = is.length * 4 := by
    rw [hs.index]
    push_cast
    omega
  rw [integerArrayLoop_first hencode hfull, hindex, hindex']
  have hleft : s.size - is.length * 4 = (size : ℤ) - is.length * 8 := by
    rw [hs.size]
    push_cast
    omega
  by_cases hspread : size < is.length * 8
  · -- the difference is below zero, and not less than eight in `size_t`
    have hneg := @asSizeT_neg (s.size - is.length * 4) (by omega) (by omega)
    rw [if_neg (by omega), hs.outside hroomy hspread]
    refine .overrun (show size + 1 < d.room by omega) ?_
    have hlate : LateWide is i := ⟨by omega, hall, hi⟩
    show (d.steady && !decide (LateWide is i)) = false
    rw [decide_eq_true hlate]
    exact Bool.and_false _
  · have hnat : s.size - is.length * 4 = (size - is.length * 8 : ℕ) := by omega
    rw [hnat, asSizeT_natCast (by omega)]
    by_cases hlast : size - is.length * 8 < 8
    · rw [if_pos hlast]
      exact .noRoom (show size + 1 < d.room by omega)
    · rw [if_neg hlast]
      obtain ⟨block₁, block', hspread', hfill, hs'⟩ :=
        @IntegersAt.spread _ _ _ _ _ s ud hs hroomy hi
        (by omega)
      rw [hnat] at hs'
      rw [hspread', Sproto.ok_bind]
      show Draft.Comes _ _ _ _ (fillBytes _ _ (integerBytes 8 i) >>= _)
      rw [hfill, Sproto.ok_bind]
      exact (hgo hs' rfl (by omega)).andSteady _

/-- Behind an integer of eight bytes, all take eight bytes. -/
theorem integerArrayLoop_stays {size : ℕ} (hs : IntegersAt block start size is 8 s)
    (hroomy : Roomy block start size) (hfits : is.length * 8 + 8 ≤ size)
    (hencode : cb ⟨f, s.index, 0, 8⟩ s.ud s.block = .ok (integerAnswer i, ud, s.block))
    (hfull : ¬asSizeT s.size < 8)
    (hgo : ∀ {intlen : ℕ} {s' : EncodeArray EncodeUd},
      IntegersAt block start size (is ++ [i]) intlen s' → s'.ud = ud →
      integersRoom (is ++ [i]) ≤ size + 1 →
      d.Comes sprotoExits (size + 1) post (integerArrayLoop cb ⟨f, 0, 0, 0⟩ start fuel intlen s')) :
    d.Comes sprotoExits (size + 1) post
      (integerArrayLoop cb ⟨f, 0, 0, 0⟩ start (fuel + 1) 8 s) := by
  obtain ⟨block', hfill, hs'⟩ := @IntegersAt.wide _ _ _ i _ s ud hs hroomy hfits
  have hnext := integersRoom_concat is i
  have height : integersWidth (is ++ [i]) = 8 := hs'.width.symm
  rw [height] at hnext
  by_cases hi : Narrow i
  · rw [integerAnswer_narrow hi] at hencode
    rw [integerBytes_eight hi, integerBytes_four] at hfill
    obtain ⟨block₁, hfill₁, hfill₂⟩ := fillBytes_split hfill
    rw [length_toLittle] at hfill₂
    have hsign : uint32ToUint64 (2 ^ 31 ≤ lowWord i % 2 ^ 32) block₁ s.buffer = .ok block' := by
      rw [uint32ToUint64, Nat.mod_eq_of_lt (lowWord_lt i)]
      simp only [decide_eq_true_eq]
      exact hfill₂
    rw [integerArrayLoop_signed hencode hfull hfill₁ hsign]
    exact hgo hs' rfl (by omega)
  · rw [integerAnswer_wide hi] at hencode
    rw [integerArrayLoop_eight hencode hfull hfill]
    exact hgo hs' rfl (by omega)

end Step

/-- **The loop of `encode_integer_array`**, from where some integers have been written. -/
theorem integerArrayLoop_comes (h : FieldReady table f self)
    (hget : getfield table f.name = .table pairs rawlen metapairs) (hkind : f.kind = .integer)
    {size : ℕ} (hroomy : Roomy block start size) {front vs : List LuaObject}
    (hitems : arrayItems f pairs = front ++ vs) (hfront : front.length = is.length)
    (hs : IntegersAt block start size is intlen s) (hud : s.ud = self.before f pairs is.length)
    (hcome : integersRoom is ≤ size + 1) (hfuel : size + 2 ≤ fuel + is.length) :
    (integersDraft conv f is vs).Comes sprotoExits (size + 1)
      (IntegersDone block start size (self.entered f pairs 0))
      (integerArrayLoop (encode conv types (left + 1)) ⟨f, 0, 0, 0⟩ start fuel intlen s) := by
  have hfit := hroomy.fits
  have hsmall := hroomy.small
  have hmax : encodeMaxsize = 16777216 := rfl
  -- over what is left of the array; the integers before it are those that have been written
  induction vs generalizing front is intlen s fuel with
  | nil =>
    have hfour := four_mul_le_room is
    obtain ⟨fuel, rfl⟩ : ∃ k, fuel = k + 1 := ⟨fuel - 1, by omega⟩
    have hlen : (arrayItems f pairs).length = is.length := by rw [hitems, List.append_nil, hfront]
    rw [integerArrayLoop_end h hget hlen hs hud (by omega)]
    exact .wrote hcome rfl ⟨is, rfl, rfl,
      ⟨hs.width, hs.index, hs.buffer, hs.size, hs.filled⟩, rfl, hcome⟩
  | cons v vs ih =>
    have hfour := four_mul_le_room is
    obtain ⟨fuel, rfl⟩ : ∃ k, fuel = k + 1 := ⟨fuel - 1, by omega⟩
    obtain ⟨hshort, hsize⟩ := hs.left hcome
    have hitem : (arrayItems f pairs)[is.length]? = some v := by
      rw [hitems, ← hfront, List.getElem?_append_right (Nat.le_refl _), Nat.sub_self]
      rfl
    obtain ⟨hfetch, hnil⟩ := fetch_item h hget hitem 0 8
    rw [← hs.index, ← hud] at hfetch
    have hencode : encode conv types (left + 1) ⟨f, s.index, 0, 8⟩ s.ud s.block = _ :=
      (encode_value hfetch hnil).trans (encodeValue_integer hkind _ _ _ _ _)
    rw [integersDraft]
    cases hint : conv.tointegerx v with
    | none =>
      rw [hint, Option.elim_none] at hencode
      rw [integerArrayLoop_error hencode]
      refine .raised hcome ?_
      exact congrArg (fun k ↦ Except.error (SprotoMessage.isNot "an integer" f.name k v.typename))
        hs.index.symm
    | some i =>
      rw [hint, Option.elim_some] at hencode
      dsimp only
      have hnext := integersRoom_concat is i
      have hrest := integersRoom_le_draft conv f (is ++ [i]) vs
      have hlen : (is ++ [i]).length = is.length + 1 := by
        rw [List.length_append, List.length_singleton]
      have hitems' : arrayItems f pairs = (front ++ [v]) ++ vs := by
        rw [hitems, List.append_assoc]; rfl
      have hfront' : (front ++ [v]).length = (is ++ [i]).length := by
        rw [List.length_append, hfront, hlen]
        rfl
      have hlt := hroomy.lt
      have hsizeT : asSizeT s.size = size - is.length * intlen := by
        rw [hsize]
        exact asSizeT_natCast (by omega)
      by_cases hfull : asSizeT s.size < 8
      · obtain ⟨hnoroom, hfailed⟩ := integerArrayLoop_short hs hencode hsizeT hfull
        rw [hfailed]
        exact .noRoom (Nat.lt_of_lt_of_le hnoroom hrest)
      · have hbefore : self.before f pairs s.index = self.before f pairs (is ++ [i]).length := by
          rw [hs.index, hlen]
        have hfuel' : size + 2 ≤ fuel + (is ++ [i]).length := by omega
        have hgo : ∀ {intlen : ℕ} {s' : EncodeArray EncodeUd},
            IntegersAt block start size (is ++ [i]) intlen s' →
              s'.ud = self.before f pairs s.index →
            integersRoom (is ++ [i]) ≤ size + 1 →
            (integersDraft conv f (is ++ [i]) vs).Comes sprotoExits (size + 1)
              (IntegersDone block start size (self.entered f pairs 0))
              (integerArrayLoop (encode conv types (left + 1)) ⟨f, 0, 0, 0⟩ start fuel intlen s') :=
          fun hs' hud' hcome' ↦ ih hitems' hfront' hs' (hud'.trans hbefore) hcome' hfuel'
        rcases width_cases is with ⟨hw, hall⟩ | ⟨hw, hnot⟩
        · obtain rfl : intlen = 4 := hs.width.trans hw
          by_cases hi : Narrow i
          · rw [integerAnswer_narrow hi] at hencode
            obtain ⟨block', hfill, hs'⟩ :=
              @IntegersAt.narrow _ _ _ _ _ s (self.before f pairs s.index)
              hs hroomy hi (by omega)
            rw [integerArrayLoop_four hencode hfull hfill]
            rw [integersWidth_concat_narrow hi, hw] at hnext
            exact (hgo hs' rfl (by omega)).andSteady _
          · exact integerArrayLoop_spreads hs hroomy hcome hall hi hencode hfull hrest hgo
        · obtain rfl : intlen = 8 := hs.width.trans hw
          exact (integerArrayLoop_stays hs hroomy (by omega) hencode hfull hgo).andSteady _

end ZTask
