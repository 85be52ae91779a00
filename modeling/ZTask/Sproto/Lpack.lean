import ZTask.Sproto.Packing

/-!
# `lpack`

What `lpack` provides for is enough: the run that each segment may open costs two bytes, but only if
the segment has no zero, so that 256 segments go by before the next run is opened for nothing
(`Bounded`). Hence no text is refused but those for which `expand_buffer` makes no buffer, and what
is packed says the text, filled up to whole segments (`lpack_unpacks`).

## Two counts

`lpack` computes a size before it packs, and raises an error if `sproto_pack` takes more. `Bounded`
compares the two segment by segment: a segment takes eight bytes at most, but for the first of a
run, which takes ten. A run ends with its 256th segment, or before with one that has so many zeros
that two bytes are saved.

## There and back

`lunpack_lpack` puts this together with `Sproto.Unpacking`: the text that is packed says the bytes
that were read, and unpacking is exact for whatever a text says. So all that is left to tell is what
stands behind the bytes in the last segment (`lunpack_lpack_behind`).
-/

namespace ZTask

open Lib

variable {src : ℕ → UInt8} {srcsz sz osz k : ℕ} {seg : List UInt8} {s : ℕ × ℕ}

/-! ## The number of bytes -/

/-- What `k` segments take at most, with the runs that were completed. -/
def Bounded (k : ℕ) (s : ℕ × ℕ) : Prop :=
  ∃ full, 256 * full + s.1 ≤ k ∧ s.2 ≤ 8 * k + 2 * full + if s.1 = 0 then 0 else 2

theorem Bounded.next (h : Bounded k s) (hlen : seg.length = 8) :
    Bounded (k + 1) (packNext seg s) := by
  obtain ⟨full, hruns, hsize⟩ := h
  have hcount := notzeroCount_le seg
  rw [packNext, packedSize]
  by_cases hcopied : Copied seg s.1
  · rw [if_pos hcopied, if_pos hcopied]
    by_cases hlast : s.1 + 1 = 256
    · -- the run is completed, and its two bytes are counted with it
      refine ⟨full + 1, by rw [if_pos hlast]; omega, ?_⟩
      rw [if_pos hlast, if_pos rfl, if_pos (by omega)]
      rw [if_neg (by omega)] at hsize
      dsimp only
      omega
    · refine ⟨full, by rw [if_neg hlast]; omega, ?_⟩
      rw [if_neg hlast, if_neg (Nat.succ_ne_zero _)]
      by_cases hzero : s.1 = 0
      · rw [if_pos hzero] at hsize
        rw [if_neg (by omega)]
        dsimp only
        omega
      · rw [if_neg hzero] at hsize
        rw [if_pos (by omega)]
        dsimp only
        omega
  · rw [if_neg hcopied, if_neg hcopied]
    refine ⟨full, by dsimp only; omega, ?_⟩
    rw [if_pos rfl]
    dsimp only
    -- a segment that ends a run has three zeros at least
    by_cases hzero : s.1 = 0
    · rw [if_pos hzero] at hsize
      have hseven : notzeroCount seg ≠ 8 := fun h8 ↦ hcopied (.inl h8)
      omega
    · rw [if_neg hzero] at hsize
      have hfive : ¬6 ≤ notzeroCount seg := fun h6 ↦ hcopied (.inr ⟨Nat.pos_of_ne_zero hzero, h6⟩)
      omega

private theorem packCounts_bounded (src : ℕ → UInt8) (srcsz k : ℕ) :
    Bounded k (packCounts src srcsz k) := by
  induction k with
  | zero => exact ⟨0, Nat.le_refl 0, Nat.le_refl 0⟩
  | succ k ih => exact ih.next (length_segmentBytes src srcsz (k * 8))

/-- The zeros that fill up the last segment do not count. -/
theorem notzeroCount_segmentBytes (src : ℕ → UInt8) (srcsz i : ℕ) :
    notzeroCount (segmentBytes src srcsz i) ≤ min 8 (srcsz - i) := by
  have hzeros : ∀ n, notzeroCount (List.replicate n 0) = 0 := by
    intro n
    refine List.countP_eq_zero.mpr fun c hc ↦ ?_
    rw [List.eq_of_mem_replicate hc]
    decide
  have hbytes := notzeroCount_le (sourceAt src i (min 8 (srcsz - i)))
  rw [length_sourceAt] at hbytes
  have happend := @List.countP_append _ notzero (sourceAt src i (min 8 (srcsz - i)))
    (List.replicate (8 - (srcsz - i)) 0)
  have hrest := hzeros (8 - (srcsz - i))
  unfold notzeroCount at *
  rw [segmentBytes]
  omega

/-- **What `lpack` provides for is enough.** -/
theorem packCounts_le (src : ℕ → UInt8) (srcsz : ℕ) :
    (packCounts src srcsz ((srcsz + 7) / 8)).2 ≤ packMaxsz srcsz := by
  obtain ⟨full, hruns, hsize⟩ := packCounts_bounded src srcsz (srcsz / 8)
  rw [packMaxsz]
  by_cases hwhole : srcsz % 8 = 0
  · rw [show (srcsz + 7) / 8 = srcsz / 8 by omega]
    split at hsize <;> omega
  · rw [show (srcsz + 7) / 8 = srcsz / 8 + 1 by omega, packCounts, packNext, packedSize]
    have hcount := notzeroCount_segmentBytes src srcsz (srcsz / 8 * 8)
    by_cases hcopied : Copied (segmentBytes src srcsz (srcsz / 8 * 8))
      (packCounts src srcsz (srcsz / 8)).1
    · -- the last segment is in the run, so that it has six bytes at least
      have hopen : 0 < (packCounts src srcsz (srcsz / 8)).1 ∧
          6 ≤ notzeroCount (segmentBytes src srcsz (srcsz / 8 * 8)) := by
        rcases hcopied with h8 | hboth
        · omega
        · exact hboth
      rw [if_pos hcopied, if_pos hcopied, if_pos hopen.1]
      rw [if_neg (by omega)] at hsize
      dsimp only
      omega
    · rw [if_neg hcopied, if_neg hcopied]
      dsimp only
      split at hsize <;> omega

/-! ## The loop -/

/-- **The loop of `sproto_pack`.** -/
theorem packLoop_spec (src : ℕ → UInt8) (srcsz : ℕ) {B : ℕ} {block : Lib.Block UInt8}
    (hB : B ≤ block.length) (hk : k ≤ (srcsz + 7) / 8) :
    ∃ s ps r, ((List.range k).map (· * 8)).foldlM (packStep src srcsz) ⟨block, B,
      .source 0, 0, 0, 0⟩ =
        .ok s ∧ Packed src srcsz B s k ps r := by
  induction k with
  | zero =>
    refine ⟨_, [], [], rfl, fun p hp ↦ absurd hp List.not_mem_nil, ?_, rfl,
      Nat.zero_lt_succ _, rfl, rfl,
      (Int.sub_zero _).symm, hB, fun _ ↦ Lib.Block.at_nil _ 0,
        fun hpos ↦ absurd hpos (Nat.lt_irrefl 0)⟩
    rw [packedText, if_pos (Nat.zero_le _)]
    rfl
  | succ k ih =>
    obtain ⟨s, ps, r, hloop, h⟩ := ih (Nat.le_of_succ_le hk)
    obtain ⟨s', ps', r', hstep, h'⟩ := h.step (by omega)
    refine ⟨s', ps', r', ?_, h'⟩
    rw [List.range_succ, List.map_append, List.foldlM_append, hloop, Sproto.ok_bind, List.map_cons,
      List.map_nil, List.foldlM_cons, hstep]
    rfl

private theorem unpacks_flatMap {ps : List PackPiece} (hok : ∀ p ∈ ps, p.Ok) (behind : UInt8) :
    Unpacks behind (ps.flatMap PackPiece.spelled) (ps.flatMap PackPiece.said) := by
  induction ps with
  | nil => exact .nil
  | cons p ps ih =>
    rw [List.flatMap_cons, List.flatMap_cons]
    exact .piece (hok p List.mem_cons_self) (ih fun q hq ↦ hok q (List.mem_cons_of_mem p hq))

/-- The text that is packed, up to whole segments. -/
def wholeText (src : ℕ → UInt8) (srcsz : ℕ) : List UInt8 :=
  sourceAt src 0 srcsz ++ padding src srcsz

private theorem length_wholeText (src : ℕ → UInt8) (srcsz : ℕ) :
    (wholeText src srcsz).length = (srcsz + 7) / 8 * 8 := by
  rw [wholeText, List.length_append, length_sourceAt, length_padding]
  omega

private theorem packedText_all (src : ℕ → UInt8) (srcsz : ℕ) :
    packedText src srcsz ((srcsz + 7) / 8) = wholeText src srcsz := by
  rw [packedText, wholeText]
  split
  · have hpad := length_padding src srcsz
    have hnil : padding src srcsz = [] := List.length_eq_zero_iff.mp (by omega)
    rw [hnil, List.append_nil, show (srcsz + 7) / 8 * 8 = srcsz by omega]
  · rfl

/-- `sproto_pack`, in a buffer with room for `bufsz` bytes. -/
theorem sprotoPack_unpacks (src : ℕ → UInt8) (srcsz : ℕ) {bufsz : ℕ} {block : Lib.Block UInt8}
    (hroom : bufsz ≤ block.length) (hfits : packMaxsz srcsz ≤ bufsz) :
    ∃ (block' : Lib.Block UInt8) (text : List UInt8),
      sprotoPack src srcsz block bufsz = .ok (block', text.length) ∧ block'.At 0 text ∧
        text.length ≤ packMaxsz srcsz ∧ ∀ behind, Unpacks behind text (wholeText src srcsz) := by
  obtain ⟨s, ps, r, hloop, h⟩ := packLoop_spec src srcsz hroom (Nat.le_refl _)
  obtain ⟨block', ps', hend, hok, hsaid, hlen, hat⟩ := h.finish rfl
  have hsize : s.size ≤ packMaxsz srcsz := by
    have hle := packCounts_le src srcsz
    rwa [h.counts] at hle
  refine ⟨block', ps'.flatMap PackPiece.spelled, ?_, hat (Nat.le_trans hsize hfits), by rwa [hlen],
    fun behind ↦ ?_⟩
  · rw [sprotoPack, segmentOffsets, hloop, Sproto.ok_bind, hend, Sproto.ok_bind, hlen]
    rfl
  · rw [← packedText_all, ← hsaid]
    exact unpacks_flatMap hok behind

/-! ## What fills up the last segment -/

private theorem padding_zeros (h : sz % 8 < 6) :
    padding src sz = List.replicate ((sz + 7) / 8 * 8 - sz) 0 := by
  rw [padding, if_neg]
  rintro ⟨-, -, hcopied⟩
  have hcount := notzeroCount_segmentBytes src sz (sz / 8 * 8)
  rcases hcopied with h8 | ⟨-, h6⟩ <;> omega

private theorem notzeroCount_sourceAt {off n : ℕ} (hne : ∀ i < n, src (off + i) ≠ 0) :
    notzeroCount (sourceAt src off n) = n := by
  have hall : notzeroCount (sourceAt src off n) = (sourceAt src off n).length := by
    rw [notzeroCount, List.countP_eq_length]
    intro c hc
    obtain ⟨i, hi, rfl⟩ := List.mem_map.mp hc
    exact decide_eq_true (hne i (List.mem_range.mp hi))
  rwa [length_sourceAt] at hall

private theorem packCounts_of_ne_zero (hne : ∀ i < sz, src i ≠ 0) (hk : k * 8 ≤ sz) :
    (packCounts src sz k).1 = k % 256 := by
  induction k with
  | zero => rfl
  | succ k ih =>
    have hall : notzeroCount (segmentBytes src sz (k * 8)) = 8 := by
      rw [segmentBytes_full (by omega)]
      exact notzeroCount_sourceAt fun i hi ↦ hne _ (by omega)
    rw [packCounts, packNext, if_pos (.inl hall), ih (by omega)]
    dsimp only
    split <;> omega

/-- **Bytes behind a text without zeros** are packed if the text ends, but for a byte or two, with a
run of 256 segments. -/
theorem overreads_of_ne_zero (hne : ∀ i < sz, src i ≠ 0) : Overreads src sz ↔ 2046 ≤ sz % 2048 := by
  have hcounts := packCounts_of_ne_zero hne (k := sz / 8) (by omega)
  rw [Overreads, hcounts]
  constructor
  · rintro ⟨hpad, h255, hcopied⟩
    have hcount := notzeroCount_segmentBytes src sz (sz / 8 * 8)
    rcases hcopied with h8 | ⟨-, h6⟩ <;> omega
  · intro h
    refine ⟨by omega, by omega, .inr ⟨by decide, ?_⟩⟩
    have hbytes : notzeroCount (sourceAt src (sz / 8 * 8) (min 8 (sz - sz / 8 * 8))) =
        min 8 (sz - sz / 8 * 8) := notzeroCount_sourceAt fun i hi ↦ hne _ (by omega)
    rw [notzeroCount] at hbytes
    rw [segmentBytes, notzeroCount, List.countP_append, hbytes]
    omega

/-! ## `lpack` -/

/-- `lpack` refuses a text only if `expand_buffer` makes no buffer for it. -/
theorem lpack_cases (src : ℕ → UInt8) (hosz : IsBufsize osz) (hsz : sz + 2 ≤ 2 ^ 30) :
    (packMaxsz sz ≤ maxBufsize ∧ ∃ text osz', lpack src sz osz = .ok (text, osz') ∧ IsBufsize osz' ∧
      text.length ≤ packMaxsz sz ∧ ∀ behind, Unpacks behind text (wholeText src sz)) ∨
    (maxBufsize < packMaxsz sz ∧ lpack src sz osz = .error (.raised .tooLarge)) := by
  have hbuf : (packMaxsz sz ≤ maxBufsize ∧
      ∃ osz', packBufsz osz (packMaxsz sz) = .ok osz' ∧ IsBufsize osz' ∧ packMaxsz sz ≤ osz') ∨
      (maxBufsize < packMaxsz sz ∧ packBufsz osz (packMaxsz sz) = .error (.raised .tooLarge)) := by
    rw [packBufsz]
    by_cases hlt : osz < packMaxsz sz
    · rw [if_pos hlt]
      refine expandBuffer_spec hosz hlt ?_
      rw [packMaxsz, encodeBuffersize]
      omega
    · rw [if_neg hlt]
      exact .inl ⟨Nat.le_trans (Nat.not_lt.mp hlt) hosz.le, osz, rfl, hosz, Nat.not_lt.mp hlt⟩
  rcases hbuf with ⟨hmax, osz', hbuf, hosz', hle⟩ | ⟨hmax, hbuf⟩
  · refine .inl ⟨hmax, ?_⟩
    obtain ⟨block', text, hpack, hat, hlen, hunpacks⟩ := sprotoPack_unpacks src sz
      (Nat.le_trans hle (Nat.le_of_eq (Lib.Block.length_alloc osz').symm)) (Nat.le_refl _)
    refine ⟨text, osz', ?_, hosz', hlen, hunpacks⟩
    rw [lpack, hbuf, Sproto.ok_bind, hpack, Sproto.ok_bind]
    dsimp only
    rw [if_neg (Nat.not_lt.mpr hlen), pushPacked_at hat]
    rfl
  · refine .inr ⟨hmax, ?_⟩
    rw [lpack, hbuf]
    rfl

theorem lpack_unpacked (src : ℕ → UInt8) (hosz : IsBufsize osz) (hmax : packMaxsz sz ≤ maxBufsize) :
    ∃ text osz', lpack src sz osz = .ok (text, osz') ∧ IsBufsize osz' ∧ text.length ≤ packMaxsz sz ∧
      ∀ src' osz₂, IsBufsize osz₂ → sourceAt src' 0 text.length = text →
        ∃ osz₃, IsBufsize osz₃ ∧ lunpack src' text.length osz₂ = .ok (wholeText src sz, osz₃) := by
  have hvalue : maxBufsize = 8396800 := by decide
  have hsz : sz + 2 ≤ 2 ^ 30 := by
    rw [packMaxsz] at hmax
    omega
  have hwhole : (wholeText src sz).length ≤ maxBufsize := by
    rw [length_wholeText]
    rw [packMaxsz] at hmax
    omega
  rcases lpack_cases src hosz hsz with ⟨-, text, osz', hpack, hosz', hlen, hunpacks⟩ | ⟨hlarge, -⟩
  · refine ⟨text, osz', hpack, hosz', hlen, fun src' osz₂ hosz₂ htext ↦ ?_⟩
    have hshort : text.length ≤ 2 ^ 27 :=
      Nat.le_trans hlen (Nat.le_trans hmax (by rw [hvalue]; decide))
    rcases lunpack_cases hosz₂ hshort (htext.symm ▸ hunpacks _) with ⟨-, hok⟩ | ⟨hlarge, -⟩
    · exact hok
    · omega
  · omega

/-- **Packing and unpacking**, in any buffers: a text whose worst case an `int` can count comes
back, filled up to whole segments. -/
theorem lunpack_lpack (src : ℕ → UInt8) (hosz : IsBufsize osz) (hsz : sz + 2 ≤ 2 ^ 30) :
    (packMaxsz sz ≤ maxBufsize → ∃ text osz', lpack src sz osz = .ok (text, osz') ∧ IsBufsize osz' ∧
      text.length ≤ packMaxsz sz ∧
      ∀ src' osz₂, IsBufsize osz₂ → sourceAt src' 0 text.length = text →
        ∃ osz₃, IsBufsize osz₃ ∧
          lunpack src' text.length osz₂ = .ok (sourceAt src 0 sz ++ padding src sz, osz₃)) ∧
    (maxBufsize < packMaxsz sz → lpack src sz osz = .error (.raised .tooLarge)) ∧
    (sz % 8 < 6 → padding src sz = List.replicate ((sz + 7) / 8 * 8 - sz) 0) := by
  refine ⟨lpack_unpacked src hosz, fun hmax ↦ ?_, padding_zeros⟩
  rcases lpack_cases src hosz hsz with ⟨hsmall, -⟩ | ⟨-, herror⟩
  · omega
  · exact herror

theorem lunpack_lpack_three : ∃ text osz',
    lpack (fun i ↦ UInt8.ofNat i) 3 encodeBuffersize = .ok (text, osz') ∧ IsBufsize osz' ∧
    text.length ≤ packMaxsz 3 ∧
    ∀ src' osz₂, IsBufsize osz₂ → sourceAt src' 0 text.length = text →
      ∃ osz₃, IsBufsize osz₃ ∧
        lunpack src' text.length osz₂ = .ok ([0, 1, 2] ++ [0, 0, 0, 0, 0], osz₃) :=
  (lunpack_lpack _ ⟨0, Nat.zero_le _, rfl⟩ (by decide)).1 (by decide)

/-- **Bytes behind the source.** A text without zeros is filled up with zeros, unless it ends, but
for a byte or two, with a run of 256 segments: then it is filled up with the bytes behind it. -/
theorem lunpack_lpack_behind (src : ℕ → UInt8) (hosz : IsBufsize osz)
    (hmax : packMaxsz sz ≤ maxBufsize) (hne : ∀ i < sz, src i ≠ 0) :
    ∃ text osz', lpack src sz osz = .ok (text, osz') ∧
      ∀ src' osz₂, IsBufsize osz₂ → sourceAt src' 0 text.length = text →
        ∃ osz₃, lunpack src' text.length osz₂ =
          .ok (if 2046 ≤ sz % 2048 then sourceAt src 0 ((sz + 7) / 8 * 8)
            else sourceAt src 0 sz ++ List.replicate ((sz + 7) / 8 * 8 - sz) 0, osz₃) := by
  obtain ⟨text, osz', hpack, -, -, hunpack⟩ := lpack_unpacked src hosz hmax
  have hwhole : wholeText src sz = if 2046 ≤ sz % 2048 then sourceAt src 0 ((sz + 7) / 8 * 8)
      else sourceAt src 0 sz ++ List.replicate ((sz + 7) / 8 * 8 - sz) 0 := by
    rw [wholeText, padding, if_congr (overreads_of_ne_zero hne) rfl rfl]
    split
    · have hadd := sourceAt_add src 0 sz ((sz + 7) / 8 * 8 - sz)
      rwa [Nat.zero_add, Nat.add_sub_of_le (by omega), eq_comm] at hadd
    · rfl
  refine ⟨text, osz', hpack, fun src' osz₂ hosz₂ htext ↦ ?_⟩
  obtain ⟨osz₃, -, hok⟩ := hunpack src' osz₂ hosz₂ htext
  exact ⟨osz₃, hwhole ▸ hok⟩

/-- 2046 bytes that are not zero, and two bytes behind them. -/
theorem lunpack_lpack_behind_nines : ∃ text osz',
    lpack (fun i ↦ if i < 2046 then 1 else 9) 2046 encodeBuffersize = .ok (text, osz') ∧
      ∀ src' osz₂, IsBufsize osz₂ → sourceAt src' 0 text.length = text →
        ∃ osz₃, lunpack src' text.length osz₂ =
          .ok (if 2046 ≤ 2046 % 2048 then
              sourceAt (fun i ↦ if i < 2046 then 1 else 9) 0 ((2046 + 7) / 8 * 8)
            else sourceAt (fun i ↦ if i < 2046 then 1 else 9) 0 2046 ++
              List.replicate ((2046 + 7) / 8 * 8 - 2046) 0, osz₃) :=
  lunpack_lpack_behind _ ⟨0, Nat.zero_le _, rfl⟩ (by decide) fun i hi ↦ by
    rw [if_pos hi]
    decide

end ZTask
