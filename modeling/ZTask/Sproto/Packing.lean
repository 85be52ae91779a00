import ZTask.Sproto.Unpacking

/-!
# Packing

The loop of `sproto_pack`, segment by segment: what it has written are the pieces of what it has
read, but for a run of segments that is still open (`Packed`). The last segment of a text may have
fewer than eight bytes, and is filled up with zeros; if it completes a run of 256 segments, though,
the bytes behind the text are copied instead (`Overreads`).

How many bytes are taken depends on the numbers of zeros alone (`packCounts`), and never exceeds
what `lpack` provides for.

## An open run

`sproto_pack` keeps a pointer to where a run began in the source, one to where its header will
stand, and the number of its segments. `Packed` says what is in the buffer in front of that header,
and that nothing behind it matters yet, as `write_ff` writes the run anew from the source. A segment
opens a run, belongs to it, completes it, or is a piece of its own; there is one lemma for each, and
`Packed.step` tells which applies.
-/

namespace ZTask

open Lib

variable {src : ℕ → UInt8} {srcsz B off m n p k : ℕ} {block block' : Lib.Block UInt8}
  {bytes seg front xs ys : List UInt8} {sz : ℤ}

/-! ## Segments -/

/-- The bytes that are spelled out. -/
def notzero (c : UInt8) : Bool := decide (c ≠ 0)

/-- The number of bytes that are not zero. -/
def notzeroCount (seg : List UInt8) : ℕ := seg.countP notzero

/-- What `pack_seg` takes for a segment to be copied, with the segments that are to be copied
already. -/
def Copied (seg : List UInt8) (n : ℕ) : Prop :=
  notzeroCount seg = 8 ∨ (0 < n ∧ 6 ≤ notzeroCount seg)

instance (seg : List UInt8) (n : ℕ) : Decidable (Copied seg n) :=
  inferInstanceAs (Decidable (_ ∨ (_ ∧ _)))

/-- The bytes that `pack_seg` takes. -/
def packedSize (seg : List UInt8) (n : ℕ) : ℕ :=
  if Copied seg n then if 0 < n then 8 else 10 else notzeroCount seg + 1

/-- The segment as a piece of its own. -/
def segCells (seg : List UInt8) : List (Option UInt8) :=
  seg.map fun c ↦ if c = 0 then none else some c

private theorem segCells_isSome (seg : List UInt8) :
    (segCells seg).map Option.isSome = seg.map notzero := by
  rw [segCells, List.map_map]
  refine List.map_congr_left fun c _ ↦ ?_
  rw [Function.comp_apply]
  split
  next hzero =>
    rw [hzero]
    rfl
  next hne => exact (decide_eq_true hne).symm

private theorem segCells_reduceOption (seg : List UInt8) :
    (segCells seg).reduceOption = seg.filter notzero := by
  induction seg with
  | nil => rfl
  | cons c seg ih =>
    by_cases hzero : c = 0
    · rw [hzero]
      exact ih
    · have hnz : notzero c = true := decide_eq_true hzero
      rw [List.filter_cons_of_pos hnz, ← ih, segCells, List.map_cons, if_neg hzero]
      rfl

private theorem said_segCells (seg : List UInt8) : (PackPiece.seg (segCells seg)).said = seg := by
  rw [PackPiece.said, segCells, List.map_map]
  conv_rhs => rw [← List.map_id seg]
  refine List.map_congr_left fun c _ ↦ ?_
  rw [Function.comp_apply]
  split
  next hzero => exact hzero.symm
  next => rfl

private theorem length_spelled_segCells (seg : List UInt8) :
    (PackPiece.seg (segCells seg)).spelled.length = notzeroCount seg + 1 := by
  rw [PackPiece.spelled, segCells_reduceOption, List.length_cons, notzeroCount,
    List.countP_eq_length_filter]

theorem notzeroCount_le (seg : List UInt8) : notzeroCount seg ≤ seg.length := List.countP_le_length

private theorem ok_segCells (hlen : seg.length = 8) (h : ¬Copied seg n) :
    (PackPiece.seg (segCells seg)).Ok := by
  refine ⟨by rw [segCells, List.length_map, hlen], ?_⟩
  by_contra hnone
  have hall : notzeroCount seg = seg.length := by
    rw [notzeroCount, List.countP_eq_length]
    intro c hc
    refine decide_eq_true fun hzero ↦ hnone (List.mem_map.mpr ⟨c, hc, if_pos hzero⟩)
  exact h (.inl (hall.trans hlen))

/-- The loop of `pack_seg`, in a buffer with room for `sz` bytes. -/
theorem packSegLoop_spec (seg : List UInt8) (i : ℕ) (header : UInt8) (nz : ℕ)
    (hroom : (p : ℤ) + sz ≤ block.length) :
    ∃ block', packSegLoop i header nz block p sz seg =
        .ok (headerFrom i header (seg.map notzero), nz + notzeroCount seg, block') ∧
      Lib.Block.KeepsFront block block' p ∧
      ((notzeroCount seg : ℤ) ≤ sz → block'.At p (seg.filter notzero)) := by
  induction seg generalizing i header nz block p sz with
  | nil => exact ⟨block, rfl, .refl block p, fun _ ↦ Lib.Block.at_nil block p⟩
  | cons c seg ih =>
    by_cases hzero : c = 0
    · have hz : ¬notzero c = true := by simp [notzero, hzero]
      have hcount : notzeroCount (c :: seg) = notzeroCount seg := List.countP_cons_of_neg hz
      rw [packSegLoop, if_neg (not_not.mpr hzero), hcount, List.map_cons, headerFrom,
        List.filter_cons_of_neg hz, if_neg hz]
      exact ih (i + 1) header nz hroom
    · have hnz : notzero c = true := decide_eq_true hzero
      have hcount : notzeroCount (c :: seg) = notzeroCount seg + 1 := List.countP_cons_of_pos hnz
      rw [packSegLoop, if_pos hzero, hcount, List.map_cons, headerFrom,
        List.filter_cons_of_pos hnz, if_pos hnz, ← Nat.add_assoc, Nat.add_right_comm nz]
      by_cases hpos : 0 < sz
      · obtain ⟨block₁, hfill, hwrite⟩ := fillBytes_ok block p [c]
          (by rw [List.length_singleton]; omega)
        have hkeeps : Lib.Block.KeepsFront block block₁ p := .of_write? hwrite (Nat.le_refl p)
        obtain ⟨block', hloop, hkeeps', hat⟩ := ih (i + 1)
          (header ||| 1 <<< UInt8.ofNat i) (nz + 1)
          (show ((p + 1 : ℕ) : ℤ) + (sz - 1) ≤ block₁.length by rw [hkeeps.1]; push_cast; omega)
        refine ⟨block', ?_, hkeeps.trans hkeeps' (Nat.le_succ p), fun hle ↦ ?_⟩
        · rw [if_pos hpos, hfill]
          exact hloop
        · have hfirst : block'.At p [c] := hkeeps'.2 (.of_write? hwrite) (Nat.le_refl _)
          exact hfirst.append (hat (by omega))
      · obtain ⟨block', hloop, hkeeps', -⟩ := ih (i + 1)
          (header ||| 1 <<< UInt8.ofNat i) (nz + 1) hroom
        refine ⟨block', ?_, hkeeps', fun hle ↦ by omega⟩
        rw [if_neg hpos]
        exact hloop

/-- `pack_seg`, in a buffer with room for `sz` bytes. -/
theorem packSeg_spec (n : ℕ) (hlen : seg.length = 8) (hroom : (p : ℤ) + sz ≤ block.length) :
    ∃ block', packSeg seg block p sz n = .ok (block', packedSize seg n) ∧
      Lib.Block.KeepsFront block block' p ∧
      (¬Copied seg n → (packedSize seg n : ℤ) ≤ sz →
        block'.At p (PackPiece.seg (segCells seg)).spelled) := by
  have hle := notzeroCount_le seg
  obtain ⟨block₁, hloop, hkeeps, hat⟩ := packSegLoop_spec seg 0 0 0
    (show ((p + 1 : ℕ) : ℤ) + (sz - 1) ≤ block.length by push_cast; omega)
  rw [Nat.zero_add] at hloop
  have hkeeps₁ : Lib.Block.KeepsFront block block₁ p :=
    ⟨hkeeps.1, fun h hbefore ↦ hkeeps.2 h (Nat.le_succ_of_le hbefore)⟩
  rw [packSeg, hloop]
  dsimp only [Bind.bind, Except.bind]
  by_cases hcopied : Copied seg n
  · have height : (if (notzeroCount seg = 7 ∨ notzeroCount seg = 6) ∧ 0 < n then 8
        else notzeroCount seg) = 8 := by
      rcases hcopied with h8 | ⟨hn, h6⟩
      · rw [h8]
        rfl
      · split <;> omega
    rw [if_pos height, packedSize, if_pos hcopied]
    exact ⟨block₁, rfl, hkeeps₁, fun hnot ↦ absurd hcopied hnot⟩
  · have hsame : (if (notzeroCount seg = 7 ∨ notzeroCount seg = 6) ∧ 0 < n then 8
        else notzeroCount seg) = notzeroCount seg := by
      rw [if_neg]
      rintro ⟨hcount, hn⟩
      exact hcopied (.inr ⟨hn, by omega⟩)
    have hne : notzeroCount seg ≠ 8 := fun h8 ↦ hcopied (.inl h8)
    rw [hsame, if_neg hne, packedSize, if_neg hcopied]
    by_cases hpos : 0 ≤ sz - 1
    · obtain ⟨block', hfill, hwrite⟩ := fillBytes_ok block₁ p
        [headerFrom 0 0 (seg.map notzero)]
        (by rw [List.length_singleton, hkeeps₁.1]; omega)
      refine ⟨block', by rw [if_pos hpos, hfill]; rfl,
        hkeeps₁.trans (.of_write? hwrite (Nat.le_refl p)) (Nat.le_refl p), fun _ hfits ↦ ?_⟩
      have hbytes := (hat (by push_cast at hfits; omega)).write? hwrite (.inr (Nat.le_refl _))
      rw [PackPiece.spelled, segCells_isSome, segCells_reduceOption]
      exact (Lib.Block.At.of_write? hwrite).append hbytes
    · refine ⟨block₁, by rw [if_neg hpos]; rfl, hkeeps₁, fun _ hfits ↦ ?_⟩
      push_cast at hfits
      omega

/-! ## Runs -/

/-- `write_ff` writes a run, filled up with zeros. -/
theorem writeFf_eq (hlen : bytes.length ≤ m * 8) (hgt : m * 8 < bytes.length + 8) :
    writeFf bytes block off = fillBytes block off
      (PackPiece.run (bytes ++ List.replicate (m * 8 - bytes.length) 0)).spelled := by
  have hsegs : (bytes.length + 7) / 8 = m := by omega
  have hall : (bytes ++ List.replicate (m * 8 - bytes.length) 0).length = m * 8 := by
    rw [List.length_append, List.length_replicate]
    omega
  have hcons : 0xff :: UInt8.ofNat (m * 8 / 8 - 1) ::
        (bytes ++ List.replicate (m * 8 - bytes.length) 0) =
      (([0xff] ++ [UInt8.ofNat (m * 8 / 8 - 1)]) ++ bytes) ++
        List.replicate (m * 8 - bytes.length) 0 := by
    simp only [List.cons_append, List.nil_append]
  rw [PackPiece.spelled, hall, hcons, ← fillBytes_append, ← fillBytes_append, ← fillBytes_append,
    writeFf, hsegs]
  simp only [bind_assoc, List.length_append, List.length_cons, List.length_nil, Nat.zero_add,
    Nat.reduceAdd, Nat.add_assoc]

/-- The segment at a place. -/
def segmentBytes (src : ℕ → UInt8) (srcsz i : ℕ) : List UInt8 :=
  sourceAt src i (min 8 (srcsz - i)) ++ List.replicate (8 - (srcsz - i)) 0

theorem length_segmentBytes (src : ℕ → UInt8) (srcsz i : ℕ) :
    (segmentBytes src srcsz i).length = 8 := by
  rw [segmentBytes, List.length_append, length_sourceAt, List.length_replicate]
  omega

theorem segmentBytes_full (h : m + 8 ≤ srcsz) : segmentBytes src srcsz m = sourceAt src m 8 := by
  rw [segmentBytes, Nat.min_eq_left (by omega), Nat.sub_eq_zero_of_le (by omega),
    List.replicate_zero, List.append_nil]

private theorem segmentBytes_rest (h : srcsz < m + 8) (hle : m ≤ srcsz) : segmentBytes src srcsz m =
    sourceAt src m (srcsz - m) ++ List.replicate (m + 8 - srcsz) 0 := by
  rw [segmentBytes, Nat.min_eq_right (by omega), show 8 - (srcsz - m) = m + 8 - srcsz by omega]

private theorem segmentPlace_read (hle : m ≤ srcsz) :
    (segmentPlace src srcsz m).read src 8 = .ok (segmentBytes src srcsz m) := by
  rw [segmentPlace]
  split
  next hlast =>
    have hlen := length_segmentBytes src srcsz m
    rw [segmentBytes_rest hlast hle] at hlen ⊢
    rw [SegmentPlace.read, hlen, if_pos (Nat.le_refl 8), List.take_of_length_le (Nat.le_of_eq hlen)]
  next hfull => rw [SegmentPlace.read, segmentBytes_full (Nat.not_lt.mp hfull)]

/-- `ff_n` and `size`, behind a segment. -/
def packNext (seg : List UInt8) (s : ℕ × ℕ) : ℕ × ℕ :=
  (if Copied seg s.1 then if s.1 + 1 = 256 then 0 else s.1 + 1 else 0, s.2 + packedSize seg s.1)

/-- `ff_n` and `size`, behind `k` segments. -/
def packCounts (src : ℕ → UInt8) (srcsz : ℕ) : ℕ → ℕ × ℕ
  | 0 => (0, 0)
  | k + 1 => packNext (segmentBytes src srcsz (k * 8)) (packCounts src srcsz k)

/-- The last segment has fewer than eight bytes, and completes a run of 256. -/
def Overreads (src : ℕ → UInt8) (srcsz : ℕ) : Prop :=
  srcsz % 8 ≠ 0 ∧ (packCounts src srcsz (srcsz / 8)).1 = 255 ∧
    Copied (segmentBytes src srcsz (srcsz / 8 * 8)) 255

instance (src : ℕ → UInt8) (srcsz : ℕ) : Decidable (Overreads src srcsz) :=
  inferInstanceAs (Decidable (_ ∧ _ ∧ _))

/-- What fills up the last segment. -/
def padding (src : ℕ → UInt8) (srcsz : ℕ) : List UInt8 :=
  if Overreads src srcsz then sourceAt src srcsz ((srcsz + 7) / 8 * 8 - srcsz)
  else List.replicate ((srcsz + 7) / 8 * 8 - srcsz) 0

theorem length_padding (src : ℕ → UInt8) (srcsz : ℕ) :
    (padding src srcsz).length = (srcsz + 7) / 8 * 8 - srcsz := by
  rw [padding]
  split
  · rw [length_sourceAt]
  · rw [List.length_replicate]

/-- The text of the first `k` segments. -/
def packedText (src : ℕ → UInt8) (srcsz k : ℕ) : List UInt8 :=
  if k * 8 ≤ srcsz then sourceAt src 0 (k * 8) else sourceAt src 0 srcsz ++ padding src srcsz

/-- The text goes on with the segment, or with what is copied for it. -/
theorem packedText_succ (hk : k * 8 < srcsz) :
    packedText src srcsz (k + 1) = packedText src srcsz k ++
      if (packCounts src srcsz k).1 = 255 ∧ Copied (segmentBytes src srcsz (k * 8)) 255 then
        sourceAt src (k * 8) 8
      else segmentBytes src srcsz (k * 8) := by
  rw [packedText, packedText, if_pos (Nat.le_of_lt hk)]
  by_cases hfull : (k + 1) * 8 ≤ srcsz
  · rw [if_pos hfull, segmentBytes_full (by omega), ite_self, Nat.succ_mul,
      sourceAt_add, Nat.zero_add]
  · have hover : Overreads src srcsz ↔ (packCounts src srcsz k).1 = 255 ∧
        Copied (segmentBytes src srcsz (k * 8)) 255 := by
      rw [Overreads, show srcsz / 8 = k by omega]
      exact and_iff_right (by omega)
    have hsplit : sourceAt src 0 srcsz = sourceAt src 0 (k * 8) ++
        sourceAt src (k * 8) (srcsz - k * 8) := by
      have hadd := sourceAt_add src 0 (k * 8) (srcsz - k * 8)
      rwa [Nat.zero_add, Nat.add_sub_of_le (Nat.le_of_lt hk)] at hadd
    rw [if_neg hfull, padding, if_congr hover rfl rfl, hsplit, List.append_assoc,
      show (srcsz + 7) / 8 * 8 - srcsz = k * 8 + 8 - srcsz by omega]
    refine congrArg _ ?_
    split
    · -- the bytes behind the text complete the segment
      have hrest : sourceAt src (k * 8) 8 =
          sourceAt src (k * 8) (srcsz - k * 8 + (k * 8 + 8 - srcsz)) :=
        congrArg _ (by omega)
      rw [hrest, sourceAt_add, Nat.add_sub_of_le (Nat.le_of_lt hk)]
    · rw [segmentBytes_rest (by omega) (Nat.le_of_lt hk)]

/-- What has been packed: the pieces that are written, and the run that is still open. -/
structure Packed (src : ℕ → UInt8) (srcsz B : ℕ) (s : Packing) (k : ℕ) (ps : List PackPiece)
    (r : List UInt8) : Prop where
  ok : ∀ p ∈ ps, p.Ok
  told : ps.flatMap PackPiece.said ++ r = packedText src srcsz k
  run : r.length = s.ffN * 8
  few : s.ffN < 256
  counts : packCounts src srcsz k = (s.ffN, s.size)
  size : s.size = (ps.flatMap PackPiece.spelled).length + if s.ffN = 0 then 0 else 2 + s.ffN * 8
  bufsz : s.bufsz = B - s.size
  length : B ≤ s.block.length
  written : s.size ≤ B → s.block.At 0 (ps.flatMap PackPiece.spelled)
  place : 0 < s.ffN → s.ffDesstart = (ps.flatMap PackPiece.spelled).length ∧
    ((∃ off, s.ffSrcstart = .source off ∧ off + s.ffN * 8 = k * 8 ∧ off + 8 ≤ srcsz) ∨
      (s.ffN = 1 ∧ s.ffSrcstart = .tmp r ∧ srcsz < k * 8))

variable {s : Packing} {ps : List PackPiece} {r : List UInt8}

theorem length_packedText (hk : k ≤ (srcsz + 7) / 8) : (packedText src srcsz k).length = k * 8 := by
  rw [packedText]
  split
  · rw [length_sourceAt]
  · rw [List.length_append, length_sourceAt, length_padding]
    omega

theorem Packed.run_eq (h : Packed src srcsz B s k ps r) (hk : k ≤ (srcsz + 7) / 8)
    (hoff : off + s.ffN * 8 = k * 8) : r = (packedText src srcsz k).drop off := by
  have hlen := congrArg List.length h.told
  rw [List.length_append, h.run, length_packedText hk] at hlen
  rw [← h.told, List.drop_left' (by omega)]

/-- The run is written. -/
theorem flushFf_spec {s : Packing} (hread : s.ffSrcstart.read src n = .ok bytes)
    (hlen : bytes.length ≤ m * 8) (hgt : m * 8 < bytes.length + 8)
    (hroom : 0 ≤ s.bufsz → s.ffDesstart + (2 + m * 8) ≤ s.block.length) :
    ∃ block', flushFf src s n = .ok block' ∧ block'.length = s.block.length ∧
      (0 ≤ s.bufsz → block'.At s.ffDesstart
        (PackPiece.run (bytes ++ List.replicate (m * 8 - bytes.length) 0)).spelled) ∧
      ∀ {off : ℕ} {xs : List UInt8}, s.block.At off xs →
        off + xs.length ≤ s.ffDesstart ∨ s.ffDesstart + (2 + m * 8) ≤ off → block'.At off xs := by
  have hspelled : (PackPiece.run (bytes ++
      List.replicate (m * 8 - bytes.length) 0)).spelled.length =
      2 + m * 8 := by
    rw [PackPiece.spelled, List.length_cons, List.length_cons, List.length_append,
      List.length_replicate]
    omega
  rw [flushFf]
  by_cases hpos : 0 ≤ s.bufsz
  · obtain ⟨block', hfill, hwrite⟩ := fillBytes_ok s.block s.ffDesstart
      (PackPiece.run (bytes ++ List.replicate (m * 8 - bytes.length) 0)).spelled
      (by rw [hspelled]; exact hroom hpos)
    refine ⟨block', ?_, Lib.Block.length_of_write? hwrite, fun _ ↦ .of_write? hwrite,
      fun hat hother ↦ hat.write? hwrite (by rw [hspelled]; exact hother)⟩
    rw [if_pos hpos, hread, Sproto.ok_bind, writeFf_eq hlen hgt, hfill]
  · exact ⟨s.block, if_neg hpos, rfl, fun h ↦ absurd h hpos, fun hat _ ↦ hat⟩

theorem Packed.source (h : Packed src srcsz B s k ps r) (hk : k * 8 < srcsz) (hopen : 0 < s.ffN) :
    ∃ off, s.ffSrcstart = .source off ∧ off + s.ffN * 8 = k * 8 ∧ off + 8 ≤ srcsz := by
  rcases (h.place hopen).2 with hsource | ⟨-, -, hlast⟩
  · exact hsource
  · omega

/-- The open run is written, with `j` segments more. -/
theorem Packed.flush (h : Packed src srcsz B s k ps r) (hk : k * 8 < srcsz)
    (hopen : 0 < s.ffN) (j : ℕ)
    (s' : Packing) (hsame : s'.ffSrcstart = s.ffSrcstart ∧ s'.ffDesstart = s.ffDesstart)
    (hbufsz : s'.bufsz + j * 8 ≤ s.bufsz) (hkeeps : Lib.Block.KeepsFront s.block s'.block s.size) :
    ∃ block', flushFf src s' ((s.ffN + j) * 8) = .ok block' ∧ block'.length = s.block.length ∧
      (0 ≤ s'.bufsz → block'.At 0
        ((ps ++ [PackPiece.run (r ++ sourceAt src (k * 8) (j * 8))]).flatMap PackPiece.spelled)) ∧
      ∀ {off : ℕ} {xs : List UInt8}, s'.block.At off xs → s.size + j * 8 ≤ off →
        block'.At off xs := by
  obtain ⟨off, hsource, hoff, -⟩ := h.source hk hopen
  have hr : r = sourceAt src off (s.ffN * 8) := by
    rw [h.run_eq (by omega) hoff, packedText, if_pos (Nat.le_of_lt hk),
      drop_sourceAt src 0 (by omega), Nat.zero_add]
    exact congrArg _ (by omega)
  have hall : sourceAt src off ((s.ffN + j) * 8) = r ++ sourceAt src (k * 8) (j * 8) := by
    calc sourceAt src off ((s.ffN + j) * 8)
        = sourceAt src off (s.ffN * 8) ++ sourceAt src (off + s.ffN * 8) (j * 8) := by
          rw [Nat.add_mul, sourceAt_add]
      _ = r ++ sourceAt src (k * 8) (j * 8) := by rw [hoff, ← hr]
  have hlen : (r ++ sourceAt src (k * 8) (j * 8)).length = (s.ffN + j) * 8 := by
    rw [← hall, length_sourceAt]
  have hread : s'.ffSrcstart.read src ((s.ffN + j) * 8) =
      .ok (r ++ sourceAt src (k * 8) (j * 8)) := by
    rw [hsame.1, hsource, ← hall]
    rfl
  obtain ⟨hdes, -⟩ := h.place hopen
  have hsize := h.size
  rw [if_neg (Nat.ne_of_gt hopen)] at hsize
  have hbuf := h.bufsz
  have hlength := h.length
  obtain ⟨block', hflush, hlen', hat, hkeep⟩ := flushFf_spec (s := s') (m := s.ffN + j) hread
    (Nat.le_of_eq hlen) (by rw [hlen]; omega)
    (fun hpos ↦ by rw [hsame.2, hdes, hkeeps.1]; omega)
  refine ⟨block', hflush, hlen'.trans hkeeps.1, fun hpos ↦ ?_, fun hat' hle ↦ ?_⟩
  · have hdone : block'.At 0 (ps.flatMap PackPiece.spelled) := by
      refine hkeep (hkeeps.2 (h.written (by omega)) (by omega)) (.inl ?_)
      rw [hsame.2, hdes]
      omega
    have hrun := hat hpos
    rw [hlen, Nat.sub_self, List.replicate_zero, List.append_nil, hsame.2, hdes] at hrun
    rw [List.flatMap_append, List.flatMap_singleton]
    exact hdone.append ((Nat.zero_add _).symm ▸ hrun)
  · exact hkeep hat' (.inr (by rw [hsame.2, hdes]; omega))

private theorem said_append (ps : List PackPiece) (p : PackPiece) :
    (ps ++ [p]).flatMap PackPiece.said = ps.flatMap PackPiece.said ++ p.said := by
  rw [List.flatMap_append, List.flatMap_singleton]

private theorem length_spelled_append (ps : List PackPiece) (p : PackPiece) :
    ((ps ++ [p]).flatMap PackPiece.spelled).length =
      (ps.flatMap PackPiece.spelled).length + p.spelled.length := by
  rw [List.flatMap_append, List.flatMap_singleton, List.length_append]

theorem ok_append {p : PackPiece} (hps : ∀ p ∈ ps, p.Ok) (hp : p.Ok) : ∀ q ∈ ps ++ [p], q.Ok := by
  intro q hq
  rcases List.mem_append.mp hq with hq | hq
  · exact hps q hq
  · exact List.mem_singleton.mp hq ▸ hp

private theorem segmentPlace_cases (hk : k * 8 < srcsz) :
    (∃ off, segmentPlace src srcsz (k * 8) = .source off ∧ off + 1 * 8 = (k + 1) * 8 ∧
        off + 8 ≤ srcsz) ∨
      ((1 : ℕ) = 1 ∧ segmentPlace src srcsz (k * 8) = .tmp (segmentBytes src srcsz (k * 8)) ∧
        srcsz < (k + 1) * 8) := by
  rw [segmentPlace]
  split
  next hlast =>
    rw [segmentBytes_rest hlast (Nat.le_of_lt hk)]
    exact .inr ⟨rfl, rfl, by omega⟩
  next => exact .inl ⟨k * 8, rfl, by omega, by omega⟩

/-- A segment without a zero opens a run. -/
theorem Packed.opens (h : Packed src srcsz B s k ps r) (hk : k * 8 < srcsz) (hzero : s.ffN = 0)
    (hcopied : Copied (segmentBytes src srcsz (k * 8)) 0)
    (hkeeps : Lib.Block.KeepsFront s.block block s.size) :
    Packed src srcsz B { s with
      block, bufsz := s.bufsz - (10 : ℕ), size := s.size + 10
      ffSrcstart := segmentPlace src srcsz (k * 8), ffDesstart := s.size, ffN := 1 } (k + 1) ps
      (segmentBytes src srcsz (k * 8)) := by
  have hsize := h.size
  rw [if_pos hzero, Nat.add_zero] at hsize
  have hnil : r = [] := List.length_eq_zero_iff.mp (by rw [h.run, hzero])
  have hbuf := h.bufsz
  refine ⟨h.ok, ?_, length_segmentBytes src srcsz _, (by decide : (1 : ℕ) < 256), ?_, ?_, ?_, ?_,
    fun hle ↦ ?_, fun _ ↦ ⟨hsize, segmentPlace_cases hk⟩⟩
  · rw [packedText_succ hk, if_neg, ← h.told, hnil, List.append_nil]
    rw [h.counts, hzero]
    exact fun hboth ↦ absurd hboth.1 (Nat.zero_ne_add_one 254)
  · rw [packCounts, h.counts, packNext, hzero, if_pos hcopied, packedSize, if_pos hcopied]
    rfl
  · rw [if_neg Nat.one_ne_zero]
    exact congrArg (· + 10) hsize
  · rw [hbuf]
    push_cast
    omega
  · rw [hkeeps.1]
    exact h.length
  · dsimp only at hle
    exact hkeeps.2 (h.written (by omega)) (by omega)

/-- A segment with few zeros belongs to the open run. -/
theorem Packed.extends (h : Packed src srcsz B s k ps r) (hk : k * 8 < srcsz) (hopen : 0 < s.ffN)
    (hfew : s.ffN + 1 < 256) (hcopied : Copied (segmentBytes src srcsz (k * 8)) s.ffN)
    (hkeeps : Lib.Block.KeepsFront s.block block s.size) :
    Packed src srcsz B
      { s with block, bufsz := s.bufsz - (8 : ℕ), size := s.size + 8, ffN := s.ffN + 1 } (k + 1) ps
      (r ++ segmentBytes src srcsz (k * 8)) := by
  obtain ⟨off, hsource, hoff, hinside⟩ := h.source hk hopen
  have hsize := h.size
  rw [if_neg (Nat.ne_of_gt hopen)] at hsize
  have hbuf := h.bufsz
  refine ⟨h.ok, ?_, ?_, hfew, ?_, ?_, ?_, ?_, fun hle ↦ ?_, fun _ ↦ ⟨(h.place hopen).1,
    .inl ⟨off, hsource, ?_, hinside⟩⟩⟩
  · rw [packedText_succ hk, if_neg, ← h.told, List.append_assoc]
    rw [h.counts]
    exact fun hboth ↦ absurd hboth.1 (by dsimp only; omega)
  · rw [List.length_append, h.run, length_segmentBytes, Nat.succ_mul]
  · rw [packCounts, h.counts, packNext, if_pos hcopied, if_neg (Nat.ne_of_lt hfew), packedSize,
      if_pos hcopied, if_pos hopen]
  · rw [if_neg (Nat.succ_ne_zero _), hsize]
    dsimp only
    omega
  · rw [hbuf]
    push_cast
    omega
  · rw [hkeeps.1]
    exact h.length
  · dsimp only at hle
    exact hkeeps.2 (h.written (by omega)) (by omega)
  · dsimp only
    omega

/-- A segment that is the 256th completes the open run. -/
theorem Packed.completes (h : Packed src srcsz B s k ps r) (hk : k * 8 < srcsz)
    (hfull : s.ffN + 1 = 256)
    (hcopied : Copied (segmentBytes src srcsz (k * 8)) s.ffN) (hlen : block.length = s.block.length)
    (hat : 0 ≤ s.bufsz - (8 : ℕ) → block.At 0
      ((ps ++ [PackPiece.run (r ++ sourceAt src (k * 8) 8)]).flatMap PackPiece.spelled)) :
    Packed src srcsz B
      { s with block, bufsz := s.bufsz - (8 : ℕ), size := s.size + 8, ffN := 0 } (k + 1)
      (ps ++ [PackPiece.run (r ++ sourceAt src (k * 8) 8)]) [] := by
  have h255 : s.ffN = 255 := by omega
  have hrun : (r ++ sourceAt src (k * 8) 8).length = (255 + 1) * 8 := by
    calc (r ++ sourceAt src (k * 8) 8).length = s.ffN * 8 + 8 := by
          rw [List.length_append, h.run, length_sourceAt]
      _ = (255 + 1) * 8 := by rw [h255]
  have hsize := h.size
  rw [if_neg (by omega)] at hsize
  have hbuf := h.bufsz
  refine ⟨ok_append h.ok ⟨255, by decide, hrun⟩, ?_, rfl, Nat.zero_lt_succ _, ?_, ?_, ?_, ?_,
    fun hle ↦ hat ?_, fun hopen ↦ absurd hopen (Nat.lt_irrefl 0)⟩
  · rw [said_append, List.append_nil, packedText_succ hk, if_pos, ← h.told, List.append_assoc]
    · rfl
    · rw [h.counts, ← h255]
      exact ⟨rfl, hcopied⟩
  · rw [packCounts, h.counts, packNext, if_pos hcopied, if_pos hfull, packedSize, if_pos hcopied,
      if_pos (by omega)]
  · rw [if_pos rfl, length_spelled_append, PackPiece.spelled, List.length_cons,
      List.length_cons, hrun]
    dsimp only
    omega
  · rw [hbuf]
    push_cast
    omega
  · rw [hlen]
    exact h.length
  · dsimp only at hle
    omega

/-- A segment that is a piece of its own. -/
theorem Packed.alone (block : Lib.Block UInt8) (h : Packed src srcsz B s k ps r)
    (hk : k * 8 < srcsz)
    (hcopied : ¬Copied (segmentBytes src srcsz (k * 8)) s.ffN) {closed : List PackPiece}
    (hclosed : (s.ffN = 0 ∧ closed = ps) ∨ (0 < s.ffN ∧ closed = ps ++ [.run r]))
    (hlen : block.length = s.block.length) (n : ℕ)
    (hn : n = packedSize (segmentBytes src srcsz (k * 8)) s.ffN)
    (hat : 0 ≤ s.bufsz - (n : ℕ) → block.At 0
      ((closed ++ [PackPiece.seg (segCells (segmentBytes src srcsz (k * 8)))]).flatMap
        PackPiece.spelled)) :
    Packed src srcsz B { s with block, bufsz := s.bufsz - (n : ℕ), size := s.size + n, ffN := 0 }
      (k + 1) (closed ++ [PackPiece.seg (segCells (segmentBytes src srcsz (k * 8)))]) [] := by
  have hbuf := h.bufsz
  have hn' := hn
  rw [packedSize, if_neg hcopied] at hn'
  have hnot : ¬((packCounts src srcsz k).1 = 255 ∧
      Copied (segmentBytes src srcsz (k * 8)) 255) := by
    rw [h.counts]
    rintro ⟨h255, hboth⟩
    exact hcopied ((show s.ffN = 255 from h255) ▸ hboth)
  have hok : ∀ p ∈ closed, p.Ok := by
    rcases hclosed with ⟨-, rfl⟩ | ⟨hopen, rfl⟩
    · exact h.ok
    · have hfew := h.few
      exact ok_append h.ok ⟨s.ffN - 1, by omega, by rw [h.run, Nat.sub_add_cancel hopen]⟩
  have htold : closed.flatMap PackPiece.said = packedText src srcsz k := by
    rcases hclosed with ⟨hzero, rfl⟩ | ⟨hopen, rfl⟩
    · have hnil : r = [] := List.length_eq_zero_iff.mp (by rw [h.run, hzero])
      rw [← h.told, hnil, List.append_nil]
    · rw [said_append, ← h.told]
      rfl
  have hsize : s.size = (closed.flatMap PackPiece.spelled).length := by
    rcases hclosed with ⟨hzero, rfl⟩ | ⟨hopen, rfl⟩
    · rw [h.size, if_pos hzero, Nat.add_zero]
    · rw [h.size, if_neg (Nat.ne_of_gt hopen), length_spelled_append, PackPiece.spelled,
        List.length_cons, List.length_cons, h.run]
      omega
  refine ⟨ok_append hok (ok_segCells (length_segmentBytes src srcsz _) hcopied), ?_, rfl,
    Nat.zero_lt_succ _, ?_, ?_, ?_, ?_, fun hle ↦ hat ?_,
      fun hopen ↦ absurd hopen (Nat.lt_irrefl 0)⟩
  · rw [said_append, List.append_nil, packedText_succ hk, if_neg hnot, htold, said_segCells]
  · rw [packCounts, h.counts, packNext, if_neg hcopied, ← hn]
  · rw [if_pos rfl, Nat.add_zero, length_spelled_append, length_spelled_segCells, ← hn', ← hsize]
  · rw [hbuf]
    push_cast
    omega
  · rw [hlen]
    exact h.length
  · dsimp only at hle
    omega

/-- **A segment is packed.** -/
theorem Packed.step (h : Packed src srcsz B s k ps r) (hk : k * 8 < srcsz) :
    ∃ s' ps' r', packStep src srcsz s (k * 8) = .ok s' ∧ Packed src srcsz B s' (k + 1) ps' r' := by
  have hbuf := h.bufsz
  have hlength := h.length
  have hseg := length_segmentBytes src srcsz (k * 8)
  have hnz := notzeroCount_le (segmentBytes src srcsz (k * 8))
  obtain ⟨block₁, hpack, hkeeps, hat⟩ := packSeg_spec s.ffN hseg
    (show (s.size : ℤ) + s.bufsz ≤ s.block.length by omega)
  rw [packStep]
  dsimp only
  rw [segmentPlace_read (Nat.le_of_lt hk), Sproto.ok_bind, hpack, Sproto.ok_bind]
  dsimp only
  -- a segment that is copied opens a run or extends it; any other closes it
  by_cases hcopied : Copied (segmentBytes src srcsz (k * 8)) s.ffN
  · rw [packedSize, if_pos hcopied]
    rcases Nat.eq_zero_or_pos s.ffN with hzero | hopen
    · have hclosed : ¬0 < s.ffN := by omega
      rw [if_neg hclosed, if_pos rfl]
      exact ⟨_, _, _, rfl, h.opens hk hzero (hzero ▸ hcopied) hkeeps⟩
    · rw [if_pos hopen, if_neg (by decide), if_pos ⟨rfl, hopen⟩]
      -- a run has at most 256 segments
      by_cases hfull : s.ffN + 1 = 256
      · obtain ⟨block', hflush, hlen, hat', -⟩ := h.flush hk hopen 1
          { s with block := block₁, bufsz := s.bufsz - (8 : ℕ), size := s.size + 8 } ⟨rfl, rfl⟩
          (by dsimp only; omega) hkeeps
        rw [hfull] at hflush
        rw [if_pos hfull, hflush]
        exact ⟨_, _, _, rfl, h.completes hk hfull hcopied hlen hat'⟩
      · have hfew := h.few
        rw [if_neg hfull]
        exact ⟨_, _, _, rfl, h.extends hk hopen (by omega) hcopied hkeeps⟩
  · have hsize : packedSize (segmentBytes src srcsz (k * 8)) s.ffN =
        notzeroCount (segmentBytes src srcsz (k * 8)) + 1 := by rw [packedSize, if_neg hcopied]
    have hpiece := hat hcopied
    have hless : ¬packedSize (segmentBytes src srcsz (k * 8)) s.ffN = 10 := by omega
    rw [if_neg hless]
    rcases Nat.eq_zero_or_pos s.ffN with hzero | hopen
    · -- no run is open
      have hclosed : ¬0 < s.ffN := by omega
      rw [if_neg fun hboth ↦ hclosed hboth.2, if_neg hclosed]
      have halone := h.alone block₁ hk hcopied (.inl ⟨hzero, rfl⟩) hkeeps.1 _ rfl fun hfits ↦ by
        have hdone := hkeeps.2 (h.written (by omega)) (by rw [h.size, if_pos hzero]; omega)
        have hhere := hpiece (by omega)
        have hplace := h.size
        rw [if_pos hzero, Nat.add_zero] at hplace
        rw [List.flatMap_append, List.flatMap_singleton]
        refine hdone.append ?_
        rwa [Nat.zero_add, ← hplace]
      exact ⟨_, _, _, by rw [← hzero]; rfl, halone⟩
    · -- the run is written before the segment that closes it
      have hnot : ¬(packedSize (segmentBytes src srcsz (k * 8)) s.ffN = 8 ∧ 0 < s.ffN) := by
        rintro ⟨h8, -⟩
        exact hcopied (.inr ⟨hopen, by omega⟩)
      rw [if_neg hnot, if_pos hopen]
      obtain ⟨block', hflush, hlen, hat', hkeep⟩ := h.flush hk hopen 0
        { s with
          block := block₁, bufsz :=
            s.bufsz - (packedSize (segmentBytes src srcsz (k * 8)) s.ffN : ℕ)
          size := s.size + packedSize (segmentBytes src srcsz (k * 8)) s.ffN } ⟨rfl, rfl⟩
        (by dsimp only; omega) hkeeps
      rw [Nat.add_zero] at hflush
      rw [hflush]
      have halone := h.alone block' hk hcopied (.inr ⟨hopen, rfl⟩) hlen _ rfl fun hfits ↦ by
        have hdone := hat' hfits
        have hhere := hkeep (hpiece (by omega)) (Nat.le_refl _)
        rw [Nat.zero_mul, sourceAt_zero, List.append_nil] at hdone
        rw [List.flatMap_append, List.flatMap_singleton]
        refine hdone.append ?_
        have hplace : s.size = ((ps ++ [PackPiece.run r]).flatMap PackPiece.spelled).length := by
          rw [h.size, if_neg (Nat.ne_of_gt hopen), length_spelled_append, PackPiece.spelled,
            List.length_cons, List.length_cons, h.run]
          omega
        rwa [Nat.zero_add, ← hplace]
      exact ⟨_, _, _, rfl, halone⟩

/-- What the open run is at the end: what is read for it, filled up with zeros. -/
theorem Packed.openRun (h : Packed src srcsz B s k ps r) (hk : k = (srcsz + 7) / 8)
    (hopen : 0 < s.ffN) :
    ∃ bytes n, packEnd src srcsz s = flushFf src s n ∧ s.ffSrcstart.read src n = .ok bytes ∧
      bytes.length ≤ s.ffN * 8 ∧ s.ffN * 8 < bytes.length + 8 ∧
      bytes ++ List.replicate (s.ffN * 8 - bytes.length) 0 = r := by
  have hlen := h.run
  rcases (h.place hopen).2 with ⟨off, hsource, hoff, hinside⟩ | ⟨hone, htmp, hlast⟩
  · have hrun := h.run_eq (by omega) hoff
    rw [packedText] at hrun
    by_cases hfull : k * 8 ≤ srcsz
    · rw [if_pos hfull, drop_sourceAt src 0 (by omega), Nat.zero_add,
        show k * 8 - off = s.ffN * 8 by omega] at hrun
      have hend : packEnd src srcsz s = flushFf src s (s.ffN * 8) := by
        rw [packEnd]
        by_cases hone : s.ffN = 1
        · rw [if_pos hone, hone]
        · rw [if_neg hone, if_pos (by omega), hsource, ← show srcsz - off = s.ffN * 8 by omega]
      refine ⟨r, s.ffN * 8, hend, by rw [hsource, hrun]; rfl, Nat.le_of_eq hlen, by omega, ?_⟩
      rw [hlen, Nat.sub_self, List.replicate_zero, List.append_nil]
    · -- the last segment did not complete a run, since the run is open
      have hnot : ¬Overreads src srcsz := by
        rintro ⟨hpad, h255, hcopied⟩
        have hcounts := h.counts
        rw [show k = srcsz / 8 + 1 by omega, packCounts, packNext, h255, if_pos hcopied] at hcounts
        exact absurd (Prod.mk.inj hcounts).1 (Nat.ne_of_lt hopen)
      rw [if_neg hfull, padding, if_neg hnot, List.drop_append_of_le_length
        (by rw [length_sourceAt]; omega), drop_sourceAt src 0 (by omega), Nat.zero_add] at hrun
      have hlength := length_sourceAt src off (srcsz - off)
      refine ⟨sourceAt src off (srcsz - off), srcsz - off, ?_, by rw [hsource]; rfl,
        by omega, by omega, ?_⟩
      · rw [packEnd, if_neg (by omega), if_pos (by omega), hsource]
      · rw [hrun, hlength, show (srcsz + 7) / 8 * 8 - srcsz = s.ffN * 8 - (srcsz - off) by omega]
  · rw [hone] at hlen
    refine ⟨r, 8, by rw [packEnd, if_pos hone], ?_, by omega, by omega, ?_⟩
    · rw [htmp, SegmentPlace.read, if_pos (Nat.le_of_eq hlen.symm),
        List.take_of_length_le (Nat.le_of_eq hlen)]
    · rw [hone, hlen, Nat.sub_self, List.replicate_zero, List.append_nil]

/-- **The whole text is packed.** -/
theorem Packed.finish (h : Packed src srcsz B s k ps r) (hk : k = (srcsz + 7) / 8) :
    ∃ (block' : Lib.Block UInt8) (ps' : List PackPiece), packEnd src srcsz s = .ok block' ∧
      (∀ p ∈ ps', p.Ok) ∧ ps'.flatMap PackPiece.said = packedText src srcsz k ∧
      (ps'.flatMap PackPiece.spelled).length = s.size ∧
      (s.size ≤ B → block'.At 0 (ps'.flatMap PackPiece.spelled)) := by
  have hsize := h.size
  have hbuf := h.bufsz
  have hlength := h.length
  rcases Nat.eq_zero_or_pos s.ffN with hzero | hopen
  · rw [if_pos hzero, Nat.add_zero] at hsize
    have hnil : r = [] := List.length_eq_zero_iff.mp (by rw [h.run, hzero])
    refine ⟨s.block, ps, ?_, h.ok, ?_, hsize.symm, h.written⟩
    · rw [packEnd, if_neg (by omega), if_neg (by omega)]
    · rw [← h.told, hnil, List.append_nil]
  · rw [if_neg (Nat.ne_of_gt hopen)] at hsize
    have hdes := (h.place hopen).1
    have hfew := h.few
    obtain ⟨bytes, n, hend, hread, hlen, hgt, hr⟩ := h.openRun hk hopen
    obtain ⟨block', hflush, -, hat, hkeep⟩ := flushFf_spec hread hlen hgt
      (fun hpos ↦ by rw [hdes]; omega)
    rw [hr] at hat
    refine ⟨block', ps ++ [.run r], hend.trans hflush, ?_, ?_, ?_, fun hle ↦ ?_⟩
    · exact ok_append h.ok ⟨s.ffN - 1, by omega, by rw [h.run, Nat.sub_add_cancel hopen]⟩
    · rw [said_append, ← h.told]
      rfl
    · rw [length_spelled_append, PackPiece.spelled, List.length_cons,
        List.length_cons, h.run, hsize]
      omega
    · have hdone := hkeep (h.written hle) (.inl (by rw [hdes]; omega))
      have hrun := hat (by omega)
      rw [hdes] at hrun
      rw [List.flatMap_append, List.flatMap_singleton]
      exact hdone.append ((Nat.zero_add _).symm ▸ hrun)

end ZTask
