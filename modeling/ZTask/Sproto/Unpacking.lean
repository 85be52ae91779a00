import ZTask.Sproto.Pieces

/-!
# Unpacking

The loop of `sproto_unpack`, piece by piece: what it has stored is what the text up to there says,
as far as there is room for it (`Unpacked`). `lunpack` runs it again with a buffer of the size that
it has counted, so the buffer it starts with makes no difference.

## Pieces

The text is a sequence of pieces: a header byte with the bytes of one segment, or `0xff` with a
count and a run of segments. `Unpacked` is kept by each piece (`Unpacked.seg`, `Unpacked.ff`), and
`Unpacked.loop` is the induction over the bytes that are left. The loop counts what it cannot store,
so its result is the same for every buffer.

## The end of the text

A piece may be cut off at the end. The test for what is left is late by one byte: when exactly one
byte of a segment is missing, the byte behind the text is taken for it (`unpackBits_ok`,
`lunpack_unpacks_short`). When more are missing, the text is refused.
-/

namespace ZTask

open Lib

variable {src : ℕ → UInt8} {B off m n p : ℕ} {u : Unpacking} {block block' : Lib.Block UInt8}
  {out bytes text : List UInt8} {behind c : UInt8}

/-! ## Sources and buffers -/

@[simp] theorem length_sourceAt (src : ℕ → UInt8) (off n : ℕ) :
    (sourceAt src off n).length = n := by
  rw [sourceAt, List.length_map, List.length_range]

theorem sourceAt_zero (src : ℕ → UInt8) (off : ℕ) : sourceAt src off 0 = [] := rfl

private theorem sourceAt_succ (src : ℕ → UInt8) (off n : ℕ) :
    sourceAt src off (n + 1) = src off :: sourceAt src (off + 1) n := by
  rw [sourceAt, List.range_succ_eq_map, List.map_cons, List.map_map, Nat.add_zero]
  refine congrArg (src off :: ·) (List.map_congr_left fun i _ ↦ ?_)
  rw [Function.comp_apply, Nat.succ_eq_add_one, Nat.add_right_comm, Nat.add_assoc]

theorem sourceAt_add (src : ℕ → UInt8) (off m n : ℕ) :
    sourceAt src off (m + n) = sourceAt src off m ++ sourceAt src (off + m) n := by
  induction m generalizing off with
  | zero => rw [Nat.zero_add, sourceAt_zero, List.nil_append, Nat.add_zero]
  | succ m ih =>
    rw [Nat.add_right_comm, sourceAt_succ, sourceAt_succ, ih, List.cons_append, Nat.add_right_comm,
      Nat.add_assoc]

theorem fillBytes_ok (block : Lib.Block UInt8) (off : ℕ) (bytes : List UInt8)
    (h : off + bytes.length ≤ block.length) :
    ∃ block', fillBytes block off bytes = .ok block' ∧ block.write? off bytes = some block' := by
  obtain ⟨block', hwrite⟩ := Lib.Block.write?_eq_some h
  exact ⟨block', by rw [fillBytes, hwrite], hwrite⟩

theorem pushPacked_at (h : block.At 0 bytes) : pushPacked block bytes.length = .ok bytes := by
  rw [pushPacked, h.read?]

/-- The sizes that a buffer of `lsproto.c` has. -/
def IsBufsize (osz : ℕ) : Prop := ∃ k ≤ 12, osz = encodeBuffersize * 2 ^ k

/-- The largest buffer that `expand_buffer` makes. -/
def maxBufsize : ℕ := encodeBuffersize * 2 ^ 12

theorem IsBufsize.le {osz : ℕ} (h : IsBufsize osz) : osz ≤ maxBufsize := by
  obtain ⟨k, hk, rfl⟩ := h
  exact Nat.mul_le_mul_left _ (Nat.pow_le_pow_right (by decide) hk)

/-- The sizes are doubled until they are large enough. -/
theorem expandLoop_spec {nsz fuel k : ℕ} (hnsz : nsz ≤ encodeBuffersize * 2 ^ 19)
    (hlt : encodeBuffersize * 2 ^ k < nsz) (hfuel : 19 ≤ k + fuel) (hk : k ≤ 19) :
    ∃ j, k < j ∧ expandLoop nsz fuel (encodeBuffersize * 2 ^ k) = .ok (encodeBuffersize * 2 ^ j) ∧
      nsz ≤ encodeBuffersize * 2 ^ j ∧ encodeBuffersize * 2 ^ (j - 1) < nsz := by
  have hlt19 : k < 19 := by
    refine Nat.lt_of_le_of_ne hk fun heq ↦ ?_
    rw [heq] at hlt
    omega
  have hdouble : encodeBuffersize * 2 ^ k * 2 = encodeBuffersize * 2 ^ (k + 1) := by
    rw [Nat.mul_assoc, Nat.pow_succ]
  have hle : encodeBuffersize * 2 ^ (k + 1) ≤ encodeBuffersize * 2 ^ 19 :=
    Nat.mul_le_mul_left _ (Nat.pow_le_pow_right (by decide) hlt19)
  have hint : ¬2 ^ 31 ≤ encodeBuffersize * 2 ^ (k + 1) :=
    fun h ↦ absurd (Nat.le_trans h hle) (by decide)
  induction fuel generalizing k with
  | zero => omega
  | succ fuel ih =>
    rw [expandLoop, hdouble, if_neg hint]
    by_cases hmore : encodeBuffersize * 2 ^ (k + 1) < nsz
    · have hlt' : k + 1 < 19 := by
        refine Nat.lt_of_le_of_ne hlt19 fun heq ↦ ?_
        rw [heq] at hmore
        omega
      have hle' : encodeBuffersize * 2 ^ (k + 1 + 1) ≤ encodeBuffersize * 2 ^ 19 :=
        Nat.mul_le_mul_left _ (Nat.pow_le_pow_right (by decide) hlt')
      rw [if_pos hmore]
      obtain ⟨j, hj, hloop, hbounds⟩ := ih hmore (by omega) hlt19 hlt'
        (by rw [Nat.mul_assoc, ← Nat.pow_succ]) hle' fun h ↦
          absurd (Nat.le_trans h hle') (by decide)
      exact ⟨j, by omega, hloop, hbounds⟩
    · rw [if_neg hmore]
      exact ⟨k + 1, Nat.lt_succ_self k, rfl, Nat.not_lt.mp hmore, hlt⟩

/-- `expand_buffer`: a buffer that is large enough, or the error. -/
theorem expandBuffer_spec {osz nsz : ℕ} (hosz : IsBufsize osz) (hlt : osz < nsz)
    (hnsz : nsz ≤ encodeBuffersize * 2 ^ 19) :
    (nsz ≤ maxBufsize ∧ ∃ osz', expandBuffer osz nsz = .ok osz' ∧ IsBufsize osz' ∧ nsz ≤ osz') ∨
      (maxBufsize < nsz ∧ expandBuffer osz nsz = .error (.raised .tooLarge)) := by
  obtain ⟨k, hk, rfl⟩ := hosz
  obtain ⟨j, hj, hloop, hge, hbefore⟩ :=
    expandLoop_spec hnsz hlt (show 19 ≤ k + 32 by omega) (by omega)
  have hexpand : expandBuffer (encodeBuffersize * 2 ^ k) nsz =
      if encodeMaxsize < encodeBuffersize * 2 ^ j then .error (.raised .tooLarge)
      else .ok (encodeBuffersize * 2 ^ j) := by
    rw [expandBuffer, hloop]
    rfl
  rcases Nat.lt_or_ge 12 j with hlarge | hsmall
  · refine .inr ⟨Nat.lt_of_le_of_lt ?_ hbefore, ?_⟩
    · exact Nat.mul_le_mul_left _ (Nat.pow_le_pow_right (by decide) (by omega))
    · rw [hexpand, if_pos]
      have h13 : encodeBuffersize * 2 ^ 13 ≤ encodeBuffersize * 2 ^ j :=
        Nat.mul_le_mul_left _ (Nat.pow_le_pow_right (by decide) hlarge)
      exact Nat.lt_of_lt_of_le (by decide) h13
  · have hmax : encodeBuffersize * 2 ^ j ≤ maxBufsize := IsBufsize.le ⟨j, hsmall, rfl⟩
    refine .inl ⟨Nat.le_trans hge hmax, _, ?_, ⟨j, hsmall, rfl⟩, hge⟩
    rw [hexpand, if_neg]
    exact Nat.not_lt.mpr (Nat.le_trans hmax (by decide))

/-! ## Pieces -/

/-- What has been unpacked, with a buffer of `B` bytes. -/
structure Unpacked (B : ℕ) (u : Unpacking) (out : List UInt8) : Prop where
  size : u.size = out.length
  length : u.block.length = B
  room : out.length ≤ B → u.buffer = out.length ∧ u.bufsz = B - out.length ∧ u.block.At 0 out
  full : B < out.length → u.bufsz ≤ 0

/-- A byte is stored. -/
theorem Unpacked.store (h : Unpacked B u out) (c : UInt8) :
    ∃ u', u.store c = .ok u' ∧ u'.p = u.p ∧ u'.srcsz = u.srcsz ∧ Unpacked B u' (out ++ [c]) := by
  have hlen : (out ++ [c]).length = out.length + 1 := List.length_append
  by_cases hpos : 0 < u.bufsz
  · have hroom : out.length ≤ B := by
      by_contra hnot
      exact absurd (h.full (Nat.lt_of_not_le hnot)) (Int.not_le.mpr hpos)
    obtain ⟨hbuffer, hbufsz, hat⟩ := h.room hroom
    have hlt : out.length < B := by omega
    obtain ⟨block, hfill, hwrite⟩ := fillBytes_ok u.block u.buffer [c]
      (by rw [hbuffer, h.length]; exact hlt)
    refine ⟨{ u with block, bufsz := u.bufsz - 1, buffer := u.buffer + 1, size := u.size + 1 },
      ?_, rfl, rfl, ?_, ?_, ?_, ?_⟩
    · rw [Unpacking.store, if_pos hpos, hfill]
      rfl
    · exact (congrArg (· + 1) h.size).trans hlen.symm
    · exact (Lib.Block.length_of_write? hwrite).trans h.length
    · intro _
      refine ⟨(congrArg (· + 1) hbuffer).trans hlen.symm, ?_, ?_⟩
      · rw [hlen, hbufsz, Nat.cast_succ]
        exact Int.sub_sub _ _ _
      · refine (hat.write? hwrite (.inl (by omega))).append ?_
        rw [Nat.zero_add, ← hbuffer]
        exact .of_write? hwrite
    · intro hfull
      omega
  · refine ⟨{ u with size := u.size + 1 }, if_neg hpos, rfl, rfl, ?_, h.length, ?_,
      fun _ ↦ Int.not_lt.mp hpos⟩
    · exact (congrArg (· + 1) h.size).trans hlen.symm
    · -- there is no room for one byte more
      intro hroom
      have hbufsz := (h.room (by omega)).2.1
      omega

/-- A bit of a header. -/
def unpackOf (src : ℕ → UInt8) (u : Unpacking) (b : Bool) : Sproto Unpacking :=
  if b then
    if u.srcsz < 0 then .error .failed
    else { u with p := u.p + 1, srcsz := u.srcsz - 1 }.store (src u.p)
  else u.store 0

private theorem unpackBits_eq (src : ℕ → UInt8) (header : UInt8) (u : Unpacking) :
    (List.range 8).foldlM (unpackBit src header) u =
    (headerBits header).foldlM (unpackOf src) u := by
  rw [headerBits, List.foldlM_map]
  congr
  funext u i
  rw [unpackBit, unpackOf]
  simp only [decide_eq_true_eq]

/-- The bits of a header, when there are as many bytes, or one less. -/
theorem unpackBits_ok (src : ℕ → UInt8) {bits : List Bool} (h : Unpacked B u out)
    (hcount : (bits.count true : ℤ) ≤ u.srcsz + 1) :
    ∃ u', bits.foldlM (unpackOf src) u = .ok u' ∧ u'.p = u.p + bits.count true ∧
      u'.srcsz = u.srcsz - bits.count true ∧
      Unpacked B u'
        (out ++ (spread bits (sourceAt src u.p (bits.count true))).map (·.getD 0)) := by
  induction bits generalizing u out with
  | nil =>
    refine ⟨u, rfl, rfl, (Int.sub_zero _).symm, ?_⟩
    rw [spread, List.map_nil, List.append_nil]
    exact h
  | cons b bits ih =>
    cases b with
    | false =>
      rw [List.count_cons_of_ne (by decide)] at hcount ⊢
      obtain ⟨u₁, hstore, hp, hsrcsz, h₁⟩ := h.store 0
      obtain ⟨u', hfold, hp', hsrcsz', h'⟩ := ih h₁ (by rw [hsrcsz]; exact hcount)
      refine ⟨u', ?_, by rw [hp', hp], by rw [hsrcsz', hsrcsz], ?_⟩
      · rw [List.foldlM_cons, unpackOf, if_neg (by decide), hstore]
        exact hfold
      · rw [hp, List.append_assoc] at h'
        exact h'
    | true =>
      rw [List.count_cons_self] at hcount ⊢
      have h₀ : Unpacked B { u with p := u.p + 1, srcsz := u.srcsz - 1 } out :=
        ⟨h.size, h.length, h.room, h.full⟩
      obtain ⟨u₁, hstore, hp, hsrcsz, h₁⟩ := h₀.store (src u.p)
      obtain ⟨u', hfold, hp', hsrcsz', h'⟩ :=
        ih h₁ (by rw [hsrcsz]; push_cast at hcount; dsimp only; omega)
      refine ⟨u', ?_, ?_, ?_, ?_⟩
      · rw [List.foldlM_cons, unpackOf, if_pos rfl, if_neg (by omega), hstore]
        exact hfold
      · rw [hp', hp]
        exact Nat.add_right_comm u.p 1 _
      · rw [hsrcsz', hsrcsz, Nat.cast_succ, Int.add_comm]
        exact Int.sub_sub _ _ _
      · rw [hp, List.append_assoc] at h'
        rw [sourceAt_succ, spread, List.map_cons]
        exact h'

/-- The bits of a header, when two bytes or more are missing. -/
theorem unpackBits_failed {bits : List Bool} (h : Unpacked B u out) (hsrcsz : -1 ≤ u.srcsz)
    (hcount : u.srcsz + 1 < bits.count true) :
    bits.foldlM (unpackOf src) u = .error .failed := by
  induction bits generalizing u out with
  | nil =>
    rw [List.count_nil] at hcount
    omega
  | cons b bits ih =>
    cases b with
    | false =>
      rw [List.count_cons_of_ne (by decide)] at hcount
      obtain ⟨u₁, hstore, -, hs, h₁⟩ := h.store 0
      rw [List.foldlM_cons, unpackOf, if_neg (by decide), hstore]
      exact ih h₁ (by rw [hs]; exact hsrcsz) (by rw [hs]; exact hcount)
    | true =>
      rw [List.count_cons_self] at hcount
      rw [List.foldlM_cons, unpackOf, if_pos rfl]
      by_cases hneg : u.srcsz < 0
      · rw [if_pos hneg]
        rfl
      · have h₀ : Unpacked B { u with p := u.p + 1, srcsz := u.srcsz - 1 } out :=
          ⟨h.size, h.length, h.room, h.full⟩
        obtain ⟨u₁, hstore, -, hs, h₁⟩ := h₀.store (src u.p)
        rw [if_neg hneg, hstore]
        exact ih h₁ (by rw [hs]; dsimp only; omega)
          (by rw [hs]; push_cast at hcount; dsimp only; omega)

/-! ## The loop -/

/-- Segments are copied. -/
theorem Unpacked.copy (src : ℕ → UInt8) (h : Unpacked B u out) (hpos : 0 < n) :
    ∃ u', u.copy src n = .ok u' ∧ u'.p = u.p + n ∧ u'.srcsz = u.srcsz ∧
      Unpacked B u' (out ++ sourceAt src u.p n) := by
  have hlen : (out ++ sourceAt src u.p n).length = out.length + n := by
    rw [List.length_append, length_sourceAt]
  -- once the buffer is full nothing is written any more, and only the size goes on
  by_cases hfits : (n : ℤ) ≤ u.bufsz
  · have hroom : out.length ≤ B := by
      by_contra hnot
      have hneg := h.full (Nat.lt_of_not_le hnot)
      omega
    obtain ⟨hbuffer, hbufsz, hat⟩ := h.room hroom
    obtain ⟨block, hfill, hwrite⟩ := fillBytes_ok u.block u.buffer (sourceAt src u.p n)
      (by rw [hbuffer, h.length, length_sourceAt]; omega)
    refine ⟨{ u with
      p := u.p + n, bufsz := u.bufsz - n, buffer := u.buffer + n, size := u.size + n, block },
      ?_, rfl, rfl, ?_, ?_, ?_, ?_⟩
    · rw [Unpacking.copy, if_pos hfits, hfill]
      rfl
    · exact (congrArg (· + n) h.size).trans hlen.symm
    · exact (Lib.Block.length_of_write? hwrite).trans h.length
    · intro _
      refine ⟨(congrArg (· + n) hbuffer).trans hlen.symm, ?_, ?_⟩
      · rw [hlen, hbufsz, Nat.cast_add]
        exact Int.sub_sub _ _ _
      · refine (hat.write? hwrite (.inl (by omega))).append ?_
        rw [Nat.zero_add, ← hbuffer]
        exact .of_write? hwrite
    · intro hfull
      omega
  · refine ⟨{ u with
        p := u.p + n, bufsz := u.bufsz - n, buffer := u.buffer + n, size := u.size + n },
      if_neg hfits, rfl, rfl, (congrArg (· + n) h.size).trans hlen.symm, h.length, ?_, ?_⟩
    · intro hroom
      have hbufsz := (h.room (by omega)).2.1
      omega
    · intro _
      dsimp only
      by_cases hroom : out.length ≤ B
      · have hbufsz := (h.room hroom).2.1
        omega
      · have hneg := h.full (Nat.lt_of_not_le hroom)
        omega

private theorem unpacks_nil : Unpacks behind [] bytes ↔ bytes = [] := by
  constructor
  · intro h
    generalize htext : ([] : List UInt8) = text at h
    cases h with
    | nil => rfl
    | @piece p text bytes hok h =>
      cases p <;> cases htext
    | short hok hdata => cases htext
  · rintro rfl
    exact .nil

/-- A text that starts with the header of a segment. -/
theorem unpacks_seg {header : UInt8} (hheader : header ≠ 0xff) :
    Unpacks behind (header :: text) bytes ↔
      ((headerBits header).count true ≤ text.length ∧
        ∃ rest, Unpacks behind (text.drop ((headerBits header).count true)) rest ∧
          bytes = (spread (headerBits header) (text.take ((headerBits header).count true))).map
            (·.getD 0) ++ rest) ∨
      ((headerBits header).count true = text.length + 1 ∧
        bytes = (spread (headerBits header) (text ++ [behind])).map (·.getD 0)) := by
  -- a segment with this header
  have hseg : ∀ data : List UInt8, data.length = (headerBits header).count true →
      (PackPiece.seg (spread (headerBits header) data)).Ok ∧
        headerFrom 0 0 ((spread (headerBits header) data).map Option.isSome) = header ∧
        (spread (headerBits header) data).reduceOption = data := by
    intro data hdata
    obtain ⟨hbits, hcells⟩ := spread_spec hdata
    have hlen : (spread (headerBits header) data).length = 8 := length_spread _ _
    refine ⟨⟨hlen, ?_⟩, by rw [hbits, headerFrom_headerBits], hcells⟩
    by_contra hnone
    have hff := (header_eq_ff_iff hlen).mpr hnone
    rw [hbits, headerFrom_headerBits] at hff
    exact hheader hff
  constructor
  · intro h
    generalize htext : header :: text = whole at h
    cases h with
    | nil => cases htext
    | @piece p rest said hok h =>
      cases p with
      | run l => exact absurd (List.cons.inj htext).1 hheader
      | seg cells =>
        rw [PackPiece.spelled, List.cons_append] at htext
        obtain ⟨rfl, rfl⟩ := List.cons.inj htext
        have hbits := headerBits_headerFrom (cells.map Option.isSome)
          (by rw [List.length_map, hok.1])
        rw [hbits, count_isSome, List.take_left, List.drop_left, spread_cells]
        exact .inl ⟨by rw [List.length_append]; exact Nat.le_add_right _ _, said, h, rfl⟩
    | @short cells data hok hdata =>
      obtain ⟨rfl, rfl⟩ := List.cons.inj htext
      have hbits := headerBits_headerFrom (cells.map Option.isSome)
        (by rw [List.length_map, hok.1])
      rw [hbits, count_isSome, hdata, ← hdata, spread_cells, hdata]
      exact .inr ⟨List.length_append, rfl⟩
  · rintro (⟨hle, rest, hrest, rfl⟩ | ⟨hcount, rfl⟩)
    · obtain ⟨hok, hfrom, hdata⟩ := hseg (text.take ((headerBits header).count true))
        (by rw [List.length_take, Nat.min_eq_left hle])
      have hpiece := Unpacks.piece hok hrest
      rw [PackPiece.spelled, hfrom, hdata, List.cons_append, List.take_append_drop] at hpiece
      exact hpiece
    · obtain ⟨hok, hfrom, hdata⟩ := hseg (text ++ [behind])
        (by rw [List.length_append, hcount]; rfl)
      have hpiece := Unpacks.short hok hdata
      rwa [hfrom] at hpiece

/-- A text that starts with the header of a run. -/
theorem unpacks_ff : Unpacks behind (0xff :: text) bytes ↔ ∃ n rest, text = n :: rest ∧
    (n.toNat + 1) * 8 ≤ rest.length ∧ ∃ said, Unpacks behind (rest.drop ((n.toNat + 1) * 8)) said ∧
      bytes = rest.take ((n.toNat + 1) * 8) ++ said := by
  constructor
  · intro h
    generalize htext : 0xff :: text = whole at h
    cases h with
    | nil => cases htext
    | @piece p rest said hok h =>
      cases p with
      | seg cells =>
        exact absurd ((header_eq_ff_iff hok.1).mp (List.cons.inj htext).1.symm hok.2) id
      | run l =>
        obtain ⟨n, hn, hlen⟩ := hok
        rw [PackPiece.spelled, List.cons_append, List.cons_append] at htext
        obtain ⟨-, rfl⟩ := List.cons.inj htext
        have hbyte : (UInt8.ofNat (l.length / 8 - 1)).toNat = n := by
          rw [hlen, Nat.mul_div_cancel _ (by decide), UInt8.toNat_ofNat', Nat.add_sub_cancel]
          exact Nat.mod_eq_of_lt hn
        refine ⟨_, l ++ rest, rfl, ?_, said, ?_, ?_⟩
        · rw [hbyte, ← hlen, List.length_append]
          exact Nat.le_add_right _ _
        · rw [hbyte, ← hlen, List.drop_left]
          exact h
        · rw [hbyte, ← hlen, List.take_left]
          rfl
    | @short cells data hok hdata =>
      exact absurd ((header_eq_ff_iff hok.1).mp (List.cons.inj htext).1.symm hok.2) id
  · rintro ⟨n, rest, rfl, hle, said, hsaid, rfl⟩
    have hlen : (rest.take ((n.toNat + 1) * 8)).length = (n.toNat + 1) * 8 := by
      rw [List.length_take, Nat.min_eq_left hle]
    have hpiece := Unpacks.piece
        (p := .run (rest.take ((n.toNat + 1) * 8))) ⟨n.toNat, n.toNat_lt, hlen⟩
      hsaid
    rwa [PackPiece.spelled, hlen, Nat.mul_div_cancel _ (by decide), Nat.add_sub_cancel,
      UInt8.ofNat_toNat, List.cons_append, List.cons_append, List.take_append_drop] at hpiece

private theorem take_sourceAt (src : ℕ → UInt8) (off : ℕ) (h : m ≤ n) :
    (sourceAt src off n).take m = sourceAt src off m := by
  obtain ⟨k, rfl⟩ := Nat.exists_eq_add_of_le h
  rw [sourceAt_add, List.take_left' (length_sourceAt src off m)]

theorem drop_sourceAt (src : ℕ → UInt8) (off : ℕ) (h : m ≤ n) :
    (sourceAt src off n).drop m = sourceAt src (off + m) (n - m) := by
  obtain ⟨k, rfl⟩ := Nat.exists_eq_add_of_le h
  rw [sourceAt_add, List.drop_left' (length_sourceAt src off m), Nat.add_sub_cancel_left]

theorem unpackLoop_done (hsrcsz : u.srcsz ≤ 0) (fuel : ℕ) : unpackLoop src fuel u = .ok u := by
  cases fuel with
  | zero => rw [unpackLoop, if_neg (Int.not_lt.mpr hsrcsz)]
  | succ fuel => rw [unpackLoop, if_neg (Int.not_lt.mpr hsrcsz)]

/-- A result is what a text says, behind what has been unpacked. -/
def Behaves (B : ℕ) (behind : UInt8) (text out : List UInt8) (r : Sproto Unpacking) : Prop :=
  (∃ bytes u', Unpacks behind text bytes ∧ r = .ok u' ∧ Unpacked B u' (out ++ bytes)) ∨
  ((∀ bytes, ¬Unpacks behind text bytes) ∧ r = .error .failed)

section

variable {loop : Unpacking → Sproto Unpacking}
  (hloop : ∀ {k : ℕ} {u' : Unpacking} {out' : List UInt8}, k ≤ m → Unpacked B u' out' →
  u'.srcsz = k →
    Behaves B (src (u'.p + k)) (sourceAt src u'.p k) out' (loop u'))

include hloop

/-- The text behind `0xff`. -/
theorem Unpacked.ff (h : Unpacked B u out) (hsrcsz : u.srcsz = m) :
    Behaves B (src (u.p + m)) (0xff :: sourceAt src u.p m) out (unpackFf src u >>= loop) := by
  rw [unpackFf, if_neg (by omega)]
  -- the run says more segments than the text has left
  by_cases hshort : u.srcsz < ((((src u.p).toNat + 1) * 8 : ℕ) : ℤ) + 1
  · refine .inr ⟨fun bytes hunpacks ↦ ?_, by dsimp only; rw [if_pos hshort]; rfl⟩
    obtain ⟨n, rest, htext, hle, -⟩ := unpacks_ff.mp hunpacks
    cases m with
    | zero => cases htext
    | succ m =>
      obtain ⟨rfl, rfl⟩ := List.cons.inj ((sourceAt_succ src _ m).symm.trans htext)
      rw [length_sourceAt] at hle
      omega
  · cases m with
    | zero => omega
    | succ m =>
      have hle : ((src u.p).toNat + 1) * 8 ≤ m := by omega
      have h₁ : Unpacked B { u with
          p := u.p + 1, srcsz := u.srcsz - ((((src u.p).toNat + 1) * 8 : ℕ) + 1) } out :=
        ⟨h.size, h.length, h.room, h.full⟩
      obtain ⟨u₁, hcopy, hp, hs, h₁⟩ :=
        h₁.copy src (n := ((src u.p).toNat + 1) * 8) (by omega)
      dsimp only at hp hs h₁
      have hrest := hloop (k := m - ((src u.p).toNat + 1) * 8) (by omega) h₁
        (by rw [hs, hsrcsz]; push_cast [Nat.cast_sub hle]; omega)
      have hend : u.p + 1 + ((src u.p).toNat + 1) * 8 + (m - ((src u.p).toNat + 1) * 8) =
          u.p + (m + 1) := by omega
      rw [hp, hend, ← drop_sourceAt src _ hle] at hrest
      dsimp only
      rw [if_neg hshort, sourceAt_succ, hcopy]
      rcases hrest with ⟨bytes, u', hunpacks, hok, h'⟩ | ⟨hnot, hfailed⟩
      · refine .inl ⟨_, u', unpacks_ff.mpr ⟨_, _, rfl, ?_, bytes, hunpacks, rfl⟩, hok, ?_⟩
        · rw [length_sourceAt]
          exact hle
        · rw [take_sourceAt src _ hle, ← List.append_assoc]
          exact h'
      · refine .inr ⟨fun bytes hunpacks ↦ ?_, hfailed⟩
        obtain ⟨n, rest, htext, -, said, hsaid, -⟩ := unpacks_ff.mp hunpacks
        obtain ⟨rfl, rfl⟩ := List.cons.inj htext
        exact hnot said hsaid

/-- The text behind the header of a segment. -/
theorem Unpacked.seg {header : UInt8} (h : Unpacked B u out) (hsrcsz : u.srcsz = m)
    (hff : header ≠ 0xff) (hdone : ∀ u' : Unpacking, u'.srcsz ≤ 0 → loop u' = .ok u') :
    Behaves B (src (u.p + m)) (header :: sourceAt src u.p m) out
      ((headerBits header).foldlM (unpackOf src) u >>= loop) := by
  generalize hk : (headerBits header).count true = k
  by_cases hcount : k ≤ m + 1
  · obtain ⟨u₁, hbits, hp, hs, h₁⟩ := unpackBits_ok src h
      (show (((headerBits header).count true : ℕ) : ℤ) ≤ u.srcsz + 1 by omega)
    rw [hk] at hp hs h₁
    rw [hbits]
    rcases Nat.lt_or_ge m k with hmissing | hle
    · -- the byte behind the text has been taken for the last one
      obtain rfl : k = m + 1 := by omega
      rw [show sourceAt src u.p (m + 1) = _ from sourceAt_add src u.p m 1] at h₁
      refine .inl ⟨_, u₁, (unpacks_seg hff).mpr (.inr ⟨?_, rfl⟩), hdone u₁ (by omega), h₁⟩
      rw [length_sourceAt, hk]
    · have hrest := hloop (k := m - k) (by omega) h₁ (by rw [hs, Nat.cast_sub hle, hsrcsz])
      have hend : u.p + k + (m - k) = u.p + m := by omega
      rw [hp, hend, ← drop_sourceAt src _ hle] at hrest
      rcases hrest with ⟨bytes, u', hunpacks, hok, h'⟩ | ⟨hnot, hfailed⟩
      · refine .inl ⟨_, u', (unpacks_seg hff).mpr (.inl ⟨?_, bytes, hk.symm ▸ hunpacks, rfl⟩), hok,
          ?_⟩
        · rw [length_sourceAt, hk]
          exact hle
        · rw [hk, take_sourceAt src _ hle, ← List.append_assoc]
          exact h'
      · refine .inr ⟨fun bytes hunpacks ↦ ?_, hfailed⟩
        rcases (unpacks_seg hff).mp hunpacks with ⟨-, rest, hrest, -⟩ | ⟨hlast, -⟩
        · exact hnot rest (hk ▸ hrest)
        · rw [length_sourceAt, hk] at hlast
          omega
  · refine .inr ⟨fun bytes hunpacks ↦ ?_, ?_⟩
    · rcases (unpacks_seg hff).mp hunpacks with ⟨hle, -⟩ | ⟨hlast, -⟩
      · rw [length_sourceAt, hk] at hle
        omega
      · rw [length_sourceAt, hk] at hlast
        omega
    · rw [unpackBits_failed h (by omega) (by omega)]
      rfl

end

/-- **The loop of `sproto_unpack`**, on the `m` bytes that are left. -/
theorem Unpacked.loop (src : ℕ → UInt8) {fuel : ℕ} (h : Unpacked B u out) (hsrcsz : u.srcsz = m)
    (hfuel : m ≤ fuel) :
    Behaves B (src (u.p + m)) (sourceAt src u.p m) out (unpackLoop src fuel u) := by
  have hnone : ∀ {u : Unpacking} {out : List UInt8}, Unpacked B u out →
      Behaves B (src u.p) [] out (.ok u) := by
    intro u out h
    exact .inl ⟨[], u, .nil, rfl, (List.append_nil out).symm ▸ h⟩
  -- over the bounds of the loop, each round of which takes a header at least
  induction fuel generalizing m u out with
  | zero =>
    obtain rfl := Nat.le_zero.mp hfuel
    rw [unpackLoop_done (by omega)]
    exact hnone h
  | succ fuel ih =>
    cases m with
    | zero =>
      rw [unpackLoop_done (by omega)]
      exact hnone h
    | succ m =>
      have h₀ : Unpacked B { u with p := u.p + 1, srcsz := u.srcsz - 1 } out :=
        ⟨h.size, h.length, h.room, h.full⟩
      have hs₀ : u.srcsz - 1 = m := by omega
      have hrest : ∀ {k : ℕ} {u' : Unpacking} {out' : List UInt8}, k ≤ m → Unpacked B u' out' →
          u'.srcsz = k → Behaves B (src (u'.p + k)) (sourceAt src u'.p k) out'
            (unpackLoop src fuel u') :=
        fun hk h' hs' ↦ ih h' hs' (by omega)
      rw [unpackLoop, hsrcsz, if_pos (by omega), sourceAt_succ, unpackStep, Nat.add_comm m 1,
        ← Nat.add_assoc]
      by_cases hff : src u.p = 0xff
      · rw [if_pos hff, hff]
        exact h₀.ff hrest hs₀
      · rw [if_neg hff, unpackBits_eq]
        exact h₀.seg hrest hs₀ hff fun u' hu' ↦ unpackLoop_done hu' fuel

/-! ## The format -/

/-- A header stands for eight bytes. -/
theorem Unpacks.length_le (h : Unpacks behind text bytes) : bytes.length ≤ text.length * 8 := by
  induction h with
  | nil => exact Nat.zero_le _
  | @piece p text bytes hok h ih =>
    rw [List.length_append, List.length_append, Nat.add_mul]
    refine Nat.add_le_add ?_ ih
    cases p with
    | seg cells =>
      rw [PackPiece.said, PackPiece.spelled, List.length_map, hok.1, List.length_cons]
      omega
    | run l =>
      rw [PackPiece.said, PackPiece.spelled, List.length_cons, List.length_cons]
      omega
  | short hok hdata =>
    rw [PackPiece.said, List.length_map, hok.1, List.length_cons]
    omega

/-- A text says one thing. -/
theorem Unpacks.unique {bytes' : List UInt8} (h : Unpacks behind text bytes)
    (h' : Unpacks behind text bytes') :
    bytes = bytes' := by
  induction hn : text.length using Nat.strong_induction_on generalizing text bytes bytes' with
  | _ n ih =>
    cases text with
    | nil => rw [unpacks_nil.mp h, unpacks_nil.mp h']
    | cons header text =>
      rw [List.length_cons] at hn
      by_cases hff : header = 0xff
      · rw [hff] at h h'
        obtain ⟨m, rest, rfl, hle, said, hsaid, rfl⟩ := unpacks_ff.mp h
        obtain ⟨m', rest', htext, -, said', hsaid', rfl⟩ := unpacks_ff.mp h'
        obtain ⟨rfl, rfl⟩ := List.cons.inj htext
        rw [List.length_cons] at hn
        rw [ih _ (by rw [List.length_drop]; omega) hsaid hsaid' rfl]
      · rcases (unpacks_seg hff).mp h with ⟨hle, rest, hrest, rfl⟩ | ⟨hlast, rfl⟩
        · rcases (unpacks_seg hff).mp h' with ⟨-, rest', hrest', rfl⟩ | ⟨hlast, rfl⟩
          · rw [ih _ (by rw [List.length_drop]; omega) hrest hrest' rfl]
          · omega
        · rcases (unpacks_seg hff).mp h' with ⟨hle, -⟩ | ⟨-, rfl⟩
          · omega
          · rfl

/-! ## `lunpack` -/

private theorem tryUnpack_unpacks (src : ℕ → UInt8) (sz osz : ℕ) :
    (∃ bytes block, Unpacks (src sz) (sourceAt src 0 sz) bytes ∧
      tryUnpack src sz osz = .ok (block, bytes.length) ∧ (bytes.length ≤ osz → block.At 0 bytes)) ∨
    ((∀ bytes, ¬Unpacks (src sz) (sourceAt src 0 sz) bytes) ∧
      tryUnpack src sz osz = .error (.raised .invalidUnpackStream)) := by
  have h₀ : Unpacked osz ⟨0, sz, .alloc osz, 0, osz, 0⟩ [] :=
    ⟨rfl, Lib.Block.length_alloc osz, fun _ ↦ ⟨rfl, (Int.sub_zero _).symm, Lib.Block.at_nil _ 0⟩,
      fun hlt ↦ absurd hlt (Nat.not_lt_zero _)⟩
  have hloop := h₀.loop src (m := sz) rfl (Nat.le_refl sz)
  rw [Nat.zero_add] at hloop
  rcases hloop with ⟨bytes, u, hunpacks, hok, h⟩ | ⟨hnot, hfailed⟩
  · refine .inl ⟨bytes, u.block, hunpacks, ?_, fun hroom ↦ (h.room hroom).2.2⟩
    have hsize : u.size = bytes.length := h.size
    rw [tryUnpack, sprotoUnpack, hok, ← hsize]
    rfl
  · refine .inr ⟨hnot, ?_⟩
    rw [tryUnpack, sprotoUnpack, hfailed]
    rfl

/-- What a text says is unpacked, if `expand_buffer` makes a buffer for it. -/
theorem lunpack_cases {sz osz : ℕ} (hosz : IsBufsize osz) (hsz : sz ≤ 2 ^ 27)
    (hunpacks : Unpacks (src sz) (sourceAt src 0 sz) bytes) :
    (bytes.length ≤ maxBufsize ∧ ∃ osz', IsBufsize osz' ∧ lunpack src sz osz = .ok (bytes, osz')) ∨
      (maxBufsize < bytes.length ∧ lunpack src sz osz = .error (.raised .tooLarge)) := by
  have hlen : bytes.length ≤ encodeBuffersize * 2 ^ 19 := by
    have hle := hunpacks.length_le
    rw [length_sourceAt] at hle
    exact Nat.le_trans hle (Nat.le_trans (Nat.mul_le_mul_right 8 hsz) (by decide))
  -- whatever the buffer, the same is unpacked
  have htry : ∀ osz, ∃ block, tryUnpack src sz osz = .ok (block, bytes.length) ∧
      (bytes.length ≤ osz → block.At 0 bytes) := by
    intro osz
    rcases tryUnpack_unpacks src sz osz with ⟨bytes', block, hunpacks', htry, hat⟩ | ⟨hnot, -⟩
    · obtain rfl := hunpacks.unique hunpacks'
      exact ⟨block, htry, hat⟩
    · exact absurd hunpacks (hnot bytes)
  obtain ⟨block, hfirst, hat⟩ := htry osz
  rw [lunpack, hfirst, Sproto.ok_bind]
  dsimp only
  by_cases hlt : osz < bytes.length
  · rw [if_pos hlt]
    rcases expandBuffer_spec hosz hlt hlen with ⟨hmax, osz', hexpand, hosz', -⟩ | ⟨hmax, hexpand⟩
    · obtain ⟨block', hsecond, hat'⟩ := htry bytes.length
      refine .inl ⟨hmax, osz', hosz', ?_⟩
      rw [hexpand, Sproto.ok_bind, hsecond, Sproto.ok_bind]
      dsimp only
      rw [pushPacked_at (hat' (Nat.le_refl _))]
      rfl
    · rw [hexpand]
      exact .inr ⟨hmax, rfl⟩
  · rw [if_neg hlt, pushPacked_at (hat (Nat.not_lt.mp hlt))]
    exact .inl ⟨Nat.le_trans (Nat.not_lt.mp hlt) hosz.le, osz, hosz, rfl⟩

/-- **What is unpacked.** Every text of at most `2 ^ 27` bytes is read to its end, whatever the
buffer, and refused if it says nothing. -/
theorem lunpack_unpacks (src : ℕ → UInt8) {sz osz : ℕ} (hosz : IsBufsize osz) (hsz : sz ≤ 2 ^ 27) :
    (∀ bytes, Unpacks (src sz) (sourceAt src 0 sz) bytes → bytes.length ≤ maxBufsize →
      ∃ osz', IsBufsize osz' ∧ lunpack src sz osz = .ok (bytes, osz')) ∧
    (∀ bytes, Unpacks (src sz) (sourceAt src 0 sz) bytes → maxBufsize < bytes.length →
      lunpack src sz osz = .error (.raised .tooLarge)) ∧
    ((∀ bytes, ¬Unpacks (src sz) (sourceAt src 0 sz) bytes) →
      lunpack src sz osz = .error (.raised .invalidUnpackStream)) := by
  refine ⟨fun bytes hunpacks hmax ↦ ?_, fun bytes hunpacks hmax ↦ ?_, fun hnot ↦ ?_⟩
  · rcases lunpack_cases hosz hsz hunpacks with ⟨-, hok⟩ | ⟨hlarge, -⟩
    · exact hok
    · omega
  · rcases lunpack_cases hosz hsz hunpacks with ⟨hsmall, -⟩ | ⟨-, herror⟩
    · omega
    · exact herror
  · rcases tryUnpack_unpacks src sz osz with ⟨bytes, -, hunpacks, -⟩ | ⟨-, htry⟩
    · exact absurd hunpacks (hnot bytes)
    · rw [lunpack, htry]
      rfl

/-- A text whose last byte is missing: the byte behind it is taken. -/
theorem lunpack_unpacks_short :
    ∃ osz', IsBufsize osz' ∧ lunpack (fun i ↦ if i = 0 then 3 else if i = 1 then 7 else 5) 2
      encodeBuffersize = .ok ([7, 5, 0, 0, 0, 0, 0, 0], osz') :=
  (lunpack_unpacks _ ⟨0, Nat.zero_le _, rfl⟩ (by decide)).1 _
    (@Unpacks.short 5 [some 7, some 5, none, none, none, none, none, none] [7] ⟨rfl, by decide⟩ rfl)
    (by decide)

end ZTask
