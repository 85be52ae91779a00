import ZTask.Seri.Format

/-!
# Unpacking reads the format

Every function of the reading half is a reader in the sense of `Lib.Reads`: what it makes of the
bytes in front of it is what the format says, and where it goes wrong is where the format has no
place for the bytes. Going wrong is to leave the block, or to let the counter of the bytes left grow
or become negative.

## One reader at a time

The lemmas go from the bytes up: a byte, a number, a string, the pairs of a table, a value. Each
says what is read when the bytes are an encoding, and what breaks the reader; readers in this sense
are composed by the lemmas on `Lib.Reads`. Values are nested, so the lemmas about tables take what
is to be shown of `unpack_one` as a hypothesis, and `unpackOne_reads` is the induction on the bound.
-/

namespace ZTask

open Lib

/-- What has been read lies in the block, and the counter has never grown and never been negative.
-/
structure ReadBlock.Safe (rb : ReadBlock) : Prop where
  inside : ∀ a ∈ rb.accesses, 0 ≤ a.offset ∧ a.offset + a.size ≤ rb.buffer.length
  falling : rb.lens.IsChain (· ≤ ·)
  nonneg : ∀ len ∈ rb.lens, 0 ≤ len

instance ReadBlock.decidableSafe (rb : ReadBlock) : Decidable rb.Safe :=
  decidable_of_iff ((∀ a ∈ rb.accesses, 0 ≤ a.offset ∧ a.offset + a.size ≤ rb.buffer.length) ∧
    rb.lens.IsChain (· ≤ ·) ∧ ∀ len ∈ rb.lens, 0 ≤ len)
    ⟨fun h ↦ ⟨h.1, h.2.1, h.2.2⟩, fun h ↦ ⟨h.inside, h.falling, h.nonneg⟩⟩

/-- These bytes of the buffer are left in the block. -/
structure ReadBlock.Shows (buffer : List UInt8) (rb : ReadBlock) (bytes : List UInt8) : Prop where
  buffer_eq : rb.buffer = buffer
  ptr_nonneg : 0 ≤ rb.ptr
  len_eq : rb.len = bytes.length
  left : bytes <+: buffer.drop rb.ptr.toNat
  inside : rb.ptr + rb.len ≤ buffer.length
  small : rb.ptr + rb.len < 2 ^ 31
  safe : rb.Safe
  last : ∃ lens, rb.lens = rb.len :: lens

/-- A block of `buffer`. It is in order as long as it is safe, and no loop may go on without bound.
-/
def blockView (buffer : List UInt8) : View UInt8 ReadBlock SeriError where
  shows := ReadBlock.Shows buffer
  stopped err rb := rb.Safe ∧ rb.buffer = buffer ∧ err ≠ .unbounded
  broken err rb := ¬rb.Safe ∧ err ≠ .unbounded

variable {buffer : List UInt8} {rb : ReadBlock} {n m : ℕ}

/-! ## Reading bytes -/

private theorem rbRead_of_le {sz : Int} (h : ¬rb.len < sz) : rbRead sz rb = (.ok (some rb.ptr),
    { rb with
      ptr := toInt32 (rb.ptr + sz), len := toInt32 (rb.len - sz)
      lens := toInt32 (rb.len - sz) :: rb.lens }) := by
  rw [rbRead, if_neg h]

/-- **Bytes are read**: the block is left with what is behind them. -/
theorem ReadBlock.Shows.read {e rest : List UInt8} (h : rb.Shows buffer (e ++ rest)) :
    ∃ rb₁ rb₂, rbRead e.length rb = (.ok (some rb.ptr), rb₁) ∧
      copyBytes rb.ptr e.length rb₁ = (.ok e, rb₂) ∧ rb₂.Shows buffer rest := by
  obtain rfl := h.buffer_eq
  obtain ⟨lens, hlens⟩ := h.last
  obtain ⟨tail, htail⟩ := h.left
  have hlen := h.len_eq
  have hsmall := h.small
  have hinside := h.inside
  have hptr := h.ptr_nonneg
  rw [List.length_append] at hlen
  have hlen' : toInt32 (rb.len - e.length) = rest.length := by
    rw [toInt32_of_lt] <;> omega
  have hptr' : toInt32 (rb.ptr + e.length) = rb.ptr + e.length := by
    rw [toInt32_of_lt] <;> omega
  let rb₁ : ReadBlock :=
    { rb with ptr := rb.ptr + e.length, len := rest.length, lens := rest.length :: rb.lens }
  have hread : rbRead e.length rb = (.ok (some rb.ptr), rb₁) := by
    rw [rbRead_of_le (by omega)]
    simp only [hlen', hptr', rb₁]
  have hcopy : copyBytes rb.ptr e.length rb₁ =
      (.ok e, { rb₁ with accesses := ⟨rb.ptr, e.length⟩ :: rb.accesses }) := by
    simp only [copyBytes, rb₁, ← htail, List.append_assoc, List.take_left]
  refine ⟨rb₁, _, hread, hcopy, rfl, ?_, rfl, ?_, ?_, ?_, ⟨?_, ?_, ?_⟩, ⟨_, rfl⟩⟩
  · show 0 ≤ rb.ptr + e.length
    omega
  · have hnat : (rb.ptr + e.length).toNat = rb.ptr.toNat + e.length := by omega
    show rest <+: rb.buffer.drop (rb.ptr + e.length).toNat
    rw [hnat, ← List.drop_drop, ← htail, List.append_assoc, List.drop_left]
    exact List.prefix_append ..
  · show rb.ptr + e.length + rest.length ≤ rb.buffer.length
    omega
  · show rb.ptr + e.length + rest.length < 2 ^ 31
    omega
  · simp only [List.mem_cons, forall_eq_or_imp]
    exact ⟨⟨hptr, by show rb.ptr + e.length ≤ rb.buffer.length; omega⟩, h.safe.inside⟩
  · have hfalling := h.safe.falling
    show ((rest.length : Int) :: rb.lens).IsChain (· ≤ ·)
    rw [hlens] at hfalling ⊢
    exact hfalling.cons_cons (by omega)
  · simp only [rb₁, List.mem_cons, forall_eq_or_imp]
    exact ⟨by omega, h.safe.nonneg⟩

theorem ReadBlock.Shows.short {bytes : List UInt8} {sz : ℕ} (h : rb.Shows buffer bytes)
    (hsz : bytes.length < sz) : rbRead sz rb = (.ok none, rb) := by
  have hlen := h.len_eq
  rw [rbRead, if_pos (by omega)]

private theorem exists_append_of_le {α : Type*} {bytes : List α} {sz : ℕ} (h : sz ≤ bytes.length) :
    ∃ e rest, bytes = e ++ rest ∧ e.length = sz :=
  ⟨bytes.take sz, bytes.drop sz, (List.take_append_drop ..).symm, by simp [h]⟩

theorem ReadBlock.Shows.stopped {bytes : List UInt8} {err : SeriError} (h : rb.Shows buffer bytes)
    (herr : err ≠ .unbounded) : (blockView buffer).stopped err rb := ⟨h.safe, h.buffer_eq, herr⟩

private theorem invalidStreamLine_reads {α : Type} (line : ℕ) :
    Reads (blockView buffer) n (fun _ (_ : α) ↦ False) (fun _ ↦ False)
      (invalidStreamLine line) where
  reads hG := hG.elim
  breaks hB := hB.elim
  stops _ _ hs _ := ⟨_, _, rfl, hs.stopped nofun⟩

private theorem readDatum_reads (size line : ℕ) :
    Reads (blockView buffer) n (fun e v ↦ e.length = size ∧ v = e) (fun _ ↦ False)
      (readDatum size line) where
  reads := by
    rintro rb e v rest ⟨rfl, rfl⟩ hs -
    obtain ⟨rb₁, rb₂, hread, hcopy, hs'⟩ := hs.read
    exact ⟨rb₂, (Failing.bind_ok hread).trans hcopy, hs'⟩
  breaks hB := hB.elim
  stops := by
    intro rb bytes hno _ hs _
    have hshort : bytes.length < size := by
      by_contra hle
      obtain ⟨e, rest, heq, hlen⟩ := exists_append_of_le (Nat.not_lt.mp hle)
      exact hno e e rest heq ⟨hlen, rfl⟩
    exact ⟨_, _, Failing.bind_ok (hs.short hshort), hs.stopped nofun⟩

private theorem readDatum_map_reads {α : Type} (size line : ℕ) (f : List UInt8 → α) :
    Reads (blockView buffer) n (fun e v ↦ e.length = size ∧ v = f e) (fun _ ↦ False)
      (readDatum size line >>= fun e ↦ pure (f e)) := by
  refine ((readDatum_reads size line).bind fun _ a _ _ ↦ Reads.pure (f a)).congr ?_ ?_
  · intro e v
    simp [Then]
  · intro bytes
    simp [Breaks]

private theorem getInteger_reads (c : ℕ) :
    Reads (blockView buffer) n (IntegerBytes c) (fun _ ↦ False) (getInteger c) := by
  have hzero : typeNumberZero = 0 := rfl
  have hbyte : typeNumberByte = 1 := rfl
  have hword : typeNumberWord = 2 := rfl
  have hdword : typeNumberDword = 4 := rfl
  have hqword : typeNumberQword = 6 := rfl
  unfold getInteger
  by_cases h0 : c = typeNumberZero
  · rw [if_pos h0]
    refine (Reads.pure 0).congr (fun e v ↦ ?_) fun _ ↦ .rfl
    simp [integerBytes_iff, h0, hzero, hbyte, hword, hdword, hqword]
  rw [if_neg h0]
  by_cases h1 : c = typeNumberByte
  · rw [if_pos h1]
    refine (readDatum_map_reads ..).congr (fun e v ↦ ?_) fun _ ↦ .rfl
    simp [integerBytes_iff, h1, hzero, hbyte, hword, hdword, hqword]
  rw [if_neg h1]
  by_cases h2 : c = typeNumberWord
  · rw [if_pos h2]
    refine (readDatum_map_reads ..).congr (fun e v ↦ ?_) fun _ ↦ .rfl
    simp [integerBytes_iff, h2, hzero, hbyte, hword, hdword, hqword]
  rw [if_neg h2]
  by_cases h4 : c = typeNumberDword
  · rw [if_pos h4]
    refine (readDatum_map_reads ..).congr (fun e v ↦ ?_) fun _ ↦ .rfl
    simp [integerBytes_iff, h4, hzero, hbyte, hword, hdword, hqword]
  rw [if_neg h4]
  by_cases h6 : c = typeNumberQword
  · rw [if_pos h6]
    refine (readDatum_map_reads ..).congr (fun e v ↦ ?_) fun _ ↦ .rfl
    simp [integerBytes_iff, h6, hzero, hbyte, hword, hdword, hqword]
  · rw [if_neg h6]
    refine (invalidStreamLine_reads _).congr (fun e v ↦ ?_) fun _ ↦ .rfl
    simp [integerBytes_iff, h0, h1, h2, h4, h6]

private theorem pushlstring_big {p : Int} {len : ℕ} (h : ¬len < 2 ^ 63 - 1 - 24) :
    pushlstring p len rb = (.error .tooBig, { rb with accesses := ⟨p, len⟩ :: rb.accesses }) := by
  simp only [pushlstring, if_neg h]
  rfl

/-- Strings. A negative length goes through the test of `rb_read`. -/
theorem getBuffer_reads {len : Int} (hlo : -2 ^ 31 ≤ len) (hhi : len < 2 ^ 31) :
    Reads (blockView buffer) n
      (fun e v ↦ 0 ≤ len ∧ (e.length : Int) = len ∧ v = .scalar (.string e))
      (fun _ ↦ len < 0) (getBuffer len) where
  reads := by
    rintro rb e v rest ⟨hnonneg, rfl, rfl⟩ hs -
    obtain ⟨rb₁, rb₂, hread, hcopy, hs'⟩ := hs.read
    have hsize : ((e.length : Int) % 2 ^ 64).toNat = e.length := by omega
    have hfits : e.length < 2 ^ 63 - 1 - 24 := by omega
    refine ⟨rb₂, (Failing.bind_ok hread).trans ?_, hs'⟩
    simp only [hsize, pushlstring, if_pos hfits]
    exact (Failing.bind_ok hcopy).trans rfl
  breaks := by
    intro rb bytes hneg hs _
    have hlen := hs.len_eq
    have hsmall := hs.small
    have hptr := hs.ptr_nonneg
    obtain ⟨lens, hlens⟩ := hs.last
    have hread : ¬rb.len < len := by omega
    have hsize : ¬(len % 2 ^ 64).toNat < 2 ^ 63 - 1 - 24 := by omega
    have hraised : ∃ rb', getBuffer len rb = (.error .tooBig, rb') ∧
        rb'.lens = toInt32 (rb.len - len) :: rb.lens := by
      exact ⟨_, (Failing.bind_ok (rbRead_of_le hread)).trans (pushlstring_big hsize), rfl⟩
    obtain ⟨rb', hraised, hlens'⟩ := hraised
    refine ⟨.tooBig, rb', hraised, ?_, (fun hn ↦ by cases hn)⟩
    -- the counter grows, or runs over and is negative
    intro hsafe
    have hfalling := hsafe.falling
    have hnonneg := hsafe.nonneg (toInt32 (rb.len - len)) (by rw [hlens']; exact List.mem_cons_self)
    rw [hlens', hlens] at hfalling
    have hle := (List.isChain_cons_cons.mp hfalling).1
    rw [toInt32, Int.bmod] at hle hnonneg
    omega
  stops := by
    intro rb bytes hno hnonneg hs _
    obtain ⟨sz, rfl⟩ := Int.eq_ofNat_of_zero_le (Int.not_lt.mp hnonneg)
    have hshort : bytes.length < sz := by
      by_contra hle
      obtain ⟨e, rest, heq, hlen⟩ := exists_append_of_le (Nat.not_lt.mp hle)
      exact hno e _ rest heq ⟨Int.natCast_nonneg sz, by omega, rfl⟩
    exact ⟨_, _, Failing.bind_ok (hs.short hshort), hs.stopped (fun hn ↦ by cases hn)⟩

/-- A string behind its length. -/
theorem readString_reads {w line : ℕ} (hw : w ≤ 4) :
    Reads (blockView buffer) n
      (fun e v ↦ ∃ l s, e = l ++ s ∧ l.length = w ∧ s.length = ofLittle l ∧ ofLittle l < 2 ^ 31 ∧
        v = .scalar (.string s))
      (fun bytes ↦ ∃ l rest, bytes = l ++ rest ∧ l.length = w ∧ 2 ^ 31 ≤ ofLittle l)
      (readDatum w line >>= fun l ↦ getBuffer (toInt32 (ofLittle l))) := by
  have hlt : ∀ l : List UInt8, l.length = w → ofLittle l < 2 ^ 32 := by
    intro l hl
    have hpow : 256 ^ l.length ≤ 256 ^ 4 := Nat.pow_le_pow_right (by decide) (by omega)
    exact Nat.lt_of_lt_of_le (ofLittle_lt l) hpow
  have hsmall : ∀ l : List UInt8, ofLittle l < 2 ^ 31 → toInt32 (ofLittle l) = ofLittle l :=
    fun l hl ↦ toInt32_of_lt (by omega) (by omega)
  have hbig : ∀ l : List UInt8, l.length = w → 2 ^ 31 ≤ ofLittle l → toInt32 (ofLittle l) < 0 := by
    intro l hl hge
    have := hlt l hl
    exact toInt32_neg (by omega) (by omega)
  refine ((readDatum_reads w line).bind fun _ a _ _ ↦
    getBuffer_reads (toInt32_ge _) (toInt32_lt _)).congr ?_ ?_
  · intro e v
    constructor
    · rintro ⟨l, s, rfl, hl, hs, hl31, rfl⟩
      have hint := hsmall l hl31
      exact ⟨l, s, l, rfl, ⟨hl, rfl⟩, by omega, by omega, rfl⟩
    · rintro ⟨_, s, l, rfl, ⟨hl, rfl⟩, hnonneg, hs, rfl⟩
      have hl31 : ofLittle l < 2 ^ 31 := by
        by_contra hge
        have := hbig l hl (Nat.not_lt.mp hge)
        omega
      rw [hsmall l hl31] at hs
      exact ⟨l, s, rfl, hl, by omega, hl31, rfl⟩
  · intro bytes
    constructor
    · rintro ⟨l, rest, rfl, hl, hge⟩
      exact .inr ⟨l, l, rest, rfl, ⟨hl, rfl⟩, hbig l hl hge⟩
    · rintro (hfalse | ⟨_, l, rest, rfl, ⟨hl, rfl⟩, hneg⟩)
      · exact hfalse.elim
      · refine ⟨l, rest, rfl, hl, ?_⟩
        by_contra hl31
        have := hsmall l (Nat.not_le.mp hl31)
        omega

/-! ## Tables -/

section Loops

variable {V : View UInt8 ReadBlock SeriError} {G : List UInt8 → LuaData → Prop}
  {B : List UInt8 → Prop} {one : Unpack LuaData}

private theorem unpackArray_reads (h : Reads V n G B one) (count i : ℕ) (t : LuaTable) :
    Reads V n (fun e t' ↦ ∃ values, Concat G e values ∧ values.length = count ∧
        t' = t.putArray i values)
      (fun bytes ↦ ∃ e values rest, bytes = e ++ rest ∧ Concat G e values ∧
        values.length < count ∧ B rest)
      (unpackArray one count i t) := by
  induction count generalizing n i t with
  | zero =>
    refine (Reads.pure t).congr ?_ ?_
    · intro e t'
      constructor
      · rintro ⟨values, hvalues, hlen, rfl⟩
        cases hvalues with
        | nil => exact ⟨rfl, rfl⟩
        | cons _ _ => cases hlen
      · rintro ⟨rfl, rfl⟩
        exact ⟨[], .nil, rfl, rfl⟩
    · intro bytes
      simp
  | succ count ih =>
    refine (h.bind fun e a _ _ ↦ ih (h.mono (Nat.sub_le ..)) (i + 1) (t.rawseti i a)).congr ?_ ?_
    · intro e t'
      constructor
      · rintro ⟨values, hvalues, hlen, rfl⟩
        cases hvalues with
        | nil => cases hlen
        | cons ha hvalues =>
          exact ⟨_, _, _, rfl, ha, _, hvalues, Nat.succ.inj hlen, rfl⟩
      · rintro ⟨e₁, e₂, a, rfl, ha, values, hvalues, hlen, rfl⟩
        exact ⟨a :: values, .cons ha hvalues, congrArg _ hlen, rfl⟩
    · intro bytes
      constructor
      · rintro ⟨e, values, rest, rfl, hvalues, hlen, hB⟩
        cases hvalues with
        | nil => exact .inl hB
        | cons ha hvalues =>
          rw [List.append_assoc]
          exact .inr ⟨_, _, _, rfl, ha, _, _, _, rfl, hvalues, Nat.lt_of_succ_lt_succ hlen, hB⟩
      · rintro (hB | ⟨e₁, a, _, rfl, ha, e₂, values, rest, rfl, hvalues, hlen, hB⟩)
        · exact ⟨[], [], bytes, rfl, .nil, Nat.succ_pos _, hB⟩
        · rw [← List.append_assoc]
          exact ⟨_, a :: values, rest, rfl, .cons ha hvalues, Nat.succ_lt_succ hlen, hB⟩

/-- Pairs up to the nil behind them, which fill in the table. -/
def PairsEncode (G : List UInt8 → LuaData → Prop) (t : LuaTable) (e : List UInt8)
    (t' : LuaTable) : Prop :=
  ∃ q pairs z, e = q ++ z ∧ Concat (PairOf G) q pairs ∧ G z .nil ∧ t' = pairs.foldl LuaTable.put t

/-- A key or a value behind pairs breaks the reader. -/
def PairsBreak (G : List UInt8 → LuaData → Prop) (B : List UInt8 → Prop)
    (bytes : List UInt8) : Prop :=
  ∃ q pairs rest, bytes = q ++ rest ∧ Concat (PairOf G) q pairs ∧
    (B rest ∨ ∃ e k rest', rest = e ++ rest' ∧ G e k ∧ k.isNil = false ∧ B rest')

private theorem pairsEncode_iff {t t' : LuaTable} {e : List UInt8} :
    PairsEncode G t e t' ↔ G e .nil ∧ t' = t ∨ ∃ e₁ e₂ e₃ k v, e = e₁ ++ (e₂ ++ e₃) ∧ G e₁ k ∧
      k.IsIndex ∧ G e₂ v ∧ PairsEncode G (t.put (k, v)) e₃ t' := by
  constructor
  · rintro ⟨q, pairs, z, rfl, hpairs, hz, rfl⟩
    cases hpairs with
    | nil => exact .inl ⟨hz, rfl⟩
    | cons hpair hpairs =>
      cases hpair with
      | mk hk hindex hv =>
        rw [List.append_assoc, List.append_assoc]
        exact .inr ⟨_, _, _, _, _, rfl, hk, hindex, hv, _, _, z, rfl, hpairs, hz, rfl⟩
  · rintro (⟨hz, rfl⟩ | ⟨e₁, e₂, _, k, v, rfl, hk, hindex, hv, q, pairs, z, rfl, hpairs, hz, rfl⟩)
    · exact ⟨[], [], e, rfl, .nil, hz, rfl⟩
    · rw [← List.append_assoc, ← List.append_assoc]
      exact ⟨_, (k, v) :: pairs, z, rfl, .cons (.mk hk hindex hv) hpairs, hz, rfl⟩

private theorem pairsBreak_iff {bytes : List UInt8} :
    PairsBreak G B bytes ↔ B bytes ∨ ∃ e k rest, bytes = e ++ rest ∧ G e k ∧
      (k.isNil = false ∧ B rest ∨ k.IsIndex ∧ ∃ e' v rest', rest = e' ++ rest' ∧ G e' v ∧
        PairsBreak G B rest') := by
  constructor
  · rintro ⟨q, pairs, rest, rfl, hpairs, hbreak⟩
    cases hpairs with
    | nil =>
      rcases hbreak with hB | ⟨e, k, rest', rfl, hk, hnil, hB⟩
      · exact .inl hB
      · exact .inr ⟨e, k, rest', rfl, hk, .inl ⟨hnil, hB⟩⟩
    | cons hpair hpairs =>
      cases hpair with
      | mk hk hindex hv =>
        rw [List.append_assoc, List.append_assoc]
        exact .inr ⟨_, _, _, rfl, hk,
          .inr ⟨hindex, _, _, _, rfl, hv, _, _, rest, rfl, hpairs, hbreak⟩⟩
  · rintro (hB | ⟨e, k, rest, rfl, hk, hbreak⟩)
    · exact ⟨[], [], bytes, rfl, .nil, .inl hB⟩
    · rcases hbreak with ⟨hnil, hB⟩ | ⟨hindex, e', v, _, rfl, hv, q, pairs, rest', rfl,
          hpairs, hbreak⟩
      · exact ⟨[], [], _, rfl, .nil, .inr ⟨e, k, rest, rfl, hk, hnil, hB⟩⟩
      · rw [← List.append_assoc, ← List.append_assoc]
        exact ⟨_, (k, v) :: pairs, rest', rfl, .cons (.mk hk hindex hv) hpairs, hbreak⟩

private theorem rawset_of_isIndex {t : LuaTable} {k v : LuaData} (h : k.IsIndex) :
    t.rawset k v = some (t.put (k, v)) := by
  cases k with
  | scalar s =>
    obtain ⟨key, hkey⟩ := Option.isSome_iff_exists.mp h
    simp only [LuaTable.put, LuaTable.rawset, hkey, Option.map_some, Option.getD_some]
  | table get keyed => rfl

private theorem rawset_of_not_isIndex {t : LuaTable} {k v : LuaData} (h : ¬k.IsIndex) :
    t.rawset k v = none := by
  cases k with
  | scalar s =>
    have hnone : s.toKey = none := by simpa [LuaData.IsIndex] using h
    simp only [LuaTable.rawset, hnone, Option.map_none]
  | table get keyed => exact absurd trivial h

theorem LuaData.IsIndex.isNil {k : LuaData} (h : k.IsIndex) : k.isNil = false := by
  by_contra hnil
  rw [Bool.not_eq_false, isNil_iff] at hnil
  rw [hnil] at h
  cases h

private theorem unpackPairs_reads (h : Reads V n G B one) (hpos : ∀ e k, G e k → 1 ≤ e.length)
    (hfail : ∀ s bytes, V.shows s bytes → V.stopped .invalidIndex s) (bound : ℕ)
    (hbound : n < bound)
    (t : LuaTable) : Reads V n (PairsEncode G t) (PairsBreak G B) (unpackPairs one bound t) := by
  induction bound generalizing n t with
  | zero => omega
  | succ bound ih =>
    refine (h.bind
      (H := fun k e t' ↦ k.isNil = true ∧ e = [] ∧ t' = t ∨
        k.IsIndex ∧ Then G (fun v ↦ PairsEncode G (t.put (k, v))) e t')
      (C := fun k bytes ↦ k.isNil = false ∧ B bytes ∨
        k.IsIndex ∧ ∃ e v rest, bytes = e ++ rest ∧ G e v ∧ PairsBreak G B rest) ?_).congr ?_ ?_
    · intro e k hk hle
      have hk1 := hpos e k hk
      have hn := h.mono (Nat.sub_le n e.length)
      -- a nil key ends the pairs; a key that cannot be an index raises
      by_cases hnil : k.isNil = true
      · have hindex : ¬k.IsIndex := fun hindex ↦ absurd hindex.isNil (by rw [hnil]; decide)
        rw [if_pos hnil]
        refine (Reads.pure t).congr ?_ ?_
        · intro e' t'
          simp [hnil, hindex]
        · intro bytes
          simp [hnil, hindex]
      · rw [if_neg hnil]
        by_cases hindex : k.IsIndex
        · simp only [rawset_of_isIndex hindex]
          refine (hn.bind fun e' v _ _ ↦
            ih (hn.mono (Nat.sub_le ..)) (by omega) (t.put (k, v))).congr ?_ ?_
          · intro e' t'
            simp [hnil, hindex]
          · intro bytes
            simp [hnil, hindex, Breaks]
        · simp only [rawset_of_not_isIndex hindex]
          refine (hn.bind fun _ _ _ _ ↦ Reads.fail hfail).congr ?_ ?_
          · intro e' t'
            simp [hnil, hindex, Then]
          · intro bytes
            simp [hnil, hindex, Breaks]
    · intro e t'
      rw [pairsEncode_iff]
      constructor
      · rintro (⟨hz, rfl⟩ | ⟨e₁, e₂, e₃, k, v, rfl, hk, hindex, hv, hpairs⟩)
        · exact ⟨e, [], .nil, (List.append_nil e).symm, hz, .inl ⟨rfl, rfl, rfl⟩⟩
        · exact ⟨e₁, _, k, rfl, hk, .inr ⟨hindex, e₂, e₃, v, rfl, hv, hpairs⟩⟩
      · rintro ⟨e₁, _, k, rfl, hk, ⟨hnil, rfl, rfl⟩ | ⟨hindex, e₂, e₃, v, rfl, hv, hpairs⟩⟩
        · rw [LuaData.isNil_iff.mp hnil] at hk
          exact .inl ⟨by rw [List.append_nil]; exact hk, rfl⟩
        · exact .inr ⟨e₁, e₂, e₃, k, v, rfl, hk, hindex, hv, hpairs⟩
    · intro bytes
      rw [pairsBreak_iff]
      rfl

end Loops

theorem ofLittle_singleton (t : UInt8) : ofLittle [t] = t.toNat := by
  simp only [ofLittle, Nat.mul_zero, Nat.add_zero]

private theorem readArraySize_reads (cookie : ℕ) :
    Reads (blockView buffer) n (ArraySize cookie) (fun _ ↦ False) (readArraySize cookie) := by
  unfold readArraySize
  by_cases hc : cookie = maxCookie - 1
  · rw [if_pos hc]
    refine ((readDatum_reads 1 440).bind
      (H := fun l e size ↦ ofLittle l % 8 = typeNumber ∧ ofLittle l / 8 ≠ typeNumberReal ∧
        ∃ i, IntegerBytes (ofLittle l / 8) e i ∧ size = toInt32 i.toInt)
      (C := fun _ _ ↦ False) ?_).congr ?_ ?_
    · rintro e l - -
      dsimp only
      by_cases hvalid : ofLittle l % 8 ≠ typeNumber ∨ ofLittle l / 8 = typeNumberReal
      · rw [if_pos hvalid]
        refine (invalidStreamLine_reads _).congr (fun e v ↦ ?_) fun _ ↦ .rfl
        simp only [iff_false]
        rintro ⟨hkind, hreal, -⟩
        exact hvalid.elim (fun h ↦ h hkind) hreal
      · rw [if_neg hvalid]
        push Not at hvalid
        refine ((getInteger_reads _).bind fun _ i _ _ ↦ Reads.pure (toInt32 i.toInt)).congr ?_ ?_
        · intro e v
          simp [Then, hvalid]
        · intro bytes
          simp [Breaks]
    · intro e size
      simp only [arraySize_iff, hc, ne_eq, not_true_eq_false, false_and, false_or, Then]
      constructor
      · rintro ⟨t, e, i, hkind, hreal, hi, -, rfl, rfl⟩
        refine ⟨[t], e, [t], rfl, ⟨rfl, rfl⟩, ?_⟩
        rw [ofLittle_singleton]
        exact ⟨hkind, hreal, i, hi, rfl⟩
      · rintro ⟨l, e, _, rfl, ⟨hl, rfl⟩, hkind, hreal, i, hi, rfl⟩
        obtain ⟨t, rfl⟩ := List.length_eq_one_iff.mp hl
        rw [ofLittle_singleton] at hkind hreal hi
        exact ⟨t, e, i, hkind, hreal, hi, trivial, rfl, rfl⟩
    · intro bytes
      simp [Breaks]
  · rw [if_neg hc]
    refine (Reads.pure _).congr (fun e v ↦ ?_) fun _ ↦ .rfl
    simp [arraySize_iff, hc]

section Values

variable {G : List UInt8 → LuaData → Prop} {B : List UInt8 → Prop} {one : Unpack LuaData}

/-- A table behind its type byte. -/
def TableEncodes (G : List UInt8 → LuaData → Prop) (cookie : ℕ) (e : List UInt8)
    (v : LuaData) : Prop :=
  ∃ h a q z size values pairs, e = h ++ (a ++ (q ++ z)) ∧ ArraySize cookie h size ∧
    Concat G a values ∧ values.length = size.toNat ∧ Concat (PairOf G) q pairs ∧ G z .nil ∧
    v = (LuaTable.of values pairs).data

/-- An element of a table, or what is behind its elements, breaks the reader. -/
def TableBreaks (G : List UInt8 → LuaData → Prop) (B : List UInt8 → Prop) (cookie : ℕ)
    (bytes : List UInt8) : Prop :=
  ∃ h a rest size values, bytes = h ++ (a ++ rest) ∧ ArraySize cookie h size ∧ Concat G a values ∧
    (values.length < size.toNat ∧ B rest ∨ values.length = size.toNat ∧ PairsBreak G B rest)

private theorem unpackTable_reads (h : Reads (blockView buffer) n G B one)
    (hpos : ∀ e k, G e k → 1 ≤ e.length) {bound : ℕ} (hbound : n < bound) (cookie : ℕ) :
    Reads (blockView buffer) n (TableEncodes G cookie) (TableBreaks G B cookie)
      (unpackTable one bound cookie) := by
  have hfail : ∀ rb bytes, (blockView buffer).shows rb bytes →
      (blockView buffer).stopped .invalidIndex rb := fun _ _ hs ↦ hs.stopped nofun
  refine ((readArraySize_reads cookie).bind fun e₁ size _ _ ↦
    (unpackArray_reads (h.mono (Nat.sub_le ..)) size.toNat 1 .empty).bind fun e₂ t _ _ ↦
      (unpackPairs_reads (h.mono (Nat.le_trans (Nat.sub_le ..) (Nat.sub_le ..))) hpos hfail bound
        (by omega) t).bind fun _ t _ _ ↦ Reads.pure t.data).congr ?_ ?_
  · intro e v
    constructor
    · rintro ⟨h, a, q, z, size, values, pairs, rfl, hsize, hvalues, hlen, hpairs, hz, rfl⟩
      exact ⟨h, _, size, rfl, hsize, a, _, _, rfl, ⟨values, hvalues, hlen, rfl⟩, q ++ z, [], _,
        (List.append_nil _).symm, ⟨q, pairs, z, rfl, hpairs, hz, rfl⟩, rfl, rfl⟩
    · rintro ⟨h, _, size, rfl, hsize, a, _, _, rfl, ⟨values, hvalues, hlen, rfl⟩, _, _, _, rfl,
        ⟨q, pairs, z, rfl, hpairs, hz, rfl⟩, rfl, rfl⟩
      rw [List.append_nil]
      exact ⟨h, a, q, z, size, values, pairs, rfl, hsize, hvalues, hlen, hpairs, hz, rfl⟩
  · intro bytes
    constructor
    · rintro ⟨h, a, rest, size, values, rfl, hsize, hvalues, ⟨hlen, hB⟩ | ⟨hlen, hbreak⟩⟩
      · exact .inr ⟨h, size, _, rfl, hsize, .inl ⟨a, values, rest, rfl, hvalues, hlen, hB⟩⟩
      · exact .inr ⟨h, size, _, rfl, hsize, .inr ⟨a, _, rest, rfl, ⟨values, hvalues, hlen, rfl⟩,
          .inl hbreak⟩⟩
    · rintro (hfalse | ⟨h, size, _, rfl, hsize, hbreak⟩)
      · exact hfalse.elim
      rcases hbreak with ⟨a, values, rest, rfl, hvalues, hlen, hB⟩ |
        ⟨a, _, rest, rfl, ⟨values, hvalues, hlen, rfl⟩, hbreak | ⟨_, _, _, _, _, hfalse⟩⟩
      · exact ⟨h, a, rest, size, values, rfl, hsize, hvalues, .inl ⟨hlen, hB⟩⟩
      · exact ⟨h, a, rest, size, values, rfl, hsize, hvalues, .inr ⟨hlen, hbreak⟩⟩
      · exact hfalse.elim

theorem Encodes.length_pos {e : List UInt8} {v : LuaData} (h : Encodes e v) : 1 ≤ e.length := by
  cases h <;> exact Nat.succ_pos _

private theorem encodes_table_iff {t : UInt8} (hkind : kindOf t = typeTable) {e : List UInt8}
    {v : LuaData} :
    Encodes (t :: e) v ↔ TableEncodes Encodes (cookieOf t) e v := by
  constructor
  · intro h
    generalize hbytes : t :: e = bytes at h
    cases h with
    | table _ hsize hvalues hlen hpairs hz =>
      obtain ⟨rfl, rfl⟩ := List.cons.inj hbytes
      exact ⟨_, _, _, _, _, _, _, rfl, hsize, hvalues, hlen, hpairs, hz, rfl⟩
    | nil hkind' | boolean hkind' | integer hkind' _ | real hkind' _ _ | userdata hkind' _
    | shortString hkind' _ | wordString hkind' _ _ _ | dwordString hkind' _ _ _ _ =>
      obtain ⟨rfl, -⟩ := List.cons.inj hbytes
      rw [hkind] at hkind'
      cases hkind'
  · rintro ⟨h, a, q, z, size, values, pairs, rfl, hsize, hvalues, hlen, hpairs, hz, rfl⟩
    exact .table hkind hsize hvalues hlen hpairs hz

theorem oversized_table_iff {t : UInt8} (hkind : kindOf t = typeTable) {bytes : List UInt8} :
    Oversized (t :: bytes) ↔ TableBreaks Encodes Oversized (cookieOf t) bytes := by
  constructor
  · intro h
    generalize hcons : t :: bytes = bytes' at h
    cases h with
    | size hkind' =>
      obtain ⟨rfl, -⟩ := List.cons.inj hcons
      rw [hkind] at hkind'
      cases hkind'
    | element _ hsize hvalues hlen hrest =>
      obtain ⟨rfl, rfl⟩ := List.cons.inj hcons
      exact ⟨_, _, _, _, _, rfl, hsize, hvalues, .inl ⟨hlen, hrest⟩⟩
    | key _ hsize hvalues hlen hpairs hrest =>
      obtain ⟨rfl, rfl⟩ := List.cons.inj hcons
      exact ⟨_, _, _, _, _, rfl, hsize, hvalues, .inr ⟨hlen, _, _, _, rfl, hpairs, .inl hrest⟩⟩
    | value _ hsize hvalues hlen hpairs hk hnil hrest =>
      obtain ⟨rfl, rfl⟩ := List.cons.inj hcons
      exact ⟨_, _, _, _, _, rfl, hsize, hvalues,
        .inr ⟨hlen, _, _, _, rfl, hpairs, .inr ⟨_, _, _, rfl, hk, hnil, hrest⟩⟩⟩
  · rintro ⟨h, a, rest, size, values, rfl, hsize, hvalues, ⟨hlen, hrest⟩ | ⟨hlen, hbreak⟩⟩
    · exact .element hkind hsize hvalues hlen hrest
    · obtain ⟨q, pairs, rest, rfl, hpairs, hrest | ⟨e, k, rest, rfl, hk, hnil, hrest⟩⟩ := hbreak
      · exact .key hkind hsize hvalues hlen hpairs hrest
      · exact .value hkind hsize hvalues hlen hpairs hk hnil hrest

theorem not_integerBytes_real {e : List UInt8} {i : Int64} : ¬IntegerBytes typeNumberReal e i := by
  intro h
  generalize hc : typeNumberReal = c at h
  cases h <;> cases hc

private theorem cookieOf_lt (t : UInt8) : cookieOf t < 32 := by
  have := t.toNat_lt
  rw [cookieOf]
  omega

private theorem getReal_reads : Reads (blockView buffer) n
    (fun e v ↦ e.length = 8 ∧ v = .ofNat (ofLittle e)) (fun _ ↦ False) getReal :=
  readDatum_map_reads ..

private theorem getPointer_reads : Reads (blockView buffer) n
    (fun e v ↦ e.length = 8 ∧ v = .ofNat (ofLittle e)) (fun _ ↦ False) getPointer :=
  readDatum_map_reads ..

theorem not_oversized_cons {t : UInt8} {bytes : List UInt8} (hstring : kindOf t ≠ typeLongString)
    (htable : kindOf t ≠ typeTable) : ¬Oversized (t :: bytes) := by
  intro h
  generalize hcons : t :: bytes = bytes' at h
  cases h with
  | size hk => exact hstring ((List.cons.inj hcons).1 ▸ hk)
  | element hk | key hk | value hk => exact htable ((List.cons.inj hcons).1 ▸ hk)

theorem oversized_string_iff {t : UInt8} (hkind : kindOf t = typeLongString) {bytes : List UInt8} :
    Oversized (t :: bytes) ↔ cookieOf t = 4 ∧ ∃ l rest, bytes = l ++ rest ∧ l.length = 4 ∧
      2 ^ 31 ≤ ofLittle l := by
  constructor
  · intro h
    generalize hcons : t :: bytes = bytes' at h
    cases h with
    | size _ hc hl hge =>
      obtain ⟨rfl, rfl⟩ := List.cons.inj hcons
      exact ⟨hc, _, _, rfl, hl, hge⟩
    | element hk | key hk | value hk =>
      rw [← (List.cons.inj hcons).1, hkind] at hk
      cases hk
  · rintro ⟨hc, l, rest, rfl, hl, hge⟩
    exact .size hkind hc hl hge

private theorem encodes_string_iff {t : UInt8} (hkind : kindOf t = typeLongString) {e : List UInt8}
    {v : LuaData} : Encodes (t :: e) v ↔ ∃ w, (cookieOf t = w ∧ (w = 2 ∨ w = 4)) ∧
    ∃ l s, e = l ++ s ∧
      l.length = w ∧ s.length = ofLittle l ∧ ofLittle l < 2 ^ 31 ∧ v = .scalar (.string s) := by
  constructor
  · intro h
    generalize hcons : t :: e = bytes at h
    cases h with
    | @wordString _ l s _ hc hl hs =>
      obtain ⟨rfl, rfl⟩ := List.cons.inj hcons
      have hlt := ofLittle_lt l
      rw [hl] at hlt
      exact ⟨2, ⟨hc, .inl rfl⟩, l, s, rfl, hl, hs, by omega, rfl⟩
    | dwordString _ hc hl hs hlt =>
      obtain ⟨rfl, rfl⟩ := List.cons.inj hcons
      exact ⟨4, ⟨hc, .inr rfl⟩, _, _, rfl, hl, hs, hlt, rfl⟩
    | nil hk | boolean hk | integer hk _ | real hk _ _ | userdata hk _ | shortString hk _
    | table hk _ _ _ _ _ =>
      rw [← (List.cons.inj hcons).1, hkind] at hk
      cases hk
  · rintro ⟨w, ⟨hc, rfl | rfl⟩, l, s, rfl, hl, hs, hlt, rfl⟩
    · exact .wordString hkind hc hl hs
    · exact .dwordString hkind hc hl hs hlt

/-- A long string, by the width of its length. -/
theorem longString_reads {t : UInt8} (hk : kindOf t = typeLongString) :
    Reads (blockView buffer) n (fun e v ↦ Encodes (t :: e) v) (fun bytes ↦ Oversized (t :: bytes))
      (if cookieOf t = 2 then do getBuffer (toInt32 (ofLittle (← readDatum 2 493)))
      else if cookieOf t ≠ 4 then invalidStreamLine 500
      else do getBuffer (toInt32 (ofLittle (← readDatum 4 504)))) := by
  by_cases hword : cookieOf t = 2
  · rw [if_pos hword]
    refine (readString_reads (by decide)).congr (fun e v ↦ ?_) fun bytes ↦ ?_
    · simp [encodes_string_iff hk, hword]
    · rw [oversized_string_iff hk]
      constructor
      · rintro ⟨hc, -⟩
        omega
      · rintro ⟨l, rest, -, hl, hge⟩
        have hlt := ofLittle_lt l
        rw [hl] at hlt
        omega
  rw [if_neg hword]
  by_cases hdword : cookieOf t = 4
  · rw [if_neg (not_not_intro hdword)]
    refine (readString_reads (by decide)).congr (fun e v ↦ ?_) fun bytes ↦ ?_
    · simp [encodes_string_iff hk, hdword]
    · simp [oversized_string_iff hk, hdword]
  · rw [if_pos hdword]
    refine (invalidStreamLine_reads _).congr (fun e v ↦ ?_) fun bytes ↦ ?_
    · simp [encodes_string_iff hk, hword, hdword]
    · simp [oversized_string_iff hk, hdword]

/-- No value has the type. -/
theorem not_encodes_of_kind {t : UInt8} {e : List UInt8} {v : LuaData} (hnil : kindOf t ≠ typeNil)
    (hboolean : kindOf t ≠ typeBoolean) (hnumber : kindOf t ≠ typeNumber)
    (huserdata : kindOf t ≠ typeUserdata) (hshort : kindOf t ≠ typeShortString)
    (hlong : kindOf t ≠ typeLongString) (htable : kindOf t ≠ typeTable) : ¬Encodes (t :: e) v := by
  intro h
  generalize hcons : t :: e = bytes at h
  cases h with
  | nil hk => exact hnil ((List.cons.inj hcons).1 ▸ hk)
  | boolean hk => exact hboolean ((List.cons.inj hcons).1 ▸ hk)
  | integer hk _ | real hk _ _ => exact hnumber ((List.cons.inj hcons).1 ▸ hk)
  | userdata hk _ => exact huserdata ((List.cons.inj hcons).1 ▸ hk)
  | shortString hk _ => exact hshort ((List.cons.inj hcons).1 ▸ hk)
  | wordString hk _ _ _ | dwordString hk _ _ _ _ => exact hlong ((List.cons.inj hcons).1 ▸ hk)
  | table hk _ _ _ _ _ => exact htable ((List.cons.inj hcons).1 ▸ hk)

/-- **A value behind its type byte.** -/
theorem pushValue_reads (h : Reads (blockView buffer) n Encodes Oversized one) {bound : ℕ}
    (hbound : n < bound) (t : UInt8) :
    Reads (blockView buffer) n (fun e v ↦ Encodes (t :: e) v) (fun bytes ↦ Oversized (t :: bytes))
      (pushValue one bound (kindOf t) (cookieOf t)) := by
  have h0 : typeNil = 0 := rfl
  have h1 : typeBoolean = 1 := rfl
  have h2 : typeNumber = 2 := rfl
  have h3 : typeUserdata = 3 := rfl
  have h4 : typeShortString = 4 := rfl
  have h5 : typeLongString = 5 := rfl
  have h6 : typeTable = 6 := rfl
  have hno : ∀ k, kindOf t = k → k ≠ typeLongString → k ≠ typeTable → ∀ bytes,
      Oversized (t :: bytes) ↔ False := fun k hk hstring htable bytes ↦
    iff_false_intro (not_oversized_cons (by rwa [hk]) (by rwa [hk]))
  unfold pushValue
  by_cases hnil : kindOf t = typeNil
  · rw [if_pos hnil]
    refine (Reads.pure _).congr (fun e v ↦ ?_) (hno _ hnil (by decide) (by decide))
    rw [encodes_iff]
    simp [hnil, h0, h1, h2, h3, h4, h5, h6]
  rw [if_neg hnil]
  by_cases hboolean : kindOf t = typeBoolean
  · rw [if_pos hboolean]
    refine (Reads.pure _).congr (fun e v ↦ ?_) (hno _ hboolean (by decide) (by decide))
    rw [encodes_iff]
    simp [hboolean, h0, h1, h2, h3, h4, h5, h6]
  rw [if_neg hboolean]
  by_cases hnumber : kindOf t = typeNumber
  · rw [if_pos hnumber]
    by_cases hreal : cookieOf t = typeNumberReal
    · rw [if_pos hreal]
      refine (getReal_reads.bind fun _ r _ _ ↦ Reads.pure _).congr (fun e v ↦ ?_) fun bytes ↦ ?_
      · rw [encodes_iff]
        simp [hnumber, hreal, not_integerBytes_real, Then, h0, h1, h2, h3, h4, h5, h6]
      · simp [hno _ hnumber (by decide) (by decide), Breaks]
    · rw [if_neg hreal]
      refine ((getInteger_reads _).bind fun _ i _ _ ↦ Reads.pure _).congr (fun e v ↦ ?_)
        fun bytes ↦ ?_
      · rw [encodes_iff]
        simp [hnumber, hreal, Then, h0, h1, h2, h3, h4, h5, h6]
      · simp [hno _ hnumber (by decide) (by decide), Breaks]
  rw [if_neg hnumber]
  by_cases huserdata : kindOf t = typeUserdata
  · rw [if_pos huserdata]
    refine (getPointer_reads.bind fun _ p _ _ ↦ Reads.pure _).congr (fun e v ↦ ?_) fun bytes ↦ ?_
    · rw [encodes_iff]
      simp [huserdata, Then, h0, h1, h2, h3, h4, h5, h6]
    · simp [hno _ huserdata (by decide) (by decide), Breaks]
  rw [if_neg huserdata]
  by_cases hshort : kindOf t = typeShortString
  · rw [if_pos hshort]
    have hcookie := cookieOf_lt t
    refine (getBuffer_reads (by omega) (by omega)).congr (fun e v ↦ ?_) fun bytes ↦ ?_
    · rw [encodes_iff]
      simp [hshort, h0, h1, h2, h3, h4, h5, h6]
    · simp [hno _ hshort (by decide) (by decide)]
  rw [if_neg hshort]
  by_cases hlong : kindOf t = typeLongString
  · rw [if_pos hlong]
    exact longString_reads hlong
  rw [if_neg hlong]
  by_cases htable : kindOf t = typeTable
  · rw [if_pos htable]
    exact (unpackTable_reads h (fun _ _ ↦ Encodes.length_pos) hbound _).congr
      (fun _ _ ↦ encodes_table_iff htable) fun _ ↦ oversized_table_iff htable
  rw [if_neg htable]
  refine (invalidStreamLine_reads _).congr (fun e v ↦ iff_false_intro ?_)
    fun bytes ↦ iff_false_intro (not_oversized_cons hlong htable)
  exact not_encodes_of_kind hnil hboolean hnumber huserdata hshort hlong htable

end Values

/-- **`unpack_one` reads the format** and breaks on what is oversized, and on nothing else. -/
theorem unpackOne_reads {bound : ℕ} (hbound : n < bound) :
    Reads (blockView buffer) n Encodes Oversized (unpackOne bound) := by
  induction bound generalizing n with
  | zero => omega
  | succ bound ih =>
    refine ((readDatum_reads 1 528).bind
      (H := fun l e v ↦ ∃ t, l = [t] ∧ Encodes (t :: e) v)
      (C := fun l bytes ↦ ∃ t, l = [t] ∧ Oversized (t :: bytes)) ?_).congr ?_ ?_
    · rintro e l ⟨hl, rfl⟩ hle
      obtain ⟨t, rfl⟩ := List.length_eq_one_iff.mp hl
      simp only [ofLittle_singleton]
      have hn : n - [t].length < bound := by
        rw [List.length_singleton] at hle ⊢
        omega
      refine (pushValue_reads (ih hn) hn t).congr ?_ ?_
      · intro e v
        simp
      · intro bytes
        simp
    · intro e v
      constructor
      · intro h
        obtain ⟨t, e', rfl⟩ := List.exists_cons_of_length_pos h.length_pos
        exact ⟨[t], e', [t], rfl, ⟨rfl, rfl⟩, t, rfl, h⟩
      · rintro ⟨_, e', _, rfl, ⟨-, rfl⟩, t, rfl, h⟩
        exact h
    · intro bytes
      constructor
      · intro h
        obtain ⟨t, rest, rfl⟩ : ∃ t rest, bytes = t :: rest := by
          cases h <;> exact ⟨_, _, rfl⟩
        exact .inr ⟨[t], [t], rest, rfl, ⟨rfl, rfl⟩, t, rfl, h⟩
      · rintro (hfalse | ⟨_, _, rest, rfl, ⟨-, rfl⟩, t, rfl, h⟩)
        · exact hfalse.elim
        · exact h

end ZTask
