import ZTask.Crypt.Sha1Compress

/-!
# Digests

`sat_SHA1_Update` takes a text in any pieces (`Taken.update`), but counts the bits of a piece of
2^29 bytes or more wrongly: the carry is found by comparing the 32 bits of the count with the 64
bits that were added, so that it is always found (`slip`). Hence `lsha1` is the hash of the standard
for shorter texts, and pads longer ones as if they had 2^32 bits more (`lsha1_eq`).

## Any pieces

`Taken` says of a context that it has taken a text: the state is the hash of the whole blocks, and
the buffer has what does not fill one. It does not depend on how the text was cut. The end of a text
is padded by further calls of `sat_SHA1_Update`, which count as well, but the count has been put
aside before (`Taken.final`).

## The keyed hash

A key of more than 64 bytes is hashed first, so its hash has to be right as well. With that
`lhmacSha1_eq` is the definition of the keyed hash: the inner hash is over a block and the text, and
the outer one over a block and twenty bytes.
-/

namespace ZTask

open Lib

variable {ctx : Sha1Ctx} {text data : List UInt8} {bits : ℕ} {buffer : Lib.Block UInt8}

/-! ## The count -/

/-- What the count goes wrong by. -/
def slip (bits len : ℕ) : ℕ :=
  if len < 2 ^ 29 ∨ 2 ^ 32 ≤ bits % 2 ^ 32 + 8 * len % 2 ^ 32 then 0 else 2 ^ 32

theorem slip_small {len : ℕ} (h : len < 2 ^ 29) (bits : ℕ) : slip bits len = 0 := if_pos (.inl h)

/-- The bits that are counted behind a piece. -/
def countBits (bits len : ℕ) : ℕ := bits + 8 * len + slip bits len

private theorem addCount_eq {len : ℕ} (bits : ℕ) (hlen : len < 2 ^ 61) :
    addCount (UInt32.ofNat bits) (UInt32.ofNat (bits / 2 ^ 32)) (UInt64.ofNat len) =
      (UInt32.ofNat (countBits bits len), UInt32.ofNat (countBits bits len / 2 ^ 32)) := by
  -- the length is shifted in 64 bits, which is where it loses nothing below `2 ^ 61`
  have hadded : (UInt64.ofNat len <<< 3).toNat = 8 * len := by
    rw [UInt64.toNat_shiftLeft, UInt64.toNat_ofNat', show (3 : UInt64).toNat % 64 = 3 from rfl,
      Nat.shiftLeft_eq]
    omega
  have hhigh : (UInt64.ofNat len >>> 29).toUInt32.toNat = len / 2 ^ 29 % 2 ^ 32 := by
    rw [UInt64.toNat_toUInt32, UInt64.toNat_shiftRight, UInt64.toNat_ofNat',
      show (29 : UInt64).toNat % 64 = 29 from rfl, Nat.shiftRight_eq_div_pow]
    omega
  have hlow : ((UInt32.ofNat bits).toUInt64 + (UInt64.ofNat len <<< 3)).toUInt32.toNat =
      (bits + 8 * len) % 2 ^ 32 := by
    rw [UInt64.toNat_toUInt32, UInt64.toNat_add, hadded, UInt32.toNat_toUInt64, UInt32.toNat_ofNat']
    omega
  rw [addCount]
  refine Prod.ext ?_ ?_
  · rw [← UInt32.toNat_inj, hlow, UInt32.toNat_ofNat', countBits, slip]
    split <;> omega
  · -- the carry is found if the piece is long, or if there is one
    have hcarry : ((UInt32.ofNat bits).toUInt64 + (UInt64.ofNat len <<< 3)).toUInt32.toUInt64 <
        UInt64.ofNat len <<< 3 ↔ 2 ^ 29 ≤ len ∨ 2 ^ 32 ≤ bits % 2 ^ 32 + 8 * len := by
      rw [UInt64.lt_iff_toNat_lt, UInt32.toNat_toUInt64, hlow, hadded]
      omega
    rw [if_congr hcarry rfl rfl, ← UInt32.toNat_inj, UInt32.toNat_add, hhigh,
      UInt32.toNat_ofNat', countBits]
    have hone : (UInt32.ofNat (bits / 2 ^ 32) + 1).toNat = (bits / 2 ^ 32 + 1) % 2 ^ 32 := by
      rw [UInt32.toNat_add, UInt32.toNat_ofNat', show (1 : UInt32).toNat = 1 from rfl]
      omega
    rcases Nat.lt_or_ge len (2 ^ 29) with hshort | hlong
    · rw [slip_small hshort]
      by_cases hfound : 2 ^ 29 ≤ len ∨ 2 ^ 32 ≤ bits % 2 ^ 32 + 8 * len
      · rw [if_pos hfound, hone]
        omega
      · rw [if_neg hfound, UInt32.toNat_ofNat']
        omega
    · rw [if_pos (.inl hlong), hone, slip]
      split <;> omega

/-! ## Pieces -/

/-- The text has been taken, and so many bits counted. -/
structure Taken (ctx : Sha1Ctx) (text : List UInt8) (bits : ℕ) : Prop where
  state : chainOf ctx.state 0 = absorb 64 shaCompress .initial text
  count0 : ctx.count0 = UInt32.ofNat bits
  count1 : ctx.count1 = UInt32.ofNat (bits / 2 ^ 32)
  low : bits % 2 ^ 32 = 8 * text.length % 2 ^ 32
  length : ctx.buffer.length = 64
  rest : ctx.buffer.At 0 (residue 64 text)

theorem taken_init : Taken satSha1Init [] 0 := ⟨rfl, rfl, rfl, rfl, rfl, Lib.Block.at_nil _ 0⟩

theorem Taken.place (h : Taken ctx text bits) :
    (ctx.count0 >>> 3 &&& 63).toNat = text.length % 64 := by
  have hlow := h.low
  rw [h.count0, UInt32.toNat_and, UInt32.toNat_shiftRight, UInt32.toNat_ofNat',
    show (3 : UInt32).toNat % 32 = 3 from rfl, show (63 : UInt32).toNat = 2 ^ 6 - 1 from rfl,
    Nat.and_two_pow_sub_one_eq_mod, Nat.shiftRight_eq_div_pow]
  omega

theorem low_countBits (hlow : bits % 2 ^ 32 = 8 * text.length % 2 ^ 32) (data : List UInt8) :
    countBits bits data.length % 2 ^ 32 = 8 * (text ++ data).length % 2 ^ 32 := by
  rw [countBits, slip, List.length_append]
  split <;> omega

private theorem fillBuffer_ok (buffer : Lib.Block UInt8) (j : ℕ) (data : List UInt8)
    (hroom : j + data.length ≤ buffer.length) :
    ∃ buffer', fillBuffer buffer j data = .ok buffer' ∧ buffer.write? j data = some buffer' := by
  obtain ⟨buffer', hwrite⟩ := Lib.Block.write?_eq_some hroom
  exact ⟨buffer', by rw [fillBuffer, hwrite], hwrite⟩

theorem at_fill {buffer' : Lib.Block UInt8} {j : ℕ} (hat : buffer.At 0 text) (hj : text.length = j)
    (hwrite : buffer.write? j data = some buffer') : buffer'.At 0 (text ++ data) := by
  subst hj
  refine (hat.write? hwrite (.inl (Nat.le_of_eq (Nat.zero_add _)))).append ?_
  rw [Nat.zero_add]
  exact .of_write? hwrite

private theorem wholeBuffer_at (hat : buffer.At 0 data) (hlen : data.length = 64) :
    wholeBuffer buffer = .ok data := by
  rw [wholeBuffer, ← hlen, hat.read?]

/-- The loop takes the whole blocks from `i` on. -/
theorem transformLoop_spec (data : List UInt8) (fuel i : ℕ) (state : Vector UInt32 5)
    (hi : i ≤ data.length) (hfuel : data.length ≤ i + fuel) :
    ∃ state' i', transformLoop data fuel i state = .ok (state', i') ∧
      chainOf state' 0 = absorb 64 shaCompress (chainOf state 0) (data.drop i) ∧
      data.drop i' = residue 64 (data.drop i) := by
  induction fuel generalizing i state with
  | zero =>
    have hnil : (data.drop i).length < 64 := by
      rw [List.length_drop]
      omega
    refine ⟨state, i, if_neg (by omega), ?_, ?_⟩
    · rw [absorb_short hnil]
    · rw [residue_short hnil]
  | succ fuel ih =>
    by_cases hmore : i + 63 < data.length
    · have hlen : ((data.drop i).take 64).length = 64 := by
        rw [List.length_take, List.length_drop]
        omega
      have hsplit : data.drop i = (data.drop i).take 64 ++ data.drop (i + 64) := by
        rw [← List.drop_drop, List.take_append_drop]
      obtain ⟨state', i', hloop, hstate, hrest⟩ :=
        ih (i + 64) (sha1Transform state ((data.drop i).take 64)) (by omega) (by omega)
      refine ⟨state', i', ?_, ?_, ?_⟩
      · rw [transformLoop, if_pos hmore, hloop]
      · rw [hstate, chainOf_sha1Transform state hlen, hsplit, absorb_block (by decide) hlen,
          List.take_left' hlen]
      · rw [hrest, hsplit, residue_block (by decide) hlen]
    · have hshort : (data.drop i).length < 64 := by
        rw [List.length_drop]
        omega
      refine ⟨state, i, if_neg hmore, ?_, ?_⟩
      · rw [absorb_short hshort]
      · rw [residue_short hshort]

/-- **A piece is taken.** -/
theorem Taken.update (h : Taken ctx text bits) (data : List UInt8) (hdata : data.length < 2 ^ 61) :
    ∃ ctx', satSha1Update ctx data = .ok ctx' ∧
      Taken ctx' (text ++ data) (countBits bits data.length) := by
  have hrest := length_residue 64 text
  have hlength := h.length
  obtain ⟨happend, hresidue⟩ :=
    @absorb_append _ _ 64 shaCompress (by decide) ShaChain.initial text data
  rw [satSha1Update, h.place, h.count0, h.count1, addCount_eq bits hdata]
  dsimp only
  by_cases hfull : 63 < text.length % 64 + data.length
  · rw [if_pos hfull]
    -- the front of the piece completes the block
    have hfront : (data.take (64 - text.length % 64)).length = 64 - text.length % 64 := by
      rw [List.length_take]
      omega
    have hblock : (residue 64 text ++ data.take (64 - text.length % 64)).length = 64 := by
      rw [List.length_append, hrest, hfront]
      omega
    have hsplit : residue 64 text ++ data =
        (residue 64 text ++ data.take (64 - text.length % 64)) ++
          data.drop (64 - text.length % 64) := by
      rw [List.append_assoc, List.take_append_drop]
    obtain ⟨buffer₁, hfill, hwrite⟩ := fillBuffer_ok ctx.buffer (text.length % 64)
      (data.take (64 - text.length % 64)) (by omega)
    have hlen₁ := (Lib.Block.length_of_write? hwrite).trans hlength
    have hwhole : wholeBuffer buffer₁ =
        .ok (residue 64 text ++ data.take (64 - text.length % 64)) :=
      wholeBuffer_at (at_fill h.rest hrest hwrite) hblock
    obtain ⟨state', i', hloop, hstate, hend⟩ := transformLoop_spec data data.length
      (64 - text.length % 64)
      (sha1Transform ctx.state (residue 64 text ++ data.take (64 - text.length % 64)))
        (by omega) (by omega)
    have hshort : (data.drop i').length < 64 := by
      rw [hend, length_residue]
      omega
    obtain ⟨buffer₂, hfill₂, hwrite₂⟩ := fillBuffer_ok buffer₁ 0 (data.drop i') (by omega)
    refine ⟨⟨state', _, _, buffer₂⟩, ?_, ⟨?_, rfl, rfl, low_countBits h.low data,
      (Lib.Block.length_of_write? hwrite₂).trans hlen₁, ?_⟩⟩
    · rw [hfill]
      dsimp only [Bind.bind, Except.bind]
      rw [hwhole]
      dsimp only
      rw [hloop]
      dsimp only
      rw [hfill₂]
      rfl
    · rw [happend, hsplit, absorb_block (by decide) hblock]
      exact hstate.trans (by rw [chainOf_sha1Transform _ hblock, h.state])
    · rw [hresidue, hsplit, residue_block (by decide) hblock, ← hend]
      exact .of_write? hwrite₂
  · rw [if_neg hfull]
    have hshort : (residue 64 text ++ data).length < 64 := by
      rw [List.length_append, hrest]
      omega
    obtain ⟨buffer', hfill, hwrite⟩ := fillBuffer_ok ctx.buffer (text.length % 64) data (by omega)
    refine ⟨⟨ctx.state, _, _, buffer'⟩, ?_, ⟨?_, rfl, rfl, low_countBits h.low data,
      (Lib.Block.length_of_write? hwrite).trans hlength, ?_⟩⟩
    · rw [hfill]
      rfl
    · rw [happend, absorb_short hshort]
      exact h.state
    · rw [hresidue, residue_short hshort]
      exact at_fill h.rest hrest hwrite

/-! ## The end of a text -/

private theorem and_504 (n : ℕ) : n &&& 504 = n / 8 % 64 * 8 := by
  apply Nat.eq_of_testBit_eq
  intro i
  have h504 : (504 : ℕ) = (2 ^ 6 - 1) * 2 ^ 3 := rfl
  rw [Nat.testBit_and, h504, Nat.testBit_mul_two_pow, Nat.testBit_two_pow_sub_one,
    show (8 : ℕ) = 2 ^ 3 from rfl, show (64 : ℕ) = 2 ^ 6 from rfl, Nat.testBit_mul_two_pow,
    Nat.testBit_mod_two_pow, Nat.testBit_div_two_pow]
  by_cases hi : 3 ≤ i
  · simp [hi, Bool.and_comm]
  · simp [hi]

/-- The zeros are put behind the text until eight bytes are left of the block. -/
theorem Taken.padLoop (h : Taken ctx text bits) {fuel : ℕ}
    (hfuel : (120 - text.length % 64) % 64 ≤ fuel) :
    ∃ ctx' bits', padLoop fuel ctx = .ok ctx' ∧
      Taken ctx' (text ++ List.replicate ((120 - text.length % 64) % 64) 0) bits' := by
  have hdone : ∀ {ctx : Sha1Ctx} {text : List UInt8} {bits : ℕ}, Taken ctx text bits →
      (ctx.count0 &&& 504 ≠ 448 ↔ text.length % 64 ≠ 56) := by
    intro ctx text bits h
    have hlow := h.low
    rw [h.count0, ne_eq, ← UInt32.toNat_inj, UInt32.toNat_and, UInt32.toNat_ofNat',
      show (504 : UInt32).toNat = 504 from rfl, show (448 : UInt32).toNat = 448 from rfl, and_504]
    omega
  induction fuel generalizing ctx text bits with
  | zero =>
    refine ⟨ctx, bits, if_neg fun hmore ↦ (hdone h).mp hmore (by omega), ?_⟩
    rw [Nat.le_zero.mp hfuel, List.replicate_zero, List.append_nil]
    exact h
  | succ fuel ih =>
    by_cases hmore : text.length % 64 ≠ 56
    · obtain ⟨ctx₁, hupdate, h₁⟩ := h.update [0] (by decide)
      have hlen : (text ++ [0]).length = text.length + 1 := by rw [List.length_append]; rfl
      obtain ⟨ctx', bits', hloop, h'⟩ := ih h₁ (by rw [hlen]; omega)
      refine ⟨ctx', bits', ?_, ?_⟩
      · rw [ZTask.padLoop, if_pos ((hdone h).mpr hmore), hupdate]
        exact hloop
      · rw [hlen, List.append_assoc] at h'
        rwa [show (120 - text.length % 64) % 64 = (120 - (text.length + 1) % 64) % 64 + 1 by omega,
          List.replicate_succ]
    · refine ⟨ctx, bits, if_neg fun hnot ↦ hmore ((hdone h).mp hnot), ?_⟩
      rw [show (120 - text.length % 64) % 64 = 0 by omega, List.replicate_zero, List.append_nil]
      exact h

private theorem byte_of_word (x : UInt32) {k : ℕ} (hk : k < 32) :
    (x >>> UInt32.ofNat k &&& 255).toUInt8 = UInt8.ofNat (x.toNat / 2 ^ k) := by
  have hval : (UInt32.ofNat k).toNat = k := by
    rw [UInt32.toNat_ofNat', Nat.mod_eq_of_lt (show k < 2 ^ 32 by omega)]
  rw [toUInt8_byte x (by rwa [hval]), hval]

private theorem bigBytes_eq (x : UInt32) : bigBytes x = [(x >>> UInt32.ofNat 24 &&& 255).toUInt8,
    (x >>> UInt32.ofNat 16 &&& 255).toUInt8, (x >>> UInt32.ofNat 8 &&& 255).toUInt8,
    (x >>> UInt32.ofNat 0 &&& 255).toUInt8] := by
  rw [byte_of_word x (by decide), byte_of_word x (by decide), byte_of_word x (by decide),
    byte_of_word x (by decide)]
  simp only [bigBytes, toLittle, List.reverse_cons, List.reverse_nil, List.nil_append,
    List.cons_append, Nat.div_div_eq_div_mul, Nat.reduceMul, Nat.reducePow, Nat.div_one]

private theorem bytes_split (n : ℕ) : (toLittle 8 n).reverse =
    bigBytes (UInt32.ofNat (n / 2 ^ 32)) ++ bigBytes (UInt32.ofNat n) := by
  have hlow : toLittle 4 (UInt32.ofNat n).toNat = toLittle 4 n := by
    rw [UInt32.toNat_ofNat']
    exact toLittle_mod 4 n
  have hhigh : toLittle 4 (UInt32.ofNat (n / 2 ^ 32)).toNat = toLittle 4 (n / 2 ^ 32) := by
    rw [UInt32.toNat_ofNat']
    exact toLittle_mod 4 (n / 2 ^ 32)
  rw [bigBytes, bigBytes, hlow, hhigh, ← List.reverse_append]
  simp only [toLittle, List.cons_append, List.nil_append, Nat.div_div_eq_div_mul, Nat.reduceMul,
    Nat.reducePow]

theorem Taken.finalcount (h : Taken ctx text bits) :
    ZTask.finalcount ctx = (toLittle 8 bits).reverse := by
  rw [bytes_split, bigBytes_eq, bigBytes_eq, ← h.count0, ← h.count1]
  rfl

private theorem digestOf_eq (ctx : Sha1Ctx) : digestOf ctx = (chainOf ctx.state 0).digest := by
  simp only [ShaChain.digest, chainOf, List.flatMap_cons, List.flatMap_nil, bigBytes_eq]
  rfl

/-- **The digest of what has been taken.** -/
theorem Taken.final (h : Taken ctx text bits) : satSha1Final ctx = .ok (shaDigest bits text) := by
  obtain ⟨ctx₁, hfirst, h₁⟩ := h.update [0x80] (by decide)
  have hlen : (text ++ [0x80]).length = text.length + 1 := by rw [List.length_append]; rfl
  obtain ⟨ctx₂, bits₂, hpad, h₂⟩ := h₁.padLoop
    (show (120 - (text ++ [0x80]).length % 64) % 64 ≤ 64 by omega)
  obtain ⟨ctx₃, hlast, h₃⟩ := h₂.update (toLittle 8 bits).reverse
    (by rw [List.length_reverse, length_toLittle]; decide)
  have hpadded : text ++ [0x80] ++ List.replicate ((120 - (text ++ [0x80]).length % 64) % 64) 0 ++
      (toLittle 8 bits).reverse = shaPad bits text := by
    rw [hlen, shaPad, shaZeros, List.append_assoc, List.append_assoc,
      show (120 - (text.length + 1) % 64) % 64 = (119 - text.length % 64) % 64 by omega]
    rfl
  rw [satSha1Final, h.finalcount, hfirst]
  dsimp only [Bind.bind, Except.bind]
  rw [hpad]
  dsimp only
  rw [hlast]
  dsimp only
  rw [digestOf_eq, h₃.state, hpadded]
  rfl

/-! ## `lsha1` -/

private theorem digest_eq (text : List UInt8) (hlen : text.length < 2 ^ 61) : ∃ ctx,
    satSha1Update satSha1Init text = .ok ctx ∧
      satSha1Final ctx = .ok (shaDigest (countBits 0 text.length) text) := by
  obtain ⟨ctx, hupdate, h⟩ := taken_init.update text hlen
  exact ⟨ctx, hupdate, h.final⟩

/-- **The hash of a text** is that of the standard if the text has less than 2^29 bytes; otherwise
2^32 bits are counted that it does not have. -/
theorem lsha1_eq (text : List UInt8) (hlen : text.length < 2 ^ 61) :
    (text.length < 2 ^ 29 → lsha1 text = .ok (secureHash text)) ∧
    (2 ^ 29 ≤ text.length → lsha1 text = .ok (shaDigest (8 * text.length + 2 ^ 32) text)) := by
  obtain ⟨ctx, hupdate, hfinal⟩ := digest_eq text hlen
  have hhash : lsha1 text = .ok (shaDigest (countBits 0 text.length) text) := by
    rw [lsha1, hupdate]
    exact hfinal
  rw [hhash, countBits, Nat.zero_add]
  refine ⟨fun hshort ↦ ?_, fun hlong ↦ ?_⟩
  · rw [slip_small hshort, secureHash]
    rfl
  · rw [slip, if_neg (by omega)]

theorem lsha1_eq_abc : (ascii "abc").length < 2 ^ 61 ∧
    ((ascii "abc").length < 2 ^ 29 → lsha1 (ascii "abc") = .ok (secureHash (ascii "abc"))) :=
  ⟨by decide, (lsha1_eq (ascii "abc") (by decide)).1⟩

/-! ## `lhmac_sha1` -/

private theorem xorKey_eq {xor : UInt32} {b : UInt8}
    (hxor : ∀ k < 4, (xor >>> UInt32.ofNat (k * 8)).toUInt8 = b)
    (key : List UInt8) : xorKey key xor = key.map (· ^^^ b) := by
  refine List.ext_getElem? fun i ↦ ?_
  rw [xorKey, List.getElem?_mapIdx, List.getElem?_map, hxor (i % 4) (Nat.mod_lt i (by decide))]

private theorem hmacKey_eq {key : List UInt8} (hkey : key.length < 2 ^ 29) :
    ∃ rkey, hmacKey key = .ok rkey ∧ rkey.length = 64 ∧ ∀ text,
      keyedHash 64 secureHash key text =
        secureHash (rkey.map (· ^^^ 0x5c) ++ secureHash (rkey.map (· ^^^ 0x36) ++ text)) := by
  by_cases hlong : 64 < key.length
  · have hhash : satSha1Update satSha1Init key >>= satSha1Final = .ok (secureHash key) :=
      (lsha1_eq key (by omega)).1 hkey
    have hdigest := length_secureHash key
    refine ⟨secureHash key ++ List.replicate (64 - (secureHash key).length) 0, ?_, ?_,
      fun text ↦ ?_⟩
    · rw [hmacKey, if_pos hlong, ← bind_assoc, hhash]
      rfl
    · rw [List.length_append, List.length_replicate, hdigest]
    · rw [keyedHash, if_pos hlong]
  · refine ⟨key ++ List.replicate (64 - key.length) 0, ?_, ?_, fun text ↦ ?_⟩
    · rw [hmacKey, if_neg hlong]
      rfl
    · rw [List.length_append, List.length_replicate]
      omega
    · rw [keyedHash, if_neg hlong]

/-- **The keyed hash** of `lhmac_sha1` is made of the hash of the standard. A key that is longer
than a block is hashed first, so it must be as short as a text that is hashed rightly. -/
theorem lhmacSha1_eq (key text : List UInt8) (hkey : key.length < 2 ^ 29)
    (htext : text.length < 2 ^ 29) :
    lhmacSha1 key text = .ok (keyedHash 64 secureHash key text) := by
  obtain ⟨rkey, hrkey, hlen, hkeyed⟩ := hmacKey_eq hkey
  have hout : xorKey rkey 0x5c5c5c5c = rkey.map (· ^^^ 0x5c) := xorKey_eq (by decide) rkey
  have hin : xorKey (xorKey rkey 0x5c5c5c5c) (0x5c5c5c5c ^^^ 0x36363636) =
      rkey.map (· ^^^ 0x36) := by
    rw [hout, xorKey_eq (b := 0x6a) (by decide), List.map_map]
    refine List.map_congr_left fun c _ ↦ ?_
    rw [Function.comp_apply, UInt8.xor_assoc]
    rfl
  have houter : (rkey.map (· ^^^ (0x5c : UInt8))).length = 64 := by rw [List.length_map, hlen]
  have hinner : (rkey.map (· ^^^ (0x36 : UInt8))).length = 64 := by rw [List.length_map, hlen]
  obtain ⟨ctx₁, hfirst, h₁⟩ := taken_init.update (rkey.map (· ^^^ 0x5c)) (by rw [houter]; decide)
  obtain ⟨ctx₂, hsecond, h₂⟩ := taken_init.update (rkey.map (· ^^^ 0x36)) (by rw [hinner]; decide)
  obtain ⟨ctx₃, hthird, h₃⟩ := h₂.update text (by omega)
  obtain ⟨ctx₄, hfourth, h₄⟩ := h₁.update (secureHash (rkey.map (· ^^^ 0x36) ++ text))
    (by rw [length_secureHash]; decide)
  -- no piece is so long that the count goes wrong
  have hbits : countBits (countBits 0 64) text.length =
      8 * (rkey.map (· ^^^ (0x36 : UInt8)) ++ text).length := by
    rw [countBits, slip_small htext, List.length_append, hinner, countBits, slip_small (by decide)]
    omega
  have hdigest : countBits (countBits 0 64) 20 = 8 * (64 + 20) := by decide
  have hwhole : ∀ xs ys : List UInt8, xs.length = 64 → ys.length = 20 →
      shaDigest (8 * (64 + 20)) (xs ++ ys) = secureHash (xs ++ ys) := by
    intro xs ys hxs hys
    rw [secureHash, List.length_append, hxs, hys]
  rw [lhmacSha1, hrkey]
  dsimp only [Bind.bind, Except.bind]
  rw [hin, hout, hfirst]
  dsimp only
  rw [hsecond]
  dsimp only [List.nil_append] at h₃ h₄ ⊢
  rw [hthird]
  dsimp only
  rw [hinner, hbits] at h₃
  rw [h₃.final]
  dsimp only
  rw [← secureHash, hfourth]
  dsimp only
  rw [houter, length_secureHash, hdigest] at h₄
  rw [h₄.final, hkeyed, hwhole _ _ houter (length_secureHash _)]

theorem lhmacSha1_eq_jefe : lhmacSha1 (ascii "Jefe") (ascii "what do ya want for nothing?") =
    .ok (keyedHash 64 secureHash (ascii "Jefe") (ascii "what do ya want for nothing?")) :=
  lhmacSha1_eq _ _ (by decide) (by decide)

end ZTask
