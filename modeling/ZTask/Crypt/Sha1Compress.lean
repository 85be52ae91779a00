import Mathlib.Tactic.IntervalCases
import ZTask.Crypt.Sha1
import ZTask.Lib.Mask

/-!
# The transform of SHA-1

`SHA1_Transform` is the compression of the standard (`chainOf_sha1Transform`). A round of the
standard moves five words on, where the code leaves them in place and goes round their names; the
standard has eighty words, where the code keeps sixteen and overwrites the oldest (`Rounds`).
-/

namespace ZTask

open Lib

variable {block : List UInt8} {c : ShaChain} {i : ℕ} {s : Sha1Vars} {l : Vector UInt32 16}

/-! ## Words -/

private theorem rol_eq_rotl (value bits : UInt32) : rol value bits = rotl value bits := rfl

/-- Four bytes, put together. -/
theorem ofLittle_four (a b c d : UInt8) : UInt32.ofNat (ofLittle [a, b, c, d]) =
    d.toUInt32 <<< 24 ||| c.toUInt32 <<< 16 ||| b.toUInt32 <<< 8 ||| a.toUInt32 := by
  have ha := a.toNat_lt
  have hb := b.toNat_lt
  have hc := c.toNat_lt
  have hd := d.toNat_lt
  have hor := or_bytes (a := d.toNat) hc hb ha
  have hmod : ∀ (x : UInt8) (k : ℕ), k ≤ 24 → x.toNat <<< k % 2 ^ 32 = x.toNat <<< k := by
    intro x k hk
    have hx := x.toNat_lt
    have hpow : (2 : ℕ) ^ k ≤ 2 ^ 24 := Nat.pow_le_pow_right (by decide) hk
    have hle := Nat.mul_le_mul (Nat.le_of_lt_succ hx) hpow
    rw [Nat.shiftLeft_eq, Nat.mod_eq_of_lt (by omega)]
  rw [← UInt32.toNat_inj, UInt32.toNat_ofNat']
  simp only [UInt32.toNat_or, UInt32.toNat_shiftLeft, UInt8.toNat_toUInt32]
  rw [show (24 : UInt32).toNat % 32 = 24 from rfl, show (16 : UInt32).toNat % 32 = 16 from rfl,
    show (8 : UInt32).toNat % 32 = 8 from rfl, hmod d 24 (by decide), hmod c 16 (by decide),
    hmod b 8 (by decide)]
  rw [hor]
  simp only [ofLittle]
  omega

private theorem swap_bits (a b c d : BitVec 8) {x : BitVec 32}
    (hx : x = d.setWidth 32 <<< 24 ||| c.setWidth 32 <<< 16 ||| b.setWidth 32 <<< 8 |||
    a.setWidth 32) :
    (x <<< 24 ||| x >>> 8) &&& 0xFF00FF00#32 ||| (x <<< 8 ||| x >>> 24) &&& 0x00FF00FF#32 =
      a.setWidth 32 <<< 24 ||| b.setWidth 32 <<< 16 ||| c.setWidth 32 <<< 8 ||| d.setWidth 32 := by
  subst hx
  ext i hi
  have hlt : i < 32 := hi
  interval_cases i <;> simp [BitVec.getElem_or, BitVec.getElem_and]

private theorem swap_ofLittle (a b c d : UInt8) :
    rol (UInt32.ofNat (ofLittle [a, b, c, d])) 24 &&& 0xFF00FF00 |||
        rol (UInt32.ofNat (ofLittle [a, b, c, d])) 8 &&& 0x00FF00FF =
      UInt32.ofNat (ofLittle [d, c, b, a]) := by
  rw [ofLittle_four, ofLittle_four, ← UInt32.toBitVec_inj]
  exact swap_bits a.toBitVec b.toBitVec c.toBitVec d.toBitVec rfl

private theorem swap_bigWord {bytes : List UInt8} (hlen : bytes.length = 4) :
    rol (UInt32.ofNat (ofLittle bytes)) 24 &&& 0xFF00FF00 |||
        rol (UInt32.ofNat (ofLittle bytes)) 8 &&& 0x00FF00FF = bigWord bytes := by
  rcases bytes with _ | ⟨a, _ | ⟨b, _ | ⟨c, _ | ⟨d, _ | ⟨e, bytes⟩⟩⟩⟩⟩
  case cons.cons.cons.cons.nil => exact swap_ofLittle a b c d
  all_goals simp at hlen

private theorem ch_eq (x y z : UInt32) : (x &&& (y ^^^ z)) ^^^ z = shaCh x y z := by
  rw [shaCh, ← UInt32.toBitVec_inj]
  ext i hi
  simp only [UInt32.toBitVec_xor, UInt32.toBitVec_and, UInt32.toBitVec_not, BitVec.getElem_xor,
    BitVec.getElem_and, BitVec.getElem_not]
  cases x.toBitVec[i] <;> cases y.toBitVec[i] <;> cases z.toBitVec[i] <;> rfl

private theorem maj_eq (x y z : UInt32) : ((x ||| y) &&& z) ||| (x &&& y) = shaMaj x y z := by
  rw [shaMaj, ← UInt32.toBitVec_inj]
  ext i hi
  simp only [UInt32.toBitVec_xor, UInt32.toBitVec_and, UInt32.toBitVec_or, BitVec.getElem_xor,
    BitVec.getElem_and, BitVec.getElem_or]
  cases x.toBitVec[i] <;> cases y.toBitVec[i] <;> cases z.toBitVec[i] <;> rfl

/-! ## The sixteen words -/

private theorem wordOf_setWord (l : Vector UInt32 16) (i j : ℕ) (x : UInt32) :
    wordOf (setWord l i x) j = if j % 16 = i % 16 then x else wordOf l j := by
  have hj : j % 16 < 16 := Nat.mod_lt j (by decide)
  have hget : ∀ v : Vector UInt32 16, wordOf v j = v[j % 16] := fun _ ↦ rfl
  rw [hget, hget, setWord, Vector.getElem_set]
  exact if_congr eq_comm rfl rfl

private theorem wordOf_congr {i j : ℕ} (hmod : i % 16 = j % 16) : wordOf l i = wordOf l j := by
  have hfin : Fin.ofNat 16 i = Fin.ofNat 16 j := Fin.ext hmod
  rw [wordOf, wordOf, hfin]

/-! ## Rounds -/

/-- The variables before round `i`. -/
structure Rounds (block : List UInt8) (c : ShaChain) (i : ℕ) (s : Sha1Vars) : Prop where
  chain : chainOf s.regs (Fin.ofNat 5 i) = shaSteps block c i
  /-- The last words are those of the schedule. -/
  kept : ∀ t < i, i ≤ t + 16 → wordOf s.l t = shaWord block t
  /-- The others are as they were loaded. -/
  raw : ∀ t < 16, i ≤ t → wordOf s.l t = UInt32.ofNat (ofLittle (blockAt 4 block t))

/-- A macro is a step of the standard, and the names go round by one. -/
theorem chainOf_shaMacro (f : UInt32 → UInt32 → UInt32 → UInt32) (k : UInt32)
    (blk : Vector UInt32 16 → ℕ → Vector UInt32 16) (r : Fin 5) (i : ℕ) (s : Sha1Vars) :
    chainOf (shaMacro f k blk (0 - r) (1 - r) (2 - r) (3 - r) (4 - r) i s).regs (r + 1) =
      (chainOf s.regs r).step f k (wordOf (blk s.l i) i) := by
  have hround : ∀ r : Fin 5, 0 - (r + 1) = 4 - r ∧ 1 - (r + 1) = 0 - r ∧ 2 - (r + 1) = 1 - r ∧
      3 - (r + 1) = 2 - r ∧ 4 - (r + 1) = 3 - r := by decide
  have hne : ∀ r : Fin 5, 1 - r ≠ 4 - r ∧ 1 - r ≠ 0 - r ∧ 1 - r ≠ 2 - r ∧ 1 - r ≠ 3 - r ∧
      4 - r ≠ 0 - r ∧ 4 - r ≠ 1 - r ∧ 4 - r ≠ 2 - r ∧ 4 - r ≠ 3 - r := by decide
  obtain ⟨h0, h1, h2, h3, h4⟩ := hround r
  obtain ⟨h14, h10, h12, h13, h40, h41, h42, h43⟩ := hne r
  rw [chainOf, h0, h1, h2, h3, h4, shaMacro]
  simp only [get_set, if_neg h14, if_neg h10, if_neg h12, if_neg h13, if_neg h40, if_neg h41,
    if_neg h42, if_neg h43, if_pos, ShaChain.step, chainOf, rol_eq_rotl]
  refine congrArg (ShaChain.mk · _ _ _ _) ?_
  ac_rfl

/-- The macro of a round, with the function and the constant of the standard. -/
theorem macroOf_eq (i : ℕ) :
    macroOf i = shaMacro (shaFunction i) (shaConstant i) (if i < 16 then blk0 else blk) := by
  have hch : (fun w x y ↦ (w &&& (x ^^^ y)) ^^^ y) = shaCh := by
    funext x y z
    exact ch_eq x y z
  have hmaj : (fun w x y ↦ ((w ||| x) &&& y) ||| (w &&& x)) = shaMaj := by
    funext x y z
    exact maj_eq x y z
  rw [macroOf, R0, R1, R2, R3, R4, hch, hmaj, shaFunction, shaConstant]
  by_cases h16 : i < 16
  · rw [if_pos h16, if_pos h16, if_pos (by omega), if_pos (by omega)]
  rw [if_neg h16, if_neg h16]
  by_cases h20 : i < 20
  · rw [if_pos h20, if_pos h20, if_pos h20]
  rw [if_neg h20, if_neg h20, if_neg h20]
  by_cases h40 : i < 40
  · rw [if_pos h40, if_pos h40, if_pos h40]
    rfl
  rw [if_neg h40, if_neg h40, if_neg h40]
  by_cases h60 : i < 60
  · rw [if_pos h60, if_pos h60, if_pos h60]
  · rw [if_neg h60, if_neg h60, if_neg h60]
    rfl

/-- The word of a round is made from the words before it. -/
theorem Rounds.word (h : Rounds block c i s) (hblock : block.length = 64) :
    ∃ x, (if i < 16 then blk0 else blk) s.l i = setWord s.l i x ∧ x = shaWord block i := by
  by_cases h16 : i < 16
  · rw [if_pos h16]
    refine ⟨_, rfl, ?_⟩
    have hlen : (blockAt 4 block i).length = 4 := by
      rw [blockAt, List.length_take, List.length_drop]
      omega
    rw [h.raw i h16 (Nat.le_refl i), swap_bigWord hlen, shaWord_of_lt h16]
  · rw [if_neg h16]
    refine ⟨_, rfl, ?_⟩
    obtain ⟨t, rfl⟩ := Nat.exists_eq_add_of_le' (Nat.not_lt.mp h16)
    have h13 : wordOf s.l (t + 16 + 13) = wordOf s.l (t + 13) := wordOf_congr (by omega)
    have h8 : wordOf s.l (t + 16 + 8) = wordOf s.l (t + 8) := wordOf_congr (by omega)
    have h2 : wordOf s.l (t + 16 + 2) = wordOf s.l (t + 2) := wordOf_congr (by omega)
    have h0 : wordOf s.l (t + 16) = wordOf s.l t := wordOf_congr (by omega)
    rw [h13, h8, h2, h0, h.kept _ (by omega) (by omega), h.kept _ (by omega) (by omega),
      h.kept _ (by omega) (by omega), h.kept _ (by omega) (by omega), shaWord_add, rol_eq_rotl]

/-- A round of the code is one of the standard. -/
theorem Rounds.round (h : Rounds block c i s) (hblock : block.length = 64) :
    Rounds block c (i + 1) (sha1Round s i) := by
  obtain ⟨x, hword, hx⟩ := h.word hblock
  have hr : Fin.ofNat 5 (i + 1) = Fin.ofNat 5 i + 1 := Fin.ext (by simp [Fin.val_add])
  have hl : (sha1Round s i).l = setWord s.l i (shaWord block i) := by
    rw [sha1Round, macroOf_eq, ← hx]
    exact hword
  have hhere : wordOf (setWord s.l i x) i = x := by rw [wordOf_setWord, if_pos rfl]
  refine ⟨?_, fun t hlt hge ↦ ?_, fun t hlt hge ↦ ?_⟩
  · rw [sha1Round, macroOf_eq, hr]
    rw [chainOf_shaMacro, h.chain, hword, hhere, hx, shaSteps_succ]
  · rw [hl, wordOf_setWord]
    rcases Nat.lt_succ_iff_lt_or_eq.mp hlt with hold | rfl
    · rw [if_neg (by omega)]
      exact h.kept t hold (by omega)
    · rw [if_pos rfl]
  · rw [hl, wordOf_setWord, if_neg (by omega)]
    exact h.raw t hlt (by omega)

/-! ## The transform -/

private theorem wordOf_loadBlock (block : List UInt8) {t : ℕ} (ht : t < 16) :
    wordOf (loadBlock block) t = UInt32.ofNat (ofLittle (blockAt 4 block t)) := by
  have hmod : t % 16 < 16 := Nat.mod_lt t (by decide)
  have hget : wordOf (loadBlock block) t = (loadBlock block)[t % 16] := rfl
  rw [hget, loadBlock, Vector.getElem_ofFn, blockAt]
  exact congrArg (fun n ↦ UInt32.ofNat (ofLittle ((block.drop (n * 4)).take 4)))
    (Nat.mod_eq_of_lt ht)

private theorem rounds_range (hblock : block.length = 64) (state : Vector UInt32 5) (n : ℕ) :
    Rounds block (chainOf state 0) n ((List.range n).foldl sha1Round ⟨state, loadBlock block⟩) := by
  induction n with
  | zero => exact ⟨rfl, fun t hlt ↦ absurd hlt (Nat.not_lt_zero t),
      fun t hlt _ ↦ wordOf_loadBlock block hlt⟩
  | succ n ih =>
    rw [List.range_succ, List.foldl_append]
    exact ih.round hblock

/-- **A block is hashed as the standard says.** -/
theorem chainOf_sha1Transform (state : Vector UInt32 5) (hblock : block.length = 64) :
    chainOf (sha1Transform state block) 0 = shaCompress (chainOf state 0) block := by
  have hchain := (rounds_range hblock state 80).chain
  have hzip : ∀ (v u : Vector UInt32 5) (z : Fin 5),
      (v.zipWith (· + ·) u).get z = v.get z + u.get z := fun v u z ↦ Vector.getElem_zipWith _
  have hadd : ∀ v u : Vector UInt32 5,
      chainOf (v.zipWith (· + ·) u) 0 = chainOf v 0 + chainOf u 0 := by
    intro v u
    simp only [chainOf, hzip]
    rfl
  rw [sha1Transform, hadd, shaCompress, ← hchain]
  rfl

end ZTask
