import ZTask.Lib.Mask
import ZTask.Timer.Wheel

/-!
# Slots in absolute time

The 32-bit clock and the 32-bit expiry times are residues of absolute tick numbers, and for an
expiry within `2 ^ 28` ticks of the clock the wheel cannot tell the difference: `slotFor` of the
residues is `slotAt` of the ticks (`slotFor_mod`). The wrap-around of the clock disappears with
this, the case `ct == 0` of `timer_shift` being the entry of a block of the last level like any
other.

In absolute time `slotAt_succ` says what one tick does to the placement of a later expiry.
-/

namespace ZTask

open Lib

/-! ## The bit operations as arithmetic -/

/-- The width of a block of level `i`: one list of that level holds what expires in one block. -/
def blockShift (i : ℕ) : ℕ := 8 + 6 * i

/-- The two ticks are in one block of level `i`. -/
def SameBlock (i n e : ℕ) : Prop := e / 2 ^ blockShift i = n / 2 ^ blockShift i

instance (i n e : ℕ) : Decidable (SameBlock i n e) := inferInstanceAs (Decidable (_ = _))

/-- The list of a node that expires at the absolute tick `e`, at the absolute tick `n`. -/
def slotAt (n e : ℕ) : Slot :=
  if SameBlock 0 n e then .near (e % 2 ^ 8)
  else if SameBlock 1 n e then .level 0 (e / 2 ^ blockShift 0 % 64)
  else if SameBlock 2 n e then .level 1 (e / 2 ^ blockShift 1 % 64)
  else if SameBlock 3 n e then .level 2 (e / 2 ^ blockShift 2 % 64)
  else .level 3 (e / 2 ^ blockShift 3 % 64)

theorem and_timeNearMask (x : ℕ) : x &&& timeNearMask = x % 2 ^ 8 :=
  Nat.and_two_pow_sub_one_eq_mod x 8

private theorem and_timeLevelMask (x : ℕ) : x &&& timeLevelMask = x % 64 :=
  Nat.and_two_pow_sub_one_eq_mod x 6

private theorem slotFor_eq (n e : ℕ) : slotFor n e = slotAt n e := by
  have h0 : (e ||| timeNearMask = n ||| timeNearMask) ↔ SameBlock 0 n e := or_mask_eq_iff (k := 8)
  have h1 : (e ||| 16383 = n ||| 16383) ↔ SameBlock 1 n e := or_mask_eq_iff (k := 14)
  have h2 : (e ||| 1048575 = n ||| 1048575) ↔ SameBlock 2 n e := or_mask_eq_iff (k := 20)
  have h3 : (e ||| 67108863 = n ||| 67108863) ↔ SameBlock 3 n e := or_mask_eq_iff (k := 26)
  have hlevel : findLevel e n 3 (timeNear <<< timeLevelShift) 0
      = if SameBlock 1 n e then 0 else if SameBlock 2 n e then 1
        else if SameBlock 3 n e then 2 else 3 := by
    simp only [findLevel, timeNear, timeNearShift, timeLevelShift, Nat.reduceShiftLeft,
      Nat.reduceSub, h1, h2, h3, zero_add, Nat.reduceAdd]
  rw [slotFor, slotAt, hlevel]
  simp only [h0, and_timeNearMask, and_timeLevelMask, Nat.shiftRight_eq_div_pow]
  split_ifs <;> rfl

/-- **Residues place like ticks.** -/
theorem slotFor_mod {n e : ℕ} (hle : n ≤ e) (hlt : e < n + 2 ^ 28) :
    slotFor (n % uint32Size) (e % uint32Size) = slotAt n e := by
  have hsame : ∀ i ≤ 3, SameBlock i (n % uint32Size) (e % uint32Size) ↔ SameBlock i n e := by
    intro i hi
    simp only [SameBlock, blockShift, uint32Size]
    obtain rfl | rfl | rfl | rfl : i = 0 ∨ i = 1 ∨ i = 2 ∨ i = 3 := by omega
    all_goals omega
  have hidx : ∀ i ≤ 3, e % uint32Size / 2 ^ blockShift i % 64 = e / 2 ^ blockShift i % 64 := by
    intro i hi
    simp only [blockShift, uint32Size]
    obtain rfl | rfl | rfl | rfl : i = 0 ∨ i = 1 ∨ i = 2 ∨ i = 3 := by omega
    all_goals omega
  have hnear : e % uint32Size % 2 ^ 8 = e % 2 ^ 8 := Nat.mod_mod_of_dvd e (by decide)
  rw [slotFor_eq, slotAt, slotAt]
  simp only [hsame, hidx, hnear, Nat.zero_le, Nat.reduceLeDiff]

/-! ## Blocks -/

private theorem pow_blockShift_succ (i : ℕ) : 2 ^ blockShift (i + 1) = 2 ^ blockShift i * 64 := by
  rw [show blockShift (i + 1) = blockShift i + 6 from rfl, Nat.pow_add]

theorem SameBlock.mono {i j n e : ℕ} (h : SameBlock i n e) (hij : i ≤ j) : SameBlock j n e := by
  induction j, hij using Nat.le_induction with
  | base => exact h
  | succ j _ ih =>
    rw [SameBlock, pow_blockShift_succ, ← Nat.div_div_eq_div_mul, ← Nat.div_div_eq_div_mul, ih]

private theorem slotAt_eq_level {n e j : ℕ} (hj : j ≤ 3) (hno : ¬SameBlock j n e)
    (hup : j = 3 ∨ SameBlock (j + 1) n e) :
    slotAt n e = .level j (e / 2 ^ blockShift j % 64) := by
  have hfiner : ∀ k ≤ j, ¬SameBlock k n e := fun k hk h ↦ hno (h.mono hk)
  rw [slotAt, if_neg (hfiner 0 (Nat.zero_le j))]
  obtain rfl | rfl | rfl | rfl : j = 0 ∨ j = 1 ∨ j = 2 ∨ j = 3 := by omega
  · rw [if_pos (hup.resolve_left (by decide))]
  · rw [if_neg (hfiner 1 le_rfl), if_pos (hup.resolve_left (by decide))]
  · rw [if_neg (hfiner 1 (by decide)), if_neg (hfiner 2 le_rfl),
      if_pos (hup.resolve_left (by decide))]
  · rw [if_neg (hfiner 1 (by decide)), if_neg (hfiner 2 (by decide)), if_neg (hfiner 3 le_rfl)]

/-- Where an expiry is, read backwards. -/
theorem slotAt_cases (n e : ℕ) : (SameBlock 0 n e ∧ slotAt n e = .near (e % 2 ^ 8)) ∨
    ∃ j ≤ 3, ¬SameBlock j n e ∧ (j = 3 ∨ SameBlock (j + 1) n e) ∧
      slotAt n e = .level j (e / 2 ^ blockShift j % 64) := by
  have hlevel : ∀ j ≤ 3, ¬SameBlock j n e → (j = 3 ∨ SameBlock (j + 1) n e) → ∃ j ≤ 3,
      ¬SameBlock j n e ∧ (j = 3 ∨ SameBlock (j + 1) n e) ∧
        slotAt n e = .level j (e / 2 ^ blockShift j % 64) :=
    fun j hj hno hup ↦ ⟨j, hj, hno, hup, slotAt_eq_level hj hno hup⟩
  by_cases h0 : SameBlock 0 n e
  · exact Or.inl ⟨h0, if_pos h0⟩
  by_cases h1 : SameBlock 1 n e
  · exact Or.inr (hlevel 0 (by decide) h0 (Or.inr h1))
  by_cases h2 : SameBlock 2 n e
  · exact Or.inr (hlevel 1 (by decide) h1 (Or.inr h2))
  by_cases h3 : SameBlock 3 n e
  · exact Or.inr (hlevel 2 (by decide) h2 (Or.inr h3))
  · exact Or.inr (hlevel 3 le_rfl h3 (Or.inl rfl))

/-! ## What one tick does -/

/-- The list is finer than level `i`. -/
def Slot.below (i : ℕ) : Slot → Prop
  | near _ => True
  | level j _ => j < i

/-- The clock enters a block of level `i`, and of no coarser level that has a list of its own. -/
structure Enters (n i : ℕ) : Prop where
  le : i ≤ 3
  dvd : 2 ^ blockShift i ∣ n
  idx : i = 3 ∨ n / 2 ^ blockShift i % 64 ≠ 0

theorem slotAt_succ_of_not_dvd {n : ℕ} (hn : (n + 1) % 2 ^ 8 ≠ 0) (e : ℕ) :
    slotAt (n + 1) e = slotAt n e := by
  have hsame : ∀ i ≤ 3, SameBlock i (n + 1) e ↔ SameBlock i n e := by
    intro i hi
    simp only [SameBlock, blockShift]
    obtain rfl | rfl | rfl | rfl : i = 0 ∨ i = 1 ∨ i = 2 ∨ i = 3 := by omega
    all_goals omega
  rw [slotAt, slotAt]
  simp only [hsame, Nat.zero_le, Nat.reduceLeDiff]

theorem Enters.div_succ {n i j : ℕ} (h : Enters (n + 1) i) (hij : i < j) (hj : j ≤ 3) :
    (n + 1) / 2 ^ blockShift j = n / 2 ^ blockShift j := by
  have hidx := h.idx.resolve_left (by omega)
  refine Nat.succ_div_of_not_dvd fun hdvd ↦ hidx ?_
  -- a multiple of the coarser block has index zero at level `i`
  have hpow : 2 ^ blockShift (i + 1) ∣ 2 ^ blockShift j :=
    Nat.pow_dvd_pow 2 (by simp only [blockShift]; omega)
  obtain ⟨k, hk⟩ := hpow.trans hdvd
  rw [hk, pow_blockShift_succ, Nat.mul_assoc, Nat.mul_div_cancel_left _ (Nat.two_pow_pos _),
    Nat.mul_mod_right]

/-- **One tick.** When the clock enters a block of level `i`, a later expiry either is in the list
of that block and goes to a finer list, or is in some list of level `i` or coarser and stays. -/
theorem slotAt_succ {n e i : ℕ} (hlt : n < e) (hrange : e < n + 2 ^ 28) (hi : Enters (n + 1) i) :
    (slotAt n e = .level i ((n + 1) / 2 ^ blockShift i % 64) ∧ (slotAt (n + 1) e).below i) ∨
      (slotAt n e ≠ .level i ((n + 1) / 2 ^ blockShift i % 64) ∧ ¬(slotAt n e).below i ∧
        slotAt (n + 1) e = slotAt n e) := by
  have hsucc : (n + 1) / 2 ^ blockShift i = n / 2 ^ blockShift i + 1 :=
    Nat.succ_div_of_dvd hi.dvd
  have hle : (n + 1) / 2 ^ blockShift i ≤ e / 2 ^ blockShift i := Nat.div_le_div_right hlt
  have hold : ¬SameBlock i n e := by
    intro h
    rw [SameBlock] at h
    omega
  -- entering a block of one level leaves those of the higher levels as they are
  have hcoarse : ∀ j, i < j → j ≤ 3 → (SameBlock j (n + 1) e ↔ SameBlock j n e) := by
    intro j hij hj
    rw [SameBlock, SameBlock, hi.div_succ hij hj]
  by_cases hsame : SameBlock i (n + 1) e
  · -- the expiry is in the block that is entered
    left
    have hup : i = 3 ∨ SameBlock (i + 1) n e := by
      by_cases h3 : i = 3
      · exact Or.inl h3
      · have hle3 := hi.le
        exact Or.inr ((hcoarse (i + 1) (Nat.lt_succ_self i) (by omega)).mp
          (hsame.mono (Nat.le_succ i)))
    refine ⟨?_, ?_⟩
    · rw [slotAt_eq_level hi.le hold hup, hsame]
    · rcases slotAt_cases (n + 1) e with ⟨-, hslot⟩ | ⟨j, -, hno, -, hslot⟩
      · rw [hslot]
        trivial
      · rw [hslot]
        by_contra hij
        exact hno (hsame.mono (Nat.not_lt.mp hij))
  · -- it is in a later one
    right
    rcases slotAt_cases n e with ⟨h0, -⟩ | ⟨j, hj, hno, hup, hslot⟩
    · exact absurd (h0.mono (Nat.zero_le i)) hold
    have hij : i ≤ j := by
      by_contra hij
      exact hold ((hup.resolve_left (by have := hi.le; omega)).mono (by omega))
    refine ⟨?_, ?_, ?_⟩
    · rw [hslot]
      intro heq
      obtain ⟨rfl, hidx⟩ := Slot.level.inj heq
      apply hsame
      rw [SameBlock]
      by_cases h3 : j = 3
      · -- within `2 ^ 28` ticks the index of the last level does not repeat
        subst h3
        simp only [blockShift] at hidx hle ⊢
        omega
      · have hup' := (hcoarse (j + 1) (Nat.lt_succ_self j) (by omega)).mpr (hup.resolve_left h3)
        rw [SameBlock, pow_blockShift_succ, ← Nat.div_div_eq_div_mul,
          ← Nat.div_div_eq_div_mul] at hup'
        omega
    · rw [hslot]
      exact Nat.not_lt.mpr hij
    · have hno' : ¬SameBlock j (n + 1) e := by
        rcases Nat.lt_or_eq_of_le hij with hlt' | rfl
        · exact fun h ↦ hno ((hcoarse j hlt' hj).mp h)
        · exact hsame
      have hup' : j = 3 ∨ SameBlock (j + 1) (n + 1) e := by
        by_cases h3 : j = 3
        · exact Or.inl h3
        · exact Or.inr ((hcoarse (j + 1) (by omega) (by omega)).mpr (hup.resolve_left h3))
      rw [hslot, slotAt_eq_level hj hno' hup']

/-! ## `timer_shift` -/

variable {α : Type}

theorem foldl_addNode (l : List (TimerNode α)) (T : Timer α) :
    l.foldl Timer.addNode T
      = { T with lists := l.foldl (file fun x ↦ slotFor T.time x.expire) T.lists } := by
  induction l generalizing T with
  | nil => rfl
  | cons x l ih => exact ih _

/-- The loop of `timer_shift`, entered at level `i`: it moves the list of the first level with an
index that is not zero, and there is one since the clock is not zero. -/
theorem shiftLoop_eq (T : Timer α) {ct i n : ℕ} (hi : i + n = 4) (hpos : 0 < ct)
    (hlt : ct < uint32Size) (hdvd : i = 0 ∨ 2 ^ blockShift i ∣ ct) :
    (ct % 2 ^ 8 ≠ 0 ∧
        T.shiftLoop ct n (2 ^ blockShift i) (ct / 2 ^ blockShift i) i = .ok T) ∨
      ∃ j, Enters ct j ∧ T.shiftLoop ct n (2 ^ blockShift i) (ct / 2 ^ blockShift i) i
        = .ok (T.moveList j (ct / 2 ^ blockShift j % 64)) := by
  have hand : ct &&& (2 ^ blockShift i - 1) = ct % 2 ^ blockShift i :=
    Nat.and_two_pow_sub_one_eq_mod ct _
  induction n generalizing i with
  | zero =>
    -- a clock that is a multiple of 2 ^ 32 is zero
    obtain rfl : i = 4 := by omega
    have h32 : 2 ^ 32 ∣ ct := hdvd.resolve_left (by decide)
    exact absurd (Nat.le_of_dvd hpos h32) (Nat.not_le.mpr hlt)
  | succ n ih =>
    rw [Timer.shiftLoop, hand, and_timeLevelMask]
    by_cases hmod : ct % 2 ^ blockShift i = 0
    · have hdvd' : 2 ^ blockShift i ∣ ct := Nat.dvd_of_mod_eq_zero hmod
      rw [if_pos hmod]
      by_cases hidx : ct / 2 ^ blockShift i % 64 = 0
      · -- the index is zero: the block of the next level is entered, too
        have hnext : 2 ^ blockShift (i + 1) ∣ ct := by
          rw [pow_blockShift_succ]
          obtain ⟨k, hk⟩ := hdvd'
          rw [hk, Nat.mul_div_cancel_left _ (Nat.two_pow_pos _)] at hidx
          rw [hk]
          exact Nat.mul_dvd_mul_left _ (Nat.dvd_of_mod_eq_zero hidx)
        have hmask : 2 ^ blockShift i <<< timeLevelShift = 2 ^ blockShift (i + 1) := by
          rw [Nat.shiftLeft_eq, pow_blockShift_succ]
          rfl
        have htime : (ct / 2 ^ blockShift i) >>> timeLevelShift = ct / 2 ^ blockShift (i + 1) := by
          rw [Nat.shiftRight_eq_div_pow, Nat.div_div_eq_div_mul, pow_blockShift_succ]
          rfl
        simp only [hidx, ne_eq, not_true_eq_false, if_false, hmask, htime]
        exact ih (by omega) (Or.inr hnext) (Nat.and_two_pow_sub_one_eq_mod ct _)
      · simp only [ne_eq, hidx, not_false_eq_true, if_true]
        exact Or.inr ⟨i, ⟨by omega, hdvd', Or.inr hidx⟩, rfl⟩
    · rw [if_neg hmod]
      obtain rfl : i = 0 := by
        rcases hdvd with rfl | hdvd
        · rfl
        · exact absurd (Nat.mod_eq_zero_of_dvd hdvd) hmod
      exact Or.inl ⟨hmod, rfl⟩

/-- `timer_shift` moves the list of the block the clock enters, in absolute time. -/
theorem timerShift_eq {T : Timer α} {n : ℕ} (ht : T.time = n % uint32Size) :
    ((n + 1) % 2 ^ 8 ≠ 0 ∧ T.timerShift = .ok { T with time := (n + 1) % uint32Size }) ∨
      ∃ i, Enters (n + 1) i ∧ T.timerShift = .ok
        (Timer.moveList { T with time := (n + 1) % uint32Size } i
          ((n + 1) / 2 ^ blockShift i % 64)) := by
  have hct : (T.time + 1) % uint32Size = (n + 1) % uint32Size := by
    rw [ht, Nat.mod_add_mod]
  rw [Timer.timerShift, hct]
  by_cases hz : (n + 1) % uint32Size = 0
  · -- the clock wraps: list 0 of the last level
    have h32 : (n + 1) % 2 ^ 32 = 0 := hz
    have hidx : (n + 1) / 2 ^ blockShift 3 % 64 = 0 := by
      simp only [blockShift]
      omega
    refine Or.inr ⟨3, ⟨le_rfl, ?_, Or.inl rfl⟩, ?_⟩
    · exact (Nat.pow_dvd_pow 2 (by decide)).trans (Nat.dvd_of_mod_eq_zero h32)
    · simp only [hz, if_true, hidx]
  · rw [if_neg hz]
    have hlt : (n + 1) % uint32Size < uint32Size := Nat.mod_lt _ (by decide)
    have hshift : ((n + 1) % uint32Size) >>> timeNearShift
        = (n + 1) % uint32Size / 2 ^ blockShift 0 := Nat.shiftRight_eq_div_pow _ _
    rw [hshift]
    -- no level is entered, or the first whose index is not zero
    rcases shiftLoop_eq { T with time := (n + 1) % uint32Size } (i := 0) (n := 4) rfl
      (Nat.pos_of_ne_zero hz) hlt (Or.inl rfl) with ⟨hmod, hloop⟩ | ⟨j, henter, hloop⟩
    · left
      refine ⟨?_, hloop⟩
      rw [uint32Size] at hmod
      omega
    · right
      have hle := henter.le
      have hdvd : 2 ^ blockShift j ∣ n + 1 := by
        refine (Nat.dvd_mod_iff ?_).mp henter.dvd
        exact Nat.pow_dvd_pow 2 (by simp only [blockShift]; omega)
      have hidx : (n + 1) % uint32Size / 2 ^ blockShift j % 64
          = (n + 1) / 2 ^ blockShift j % 64 := by
        simp only [blockShift, uint32Size]
        obtain rfl | rfl | rfl | rfl : j = 0 ∨ j = 1 ∨ j = 2 ∨ j = 3 := by omega
        all_goals omega
      have hentry := henter.idx
      rw [hidx] at hentry hloop
      exact ⟨j, ⟨hle, hdvd, hentry⟩, hloop⟩

end ZTask
