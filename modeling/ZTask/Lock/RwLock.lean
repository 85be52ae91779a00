import ZTask.Lib.Actors
import ZTask.Lib.Machine

/-!
# The reader-writer lock

`rwlock.h`: a reader counts itself in, and out again if it finds the flag of a writer then; a writer
sets the flag and waits until nobody is counted in. Every access to one of the two counters is a
step, and the threads take their steps in any order.

A thread that is counted in holds one token, and the thread that has set the flag another one. The
counters are the numbers of the tokens (`RwInv`). A writer that has found `read` to be zero keeps
the readers out since each of them looks at the flag once more after it has been counted in.
-/

namespace ZTask

open Lib

/-- `struct rwlock`. A thread is counted once in `read`, which does not come near the bounds of an
`int`. -/
structure RwLock where
  write : ℤ
  read : ℤ
deriving DecidableEq, Repr

/-- Where a thread is. -/
inductive RwPc
  | idle
  /-- `rwlock_rlock`: at `while (lock->write)`. -/
  | rlockWait
  /-- At `__sync_add_and_fetch(&lock->read, 1)`. -/
  | rlockAdd
  /-- At `if (lock->write)`. -/
  | rlockTest
  /-- At `__sync_sub_and_fetch(&lock->read, 1)`. -/
  | rlockBack
  /-- Between `rwlock_rlock` and `rwlock_runlock`. -/
  | reading
  /-- `rwlock_wlock`: at `__sync_lock_test_and_set(&lock->write, 1)`. -/
  | wlockSet
  /-- At `while (lock->read)`. -/
  | wlockWait
  /-- Between `rwlock_wlock` and `rwlock_wunlock`. -/
  | writing
deriving DecidableEq, Repr

inductive RwInput (τ : Type)
  /-- A thread calls `rwlock_rlock`. -/
  | rlock (t : τ)
  /-- A thread calls `rwlock_wlock`. -/
  | wlock (t : τ)
  /-- A thread that is in one of them, or has come out, goes on. -/
  | step (t : τ)
deriving DecidableEq

inductive RwFault
  | impossible
deriving DecidableEq, Repr

/-- The lock and the threads. -/
structure RwSystem (τ : Type) where
  lock : RwLock
  pc : τ → RwPc

namespace RwLock

/-- `rwlock_init` -/
def init : RwLock := ⟨0, 0⟩

/-- The next access of a thread, and where it is then. -/
def step (lock : RwLock) : RwPc → Option (RwLock × RwPc)
  | .idle => none
  | .rlockWait => some (lock, if lock.write ≠ 0 then .rlockWait else .rlockAdd)
  | .rlockAdd => some ({ lock with read := lock.read + 1 }, .rlockTest)
  | .rlockTest => some (lock, if lock.write ≠ 0 then .rlockBack else .reading)
  | .rlockBack => some ({ lock with read := lock.read - 1 }, .rlockWait)
  -- `rwlock_runlock`
  | .reading => some ({ lock with read := lock.read - 1 }, .idle)
  | .wlockSet => some ({ lock with write := 1 }, if lock.write ≠ 0 then .wlockSet else .wlockWait)
  | .wlockWait => some (lock, if lock.read ≠ 0 then .wlockWait else .writing)
  -- `rwlock_wunlock`
  | .writing => some ({ lock with write := 0 }, .idle)

end RwLock

variable {τ : Type} [DecidableEq τ]

/-- Threads that lock and unlock. -/
def rwlock : Machine (RwSystem τ) (RwInput τ) Unit RwFault := fun s i ↦
  match i with
  | .rlock t =>
    if s.pc t = .idle then .ok ({ s with pc := Function.update s.pc t .rlockWait }, ())
    else .error .impossible
  | .wlock t =>
    if s.pc t = .idle then .ok ({ s with pc := Function.update s.pc t .wlockSet }, ())
    else .error .impossible
  | .step t =>
    match s.lock.step (s.pc t) with
    | some (lock, pc) => .ok (⟨lock, Function.update s.pc t pc⟩, ())
    | none => .error .impossible

namespace RwSystem

omit [DecidableEq τ] in
def init : RwSystem τ := ⟨.init, fun _ ↦ .idle⟩

variable {s s' : RwSystem τ} {i : RwInput τ} {t : τ}

/-- What a step is: a call, or an access. -/
theorem rwlock_cases {o : Unit} (h : rwlock s i = .ok (s', o)) :
    (∃ t pc, s.pc t = .idle ∧ (pc = .rlockWait ∨ pc = .wlockSet) ∧
      s' = { s with pc := Function.update s.pc t pc }) ∨
    ∃ t lock pc, s.lock.step (s.pc t) = some (lock, pc) ∧
      s' = ⟨lock, Function.update s.pc t pc⟩ := by
  cases i with
  | rlock t =>
    dsimp only [rwlock] at h
    by_cases hidle : s.pc t = .idle
    · rw [if_pos hidle] at h
      obtain ⟨rfl, -⟩ := Prod.mk.inj (Except.ok.inj h)
      exact Or.inl ⟨t, _, hidle, Or.inl rfl, rfl⟩
    · rw [if_neg hidle] at h
      cases h
  | wlock t =>
    dsimp only [rwlock] at h
    by_cases hidle : s.pc t = .idle
    · rw [if_pos hidle] at h
      obtain ⟨rfl, -⟩ := Prod.mk.inj (Except.ok.inj h)
      exact Or.inl ⟨t, _, hidle, Or.inr rfl, rfl⟩
    · rw [if_neg hidle] at h
      cases h
  | step t =>
    dsimp only [rwlock] at h
    cases hstep : s.lock.step (s.pc t) with
    | some next =>
      rw [hstep] at h
      obtain ⟨rfl, -⟩ := Prod.mk.inj (Except.ok.inj h)
      exact Or.inr ⟨t, next.1, next.2, hstep, rfl⟩
    | none =>
      rw [hstep] at h
      cases h

end RwSystem

/-! ## The tokens -/

/-- What the counters count. -/
inductive RwToken
  | reader
  | writer
deriving DecidableEq

/-- What a thread has put into the counters. -/
def RwPc.tokens : RwPc → Multiset RwToken
  | .idle | .rlockWait | .rlockAdd | .wlockSet => 0
  | .rlockTest | .rlockBack | .reading => {.reader}
  | .wlockWait | .writing => {.writer}

variable [Fintype τ]

/-- The tokens of one kind that there are. -/
def RwSystem.count (s : RwSystem τ) (k : RwToken) : ℕ := (holdings RwPc.tokens s.pc).countP (· = k)

/-- The counters are the numbers of the tokens, of which one at most is a writer's, and nobody reads
while somebody writes. -/
structure RwInv (s : RwSystem τ) : Prop where
  read : s.lock.read = s.count .reader
  write : s.lock.write = s.count .writer
  one : s.count .writer ≤ 1
  apart : ∀ t t' : τ, s.pc t = .writing → s.pc t' ≠ .reading

namespace RwInv

variable {s s' : RwSystem τ} {t t' : τ} {k : RwToken} {lock : RwLock} {pc : RwPc}

omit [DecidableEq τ] in
theorem count_idle (h : ∀ t : τ, (s.pc t).tokens = 0) (k : RwToken) : s.count k = 0 := by
  have hnone : holdings RwPc.tokens s.pc = 0 := Finset.sum_eq_zero fun t _ ↦ h t
  rw [RwSystem.count, hnone]
  rfl

omit [DecidableEq τ] in
theorem init : RwInv (RwSystem.init : RwSystem τ) := by
  have hzero := count_idle (s := (RwSystem.init : RwSystem τ)) fun _ ↦ rfl
  refine ⟨?_, ?_, ?_, fun _ _ ht ↦ (nomatch ht)⟩ <;> rw [hzero]
  · rfl
  · rfl
  · exact Nat.zero_le _

theorem count_pos (hmem : k ∈ (s.pc t).tokens) : 0 < s.count k :=
  Multiset.countP_pos_of_mem (mem_holdings RwPc.tokens s.pc hmem) rfl

private theorem count_update (s : RwSystem τ) (lock : RwLock) (t : τ) (pc : RwPc) (k : RwToken) :
    RwSystem.count ⟨lock, Function.update s.pc t pc⟩ k + (s.pc t).tokens.countP (· = k) =
      s.count k + pc.tokens.countP (· = k) := by
  rw [RwSystem.count, RwSystem.count, holdings_update, holdings_eq RwPc.tokens s.pc t,
    Multiset.countP_add, Multiset.countP_add]
  omega

/-- One thread moves, and it does not come to read or to write beside another one. -/
theorem apart_update (h : RwInv s) (lock : RwLock)
    (hwriting : pc = .writing → ∀ t', s.pc t' ≠ .reading)
    (hreading : pc = .reading → ∀ t', s.pc t' ≠ .writing) (t₁ t₂ : τ)
    (ht₁ : (⟨lock, Function.update s.pc t pc⟩ : RwSystem τ).pc t₁ = .writing) :
    (⟨lock, Function.update s.pc t pc⟩ : RwSystem τ).pc t₂ ≠ .reading := by
  dsimp only at ht₁ ⊢
  by_cases h₁ : t₁ = t
  · rw [h₁, Function.update_self] at ht₁
    by_cases h₂ : t₂ = t
    · rw [h₂, Function.update_self, ht₁]
      exact fun hn ↦ nomatch hn
    · rw [Function.update_of_ne h₂]
      exact hwriting ht₁ t₂
  · rw [Function.update_of_ne h₁] at ht₁
    by_cases h₂ : t₂ = t
    · rw [h₂, Function.update_self]
      exact fun hn ↦ hreading hn t₁ ht₁
    · rw [Function.update_of_ne h₂]
      exact h.apart t₁ t₂ ht₁

/-- A thread begins. -/
theorem call (h : RwInv s) (hidle : s.pc t = .idle) (hpc : pc = .rlockWait ∨ pc = .wlockSet) :
    RwInv { s with pc := Function.update s.pc t pc } := by
  have hsame : ∀ k, RwSystem.count ⟨s.lock, Function.update s.pc t pc⟩ k = s.count k := by
    intro k
    have hcount := count_update s s.lock t pc k
    rw [hidle] at hcount
    rcases hpc with rfl | rfl <;> exact hcount
  refine ⟨?_, ?_, ?_, h.apart_update s.lock ?_ ?_⟩
  · exact h.read.trans (congrArg Nat.cast (hsame .reader).symm)
  · exact h.write.trans (congrArg Nat.cast (hsame .writer).symm)
  · exact (hsame .writer).trans_le h.one
  · rintro rfl
    rcases hpc with hn | hn <;> cases hn
  · rintro rfl
    rcases hpc with hn | hn <;> cases hn

/-- The tokens of each kind change as the counters do. -/
theorem of_counts (h : RwInv s) {p : RwPc} (hpc : s.pc t = p)
    (hread : lock.read + p.tokens.countP (· = .reader) = s.lock.read +
    pc.tokens.countP (· = .reader))
    (hwrite : lock.write + p.tokens.countP (· = .writer) = s.lock.write +
    pc.tokens.countP (· = .writer))
    (hone : lock.write ≤ 1) (hwriting : pc = .writing → ∀ t', s.pc t' ≠ .reading)
    (hreading : pc = .reading → ∀ t', s.pc t' ≠ .writing) :
    RwInv (⟨lock, Function.update s.pc t pc⟩ : RwSystem τ) := by
  have hreaders := count_update s lock t pc .reader
  have hwriters := count_update s lock t pc .writer
  rw [hpc] at hreaders hwriters
  have hcounts := And.intro h.read h.write
  refine ⟨?_, ?_, ?_, h.apart_update lock hwriting hreading⟩
  · dsimp only
    omega
  · dsimp only
    omega
  · omega

theorem not_reading (h : RwInv s) (hzero : s.lock.read = 0) (t : τ) : s.pc t ≠ .reading := by
  intro ht
  have hpos : 0 < s.count .reader :=
    count_pos (t := t) (by rw [ht]; exact Multiset.mem_singleton_self _)
  have hread := h.read
  omega

theorem not_writing (h : RwInv s) (hzero : s.lock.write = 0) (t : τ) : s.pc t ≠ .writing := by
  intro ht
  have hpos : 0 < s.count .writer :=
    count_pos (t := t) (by rw [ht]; exact Multiset.mem_singleton_self _)
  have hwrite := h.write
  omega

private theorem write_eq_one (h : RwInv s) (ht : .writer ∈ (s.pc t).tokens) : s.lock.write = 1 := by
  have hpos := count_pos ht
  have hone := h.one
  have hwrite := h.write
  omega

omit [DecidableEq τ] in
theorem write_eq_zero_or (h : RwInv s) : s.lock.write = 0 ∨ s.lock.write = 1 := by
  have hone := h.one
  have hwrite := h.write
  omega

omit [DecidableEq τ] in
theorem write_le (h : RwInv s) : s.lock.write ≤ 1 := by
  rcases h.write_eq_zero_or with hw | hw
  · exact hw.trans_le Int.one_nonneg
  · exact hw.le

/-- One access. -/
theorem access (h : RwInv s) (hstep : s.lock.step (s.pc t) = some (lock, pc)) :
    RwInv (⟨lock, Function.update s.pc t pc⟩ : RwSystem τ) := by
  cases hpc : s.pc t <;> rw [hpc] at hstep
  case idle => cases hstep
  case rlockWait =>
    obtain ⟨rfl, rfl⟩ := Prod.mk.inj (Option.some.inj hstep)
    split
    all_goals exact h.of_counts hpc rfl rfl h.write_le (fun hn ↦ nomatch hn) fun hn ↦ nomatch hn
  case rlockAdd =>
    obtain ⟨rfl, rfl⟩ := Prod.mk.inj (Option.some.inj hstep)
    exact h.of_counts hpc (Int.add_zero _) rfl h.write_le (fun hn ↦ nomatch hn) fun hn ↦ nomatch hn
  case rlockTest =>
    obtain ⟨rfl, rfl⟩ := Prod.mk.inj (Option.some.inj hstep)
    by_cases hclear : s.lock.write = 0
    · -- the reader has been counted in before it finds the flag to be clear
      rw [if_neg (not_not.mpr hclear)]
      exact h.of_counts hpc rfl rfl h.write_le (fun hn ↦ nomatch hn)
        fun _ ↦ h.not_writing hclear
    · rw [if_pos hclear]
      exact h.of_counts hpc rfl rfl h.write_le (fun hn ↦ nomatch hn) fun hn ↦ nomatch hn
  case rlockBack | reading =>
    obtain ⟨rfl, rfl⟩ := Prod.mk.inj (Option.some.inj hstep)
    have hback : s.lock.read - 1 + 1 = s.lock.read + 0 :=
      (Int.sub_add_cancel s.lock.read 1).trans (Int.add_zero _).symm
    exact h.of_counts hpc hback rfl h.write_le (fun hn ↦ nomatch hn) fun hn ↦ nomatch hn
  case wlockSet =>
    obtain ⟨rfl, rfl⟩ := Prod.mk.inj (Option.some.inj hstep)
    rcases h.write_eq_zero_or with hclear | hset
    · rw [if_neg (not_not.mpr hclear)]
      exact h.of_counts hpc rfl (by rw [hclear]; rfl) (Int.le_refl 1) (fun hn ↦ nomatch hn)
        fun hn ↦ nomatch hn
    · rw [if_pos (by rw [hset]; decide)]
      exact h.of_counts hpc rfl (by rw [hset]) (Int.le_refl 1) (fun hn ↦ nomatch hn) fun hn ↦
        nomatch hn
  case wlockWait =>
    obtain ⟨rfl, rfl⟩ := Prod.mk.inj (Option.some.inj hstep)
    by_cases hzero : s.lock.read = 0
    · rw [if_neg (not_not.mpr hzero)]
      exact h.of_counts hpc rfl rfl h.write_le (fun _ ↦ h.not_reading hzero)
        fun hn ↦ nomatch hn
    · rw [if_pos hzero]
      exact h.of_counts hpc rfl rfl h.write_le (fun hn ↦ nomatch hn) fun hn ↦ nomatch hn
  case writing =>
    obtain ⟨rfl, rfl⟩ := Prod.mk.inj (Option.some.inj hstep)
    have hset := h.write_eq_one (t := t) (by rw [hpc]; exact Multiset.mem_singleton_self _)
    exact h.of_counts hpc rfl (by rw [hset]; rfl) Int.one_nonneg (fun hn ↦ nomatch hn) fun hn ↦
      nomatch hn

private theorem eq_of_writing (h : RwInv s) (ht : s.pc t = .writing) (ht' : s.pc t' = .writing) :
    t = t' := by
  by_contra hne
  have htwo := countP_two_le RwPc.tokens s.pc (· = .writer) hne (by rw [ht]; decide)
      (by rw [ht']; decide)
  exact absurd h.one (Nat.not_le_of_gt htwo)

end RwInv

/-- **The lock excludes.** In every state that threads reach which lock and unlock, however their
accesses interleave, nobody else reads or writes while a thread writes, and the counters are zero if
no thread is inside or on its way. -/
theorem rwlock_excludes {s : RwSystem τ} {tr : List (Event (RwSystem τ) (RwInput τ) Unit)}
    (hrun : Run rwlock .init tr s) :
    (∀ t t', t ≠ t' → s.pc t = .writing → s.pc t' ≠ .reading ∧ s.pc t' ≠ .writing) ∧
      ((∀ t, s.pc t = .idle) → s.lock.read = 0 ∧ s.lock.write = 0) := by
  have hinv : RwInv s := by
    refine hrun.invariant (C := fun _ _ ↦ True) RwInv .init ?_ fun _ _ ↦ trivial
    intro s i s' o h _ hstep
    -- a call only enters the loop; all else is one access of the lock
    rcases RwSystem.rwlock_cases hstep with ⟨t, pc, hidle, hpc, rfl⟩ | ⟨t, lock, pc, haccess, rfl⟩
    · exact h.call hidle hpc
    · exact h.access haccess
  refine ⟨fun t t' hne ht ↦ ⟨hinv.apart t t' ht, fun ht' ↦ hne (hinv.eq_of_writing ht ht')⟩,
    fun hidle ↦ ?_⟩
  have hzero := RwInv.count_idle (s := s) fun t ↦ by rw [hidle t]; rfl
  exact ⟨by rw [hinv.read, hzero]; rfl, by rw [hinv.write, hzero]; rfl⟩

/-- A reader counts itself in, finds the flag of a writer, and goes back; the writer comes in. -/
theorem rwlock_excludes_two : ∃ tr s, Run rwlock (.init : RwSystem (Fin 2)) tr s ∧
    s.pc 1 = .writing ∧ s.pc 0 ≠ .reading := by
  have hpasses : Passes rwlock (.init : RwSystem (Fin 2))
      [.rlock 0, .step 0, .step 0, .wlock 1, .step 1, .step 1, .step 0, .step 0, .step 1]
      fun _ s ↦ s.pc 1 = .writing := by
    decide +kernel
  obtain ⟨tr, s, hrun, hwriting⟩ := Run.of_passes hpasses
  exact ⟨tr, s, hrun, hwriting, ((rwlock_excludes hrun).1 1 0 (by decide) hwriting).1⟩

end ZTask
