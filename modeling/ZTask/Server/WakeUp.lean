import Mathlib.Data.Int.Notation
import Mathlib.Data.List.FinRange
import ZTask.Lib.Machine

/-!
# Sleeping workers and their wake-up

The idle path of `thread_worker` in `ztask_start.c`, over the primitives of `thread.c`. The mutex is
a lock, the condition a completion port: a count of the signals posted and not yet taken.
`ztask_cond_wait` takes a signal and leaves the mutex alone, so that a worker sleeps with the mutex
held. The others then stop at `ztask_mutex_lock` and are not counted by `sleep`, which `wakeup`
reads: with two workers or more it takes the monitor for busy and posts nothing.

`quit` is set when the last service is gone, and is left out.
-/

namespace ZTask

open Lib

/-- Where a worker is. -/
inductive WorkerPc
  /-- Outside the idle path, in `ztask_context_message_dispatch`. -/
  | dispatch
  /-- `ztask_mutex_lock` -/
  | lock
  /-- `++m->sleep` -/
  | fallAsleep
  /-- `ztask_cond_wait` -/
  | condWait
  /-- `--m->sleep` -/
  | awake
  /-- `ztask_mutex_unlock` -/
  | unlock
deriving DecidableEq, Repr

/-- `struct monitor`, with `n` for `count`, and the threads around it. -/
structure Monitor (n : ℕ) where
  sleep : ℕ
  /-- The worker that holds `mutex`. -/
  mutex : Option (Fin n)
  /-- The signals in the completion port `cond`. -/
  cond : ℕ
  pc : Fin n → WorkerPc
  /-- The calls of `wakeup` that have read `sleep` and are about to post a signal. -/
  waking : ℕ

namespace Monitor

variable {n : ℕ}

def init (n : ℕ) : Monitor n := ⟨0, none, 0, fun _ ↦ .dispatch, 0⟩

def goto (m : Monitor n) (i : Fin n) (p : WorkerPc) : Monitor n :=
  { m with pc := Function.update m.pc i p }

end Monitor

/-- What happens next. -/
inductive MonitorInput (n : ℕ)
  /-- A worker does its next step; whether `ztask_context_message_dispatch` returns a queue. -/
  | worker (i : Fin n) (found : Bool)
  /-- A socket, timer or http thread calls `wakeup`. -/
  | wakeup (busy : ℤ)
  /-- One that has called it posts the signal. -/
  | signal
deriving DecidableEq, Repr

/-- Why nothing happens. -/
inductive MonitorFault
  /-- The worker waits. -/
  | blocked
  /-- No signal is to be posted. -/
  | idle
deriving DecidableEq, Repr

/-- The next step of `thread_worker`. -/
def threadWorker {n : ℕ} (m : Monitor n) (i : Fin n) (found : Bool) : Option (Monitor n) :=
  match m.pc i with
  | .dispatch => some (if found then m else m.goto i .lock)
  | .lock => if m.mutex = none then some { m.goto i .fallAsleep with mutex := some i } else none
  | .fallAsleep => some { m.goto i .condWait with sleep := m.sleep + 1 }
  | .condWait => if 0 < m.cond then some { m.goto i .awake with cond := m.cond - 1 } else none
  | .awake => some { m.goto i .unlock with sleep := m.sleep - 1 }
  | .unlock => some { m.goto i .dispatch with mutex := none }

/-- The workers and the threads that wake them. -/
def workers (n : ℕ) : Machine (Monitor n) (MonitorInput n) Unit MonitorFault := fun m input ↦
  match input with
  | .worker i found =>
    match threadWorker m i found with
    | some m' => .ok (m', ())
    | none => .error .blocked
  | .wakeup busy => .ok (if (m.sleep : ℤ) ≥ n - busy then { m with waking := m.waking + 1 } else m,
      ())
  | .signal =>
    if 0 < m.waking then .ok ({ m with waking := m.waking - 1, cond := m.cond + 1 }, ())
    else .error .idle

namespace Monitor

variable {n : ℕ}

/-- All workers have found no message, none can go on, and no signal is queued. -/
structure Stuck (m : Monitor n) : Prop where
  idle : ∀ i, m.pc i ≠ .dispatch
  blocked : ∀ i found, threadWorker m i found = none
  quiet : m.cond = 0

/-- A call of `wakeup` with no one busy posts a signal, and some worker goes on with it. -/
structure Wakes (m : Monitor n) : Prop where
  all : m.sleep = n
  resumes : ∃ i found, threadWorker { m with cond := m.cond + 1 } i found ≠ none

/-! ## The mutex -/

/-- The program points between `ztask_mutex_lock` and `ztask_mutex_unlock`. -/
def holds : WorkerPc → Bool
  | .dispatch | .lock => false
  | .fallAsleep | .condWait | .awake | .unlock => true

/-- The program points at which a worker is counted by `sleep`. -/
def asleep : WorkerPc → Bool
  | .condWait | .awake => true
  | .dispatch | .lock | .fallAsleep | .unlock => false

/-- Whoever is past `ztask_mutex_lock` holds the mutex, and no one else is counted as asleep. -/
structure Exclusive (m : Monitor n) : Prop where
  owner : ∀ i, m.mutex = some i ↔ holds (m.pc i) = true
  counted : m.sleep = m.mutex.elim 0 fun i ↦ if asleep (m.pc i) then 1 else 0

private theorem exclusive_init (n : ℕ) : (init n).Exclusive where
  owner i := by simp [init, holds]
  counted := rfl

@[simp] theorem goto_pc_self (m : Monitor n) (i : Fin n) (p : WorkerPc) :
    (m.goto i p).pc i = p := by
  simp only [goto, Function.update_self]

private theorem goto_pc_ne (m : Monitor n) {i j : Fin n} (p : WorkerPc) (h : j ≠ i) :
    (m.goto i p).pc j = m.pc j := by
  simp only [goto, Function.update_of_ne h]

variable {m m' : Monitor n} {i : Fin n} {found : Bool}

/-- A step of the worker that holds the mutex, and keeps it. -/
theorem Exclusive.hold (h : m.Exclusive) (hmutex : m.mutex = some i) {p : WorkerPc} {sleep cond : ℕ}
    (hp : holds p = true) (hsleep : sleep = if asleep p then 1 else 0) :
    Exclusive { m.goto i p with sleep := sleep, cond := cond } where
  owner j := by
    by_cases hij : j = i
    · subst hij
      simp only [goto_pc_self, hp, iff_true]
      exact hmutex
    · simp only [goto_pc_ne m p hij]
      exact h.owner j
  counted := by
    change sleep = m.mutex.elim 0 fun j ↦ if asleep ((m.goto i p).pc j) then 1 else 0
    rw [hmutex, Option.elim_some, goto_pc_self]
    exact hsleep

/-- **A step** of a worker keeps the mutex exclusive. -/
theorem Exclusive.worker (h : m.Exclusive) (hstep : threadWorker m i found = some m') :
    m'.Exclusive := by
  rw [threadWorker] at hstep
  have howner := h.owner i
  have hcounted := h.counted
  -- one case for each line of `thread_worker`; only `lock` and `unlock` move the mutex
  cases hpc : m.pc i with
  | dispatch =>
    simp only [hpc, Option.some.injEq] at hstep
    subst hstep
    split
    · exact h
    · -- outside the critical section the worker does not hold the mutex
      have hfree : m.mutex ≠ some i := fun heq ↦ by
        rw [hpc] at howner
        cases howner.mp heq
      refine ⟨fun j ↦ ?_, ?_⟩
      · by_cases hij : j = i
        · subst hij
          simp only [goto_pc_self]
          exact ⟨fun heq ↦ (hfree heq).elim, fun hh ↦ (nomatch hh)⟩
        · rw [goto_pc_ne m _ hij]
          exact h.owner j
      · change m.sleep = m.mutex.elim 0 fun j ↦ if asleep ((m.goto i .lock).pc j) then 1 else 0
        rw [hcounted]
        cases hmutex : m.mutex with
        | none => rfl
        | some j =>
          rw [Option.elim_some, Option.elim_some,
            goto_pc_ne m _ fun heq ↦ hfree (by rw [hmutex, heq])]
  | lock =>
    simp only [hpc] at hstep
    split at hstep
    next hfree =>
      cases hstep
      refine ⟨fun j ↦ ?_, ?_⟩
      · by_cases hij : j = i
        · subst hij
          simp [holds]
        · have hj := h.owner j
          rw [hfree] at hj
          change some i = some j ↔ holds ((m.goto i .fallAsleep).pc j) = true
          rw [goto_pc_ne m _ hij]
          exact ⟨fun heq ↦ (hij (Option.some.inj heq).symm).elim, fun hh ↦ (nomatch hj.mpr hh)⟩
      · change m.sleep = if asleep ((m.goto i .fallAsleep).pc i) then 1 else 0
        rw [hcounted, hfree, goto_pc_self]
        rfl
    next => cases hstep
  | fallAsleep =>
    simp only [hpc, Option.some.injEq] at hstep
    subst hstep
    have hmutex := howner.mpr (by rw [hpc]; rfl)
    rw [hmutex, Option.elim_some, hpc] at hcounted
    exact h.hold hmutex rfl (by rw [hcounted]; rfl)
  | condWait =>
    simp only [hpc] at hstep
    split at hstep
    · cases hstep
      have hmutex := howner.mpr (by rw [hpc]; rfl)
      rw [hmutex, Option.elim_some, hpc] at hcounted
      exact h.hold hmutex rfl hcounted
    · cases hstep
  | awake =>
    simp only [hpc, Option.some.injEq] at hstep
    subst hstep
    have hmutex := howner.mpr (by rw [hpc]; rfl)
    rw [hmutex, Option.elim_some, hpc] at hcounted
    exact h.hold hmutex rfl (by rw [hcounted]; rfl)
  | unlock =>
    simp only [hpc, Option.some.injEq] at hstep
    subst hstep
    have hmutex := howner.mpr (by rw [hpc]; rfl)
    rw [hmutex, Option.elim_some, hpc] at hcounted
    refine ⟨fun j ↦ ?_, ?_⟩
    · change none = some j ↔ holds ((m.goto i .dispatch).pc j) = true
      by_cases hij : j = i
      · subst hij
        simp [holds]
      · rw [goto_pc_ne m _ hij, ← h.owner j, hmutex]
        exact ⟨fun heq ↦ (nomatch heq), fun heq ↦ (hij (Option.some.inj heq).symm).elim⟩
    · exact hcounted

/-- **A step** keeps the mutex exclusive. -/
theorem Exclusive.step (h : m.Exclusive) {input : MonitorInput n}
    (hstep : workers n m input = .ok (m', ())) : m'.Exclusive := by
  cases input with
  | worker i found =>
    simp only [workers] at hstep
    cases hworker : threadWorker m i found with
    | none =>
      rw [hworker] at hstep
      cases hstep
    | some m₁ =>
      rw [hworker] at hstep
      cases hstep
      exact h.worker hworker
  | wakeup busy =>
    simp only [workers] at hstep
    cases hstep
    split
    · exact ⟨h.owner, h.counted⟩
    · exact h
  | signal =>
    simp only [workers] at hstep
    split at hstep
    · cases hstep
      exact ⟨h.owner, h.counted⟩
    · cases hstep

variable {tr : List (Event (Monitor n) (MonitorInput n) Unit)}

private theorem exclusive (hrun : Run (workers n) (init n) tr m) : m.Exclusive :=
  hrun.invariant (C := fun _ _ ↦ True) Exclusive (exclusive_init n)
    (fun hs _ hm ↦ hs.step hm) fun _ _ ↦ trivial

theorem sleep_le_one (hrun : Run (workers n) (init n) tr m) : m.sleep ≤ 1 := by
  rw [(exclusive hrun).counted]
  cases m.mutex with
  | none => exact Nat.zero_le 1
  | some i =>
    rw [Option.elim_some]
    split
    · exact Nat.le_refl 1
    · exact Nat.zero_le 1

/-! ## A single worker -/

/-- A worker that is stopped for good waits for a signal. -/
theorem Stuck.condWait (h : m.Stuck) (hfree : m.mutex = none ∨ m.mutex = some i) :
    m.pc i = .condWait ∨ (m.pc i = .lock ∧ m.mutex = some i) := by
  have hblocked := h.blocked i true
  rw [threadWorker] at hblocked
  cases hpc : m.pc i with
  | dispatch => exact (h.idle i hpc).elim
  | lock =>
    simp only [hpc] at hblocked
    split at hblocked
    next => cases hblocked
    next hne => exact .inr ⟨rfl, hfree.resolve_left hne⟩
  | condWait => exact .inl rfl
  | fallAsleep | awake | unlock =>
    simp only [hpc] at hblocked
    cases hblocked

private theorem wakes_of_one {m : Monitor 1} (h : m.Exclusive) (hstuck : m.Stuck) : m.Wakes := by
  have hfree : m.mutex = none ∨ m.mutex = some 0 := by
    cases hmutex : m.mutex with
    | none => exact .inl rfl
    | some i => exact .inr (congrArg some (Subsingleton.elim i 0))
  have hwait : m.pc 0 = .condWait := by
    rcases hstuck.condWait hfree with hwait | ⟨hlock, hmutex⟩
    · exact hwait
    · have hholds := (h.owner 0).mp hmutex
      rw [hlock] at hholds
      cases hholds
  have hmutex : m.mutex = some 0 := (h.owner 0).mpr (by rw [hwait]; rfl)
  refine ⟨?_, 0, true, ?_⟩
  · rw [h.counted, hmutex, Option.elim_some, hwait]
    rfl
  · simp only [threadWorker, hwait, if_pos (Nat.succ_pos m.cond)]
    exact Option.some_ne_none _

/-! ## Two workers or more -/

/-- Some of the workers have found no message. -/
def noneFound (l : List (Fin n)) : Monitor n :=
  ⟨0, none, 0, fun i ↦ if i ∈ l then .lock else .dispatch, 0⟩

private theorem run_noneFound (l : List (Fin n)) (hl : l.Nodup) :
    ∃ tr, Run (workers n) (init n) tr (noneFound l) := by
  induction l with
  | nil => exact ⟨[], .nil⟩
  | cons i l ih =>
    obtain ⟨hi, hl⟩ := List.nodup_cons.mp hl
    obtain ⟨tr, hrun⟩ := ih hl
    refine ⟨_, .snoc (i := .worker i false) (o := ()) hrun ?_⟩
    have hgoto : (noneFound l).goto i .lock = noneFound (i :: l) := by
      simp only [noneFound, goto, Monitor.mk.injEq, true_and, and_true]
      funext j
      by_cases hij : j = i
      · subst hij
        rw [Function.update_self, if_pos List.mem_cons_self]
      · rw [Function.update_of_ne hij]
        simp only [List.mem_cons, hij, false_or]
    simp only [workers, threadWorker, noneFound, if_neg hi]
    exact congrArg (fun m ↦ Except.ok (m, ())) hgoto

/-- One worker sleeps with the mutex held, the others wait for the mutex. -/
def lost (i : Fin n) : Monitor n :=
  ⟨1, some i, 0, fun j ↦ if j = i then .condWait else .lock, 0⟩

private theorem run_lost (i : Fin n) : ∃ tr, Run (workers n) (init n) tr (lost i) := by
  obtain ⟨tr, hrun⟩ := run_noneFound (List.finRange n) (List.nodup_finRange n)
  have hlock : workers n (noneFound (List.finRange n)) (.worker i false) =
      .ok ({ (noneFound (List.finRange n)).goto i .fallAsleep with mutex := some i }, ()) := by
    simp only [workers, threadWorker, noneFound, if_pos (List.mem_finRange i), if_true]
  have hsleep : workers n { (noneFound (List.finRange n)).goto i .fallAsleep with mutex := some i }
      (.worker i false) = .ok (lost i, ()) := by
    simp only [workers, threadWorker, goto_pc_self, Except.ok.injEq, Prod.mk.injEq, and_true]
    simp only [lost, goto, noneFound, Monitor.mk.injEq, true_and, and_true]
    funext j
    by_cases hij : j = i
    · subst hij
      rw [Function.update_self, if_pos rfl]
    · rw [Function.update_of_ne hij, Function.update_of_ne hij, if_neg hij,
        if_pos (List.mem_finRange j)]
  exact ⟨_, (hrun.snoc hlock).snoc hsleep⟩

private theorem stuck_lost (i : Fin n) : (lost i).Stuck where
  idle j := by
    simp only [lost]
    split <;> exact fun h ↦ (nomatch h)
  blocked j found := by
    by_cases hij : j = i
    · simp only [threadWorker, lost, if_pos hij, Nat.lt_irrefl, if_false]
    · simp only [threadWorker, lost, if_neg hij, reduceCtorEq, if_false]
  quiet := rfl

/-- **No wake-up is lost**, in every reachable state in which all workers are stopped, exactly when
there is one worker. -/
theorem wakes_iff_one (n : ℕ) :
    (∀ tr m, Run (workers n) (init n) tr m → m.Stuck → m.Wakes) ↔ n = 1 := by
  constructor
  · intro h
    by_contra hn
    cases n with
    -- with no worker at all the push wakes nobody
    | zero =>
      have hstuck : (init 0).Stuck := ⟨fun i ↦ i.elim0, fun i ↦ i.elim0, rfl⟩
      obtain ⟨i, -⟩ := (h [] _ .nil hstuck).resumes
      exact i.elim0
    -- all others wait for the mutex of the one that sleeps, so they are not asleep, unless there
    -- are none
    | succ n =>
      obtain ⟨tr, hrun⟩ := run_lost (0 : Fin (n + 1))
      have hsleep : 1 = n + 1 := (h tr _ hrun (stuck_lost 0)).all
      omega
  · rintro rfl tr m hrun hstuck
    exact wakes_of_one (exclusive hrun) hstuck

/-- With two workers a wake-up is lost. -/
theorem not_wakes : ¬ ∀ (n : ℕ) tr (m : Monitor n), 0 < n → Run (workers n) (init n) tr m →
    m.Stuck → m.Wakes := by
  intro h
  obtain ⟨tr, hrun⟩ := run_lost (0 : Fin 2)
  have hsleep : 1 = 2 := (h 2 tr _ (by decide) hrun (stuck_lost 0)).all
  cases hsleep

end Monitor

end ZTask
