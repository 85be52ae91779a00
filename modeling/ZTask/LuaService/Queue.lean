import ZTask.Lib.Machine
import Mathlib.Data.Int.Notation
import Mathlib.Data.List.Nodup
import Mathlib.Logic.Function.Basic

/-!
# Critical sections

The closure of one `ztask.queue()`, called by any number of coroutines. A coroutine that finds the
closure taken by another one parks in `ztask.wait`; the coroutine that leaves wakes the first of
those that are parked and hands the closure to it before it runs.

Between the hand-over and the moment at which the coroutine runs, nobody is inside and `ref` is 0,
but `current_thread` is already the next coroutine, which keeps all others out (`Held`). That the
assertion behind `ztask.wait` holds and that nobody is overtaken both come from this.
-/

namespace ZTask

open Lib

/-! ## The closure -/

/-- What a coroutine does, as far as the closure is concerned. -/
inductive Parked
  | running
  /-- It is in `ztask.wait`. -/
  | waiting
  /-- It has been woken, and does not run yet. -/
  | woken
  deriving DecidableEq

/-- The closure, with the number of its calls that each coroutine is in. -/
structure CsQueue (Co : Type) where
  currentThread : Option Co
  ref : ℤ
  threadQueue : List Co
  parked : Co → Parked
  inside : Co → ℕ

/-- What happens next: a coroutine that runs calls the closure, or `f` returns or raises an error in
its last call, or a coroutine runs again after it has been woken. -/
inductive CsInput (Co : Type)
  | call (thread : Co)
  | finish (thread : Co) (ok : Bool)
  | resume (thread : Co)
  deriving DecidableEq

/-- What becomes of a call. -/
inductive CsOutput
  | waits
  | enters
  | returns
  /-- The error is raised to the caller. -/
  | raises
  deriving DecidableEq

inductive CsFault
  /-- `assert(ref == 0)` fails. -/
  | assertion
  /-- The coroutine cannot do this now. -/
  | impossible
  deriving DecidableEq

namespace CsQueue

variable {Co : Type} [DecidableEq Co]

def init : CsQueue Co := ⟨none, 0, [], fun _ ↦ .running, fun _ ↦ 0⟩

/-- `f` is called. -/
def enter (m : CsQueue Co) (thread : Co) : CsQueue Co := { m with
  currentThread := some thread
  ref := m.ref + 1
  parked := Function.update m.parked thread .running
  inside := Function.update m.inside thread (m.inside thread + 1) }

/-- `ztask.wakeup`. -/
def wakeup (m : CsQueue Co) (thread : Co) : CsQueue Co :=
  { m with parked := Function.update m.parked thread .woken }

/-- `xpcall_ret`, up to `assert(ok, ...)`. -/
def leave (m : CsQueue Co) (thread : Co) : CsQueue Co :=
  let m := { m with
    ref := m.ref - 1
    inside := Function.update m.inside thread (m.inside thread - 1) }
  if m.ref = 0 then
    match m.threadQueue with
    | [] => { m with currentThread := none }
    | next :: threadQueue =>
      { m with currentThread := some next, threadQueue := threadQueue }.wakeup next
  else m

end CsQueue

/-- The closure and the coroutines that call it. -/
def csQueue {Co : Type} [DecidableEq Co] : Machine (CsQueue Co) (CsInput Co) CsOutput CsFault :=
  fun m i ↦
    match i with
    | .call thread =>
      if m.parked thread ≠ .running then .error .impossible
      else if m.currentThread.any (· ≠ thread) then
        .ok ({ m with
          threadQueue := m.threadQueue ++ [thread]
          parked := Function.update m.parked thread .waiting }, .waits)
      else .ok (m.enter thread, .enters)
    | .finish thread ok =>
      if m.parked thread ≠ .running ∨ m.inside thread = 0 then .error .impossible
      else .ok (m.leave thread, if ok then .returns else .raises)
    | .resume thread =>
      if m.parked thread ≠ .woken then .error .impossible
      else if m.ref ≠ 0 then .error .assertion
      else .ok (m.enter thread, .enters)

abbrev CsEvent (Co : Type) := Event (CsQueue Co) (CsInput Co) CsOutput

namespace CsQueue

variable {Co : Type} {m m' : CsQueue Co} {thread t : Co}

/-! ## The invariant -/

/-- The current coroutine is in the closure, `ref` calls deep, or has been handed it; nobody else is
in it or woken, and the others that wait are those in the queue. -/
structure Held (m : CsQueue Co) : Prop where
  idle : m.currentThread = none → m.ref = 0 ∧ m.threadQueue = []
  ref : ∀ t, m.currentThread = some t → m.ref = m.inside t
  current : ∀ t, m.currentThread = some t →
    0 < m.inside t ∧ m.parked t = .running ∨ m.inside t = 0 ∧ m.parked t = .woken
  others : ∀ t, m.currentThread ≠ some t → m.inside t = 0 ∧ m.parked t ≠ .woken
  waiting : ∀ t, m.parked t = .waiting ↔ t ∈ m.threadQueue
  nodup : m.threadQueue.Nodup

namespace Held

theorem start [DecidableEq Co] : Held (init : CsQueue Co) where
  idle _ := ⟨rfl, rfl⟩
  ref _ h := (nomatch h)
  current _ h := (nomatch h)
  others _ _ := ⟨rfl, fun h ↦ (nomatch h)⟩
  waiting _ := ⟨fun h ↦ (nomatch h), fun h ↦ (nomatch h)⟩
  nodup := .nil

private theorem eq_current (h : Held m) (ht : 0 < m.inside t) : m.currentThread = some t := by
  by_contra hne
  exact absurd (h.others t hne).1 (Nat.pos_iff_ne_zero.mp ht)

theorem woken (h : Held m) (ht : m.parked t = .woken) :
    m.currentThread = some t ∧ m.inside t = 0 ∧ m.ref = 0 := by
  have hcur : m.currentThread = some t := by
    by_contra hne
    exact (h.others t hne).2 ht
  rcases h.current t hcur with ⟨-, hrun⟩ | ⟨hin, -⟩
  · exact nomatch ht.symm.trans hrun
  · exact ⟨hcur, hin, by rw [h.ref t hcur, hin]; rfl⟩

private theorem ref_eq_zero (h : Held m) (hnobody : ∀ t, m.inside t = 0) : m.ref = 0 := by
  cases hcur : m.currentThread with
  | none => exact (h.idle hcur).1
  | some t => rw [h.ref t hcur, hnobody t]; rfl

/-! ## The steps keep it -/

variable [DecidableEq Co]

/-- The closure is taken by another coroutine. -/
theorem block (h : Held m) (hrun : m.parked thread = .running)
    (hcur : m.currentThread.any (· ≠ thread) = true) :
    Held { m with
      threadQueue := m.threadQueue ++ [thread]
      parked := Function.update m.parked thread .waiting } := by
  obtain ⟨c, hc, hne⟩ : ∃ c, m.currentThread = some c ∧ c ≠ thread := by
    cases hcur' : m.currentThread with
    | none => rw [hcur'] at hcur; exact nomatch hcur
    | some c => rw [hcur'] at hcur; exact ⟨c, rfl, of_decide_eq_true hcur⟩
  have hnew : thread ∉ m.threadQueue := fun hmem ↦
    nomatch hrun.symm.trans ((h.waiting thread).mpr hmem)
  refine ⟨fun hnone ↦ (nomatch hc.symm.trans hnone), h.ref, fun t ht ↦ ?_, fun t ht ↦ ?_,
    fun t ↦ ?_, ?_⟩
  · have htc : t ≠ thread := fun heq ↦ hne (Option.some.inj (hc.symm.trans (heq ▸ ht)))
    dsimp only
    rw [Function.update_of_ne htc]
    exact h.current t ht
  · refine ⟨(h.others t ht).1, ?_⟩
    dsimp only
    by_cases htt : t = thread
    · rw [htt, Function.update_self]
      exact fun hw ↦ nomatch hw
    · rw [Function.update_of_ne htt]
      exact (h.others t ht).2
  · dsimp only
    rw [List.mem_append, List.mem_singleton]
    by_cases htt : t = thread
    · rw [htt, Function.update_self]
      exact iff_of_true rfl (Or.inr rfl)
    · rw [Function.update_of_ne htt, h.waiting t]
      exact (or_iff_left htt).symm
  · exact List.nodup_append.mpr ⟨h.nodup, List.pairwise_singleton _ _, fun t ht t' ht' heq ↦
      hnew (List.mem_singleton.mp ht' ▸ heq ▸ ht)⟩

/-- A coroutine gets in that is in already, or finds the closure free, or has been handed it. -/
theorem enter (h : Held m) (hwait : m.parked thread ≠ .waiting)
    (hcur : m.currentThread = none ∨ m.currentThread = some thread) : Held (m.enter thread) := by
  have hothers : ∀ t, t ≠ thread → m.currentThread ≠ some t := by
    intro t ht hc
    rcases hcur with hnone | hsome
    · exact nomatch hnone.symm.trans hc
    · exact ht (Option.some.inj (hc.symm.trans hsome))
  refine ⟨fun hnone ↦ (nomatch hnone), fun t ht ↦ ?_, fun t ht ↦ ?_, fun t ht ↦ ?_,
    fun t ↦ ?_, h.nodup⟩
  · obtain rfl := Option.some.inj ht
    dsimp only [CsQueue.enter]
    rw [Function.update_self]
    rcases hcur with hnone | hsome
    · rw [(h.idle hnone).1, (h.others thread fun hs ↦ nomatch hnone.symm.trans hs).1]
      rfl
    · rw [h.ref thread hsome]
      rfl
  · obtain rfl := Option.some.inj ht
    dsimp only [CsQueue.enter]
    rw [Function.update_self, Function.update_self]
    exact Or.inl ⟨Nat.succ_pos _, rfl⟩
  · have htt : t ≠ thread := fun heq ↦ ht (heq ▸ rfl)
    dsimp only [CsQueue.enter]
    rw [Function.update_of_ne htt, Function.update_of_ne htt]
    exact h.others t (hothers t htt)
  · dsimp only [CsQueue.enter]
    by_cases htt : t = thread
    · rw [htt, Function.update_self, ← h.waiting thread]
      exact iff_of_false (fun hr ↦ nomatch hr) hwait
    · rw [Function.update_of_ne htt]
      exact h.waiting t

/-- A call ends. -/
theorem leave (h : Held m) (hin : 0 < m.inside thread) : Held (m.leave thread) := by
  have hcur := h.eq_current hin
  have hrun : m.parked thread = .running := by
    rcases h.current thread hcur with ⟨-, hrun⟩ | ⟨hzero, -⟩
    · exact hrun
    · omega
  have href := h.ref thread hcur
  have hnobody : ∀ t, t ≠ thread → m.inside t = 0 ∧ m.parked t ≠ .woken := fun t ht ↦
    h.others t fun hc ↦ ht (Option.some.inj (hc.symm.trans hcur))
  rw [CsQueue.leave]
  dsimp only
  -- the outermost call hands over to the next in line, an inner one only counts down
  by_cases hzero : m.ref - 1 = 0
  · rw [if_pos hzero]
    have hone : m.inside thread - 1 = 0 := by omega
    have hall : ∀ t, Function.update m.inside thread (m.inside thread - 1) t = 0 := by
      intro t
      by_cases htt : t = thread
      · rw [htt, Function.update_self, hone]
      · rw [Function.update_of_ne htt]
        exact (hnobody t htt).1
    cases hqueue : m.threadQueue with
    | nil =>
      have hwaiting := h.waiting
      have hnodup := h.nodup
      rw [hqueue] at hwaiting hnodup
      refine ⟨fun _ ↦ ⟨hzero, rfl⟩, fun _ hs ↦ (nomatch hs), fun _ hs ↦ (nomatch hs), fun t _ ↦ ?_,
        hwaiting, hnodup⟩
      refine ⟨hall t, ?_⟩
      by_cases htt : t = thread
      · rw [htt]
        exact fun hw ↦ nomatch hrun.symm.trans hw
      · exact (hnobody t htt).2
    | cons next rest =>
      have hnodup := h.nodup
      rw [hqueue, List.nodup_cons] at hnodup
      refine ⟨fun hs ↦ (nomatch hs), fun t _ ↦ ?_, fun t ht ↦ ?_, fun t ht ↦ ?_,
        fun t ↦ ?_, hnodup.2⟩
      · dsimp only [wakeup]
        rw [hzero, hall t]
        rfl
      · obtain rfl := Option.some.inj ht
        dsimp only [wakeup]
        rw [Function.update_self, hall next]
        exact Or.inr ⟨rfl, rfl⟩
      · have htn : t ≠ next := fun heq ↦ ht (heq ▸ rfl)
        dsimp only [wakeup]
        rw [Function.update_of_ne htn]
        refine ⟨hall t, ?_⟩
        by_cases htt : t = thread
        · rw [htt]
          exact fun hw ↦ nomatch hrun.symm.trans hw
        · exact (hnobody t htt).2
      · dsimp only [wakeup]
        by_cases htn : t = next
        · rw [htn, Function.update_self]
          exact iff_of_false (fun hw ↦ nomatch hw) hnodup.1
        · rw [Function.update_of_ne htn, h.waiting t, hqueue, List.mem_cons]
          exact or_iff_right htn
  · rw [if_neg hzero]
    refine ⟨fun hs ↦ (nomatch hcur.symm.trans hs), fun t ht ↦ ?_, fun t ht ↦ ?_, fun t ht ↦ ?_,
      h.waiting, h.nodup⟩
    · obtain rfl := Option.some.inj (hcur.symm.trans ht)
      dsimp only
      rw [Function.update_self]
      omega
    · obtain rfl := Option.some.inj (hcur.symm.trans ht)
      dsimp only
      rw [Function.update_self]
      exact Or.inl ⟨by omega, hrun⟩
    · have htt : t ≠ thread := fun heq ↦ ht (heq ▸ hcur)
      dsimp only
      rw [Function.update_of_ne htt]
      exact hnobody t htt

end Held

variable [DecidableEq Co] {i : CsInput Co} {o : CsOutput} {ok : Bool}

/-! ## One step -/

/-- What a step is: a call that waits, a call that gets in, one that has been handed the closure and
gets in, or the end of a call. -/
theorem csQueue_cases (h : csQueue m i = .ok (m', o)) :
    (∃ t, i = .call t ∧ m.parked t = .running ∧ m.currentThread.any (· ≠ t) = true ∧ o = .waits ∧
      m' = { m with
        threadQueue := m.threadQueue ++ [t]
        parked := Function.update m.parked t .waiting }) ∨
    (∃ t, i = .call t ∧ m.parked t = .running ∧
      (m.currentThread = none ∨ m.currentThread = some t) ∧ o = .enters ∧ m' = m.enter t) ∨
    (∃ t, i = .resume t ∧ m.parked t = .woken ∧ m.ref = 0 ∧ o = .enters ∧ m' = m.enter t) ∨
    ∃ t ok, i = .finish t ok ∧ m.parked t = .running ∧ 0 < m.inside t ∧
      o = (if ok then .returns else .raises) ∧ m' = m.leave t := by
  cases i with
  | call t =>
    dsimp only [csQueue] at h
    by_cases hrun : m.parked t = .running
    · rw [if_neg (not_not.mpr hrun)] at h
      split at h
      next hcur =>
        obtain ⟨rfl, rfl⟩ := Prod.mk.inj (Except.ok.inj h)
        exact Or.inl ⟨t, rfl, hrun, hcur, rfl, rfl⟩
      next hcur =>
        obtain ⟨rfl, rfl⟩ := Prod.mk.inj (Except.ok.inj h)
        refine Or.inr (Or.inl ⟨t, rfl, hrun, ?_, rfl, rfl⟩)
        cases hc : m.currentThread with
        | none => exact Or.inl rfl
        | some c =>
          rw [hc] at hcur
          exact Or.inr (congrArg some (not_not.mp fun hne ↦ hcur (decide_eq_true hne)))
    · rw [if_pos hrun] at h
      cases h
  | finish t ok =>
    dsimp only [csQueue] at h
    by_cases hrun : m.parked t ≠ .running ∨ m.inside t = 0
    · rw [if_pos hrun] at h
      cases h
    · rw [if_neg hrun] at h
      obtain ⟨hpark, hin⟩ := not_or.mp hrun
      obtain ⟨rfl, rfl⟩ := Prod.mk.inj (Except.ok.inj h)
      exact Or.inr (Or.inr (Or.inr ⟨t, ok, rfl, not_not.mp hpark,
        Nat.pos_of_ne_zero hin, rfl, rfl⟩))
  | resume t =>
    dsimp only [csQueue] at h
    by_cases hwoken : m.parked t = .woken
    · rw [if_neg (not_not.mpr hwoken)] at h
      by_cases href : m.ref = 0
      · rw [if_neg (not_not.mpr href)] at h
        obtain ⟨rfl, rfl⟩ := Prod.mk.inj (Except.ok.inj h)
        exact Or.inr (Or.inr (Or.inl ⟨t, rfl, hwoken, href, rfl, rfl⟩))
      · rw [if_pos href] at h
        cases h
    · rw [if_pos hwoken] at h
      cases h

theorem Held.step (h : Held m) (hm : csQueue m i = .ok (m', o)) : Held m' := by
  rcases csQueue_cases hm with ⟨t, -, hrun, hcur, -, rfl⟩ | ⟨t, -, hrun, hcur, -, rfl⟩ |
    ⟨t, -, hwoken, -, -, rfl⟩ | ⟨t, ok, -, -, hin, -, rfl⟩
  · exact h.block hrun hcur
  · exact h.enter (fun hw ↦ nomatch hrun.symm.trans hw) hcur
  · exact h.enter (fun hw ↦ nomatch hwoken.symm.trans hw) (Or.inr (h.woken hwoken).1)
  · exact h.leave hin

/-! ## The order of the waiters -/

/-- The coroutines whose calls have waited, in order. -/
def blocked (tr : List (CsEvent Co)) : List Co :=
  tr.filterMap fun e ↦
    match e.input, e.output with
    | .call t, .waits => some t
    | _, _ => none

/-- The coroutines that have been admitted after waiting, in order. -/
def admitted (tr : List (CsEvent Co)) : List Co :=
  tr.filterMap fun e ↦
    match e.input with
    | .resume t => some t
    | _ => none

/-- The coroutines that are still to be admitted: one that has been woken, and the queue. -/
def pending (m : CsQueue Co) : List Co :=
  (m.currentThread.filter fun t ↦ decide (m.parked t = .woken)).toList ++ m.threadQueue

omit [DecidableEq Co] in
theorem pending_of_woken {t : Co} (hcur : m.currentThread = some t) (hwoken : m.parked t = .woken) :
    m.pending = t :: m.threadQueue := by
  rw [pending, hcur, Option.filter_some, decide_eq_true hwoken]
  rfl

omit [DecidableEq Co] in
theorem pending_of_current {t : Co} (hcur : m.currentThread = some t)
    (hrun : m.parked t ≠ .woken) : m.pending = m.threadQueue := by
  rw [pending, hcur, Option.filter_some, decide_eq_false hrun]
  rfl

omit [DecidableEq Co] in
theorem pending_of_none (hcur : m.currentThread = none) : m.pending = m.threadQueue := by
  rw [pending, hcur]
  rfl

private theorem pending_block {c t : Co} (hcur : m.currentThread = some c) (hne : c ≠ t) :
    ({ m with
      threadQueue := m.threadQueue ++ [t]
      parked := Function.update m.parked t .waiting } : CsQueue Co).pending = m.pending ++ [t] := by
  by_cases hwoken : m.parked c = .woken
  · rw [pending_of_woken hcur hwoken]
    exact pending_of_woken hcur ((Function.update_of_ne hne _ _).trans hwoken)
  · rw [pending_of_current hcur hwoken]
    refine pending_of_current hcur fun hw ↦ hwoken ?_
    exact (Function.update_of_ne hne _ _).symm.trans hw

private theorem pending_enter (t : Co) : (m.enter t).pending = m.threadQueue := by
  refine pending_of_current (m := m.enter t) rfl ?_
  rw [enter]
  dsimp only
  rw [Function.update_self]
  exact fun hw ↦ nomatch hw

/-- Who leaves wakes the first of those that wait, and nobody else is passed over. -/
theorem Held.pending_leave {t : Co} (h : Held m) (hin : 0 < m.inside t)
    (hrun : m.parked t = .running) : (m.leave t).pending = m.threadQueue := by
  have hcur := h.eq_current hin
  rw [CsQueue.leave]
  dsimp only
  split
  · cases hqueue : m.threadQueue with
    | nil => exact pending_of_none rfl
    | cons next rest =>
      refine pending_of_woken (m := CsQueue.wakeup _ next) rfl ?_
      exact Function.update_self next _ _
  · exact pending_of_current hcur fun hw ↦ nomatch hrun.symm.trans hw

/-- **The order of admission** is that in which the calls have come. -/
theorem blocked_eq {tr : List (CsEvent Co)} (hrun : Run csQueue init tr m) :
    Held m ∧ blocked tr = admitted tr ++ m.pending := by
  refine hrun.ledger (fun tr m ↦ Held m ∧ blocked tr = admitted tr ++ m.pending) ⟨.start, rfl⟩ ?_
    (C := fun _ _ ↦ True) fun _ _ ↦ trivial
  rintro tr m i m' o - ⟨h, horder⟩ - hm
  refine ⟨h.step hm, ?_⟩
  rw [blocked, admitted, List.filterMap_append, List.filterMap_append]
  rw [blocked, admitted] at horder
  rw [horder]
  rcases csQueue_cases hm with ⟨t, rfl, hrun, hcur, rfl, rfl⟩ | ⟨t, rfl, hrun, hcur, rfl, rfl⟩ |
    ⟨t, rfl, hwoken, -, rfl, rfl⟩ | ⟨t, ok, rfl, hrun, hin, rfl, rfl⟩
  · obtain ⟨c, hc, hne⟩ : ∃ c, m.currentThread = some c ∧ c ≠ t := by
      cases hcur' : m.currentThread with
      | none => rw [hcur'] at hcur; exact nomatch hcur
      | some c => rw [hcur'] at hcur; exact ⟨c, rfl, of_decide_eq_true hcur⟩
    rw [pending_block hc hne]
    simp only [List.filterMap_cons, List.filterMap_nil, List.append_nil, List.append_assoc]
  · have hpending : m.pending = m.threadQueue := by
      rcases hcur with hnone | hsome
      · exact pending_of_none hnone
      · exact pending_of_current hsome fun hw ↦ nomatch hrun.symm.trans hw
    rw [pending_enter, hpending]
    simp only [List.filterMap_cons, List.filterMap_nil, List.append_nil]
  · rw [pending_enter, pending_of_woken (h.woken hwoken).1 hwoken]
    simp only [List.filterMap_cons, List.filterMap_nil, List.append_nil, List.append_assoc,
      List.singleton_append]
  · have hpending := pending_of_current (h.eq_current hin) fun hw ↦ nomatch hrun.symm.trans hw
    rw [h.pending_leave hin hrun, hpending]
    simp only [List.filterMap_cons, List.filterMap_nil, List.append_nil]

/-! ## The critical section -/

theorem Held.handOver {t next : Co} {rest : List Co} (h : Held m) (hone : m.inside t = 1)
    (hqueue : m.threadQueue = next :: rest) :
    (m.leave t).parked next = .woken ∧ (m.leave t).threadQueue = rest := by
  have href := h.ref t (h.eq_current (by omega))
  rw [CsQueue.leave]
  dsimp only
  rw [if_pos (by omega), hqueue]
  exact ⟨Function.update_self next _ _, rfl⟩

theorem Held.admits {t : Co} (h : Held m) (hwoken : m.parked t = .woken) :
    csQueue m (.resume t) = .ok (m.enter t, .enters) := by
  dsimp only [csQueue]
  rw [if_neg (not_not.mpr hwoken), if_neg (not_not.mpr (h.woken hwoken).2.2)]

end CsQueue

end ZTask
