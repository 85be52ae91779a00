import ZTask.Lib.Machine
import Mathlib.Logic.Function.Basic
import Mathlib.Data.List.Nodup

/-!
# Coroutines that resume coroutines

`coroutine.c`. A thread runs a coroutine that another one has resumed, which itself may have been
resumed by a third: the chain of the calls of `coroutine_resume` that have not returned. The key of
a thread always names the innermost coroutine of its chain (`Ok.cur`).

A coroutine is marked as running when it is first entered and as suspended when it yields, but not
as running when it is resumed again. Until then everything on a chain is running, and is not resumed
a second time; from then on it could be, in the middle of what its stack holds
(`chain_running_iff`).

A step goes from one point where a callback of the user runs to the next. `jump_fcontext` transfers
control as named; a jump to a context that is not where the coroutine has stopped is a fault.
-/

namespace ZTask

open Lib

/-- `COROUTINE_DEAD` to `COROUTINE_END`. -/
inductive CoroutineStatus
  | dead
  | ready
  | running
  | suspend
  | ended
deriving DecidableEq, Repr

/-- `struct coroutine_s`, as far as switching goes. -/
structure CoroutineS where
  status : CoroutineStatus
  cOld : Option ℕ
  /-- Its stack is in use, so `nfc` is not where it has stopped. -/
  live : Bool

/-- A call of `coroutine_resume` that has not returned: its argument, and its variable `old`. -/
structure ResumeFrame where
  co : ℕ
  old : Option ℕ
deriving DecidableEq

structure Coroutines where
  /-- The coroutines, by address. -/
  co : ℕ → Option CoroutineS
  /-- `cur_key`, by thread. -/
  curKey : ℕ → Option ℕ
  /-- The frames of a thread, innermost first. -/
  chain : ℕ → List ResumeFrame

inductive CoroutineFault
  /-- A coroutine that has been deleted is used. -/
  | dangling
  /-- `coroutine_yield` outside of any coroutine. -/
  | nullDeref
  /-- A jump into a stack that is in use, or out of a coroutine that is not the innermost. -/
  | wildJump
deriving DecidableEq, Repr

namespace Coroutines

def init : Coroutines := ⟨fun _ ↦ none, fun _ ↦ none, fun _ ↦ []⟩

/-- Overwrite the block at `c`. -/
def setCo (s : Coroutines) (c : ℕ) (x : Option CoroutineS) : Coroutines :=
  { s with co := Function.update s.co c x }

/-- The jump into a coroutine. One that has not run yet starts in `mainfunc`; the others go on
behind the jump in `coroutine_yield`. -/
def enter (x : CoroutineS) : CoroutineS :=
  match x.status with
  | .ready => { x with status := .running, live := true }
  | _ => { x with live := true }

/-- `coroutine_resume` of `c` goes on in `c`, which is `x` now. -/
def push (s : Coroutines) (thread c : ℕ) (x : CoroutineS) : Coroutines where
  co := Function.update s.co c (some x)
  curKey := Function.update s.curKey thread (some c)
  chain := Function.update s.chain thread (⟨c, s.curKey thread⟩ :: s.chain thread)

/-- `coroutine_resume`, up to the jump or to its end. -/
def resume (s : Coroutines) (thread : ℕ) : Option ℕ → Except CoroutineFault (Coroutines × Option ℕ)
  | none => .ok (s, some 0)
  | some c =>
    match s.co c with
    | none => .error .dangling
    | some x =>
      if x.status ≠ .suspend ∧ x.status ≠ .ready then .ok (s, some 0)
      else if x.live then .error .wildJump
      else .ok (s.push thread c (enter { x with cOld := s.curKey thread }), none)

/-- The jump out of the innermost coroutine of the thread and the rest of the `coroutine_resume`
that it returns to, with what that returns. -/
def leave (s : Coroutines) (thread : ℕ) (frame : ResumeFrame) (frames : List ResumeFrame)
    (x : CoroutineS) : Coroutines × Option ℕ :=
  ({ co := Function.update s.co frame.co (some { x with live := false })
     curKey := Function.update s.curKey thread frame.old
     chain := Function.update s.chain thread frames },
    some (if x.status = .ended then 1 else 0))

/-- `coroutine_yield`. -/
def yield (s : Coroutines) (thread : ℕ) : Except CoroutineFault (Coroutines × Option ℕ) :=
  match s.curKey thread with
  | none => .error .nullDeref
  | some cur =>
    match s.co cur with
    | none => .error .dangling
    | some x =>
      match s.chain thread with
      | [] => .error .wildJump
      | frame :: frames =>
        if frame.co = cur then
          -- the key is set to `c_old`, and by the `coroutine_resume` returned to to its `old`
          .ok (leave { s with curKey := Function.update s.curKey thread x.cOld } thread frame frames
            { x with status := .suspend })
        else .error .wildJump

/-- The callback of the innermost coroutine of the thread returns to `mainfunc`. -/
def finish (s : Coroutines) (thread : ℕ) : Except CoroutineFault (Coroutines × Option ℕ) :=
  match s.chain thread with
  | [] => .ok (s, none)
  | frame :: frames =>
    match s.co frame.co with
    | none => .error .dangling
    | some x => .ok (leave s thread frame frames { x with status := .ended })

/-- `coroutine_delete`. -/
def delete (s : Coroutines) (c : ℕ) : Except CoroutineFault (Coroutines × Option ℕ) :=
  match s.co c with
  | none => .error .dangling
  | some x => if x.status ≠ .ended then .ok (s, none) else .ok (s.setCo c none, none)

end Coroutines

/-- What the callbacks do. `coroutine_new` gets a block at `c`. -/
inductive CoroutineInput
  | create (c : ℕ)
  | resume (thread : ℕ) (c : Option ℕ)
  | yield (thread : ℕ)
  | finish (thread : ℕ)
  | delete (c : ℕ)
deriving DecidableEq, Repr

/-- The output is what a call of `coroutine_resume` returns. -/
def coroutines : Machine Coroutines CoroutineInput (Option ℕ) CoroutineFault
  | s, .create c => .ok (s.setCo c (some ⟨.ready, none, false⟩), none)
  | s, .resume thread c => s.resume thread c
  | s, .yield thread => s.yield thread
  | s, .finish thread => s.finish thread
  | s, .delete c => s.delete c

/-- `ztask_malloc` returns a block that is not in use. -/
def CoroutineInput.Allowed (s : Coroutines) : CoroutineInput → Prop
  | create c => (s.co c).isNone = true
  | _ => True

instance CoroutineInput.decidableAllowed (s : Coroutines) :
    ∀ i : CoroutineInput, Decidable (i.Allowed s)
  | .create c => inferInstanceAs (Decidable ((s.co c).isNone = true))
  | .resume _ _ | .yield _ | .finish _ | .delete _ => .isTrue trivial

/-- No coroutine is resumed that has yielded. -/
def CoroutineInput.Fresh (s : Coroutines) : CoroutineInput → Prop
  | resume _ (some c) => (s.co c).map (·.status) ≠ some .suspend
  | _ => True

instance CoroutineInput.decidableFresh (s : Coroutines) :
    ∀ i : CoroutineInput, Decidable (i.Fresh s)
  | .resume _ (some c) => inferInstanceAs (Decidable ((s.co c).map (·.status) ≠ some .suspend))
  | .create _ | .resume _ none | .yield _ | .finish _ | .delete _ => .isTrue trivial

/-! ## What holds of every chain -/

namespace Coroutines

/-- Each frame of a chain remembers the coroutine of the next one. -/
def Linked : List ResumeFrame → Prop
  | [] => True
  | frame :: frames => frame.old = frames.head?.map (·.co) ∧ Linked frames

/-- The coroutines on the chains exist and have been entered, none is on them twice, and the key of
a thread names the innermost. -/
structure Ok (s : Coroutines) : Prop where
  entered : ∀ t, ∀ f ∈ s.chain t, ∃ x, s.co f.co = some x ∧ x.live = true
  nodup : ∀ t, ((s.chain t).map (·.co)).Nodup
  apart : ∀ {t u}, ∀ f ∈ s.chain t, ∀ g ∈ s.chain u, f.co = g.co → t = u
  cur : ∀ t, s.curKey t = (s.chain t).head?.map (·.co)
  linked : ∀ t, Linked (s.chain t)
  ended : ∀ c x, s.co c = some x → x.status = .ended → x.live = false

variable {s s' : Coroutines} {thread : ℕ} {out : Option ℕ}

theorem ok_init : init.Ok where
  entered _ _ hf := nomatch hf
  nodup _ := .nil
  apart _ hf := nomatch hf
  cur _ := rfl
  linked _ := trivial
  ended _ _ hx := nomatch hx

theorem Ok.off_chain {c : ℕ} (hok : s.Ok) (hc : ∀ x, s.co c = some x → x.live = false) :
    ∀ t, ∀ f ∈ s.chain t, f.co ≠ c := by
  rintro t f hf rfl
  obtain ⟨x, hx, hlive⟩ := hok.entered t f hf
  rw [hc x hx] at hlive
  cases hlive

/-- A block off the chains may change as it likes. -/
theorem Ok.setCo {c : ℕ} {x : Option CoroutineS} (hok : s.Ok)
    (hc : ∀ t, ∀ f ∈ s.chain t, f.co ≠ c) (hx : ∀ y, x = some y → y.live = false) :
    (s.setCo c x).Ok where
  entered t f hf := by
    obtain ⟨y, hy, hylive⟩ := hok.entered t f hf
    exact ⟨y, (Function.update_of_ne (hc t f hf) ..).trans hy, hylive⟩
  nodup := hok.nodup
  apart := hok.apart
  cur := hok.cur
  linked := hok.linked
  ended d y hy hended := by
    simp only [Coroutines.setCo, Function.update_apply] at hy
    split at hy
    · exact hx y hy
    · exact hok.ended d y hy hended

theorem mem_push {c t : ℕ} {x : CoroutineS} {f : ResumeFrame}
    (hf : f ∈ (s.push thread c x).chain t) :
    (t = thread ∧ f = ⟨c, s.curKey thread⟩) ∨ f ∈ s.chain t := by
  simp only [push, Function.update_apply] at hf
  by_cases ht : t = thread
  · rw [if_pos ht] at hf
    rcases List.mem_cons.mp hf with hf | hf
    · exact .inl ⟨ht, hf⟩
    · exact .inr (ht ▸ hf)
  · rw [if_neg ht] at hf
    exact .inr hf

/-- **A coroutine is entered**: the frame goes on top of the chain of its thread. -/
theorem Ok.push {c : ℕ} {x : CoroutineS} (hok : s.Ok) (hc : ∀ t, ∀ f ∈ s.chain t, f.co ≠ c)
    (hlive : x.live = true) (hended : x.status ≠ .ended) : (s.push thread c x).Ok where
  entered t f hf := by
    rcases mem_push hf with ⟨-, rfl⟩ | hf
    · exact ⟨x, Function.update_self .., hlive⟩
    · obtain ⟨y, hy, hylive⟩ := hok.entered t f hf
      exact ⟨y, (Function.update_of_ne (hc t f hf) ..).trans hy, hylive⟩
  nodup t := by
    simp only [Coroutines.push, Function.update_apply]
    split
    · refine List.nodup_cons.mpr ⟨?_, hok.nodup thread⟩
      intro hin
      obtain ⟨f, hf, hfc⟩ := List.mem_map.mp hin
      exact hc thread f hf hfc
    · exact hok.nodup t
  apart := by
    intro t u f hf g hg heq
    rcases mem_push hf with ⟨ht, hnew⟩ | hf
    · rcases mem_push hg with ⟨hu, -⟩ | hg
      · exact ht.trans hu.symm
      · rw [hnew] at heq
        exact absurd heq.symm (hc u g hg)
    · rcases mem_push hg with ⟨-, hnew⟩ | hg
      · rw [hnew] at heq
        exact absurd heq (hc t f hf)
      · exact hok.apart f hf g hg heq
  cur t := by
    simp only [Coroutines.push, Function.update_apply]
    split
    · rfl
    · exact hok.cur t
  linked t := by
    simp only [Coroutines.push, Function.update_apply]
    split
    · exact ⟨hok.cur thread, hok.linked thread⟩
    · exact hok.linked t
  ended d y hy hy' := by
    simp only [Coroutines.push, Function.update_apply] at hy
    split at hy
    · cases hy
      exact absurd hy' hended
    · exact hok.ended d y hy hy'

section Leave

variable {frame : ResumeFrame} {frames : List ResumeFrame} {x : CoroutineS}

/-- The frames that are left are old ones, of other coroutines. -/
theorem Ok.mem_leave {t : ℕ} {f : ResumeFrame} (hok : s.Ok)
    (hchain : s.chain thread = frame :: frames)
    (hf : f ∈ (s.leave thread frame frames x).1.chain t) : f ∈ s.chain t ∧ f.co ≠ frame.co := by
  have hnodup := hok.nodup thread
  rw [hchain, List.map_cons] at hnodup
  simp only [leave, Function.update_apply] at hf
  by_cases ht : t = thread
  · rw [if_pos ht] at hf
    rw [ht, hchain]
    refine ⟨List.mem_cons_of_mem _ hf, ?_⟩
    intro heq
    exact (List.nodup_cons.mp hnodup).1 (List.mem_map.mpr ⟨f, hf, heq⟩)
  · rw [if_neg ht] at hf
    refine ⟨hf, ?_⟩
    intro heq
    exact ht (hok.apart f hf frame (hchain ▸ List.mem_cons_self) heq)

/-- **The innermost coroutine is left**: its frame goes, and the key names the next one. -/
theorem Ok.leave (hok : s.Ok) (hchain : s.chain thread = frame :: frames) :
    (s.leave thread frame frames x).1.Ok := by
  have hnodup := hok.nodup thread
  have hlinked := hok.linked thread
  rw [hchain] at hnodup hlinked
  refine ⟨?_, ?_, ?_, ?_, ?_, ?_⟩
  · intro t f hf
    obtain ⟨hf, hne⟩ := hok.mem_leave hchain hf
    obtain ⟨y, hy, hylive⟩ := hok.entered t f hf
    exact ⟨y, (Function.update_of_ne hne ..).trans hy, hylive⟩
  · intro t
    simp only [Coroutines.leave, Function.update_apply]
    split
    · exact (List.nodup_cons.mp hnodup).2
    · exact hok.nodup t
  · intro t u f hf g hg
    exact hok.apart f (hok.mem_leave hchain hf).1 g (hok.mem_leave hchain hg).1
  · intro t
    simp only [Coroutines.leave, Function.update_apply]
    split
    · exact hlinked.1
    · exact hok.cur t
  · intro t
    simp only [Coroutines.leave, Function.update_apply]
    split
    · exact hlinked.2
    · exact hok.linked t
  · intro d y hy hy'
    simp only [Coroutines.leave, Function.update_apply] at hy
    split at hy
    · cases hy
      rfl
    · exact hok.ended d y hy hy'

end Leave

end Coroutines

/-! ## What a step does -/

open Coroutines

variable {s s' : Coroutines} {i : CoroutineInput} {out : Option ℕ}

/-- What a step does to the coroutines. -/
inductive CoroutineMove (s : Coroutines) : CoroutineInput → Coroutines → Prop
  | idle {i : CoroutineInput} : i.Fresh s → CoroutineMove s i s
  /-- A block that is on no chain is made or freed. -/
  | block {i : CoroutineInput} {c : ℕ} {x : Option CoroutineS} : i.Fresh s →
      (∀ y, s.co c = some y → y.status = .ended) → (∀ y, x = some y → y.live = false) →
      CoroutineMove s i (s.setCo c x)
  | push {thread c : ℕ} {x : CoroutineS} : s.co c = some x → x.live = false →
      x.status = .suspend ∨ x.status = .ready →
      CoroutineMove s (.resume thread (some c))
        (s.push thread c (enter { x with cOld := s.curKey thread }))
  | leave {i : CoroutineInput} {thread : ℕ} {frame : ResumeFrame} {frames : List ResumeFrame}
      {x : CoroutineS} : i.Fresh s → s.chain thread = frame :: frames →
      CoroutineMove s i (s.leave thread frame frames x).1

private theorem coroutine_move (hok : coroutines s i = .ok (s', out)) (hallowed : i.Allowed s) :
    CoroutineMove s i s' := by
  cases i with
  | create c =>
    cases hok
    refine .block trivial (fun y hy ↦ ?_) fun y hy ↦ ?_
    · have hnone := Option.isNone_iff_eq_none.mp hallowed
      rw [hnone] at hy
      cases hy
    · cases hy
      rfl
  | resume thread c =>
    cases c with
    | none =>
      cases hok
      exact .idle trivial
    | some c =>
      dsimp only [coroutines, resume] at hok
      cases hx : s.co c with
      | none =>
        rw [hx] at hok
        cases hok
      | some x =>
        rw [hx] at hok
        dsimp only at hok
        -- `resume` refuses a coroutine that is neither suspended nor ready, and changes nothing
        by_cases hstatus : x.status ≠ .suspend ∧ x.status ≠ .ready
        · rw [if_pos hstatus] at hok
          cases hok
          refine .idle ?_
          simp [CoroutineInput.Fresh, hx, hstatus.1]
        · rw [if_neg hstatus] at hok
          by_cases hlive : x.live = true
          · rw [if_pos hlive] at hok
            cases hok
          · rw [if_neg hlive] at hok
            cases hok
            exact .push hx (by simpa using hlive) (by tauto)
  | yield thread =>
    simp only [coroutines, yield] at hok
    split at hok
    next => cases hok
    next cur hcur =>
      split at hok
      next => cases hok
      next x hx =>
        split at hok
        next => cases hok
        next frame frames hchain =>
          split at hok
          · have hleave : s' = (s.leave thread frame frames { x with status := .suspend }).1 := by
              cases hok
              simp [Coroutines.leave]
            rw [hleave]
            exact .leave trivial hchain
          · cases hok
  | finish thread =>
    dsimp only [coroutines, finish] at hok
    cases hchain : s.chain thread with
    | nil =>
      rw [hchain] at hok
      cases hok
      exact .idle trivial
    | cons frame frames =>
      rw [hchain] at hok
      dsimp only at hok
      split at hok
      · cases hok
      · cases hok
        exact .leave trivial hchain
  | delete c =>
    dsimp only [coroutines, delete] at hok
    cases hx : s.co c with
    | none =>
      rw [hx] at hok
      cases hok
    | some x =>
      rw [hx] at hok
      dsimp only at hok
      -- only what has ended is deleted
      by_cases hended : x.status ≠ .ended
      · rw [if_pos hended] at hok
        cases hok
        exact .idle trivial
      · rw [if_neg hended] at hok
        cases hok
        refine .block trivial (fun y hy ↦ ?_) fun y hy ↦ nomatch hy
        rw [hx] at hy
        cases hy
        simpa using hended

/-- **A step keeps the chains well formed.** -/
theorem CoroutineMove.ok (hmove : CoroutineMove s i s') (hok : s.Ok) : s'.Ok := by
  cases hmove with
  | idle _ => exact hok
  | block _ hc hx =>
    exact hok.setCo (hok.off_chain fun y hy ↦ hok.ended _ y hy (hc y hy)) hx
  | push hx hlive hstatus =>
    refine hok.push (hok.off_chain fun y hy ↦ ?_) ?_ ?_
    · cases hx.symm.trans hy
      exact hlive
    · unfold enter
      split <;> rfl
    · unfold enter
      rcases hstatus with h | h <;> simp [h]
  | leave _ hchain => exact hok.leave hchain

theorem coroutines_ok {tr : List (Event Coroutines CoroutineInput (Option ℕ))}
    (hrun : Run coroutines init tr s) (hallowed : Meets CoroutineInput.Allowed tr) : s.Ok := by
  refine hrun.invariant Ok ok_init ?_ hallowed
  intro s i s' out hok hallowed hstep
  exact (coroutine_move hstep hallowed).ok hok

/-- Everything on a chain is marked as running. -/
def Marked (s : Coroutines) : Prop :=
  ∀ t, ∀ f ∈ s.chain t, (s.co f.co).map (·.status) = some .running

private theorem marked_push {thread c : ℕ} {x : CoroutineS} (hoff : ∀ t, ∀ f ∈ s.chain t, f.co ≠ c)
    (hmarked : Marked s) : Marked (s.push thread c x) ↔ x.status = .running := by
  constructor
  · intro h
    have htop : (⟨c, s.curKey thread⟩ : ResumeFrame) ∈ (s.push thread c x).chain thread := by
      simp only [push, Function.update_self, List.mem_cons_self]
    have hrunning := h thread _ htop
    simp only [push, Function.update_self] at hrunning
    exact Option.some.inj hrunning
  · intro hrunning t f hf
    rcases mem_push hf with ⟨-, rfl⟩ | hf
    · simp only [push, Function.update_self, Option.map_some, hrunning]
    · exact (congrArg _ (Function.update_of_ne (hoff t f hf) ..)).trans (hmarked t f hf)

/-- Only the resumption of a coroutine that has yielded puts one on a chain that is not marked. -/
theorem CoroutineMove.marked_iff (hmove : CoroutineMove s i s') (hok : s.Ok) (hmarked : Marked s) :
    Marked s' ↔ i.Fresh s := by
  cases hmove with
  | idle hfresh => exact iff_of_true hmarked hfresh
  | block hfresh hc _ =>
    refine iff_of_true (fun t f hf ↦ ?_) hfresh
    have hne := hok.off_chain (fun y hy ↦ hok.ended _ y hy (hc y hy)) t f hf
    exact (congrArg _ (Function.update_of_ne hne ..)).trans (hmarked t f hf)
  | @push _ c x hx hlive hstatus =>
    have hoff := hok.off_chain fun y hy ↦ by
      cases hx.symm.trans hy
      exact hlive
    rw [marked_push hoff hmarked]
    rcases hstatus with hs | hs
    · simp [enter, CoroutineInput.Fresh, hx, hs]
    · simp [enter, CoroutineInput.Fresh, hx, hs]
  | leave hfresh hchain =>
    refine iff_of_true (fun t f hf ↦ ?_) hfresh
    obtain ⟨hf, hne⟩ := hok.mem_leave hchain hf
    exact (congrArg _ (Function.update_of_ne hne ..)).trans (hmarked t f hf)

/-! ## Runs -/

/-- Everything on the chain of a thread is running, so that no thread can resume it, and the current
coroutine of the thread is the innermost. -/
def Sound (s : Coroutines) : Prop :=
  ∀ t, (∀ f ∈ s.chain t, (s.co f.co).map (·.status) = some .running ∧
    ∀ u, coroutines s (.resume u (some f.co)) = .ok (s, some 0)) ∧
    s.curKey t = (s.chain t).head?.map (·.co)

theorem resume_running {c : ℕ} (hrunning : (s.co c).map (·.status) = some .running) (u : ℕ) :
    coroutines s (.resume u (some c)) = .ok (s, some 0) := by
  obtain ⟨x, hx, hstatus⟩ := Option.map_eq_some_iff.mp hrunning
  simp [coroutines, resume, hx, hstatus]

theorem Coroutines.Ok.sound_iff (hok : s.Ok) : Sound s ↔ Marked s := by
  constructor
  · intro h t f hf
    exact ((h t).1 f hf).1
  · intro h t
    exact ⟨fun f hf ↦ ⟨h t f hf, resume_running (h t f hf)⟩, hok.cur t⟩

private theorem marked_init : Marked init := fun _ _ hf ↦ nomatch hf

/-- **Chains of running coroutines.** All that is on a chain stays marked as running, for as long as
no coroutine is resumed that has yielded. -/
theorem chain_running_iff {tr : List (Event Coroutines CoroutineInput (Option ℕ))}
    (hrun : Run coroutines init tr s) (hallowed : Meets CoroutineInput.Allowed tr) :
    (∀ e ∈ tr, Sound e.post) ↔ Meets CoroutineInput.Fresh tr := by
  -- soundness and freshness go through the run together: while all resumes were fresh, the marks
  -- are right
  refine (hrun.ledger (fun tr s ↦ ((∀ e ∈ tr, Sound e.post) ↔ Meets CoroutineInput.Fresh tr) ∧
    s.Ok ∧ (Meets CoroutineInput.Fresh tr → Marked s)) ?_ ?_ hallowed).1
  · exact ⟨iff_of_true (fun e he ↦ nomatch he) (meets_nil _), ok_init, fun _ ↦ marked_init⟩
  · rintro tr s i s' out - ⟨hiff, hok, hmarked⟩ hallowed hstep
    have hmove := coroutine_move hstep hallowed
    have hok' := hmove.ok hok
    refine ⟨?_, hok', ?_⟩
    · simp only [List.forall_mem_append, List.forall_mem_singleton, meets_concat, hiff,
        hok'.sound_iff]
      exact and_congr_right fun hfresh ↦ hmove.marked_iff hok (hmarked hfresh)
    · intro hfresh
      obtain ⟨hfresh, hi⟩ := meets_concat.mp hfresh
      exact (hmove.marked_iff hok (hmarked hfresh)).mpr hi

/-- Coroutine 1 resumes coroutine 2, which yields, and tries to resume itself. -/
theorem chain_running_nested : ∃ tr s, Run coroutines init tr s ∧ tr.length = 6 ∧
    ∀ e ∈ tr, Sound e.post := by
  have hpasses : Passes coroutines init
      [.create 1, .create 2, .resume 0 (some 1), .resume 0 (some 2), .yield 0, .resume 0 (some 1)]
      fun tr _ ↦ tr.length = 6 ∧ Meets CoroutineInput.Allowed tr ∧
        Meets CoroutineInput.Fresh tr := by decide +kernel
  obtain ⟨tr, s, hrun, hlen, hallowed, hfresh⟩ := Run.of_passes hpasses
  exact ⟨tr, s, hrun, hlen, (chain_running_iff hrun hallowed).mpr hfresh⟩

/-- A coroutine yields and is resumed: it runs, marked as suspended. -/
theorem chain_not_running : ¬∀ tr s, Run coroutines init tr s →
    Meets CoroutineInput.Allowed tr → ∀ e ∈ tr, Sound e.post := by
  intro hall
  have hpasses : Passes coroutines init
      [.create 1, .resume 0 (some 1), .yield 0, .resume 0 (some 1)]
      fun tr _ ↦ Meets CoroutineInput.Allowed tr ∧
        ∃ e ∈ tr, ∃ f ∈ e.post.chain 0, (e.post.co f.co).map (·.status) = some .suspend := by
    decide +kernel
  obtain ⟨tr, s, hrun, hallowed, e, he, f, hf, hsuspend⟩ := Run.of_passes hpasses
  have hrunning := ((hall tr s hrun hallowed e he 0).1 f hf).1
  rw [hsuspend] at hrunning
  cases hrunning

end ZTask
