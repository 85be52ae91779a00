import ZTask.LuaService.Scheduling
import Mathlib.Data.List.Forall2

/-!
# Wake-ups

`ztask.wakeup` puts a coroutine into `wakeup_queue`, and `dispatch_wakeup` ends the sleep of the
first coroutine there, whichever sleep it is in by then. Each coroutine stays in the sleep in which
it was put into the queue until it is taken out (`Ledger`) under these conditions:

* `ztask.wait` is called for the running coroutine, as otherwise `sleep_session` keeps a sleep that
  has ended;
* a coroutine does not sleep while an entry for it is left in the queue, which is there if it has
  been woken twice;
* no other entry stands behind such an entry, since `dispatch_wakeup` does not go on to the next
  one;
* there is no error, no `ztask.exit` and no bare yield while the queue is not empty, since `suspend`
  does not come to `dispatch_wakeup` then.
-/

namespace ZTask

open Lib

/-- The calls of `ztask.wakeup` that have succeeded. -/
def issued (tr : List DispatchEvent) : List (ℕ × ℕ) :=
  tr.filterMap fun e ↦
    match e.output with
    | .wakes co session => some (co, session)
    | .silent | .wakened _ _ | .returns _ => none

/-- What `dispatch_wakeup` has taken from the queue. -/
def popped (tr : List DispatchEvent) : List (ℕ × Option ℕ) :=
  tr.filterMap fun e ↦
    match e.output with
    | .wakened co session => some (co, session)
    | .silent | .wakes _ _ | .returns _ => none

/-- The coroutine is in `ztask.sleep` or `ztask.wait`. -/
def CoroutineState.asleep : CoroutineState → Bool
  | .sleeping _ | .waiting _ _ => true
  | .ready | .running | .calling _ | .stuck | .pooled | .spoiled | .dead => false

theorem CoroutineState.asleep_of_over {x : CoroutineState} (hx : x.over = true) :
    x.asleep = false := by
  cases x <;> first | rfl | cases hx

namespace LuaService

variable {m m' : LuaService} {x : CoroutineState} {co depth session : ℕ} {i : DispatchInput}
    {o : DispatchOutput}

/-- The coroutine is in `ztask.sleep` or `ztask.wait`, with this session. -/
def SleepsIn (m : LuaService) (co session : ℕ) : Prop :=
  m.state co = .sleeping session ∨ ∃ co', m.state co = .waiting session co'

/-- If the first entry of the queue is for a coroutine that does not sleep any more, it is the only
one. -/
def NoneBehind (m : LuaService) : Prop :=
  m.wakeupQueue.head?.bind m.sleepSession = none → m.wakeupQueue.tail = []

instance decidableNoneBehind (m : LuaService) : Decidable m.NoneBehind :=
  inferInstanceAs (Decidable (_ → _))

/-- What the running coroutine may do. -/
def Orderly (m : LuaService) : DispatchInput → Prop
  | .sleep => (∀ co ∈ m.control.who, co ∉ m.wakeupQueue) ∧ m.NoneBehind
  | .wait co => m.control.who = some co ∧ co ∉ m.wakeupQueue ∧ m.NoneBehind
  | .call _ | .finish => m.NoneBehind
  | .ret => m.wakeupQueue = [] ∨ ∀ co ∈ m.control.who, ¬ m.ReturnFails co
  | .makeResponse => m.wakeupQueue = [] ∨ ∀ co ∈ m.control.who, ¬ m.ResponseFails co
  | .exit | .raise | .yield _ => m.wakeupQueue = []
  | _ => True

instance decidableOrderly (m : LuaService) : ∀ i, Decidable (m.Orderly i)
  | .sleep | .wait _ => inferInstanceAs (Decidable (_ ∧ _))
  | .call _ | .finish => inferInstanceAs (Decidable m.NoneBehind)
  | .ret | .makeResponse => inferInstanceAs (Decidable (_ ∨ _))
  | .exit | .raise | .yield _ => inferInstanceAs (Decidable (m.wakeupQueue = []))
  | .response _ | .request _ _ _ _ | .unknown _ | .forked _ | .returns | .wakeup _ | .fork _
  | .timeout _ | .errorDispatch _ _ | .test _ | .respond _ _ => .isTrue trivial

/-- Each wake-up that ends a sleep ends the one that the coroutine was in when the wake-up was
issued, and the queue is empty when `dispatch_message` returns without an error. -/
structure WakesExactly (tr : List DispatchEvent) : Prop where
  same : ∀ (k co session : ℕ), (popped tr)[k]? = some (co, some session) →
    (issued tr)[k]? = some (co, session)
  pending : ∀ e ∈ tr, ∀ (co session : ℕ), e.output = .wakes co session → e.pre.SleepsIn co session
  ends : ∀ e ∈ tr, ∀ (co session : ℕ), e.output = .wakened co (some session) →
    e.pre.SleepsIn co session ∧ e.post.state co = .running
  empty : ∀ e ∈ tr, e.output = .returns true → e.post.wakeupQueue = []

/-! ## Who sleeps -/

/-- `sleep_session` has the sessions of the coroutines that sleep. -/
structure Sleeps (m : LuaService) : Prop where
  session : ∀ (co s : ℕ), m.sleepSession co = some s ↔ m.state co = .sleeping s ∨
    m.state co = .waiting s co
  own : ∀ (co s co' : ℕ), m.state co = .waiting s co' → co' = co

namespace Sleeps

theorem init : Sleeps LuaService.init where
  session co s := by
    refine iff_of_false (fun h ↦ nomatch h) fun h ↦ ?_
    dsimp only [LuaService.init] at h
    by_cases hco : co = 0
    · rw [hco, Function.update_self] at h
      rcases h with h | h <;> cases h
    · rw [Function.update_of_ne hco] at h
      rcases h with h | h <;> cases h
  own co s co' h := by
    dsimp only [LuaService.init] at h
    by_cases hco : co = 0
    · rw [hco, Function.update_self] at h
      cases h
    · rw [Function.update_of_ne hco] at h
      cases h

theorem congr (h : Sleeps m) (hstate : m'.state = m.state)
    (hsleep : m'.sleepSession = m.sleepSession) :
    Sleeps m' := by
  refine ⟨fun co s ↦ ?_, fun co s co' hw ↦ ?_⟩
  · rw [hstate, hsleep]
    exact h.session co s
  · rw [hstate] at hw
    exact h.own co s co' hw

private theorem sleepsIn (h : Sleeps m) (hs : m.sleepSession co = some session) :
    m.SleepsIn co session := by
  rcases (h.session co session).mp hs with hs | hs
  · exact Or.inl hs
  · exact Or.inr ⟨co, hs⟩

/-- A coroutine comes to be somewhere else. -/
theorem set (h : Sleeps m) {x : CoroutineState} {y : Option ℕ}
    (hy : ∀ s, y = some s ↔ x = .sleeping s ∨ x = .waiting s co)
    (hx : ∀ s co', x = .waiting s co' → co' = co) :
    Sleeps ((m.setState co x).setSleep co y) where
  session c s := by
    dsimp only [setState, setSleep]
    by_cases hc : c = co
    · rw [hc, Function.update_self, Function.update_self]
      exact hy s
    · rw [Function.update_of_ne hc, Function.update_of_ne hc]
      exact h.session c s
  own c s co' hw := by
    dsimp only [setState, setSleep] at hw
    by_cases hc : c = co
    · rw [hc, Function.update_self] at hw
      rw [hc]
      exact hx s co' hw
    · rw [Function.update_of_ne hc] at hw
      exact h.own c s co' hw

theorem eq_none (h : Sleeps m) (hx : (m.state co).asleep = false) : m.sleepSession co = none := by
  cases hs : m.sleepSession co with
  | none => rfl
  | some s =>
    rcases (h.session co s).mp hs with hstate | hstate <;> rw [hstate] at hx <;> cases hx

theorem setState (h : Sleeps m) (hold : (m.state co).asleep = false) (hx : x.asleep = false) :
    Sleeps (m.setState co x) := by
  have hset : Sleeps ((m.setState co x).setSleep co none) := by
    refine h.set (fun s ↦ iff_of_false (fun hn ↦ nomatch hn) ?_) fun s co' hw ↦ ?_
    · rintro (hs | hs) <;> rw [hs] at hx <;> cases hx
    · rw [hw] at hx
      cases hx
  refine hset.congr rfl ?_
  dsimp only [LuaService.setState, setSleep]
  rw [← h.eq_none hold, Function.update_eq_self]

/-- A coroutine that runs does not sleep. -/
theorem coroutineResume (h : Sleeps m) (hres : m.coroutineResume co = .runs m') :
    Sleeps m' ∧ m'.sleepSession = Function.update m.sleepSession co none := by
  have hset : Sleeps ((m.setState co .running).setSleep co none) :=
    h.set (fun s ↦ iff_of_false (fun hn ↦ nomatch hn) (by rintro (hx | hx) <;> cases hx))
      fun s co' hx ↦ nomatch hx
  rw [LuaService.coroutineResume] at hres
  split at hres
  case h_1 s hstate =>
    obtain rfl := Resumed.runs.inj hres
    exact ⟨hset, rfl⟩
  case h_2 s co' hstate =>
    obtain rfl := Resumed.runs.inj hres
    rw [h.own co s co' hstate]
    exact ⟨hset.congr rfl rfl, rfl⟩
  case h_3 hstate | h_4 hstate | h_5 hstate =>
    obtain rfl := Resumed.runs.inj hres
    have hsame : Function.update m.sleepSession co none = m.sleepSession := by
      rw [← h.eq_none (by rw [hstate]; rfl), Function.update_eq_self]
    exact ⟨hset.congr rfl hsame.symm, hsame.symm⟩
  all_goals cases hres

theorem coCreate (h : Sleeps m) {who : Option ℕ} (hplaced : m.Placed who) {reuse : Option ℕ}
    (hcreate : m.coCreate reuse = some (co, m')) :
    Sleeps m' ∧ m'.sleepSession = m.sleepSession ∧ m'.wakeupQueue = m.wakeupQueue := by
  have hold := CoroutineState.asleep_of_over (hplaced.over_of_coCreate hcreate)
  rcases coCreate_cases hcreate with ⟨-, rfl, rfl⟩ | ⟨-, -, rfl⟩
  · exact ⟨(h.setState (x := .ready) hold rfl).congr rfl rfl, rfl, rfl⟩
  · exact ⟨(h.setState hold (by split <;> rfl)).congr rfl rfl, rfl, rfl⟩

end Sleeps

/-- When a coroutine has given way and the queue is empty, it stays empty until another one runs. -/
theorem hands_empty : Hands (fun m ↦ m.Placed none ∧ m.Sleeps ∧ m.wakeupQueue = [])
    (fun m ↦ m.Sleeps ∧ m.wakeupQueue = []) where
  tables _ _ h := ⟨h.1.congr rfl rfl rfl, h.2.1.congr rfl rfl, h.2.2⟩
  finished h := ⟨h.2.1.congr rfl rfl, h.2.2⟩
  failed h := ⟨h.2.1.congr rfl rfl, h.2.2⟩
  runs _ h hres := by
    have hqueue := (coroutineResume_runs hres).2.2
    obtain ⟨_, _, _, hm'⟩ := hqueue
    refine ⟨(h.2.1.coroutineResume hres).1.congr rfl rfl, ?_⟩
    rw [hm']
    exact h.2.2
  yields h hres := by
    have hplaced := Placed.hands.yields h.1 hres
    obtain ⟨hpooled, rfl⟩ := coroutineResume_yields hres
    exact ⟨hplaced, h.2.1.setState (by rw [hpooled]; rfl) rfl, h.2.2⟩
  fails h hres := by
    rcases coroutineResume_fails hres with ⟨hrun, -⟩ | ⟨hstate, rfl⟩
    · exact nomatch (h.1.running _).mp hrun
    · have hdead : Sleeps (setState _ _ .dead) :=
        h.2.1.setState (by rcases hstate with hx | hx <;> rw [hx] <;> rfl) rfl
      rw [fail]
      split <;> exact ⟨hdead.congr rfl rfl, h.2.2⟩

/-! ## One step -/

/-- What a step does to the queue; a coroutine that is left there sleeps as before, or not any more.
-/
inductive QueueMove (m m' : LuaService) : DispatchOutput → Prop
  | stays {o : DispatchOutput} (ho : o = .silent ∨ ∃ succ, o = .returns succ)
      (hqueue : m'.wakeupQueue = m.wakeupQueue)
      (hleft : ∀ co ∈ m'.wakeupQueue, ∀ s, m'.sleepSession co = some s →
        m.sleepSession co = some s) :
      QueueMove m m' o
  | issues {co session : ℕ} (hsession : m.sleepSession co = some session)
      (hqueue : m'.wakeupQueue = m.wakeupQueue ++ [co])
        (hsleep : m'.sleepSession = m.sleepSession) :
      QueueMove m m' (.wakes co session)
  | pops {co : ℕ} {y : Option ℕ} (hqueue : m.wakeupQueue = co :: m'.wakeupQueue)
      (hy : y = m.sleepSession co)
      (hleft : ∀ co ∈ m'.wakeupQueue, ∀ s, m'.sleepSession co = some s →
        m.sleepSession co = some s) :
      QueueMove m m' (.wakened co y)

/-- The queue is empty when no coroutine runs, also at the end of `dispatch_message`, and who is
woken has slept. -/
structure QueueStep (m m' : LuaService) (o : DispatchOutput) : Prop where
  sleeps : m'.Sleeps
  empty : m'.control.who = none → m'.wakeupQueue = []
  returns : ∀ succ, o = .returns succ → m'.wakeupQueue = []
  move : QueueMove m m' o
  ends : ∀ (co session : ℕ), o = .wakened co (some session) →
    m.SleepsIn co session ∧ m'.state co = .running

namespace QueueStep

theorem of_empty (hqueue : m.wakeupQueue = []) (hsleeps : m'.Sleeps) (hqueue' : m'.wakeupQueue = [])
    (ho : o = .silent ∨ ∃ succ, o = .returns succ) : QueueStep m m' o where
  sleeps := hsleeps
  empty _ := hqueue'
  returns _ _ := hqueue'
  move := .stays ho (hqueue'.trans hqueue.symm) fun _ hco ↦ by
    rw [hqueue'] at hco
    exact nomatch hco
  ends _ _ hends := by
    rcases ho with rfl | ⟨succ, rfl⟩ <;> cases hends

theorem of_same (hrun : m'.control.who ≠ none) (hsleeps : m'.Sleeps)
    (hqueue : m'.wakeupQueue = m.wakeupQueue) (hsleep : m'.sleepSession = m.sleepSession) :
    QueueStep m m' .silent where
  sleeps := hsleeps
  empty hnone := absurd hnone hrun
  returns _ hn := nomatch hn
  move := .stays (Or.inl rfl) hqueue fun _ _ _ hs ↦ hsleep ▸ hs
  ends _ _ hends := nomatch hends

/-- The coroutine that runs has given way before. -/
theorem of_given {m₁ : LuaService} (h : QueueStep m₁ m' o) (hqueue : m₁.wakeupQueue = m.wakeupQueue)
    (hsleep : ∀ co ∈ m.wakeupQueue, m₁.sleepSession co = m.sleepSession co)
    (hin : ∀ co ∈ m.wakeupQueue, ∀ session, m₁.SleepsIn co session → m.SleepsIn co session)
    (hissue : ∀ co session, o ≠ .wakes co session) : QueueStep m m' o where
  sleeps := h.sleeps
  empty := h.empty
  returns := h.returns
  move := by
    cases h.move with
    | stays ho hqueue' hleft =>
      refine .stays ho (hqueue'.trans hqueue) fun co hco s hs ↦ ?_
      rw [← hsleep co (by rw [← hqueue, ← hqueue']; exact hco)]
      exact hleft co hco s hs
    | issues => exact absurd rfl (hissue _ _)
    | pops hqueue' hy hleft =>
      rw [hqueue] at hqueue'
      refine .pops hqueue' (by
        rw [← hsleep _ (by rw [hqueue']; exact List.mem_cons_self)]; exact hy)
        fun co hco s hs ↦ ?_
      rw [← hsleep co (by rw [hqueue']; exact List.mem_cons_of_mem _ hco)]
      exact hleft co hco s hs
  ends co session hends := by
    obtain ⟨hsleeps, hrun⟩ := h.ends co session hends
    refine ⟨hin co ?_ session hsleeps, hrun⟩
    subst hends
    cases h.move with
    | stays ho => rcases ho with ho | ⟨_, ho⟩ <;> cases ho
    | pops hqueue' =>
      rw [← hqueue, hqueue']
      exact List.mem_cons_self

end QueueStep

/-- A coroutine that sleeps can be resumed. -/
theorem resume_asleep (h : m.Sleeps) (hx : (m.state co).asleep = true) (depth : ℕ) :
    (m.resume co depth).Sleeps ∧ (m.resume co depth).control.who = some co ∧
      (m.resume co depth).state co = .running ∧ (m.resume co depth).wakeupQueue = m.wakeupQueue ∧
      (m.resume co depth).sleepSession = Function.update m.sleepSession co none := by
  rw [resume]
  cases hres : m.coroutineResume co with
  | runs m₂ =>
    obtain ⟨hsleeps₂, hsleep⟩ := h.coroutineResume hres
    obtain ⟨-, -, _, _, _, rfl⟩ := coroutineResume_runs hres
    exact ⟨hsleeps₂.congr rfl rfl, rfl, Function.update_self .., rfl, hsleep⟩
  | yields m₂ =>
    rw [(coroutineResume_yields hres).1] at hx
    cases hx
  | fails m₂ =>
    rcases coroutineResume_fails hres with ⟨hstate, -⟩ | ⟨hstate | hstate, -⟩ <;>
      rw [hstate] at hx <;> cases hx

/-- The last lines of `suspend`. -/
theorem dispatchWakeup_step (hplaced : m.Placed none) (hsleeps : m.Sleeps) (hbehind : m.NoneBehind)
    (depth : ℕ) : QueueStep m (m.dispatchWakeup depth).1 (m.dispatchWakeup depth).2 ∧
      ∀ co session, (m.dispatchWakeup depth).2 ≠ .wakes co session := by
  rw [dispatchWakeup]
  split
  next hnil =>
    have herror := hands_empty.dispatchErrorQueue depth ⟨hplaced, hsleeps, hnil⟩
    exact ⟨.of_empty hnil herror.1 herror.2 (Or.inl rfl), fun _ _ hn ↦ by cases hn⟩
  next co rest hcons =>
    dsimp only
    split
    next hnone =>
      -- the entry is for a sleep that has ended
      have hrest : rest = [] := by
        rw [NoneBehind, hcons] at hbehind
        exact hbehind hnone
      have herror := hands_empty.dispatchErrorQueue depth
        (m := { m with wakeupQueue := rest }) ⟨hplaced.congr rfl rfl rfl,
          hsleeps.congr rfl rfl, hrest⟩
      refine ⟨⟨herror.1, fun _ ↦ herror.2, fun _ _ ↦ herror.2, ?_, fun _ _ hn ↦ by cases hn⟩,
        fun _ _ hn ↦ by cases hn⟩
      refine .pops ?_ hnone.symm fun c hc ↦ ?_
      · rw [herror.2, hcons, hrest]
      · rw [herror.2] at hc
        cases hc
    next session hsession =>
      have hasleep : (m.state co).asleep = true := by
        rcases hsleeps.sleepsIn hsession with hs | ⟨co', hs⟩ <;> rw [hs] <;> rfl
      obtain ⟨hsleeps', hwho, hrun, hqueue, hsleep⟩ := resume_asleep
        (m := { m with wakeupQueue := rest }.setSession session (some none))
          (hsleeps.congr rfl rfl) hasleep
        (depth + 1)
      refine ⟨⟨hsleeps', (fun hn ↦ by cases hwho.symm.trans hn), (fun _ hn ↦ by cases hn), ?_, ?_⟩,
        fun _ _ hn ↦ by cases hn⟩
      · refine .pops (hqueue ▸ hcons) hsession.symm fun c _ s hs ↦ ?_
        rw [hsleep] at hs
        by_cases hc : c = co
        · rw [hc, Function.update_self] at hs
          cases hs
        · rw [Function.update_of_ne hc] at hs
          exact hs
      · rintro c s hends
        obtain ⟨rfl, hs⟩ := DispatchOutput.wakened.inj hends
        obtain rfl := Option.some.inj hs
        exact ⟨hsleeps.sleepsIn hsession, hrun⟩

/-- The running coroutine has given way, and `m₁` is the service then. -/
theorem give_step {m₁ : LuaService} (hplaced : m₁.Placed none) (hsleeps : m₁.Sleeps)
    (hbehind : m.NoneBehind) (hqueue : m₁.wakeupQueue = m.wakeupQueue)
    (hsleep : ∀ co ∈ m.wakeupQueue, m₁.sleepSession co = m.sleepSession co)
    (hin : ∀ co ∈ m.wakeupQueue, ∀ session, m₁.SleepsIn co session →
    m.SleepsIn co session) (depth : ℕ) :
    QueueStep m (m₁.dispatchWakeup depth).1 (m₁.dispatchWakeup depth).2 := by
  have hbehind₁ : m₁.NoneBehind := by
    rw [NoneBehind, hqueue]
    intro hnone
    refine hbehind ?_
    cases hq : m.wakeupQueue with
    | nil => rfl
    | cons co rest =>
      rw [hq] at hnone
      rw [← hnone]
      exact (hsleep co (by rw [hq]; exact List.mem_cons_self)).symm
  obtain ⟨hstep, hissue⟩ := dispatchWakeup_step hplaced hsleeps hbehind₁ depth
  exact hstep.of_given hqueue hsleep hin hissue

private theorem sleepsIn_of_setState (hx : x.asleep = false) {c : ℕ}
    (h : (m.setState co x).SleepsIn c session) : m.SleepsIn c session := by
  by_cases hc : c = co
  · dsimp only [SleepsIn, setState] at h
    rw [hc, Function.update_self] at h
    rcases h with h | ⟨_, h⟩ <;> rw [h] at hx <;> cases hx
  · dsimp only [SleepsIn, setState] at h
    rw [Function.update_of_ne hc] at h
    exact h

private theorem commandSleep_step (hplaced : m.Placed (some co)) (hsleeps : m.Sleeps)
    (hbehind : m.NoneBehind)
    (hnot : co ∉ m.wakeupQueue)
    (hx : x = .sleeping m.sessions ∨ x = .waiting m.sessions co) (depth : ℕ) :
    QueueStep m (m.commandSleep co depth x).1 (m.commandSleep co depth x).2 := by
  have hne : ∀ c ∈ m.wakeupQueue, c ≠ co := fun c hc heq ↦ hnot (heq ▸ hc)
  have hset : Sleeps ((m.setState co x).setSleep co (some m.sessions)) := by
    refine hsleeps.set (fun s ↦ ?_) fun s co' hw ↦ ?_
    · rcases hx with rfl | rfl
      · rw [Option.some.injEq, CoroutineState.sleeping.injEq]
        exact (or_iff_left fun hn ↦ nomatch hn).symm
      · rw [Option.some.injEq, CoroutineState.waiting.injEq]
        exact ⟨fun hs ↦ Or.inr ⟨hs, rfl⟩, fun hs ↦ hs.elim (fun hn ↦ nomatch hn) And.left⟩
    · rcases hx with rfl | rfl
      · cases hw
      · exact (CoroutineState.waiting.inj hw).2.symm
  have hgive := hplaced.give (x := x) (by rcases hx with rfl | rfl <;> exact fun hn ↦ nomatch hn)
  rw [commandSleep]
  refine give_step ?_ ?_ hbehind ?_ (fun c hc ↦ ?_) (fun c hc s hs ↦ ?_) depth
  · exact hgive.congr rfl rfl rfl
  · exact hset.congr rfl rfl
  · rfl
  · exact Function.update_of_ne (hne c hc) _ _
  · dsimp only [SleepsIn, setState, setSession, setSleep] at hs
    rw [Function.update_of_ne (hne c hc)] at hs
    exact hs

private theorem commandCall_step (hplaced : m.Placed (some co)) (hsleeps : m.Sleeps)
    (hbehind : m.NoneBehind) (depth address : ℕ) :
    QueueStep m (m.commandCall co depth address).1 (m.commandCall co depth address).2 := by
  have hrun := (hplaced.running co).mpr rfl
  have hset : Sleeps (m.setState co (.calling m.sessions)) :=
    hsleeps.setState (by rw [hrun]; rfl) rfl
  have hgive := hplaced.give (x := .calling m.sessions) fun hn ↦ nomatch hn
  rw [commandCall]
  refine give_step ?_ ?_ hbehind ?_ (fun c _ ↦ ?_) (fun c _ s hs ↦ ?_) depth
  · exact hgive.congr rfl rfl rfl
  · exact hset.congr rfl rfl
  · rfl
  · rfl
  · exact sleepsIn_of_setState (x := .calling m.sessions) rfl hs

private theorem commandExit_step (hplaced : m.Placed (some co)) (hsleeps : m.Sleeps)
    (hbehind : m.NoneBehind)
    (depth : ℕ) : QueueStep m (m.commandExit co depth).1 (m.commandExit co depth).2 := by
  have hrun := (hplaced.running co).mpr rfl
  have hset : Sleeps (m.setState co .pooled) := hsleeps.setState (by rw [hrun]; rfl) rfl
  have hexit := hplaced.exit
  rw [commandExit]
  dsimp only
  split
  next =>
    refine give_step hexit ?_ hbehind ?_ (fun c _ ↦ ?_) (fun c _ s hs ↦ ?_) depth
    · exact hset.congr rfl rfl
    · rfl
    · rfl
    · exact sleepsIn_of_setState (x := .pooled) rfl hs
  next address _ =>
    obtain ⟨watching, hw⟩ := releaseWatching_eq
      { m.setState co .pooled with coroutinePool := m.coroutinePool ++ [co] } address
    rw [hw]
    refine give_step ?_ ?_ hbehind ?_ (fun c _ ↦ ?_) (fun c _ s hs ↦ ?_) depth
    · exact hexit.congr rfl rfl rfl
    · exact hset.congr rfl rfl
    · rfl
    · rfl
    · exact sleepsIn_of_setState (x := .pooled) rfl hs

private theorem leave_step {m₁ : LuaService} (hplaced : m₁.Placed none) (hsleeps : m₁.Sleeps)
    (hnil : m.wakeupQueue = []) (hqueue : m₁.wakeupQueue = m.wakeupQueue) (depth : ℕ) :
    QueueStep m (m₁.leave depth) .silent := by
  obtain ⟨hsleeps', hqueue'⟩ := hands_empty.leave depth ⟨hplaced, hsleeps, hqueue.trans hnil⟩
  exact .of_empty hnil hsleeps' hqueue' (Or.inl rfl)

private theorem wakeup_step (hrun : m.control.who ≠ none) (hsleeps : m.Sleeps) {co' : ℕ}
    (hact : m.act co depth (.wakeup co') = some (m', o)) : QueueStep m m' o := by
  cases hsession : m.sleepSession co' with
  | none =>
    simp only [act, hsession] at hact
    cases hact
    exact .of_same hrun hsleeps rfl rfl
  | some session =>
    simp only [act, hsession] at hact
    cases hact
    exact ⟨hsleeps.congr rfl rfl, fun hn ↦ absurd hn hrun, (fun _ hn ↦ by cases hn),
      .issues hsession rfl rfl, fun _ _ hn ↦ by cases hn⟩

private theorem commandReturn_step (hrun : m.control.who ≠ none) (hsleeps : m.Sleeps)
    (hstate : (m.state co).asleep = false) (hord : m.wakeupQueue = [] ∨ ¬ m.ReturnFails co) :
    QueueStep m (m.commandReturn co) .silent := by
  rcases m.commandReturn_cases co with ⟨-, answered, heq⟩ | ⟨hfails, answered, heq⟩ <;> rw [heq]
  · exact .of_same hrun (hsleeps.congr rfl rfl) rfl rfl
  · have hnil := hord.resolve_right fun hnot ↦ hnot hfails
    have hstuck : (m.setState co .stuck).Sleeps := hsleeps.setState hstate rfl
    exact .of_empty hnil (hstuck.congr rfl rfl) hnil (Or.inl rfl)

private theorem commandResponse_step (hrun : m.control.who ≠ none) (hsleeps : m.Sleeps)
    (hstate : (m.state co).asleep = false) (hord : m.wakeupQueue = [] ∨ ¬ m.ResponseFails co) :
    QueueStep m (m.commandResponse co) .silent := by
  rcases m.commandResponse_cases co with ⟨-, address, ref, -, -, heq⟩ | ⟨hfails, heq⟩ <;> rw [heq]
  · exact .of_same hrun (hsleeps.congr rfl rfl) rfl rfl
  · have hnil := hord.resolve_right fun hnot ↦ hnot hfails
    have hstuck : (m.setState co .stuck).Sleeps := hsleeps.setState hstate rfl
    exact .of_empty hnil (hstuck.congr rfl rfl) hnil (Or.inl rfl)

/-- The coroutine raises an error while the queue is empty. -/
theorem raise_step (hsleeps : m.Sleeps) (hstate : (m.state co).asleep = false)
    (hnil : m.wakeupQueue = []) : QueueStep m ((m.setState co .dead).fail co) .silent := by
  have hdead : (m.setState co .dead).Sleeps := hsleeps.setState hstate rfl
  rw [fail]
  split <;> exact .of_empty hnil (hdead.congr rfl rfl) hnil (Or.inl rfl)

/-- What the running coroutine does. -/
theorem act_step (hplaced : m.Placed m.control.who) (hsleeps : m.Sleeps)
    (hcontrol : m.control = .running co depth) (hord : m.Orderly i)
    (hact : m.act co depth i = some (m', o)) : QueueStep m m' o := by
  have hwho : m.control.who = some co := by rw [hcontrol]; rfl
  have hco : m.Placed (some co) := hwho ▸ hplaced
  -- whoever acts is awake, so what it does to itself wakes nobody
  have hstate : (m.state co).asleep = false := by rw [(hco.running co).mpr rfl]; rfl
  have hrun : m.control.who ≠ none := fun hn ↦ by cases hwho.symm.trans hn
  have hgive : (m.setState co .stuck).Placed none ∧ (m.setState co .stuck).Sleeps :=
    ⟨hco.give fun hn ↦ (by cases hn), hsleeps.setState hstate rfl⟩
  -- each call of the API, with what `Orderly` asks of it
  cases i with
  | wakeup co' => exact wakeup_step hrun hsleeps hact
  | fork reuse | timeout reuse =>
    obtain ⟨⟨co', m₁⟩, hcreate, heq⟩ := Option.map_eq_some_iff.mp hact
    cases heq
    obtain ⟨hcreated, hsleep, hqueue⟩ := hsleeps.coCreate hplaced hcreate
    rw [← control_of_coCreate hcreate] at hrun
    exact .of_same hrun (hcreated.congr rfl rfl) hqueue hsleep
  | errorDispatch errorSession errorSource =>
    cases hact
    obtain ⟨dead, errors, heq⟩ := m.errorDispatch_eq errorSession errorSource
    rw [heq]
    exact .of_same hrun (hsleeps.congr rfl rfl) rfl rfl
  | test k =>
    rw [act] at hact
    split at hact <;> cases hact
    obtain ⟨watching, response, heq⟩ := m.testResponse_eq k
    rw [heq]
    exact .of_same hrun (hsleeps.congr rfl rfl) rfl rfl
  | respond k packs =>
    rw [act] at hact
    split at hact <;> cases hact
    obtain ⟨watching, response, heq⟩ := m.callResponse_eq k packs
    rw [heq]
    exact .of_same hrun (hsleeps.congr rfl rfl) rfl rfl
  | sleep =>
    obtain ⟨hnot, hbehind⟩ := hord
    have hstep := commandSleep_step hco hsleeps hbehind (hnot co hwho) (Or.inl rfl) depth
    rw [Option.some.inj hact] at hstep
    exact hstep
  | wait co' =>
    obtain ⟨hsame, hnot, hbehind⟩ := hord
    obtain rfl := Option.some.inj (hwho.symm.trans hsame)
    have hstep := commandSleep_step hco hsleeps hbehind hnot (Or.inr rfl) depth
    rw [Option.some.inj hact] at hstep
    exact hstep
  | call address =>
    have hstep := commandCall_step hco hsleeps hord depth address
    rw [Option.some.inj hact] at hstep
    exact hstep
  | finish =>
    have hstep := commandExit_step hco hsleeps hord depth
    rw [Option.some.inj hact] at hstep
    exact hstep
  | ret =>
    cases hact
    exact commandReturn_step hrun hsleeps hstate (hord.imp_right fun hnot ↦ hnot co hwho)
  | makeResponse =>
    cases hact
    exact commandResponse_step hrun hsleeps hstate (hord.imp_right fun hnot ↦ hnot co hwho)
  | exit =>
    cases hact
    obtain ⟨watching, response, heq⟩ := refuseAll_eq m.responses { m with forkQueue := [] }
    rw [heq]
    refine leave_step ?_ ?_ hord ?_ depth
    · exact hgive.1.congr rfl rfl rfl
    · exact hgive.2.congr rfl rfl
    · rfl
  | raise =>
    cases hact
    exact raise_step hsleeps hstate hord
  | yield command =>
    cases hact
    cases command with
    | false => exact leave_step hgive.1 hgive.2 hord rfl depth
    | true => exact .of_empty hord (hgive.2.congr rfl rfl) hord (Or.inl rfl)
  | response _ | request _ _ _ _ | unknown _ | forked _ | returns => cases hact

/-- A message comes while the queue is empty. -/
theorem rawDispatchMessage_step (hplaced : m.Placed none) (hsleeps : m.Sleeps)
    (hnil : m.wakeupQueue = []) (hraw : m.rawDispatchMessage i = some m') :
    m'.Sleeps ∧ m'.wakeupQueue = [] := by
  cases i with
  | response session =>
    rw [rawDispatchMessage] at hraw
    split at hraw <;> obtain rfl := Option.some.inj hraw
    · exact ⟨hsleeps.congr rfl rfl, hnil⟩
    · exact ⟨hsleeps.congr rfl rfl, hnil⟩
    · exact hands_empty.resume _ 0 ⟨hplaced.congr rfl rfl rfl, hsleeps.congr rfl rfl, hnil⟩
  | request session source reuse unpacks =>
    rw [rawDispatchMessage] at hraw
    dsimp only at hraw
    generalize Function.update m.watchingService source _ = watching at hraw
    have hplaced' : Placed { m with watchingService := watching } none := hplaced.congr rfl rfl rfl
    have hsleeps' : Sleeps { m with watchingService := watching } := hsleeps.congr rfl rfl
    obtain ⟨⟨co, m₁⟩, hcreate, rfl⟩ := Option.map_eq_some_iff.mp hraw
    have hcreated := hplaced'.coCreate hcreate
    obtain ⟨hsleeps₁, -, hqueue₁⟩ := hsleeps'.coCreate hplaced' hcreate
    dsimp only
    split
    · exact hands_empty.resume co 0
        ⟨hcreated.congr rfl rfl rfl, hsleeps₁.congr rfl rfl, hqueue₁.trans hnil⟩
    · exact ⟨hsleeps₁.congr rfl rfl, hqueue₁.trans hnil⟩
  | unknown session =>
    obtain rfl := Option.some.inj hraw
    split
    · exact ⟨hsleeps.congr rfl rfl, hnil⟩
    · exact ⟨hsleeps.congr rfl rfl, hnil⟩
  | _ => cases hraw

/-- One step. -/
theorem queueStep (hplaced : m.Placed m.control.who) (hsleeps : m.Sleeps)
    (hempty : m.control.who = none → m.wakeupQueue = []) (hord : m.Orderly i)
    (hstep : luaService m i = .ok (m', o)) : QueueStep m m' o := by
  rcases luaService_cases hstep with ⟨hcontrol, rfl, hraw⟩ | ⟨hcontrol, rfl, co, -, -, rfl⟩ |
    ⟨hcontrol, rfl, -, -, rfl⟩ | ⟨co, depth, hcontrol, hact⟩
  · rw [hcontrol] at hplaced hempty
    have hplaced' : Placed { m with succ := true } none := hplaced.congr rfl rfl rfl
    obtain ⟨hsleeps', hnil⟩ :=
      rawDispatchMessage_step hplaced' (hsleeps.congr rfl rfl) (hempty rfl) hraw
    exact .of_empty (hempty rfl) hsleeps' hnil (Or.inl rfl)
  · rw [hcontrol] at hplaced hempty
    obtain ⟨hsleeps', hnil⟩ := hands_empty.resume co 0
      (m := { m with forkQueue := m.forkQueue.erase co })
      ⟨hplaced.congr rfl rfl rfl, hsleeps.congr rfl rfl, hempty rfl⟩
    exact .of_empty (hempty rfl) hsleeps' hnil (Or.inl rfl)
  · rw [hcontrol] at hempty
    exact .of_empty (hempty rfl) (hsleeps.congr rfl rfl) (hempty rfl) (Or.inr ⟨m.succ, rfl⟩)
  · exact act_step hplaced hsleeps hcontrol hord hact

/-! ## A run -/

variable {tr : List DispatchEvent} {e : DispatchEvent}

/-- The wake-ups that have been issued are those that have been taken from the queue, in this order,
and those for the coroutines that are in it; the sleeps are still the same, or have ended. -/
def Ledger (tr : List DispatchEvent) (m : LuaService) : Prop :=
  ∃ taken waiting : List (ℕ × ℕ), issued tr = taken ++ waiting ∧
    List.Forall₂ (fun w p ↦ p.1 = w.1 ∧ ∀ s, p.2 = some s → s = w.2) taken (popped tr) ∧
    waiting.map Prod.fst = m.wakeupQueue ∧ ∀ w ∈ waiting, ∀ s, m.sleepSession w.1 = some s → s = w.2

theorem issued_concat (tr : List DispatchEvent) (e : DispatchEvent) :
    issued (tr ++ [e]) = issued tr ++ issued [e] := List.filterMap_append

private theorem popped_concat (tr : List DispatchEvent) (e : DispatchEvent) :
    popped (tr ++ [e]) = popped tr ++ popped [e] := List.filterMap_append

theorem Ledger.step (h : Ledger tr m) (hmove : QueueMove m m' o) :
    Ledger (tr ++ [⟨m, i, o, m'⟩]) m' := by
  obtain ⟨taken, waiting, hissued, htaken, hqueue, hwaiting⟩ := h
  rw [Ledger, issued_concat, popped_concat]
  cases hmove with
  | stays ho hqueue' hleft =>
    refine ⟨taken, waiting, ?_, ?_, hqueue.trans hqueue'.symm, fun w hw s hs ↦ ?_⟩
    · rcases ho with rfl | ⟨succ, rfl⟩
      · exact (List.append_nil _).trans hissued
      · exact (List.append_nil _).trans hissued
    · rcases ho with rfl | ⟨succ, rfl⟩
      · exact (List.append_nil (popped tr)).symm ▸ htaken
      · exact (List.append_nil (popped tr)).symm ▸ htaken
    · refine hwaiting w hw s (hleft w.1 ?_ s hs)
      rw [hqueue', ← hqueue]
      exact List.mem_map_of_mem hw
  | @issues co session hsession hqueue' hsleep =>
    refine ⟨taken, waiting ++ [(co, session)], ?_, ?_, ?_, fun w hw s hs ↦ ?_⟩
    · rw [hissued, List.append_assoc]
      rfl
    · exact (List.append_nil (popped tr)).symm ▸ htaken
    · rw [List.map_append, hqueue, hqueue']
      rfl
    · rw [hsleep] at hs
      rcases List.mem_append.mp hw with hw | hw
      · exact hwaiting w hw s hs
      · rw [List.mem_singleton.mp hw] at hs ⊢
        exact Option.some.inj (hs.symm.trans hsession)
  | @pops co y hqueue' hy hleft =>
    -- the first of those that wait is taken
    cases waiting with
    | nil =>
      rw [hqueue'] at hqueue
      cases hqueue
    | cons w waiting =>
      rw [hqueue', List.map_cons, List.cons.injEq] at hqueue
      obtain ⟨hw, hqueue⟩ := hqueue
      refine ⟨taken ++ [w], waiting, ?_, ?_, hqueue, fun v hv s hs ↦ ?_⟩
      · rw [List.append_assoc]
        exact (List.append_nil _).trans hissued
      · refine List.rel_append htaken (.cons ⟨hw.symm, fun s hs ↦ ?_⟩ .nil)
        exact hwaiting w List.mem_cons_self s (by rw [hw, ← hy]; exact hs)
      · refine hwaiting v (List.mem_cons_of_mem _ hv) s (hleft v.1 ?_ s hs)
        rw [← hqueue]
        exact List.mem_map_of_mem hv

theorem Ledger.same (h : Ledger tr m) {k co session : ℕ}
    (hk : (popped tr)[k]? = some (co, some session)) : (issued tr)[k]? = some (co, session) := by
  obtain ⟨taken, waiting, hissued, htaken, -, -⟩ := h
  obtain ⟨hlt, hget⟩ := List.getElem?_eq_some_iff.mp hk
  have hlt' : k < taken.length := by
    rw [htaken.length_eq]
    exact hlt
  have hrel := (List.forall₂_iff_get.mp htaken).2 k hlt' hlt
  obtain ⟨hco, hsession⟩ := hrel
  rw [List.get_eq_getElem, hget] at hco hsession
  rw [hissued, List.getElem?_append_left hlt', List.getElem?_eq_getElem hlt']
  exact congrArg some (Prod.ext hco.symm (hsession session rfl).symm)

/-- **Wake-ups are exact** in every run in which the conditions hold of the steps. -/
theorem wakesExactly (hrun : Run luaService .init tr m) (hord : Meets Orderly tr) :
    WakesExactly tr := by
  -- the events are judged at their own step, so the ledger has to carry them along
  have hall : m.Sleeps ∧ (m.control.who = none → m.wakeupQueue = []) ∧ Ledger tr m ∧
      ∀ e ∈ tr, (∀ co session, e.output = .wakes co session → e.pre.SleepsIn co session) ∧
        (∀ co session, e.output = .wakened co (some session) →
          e.pre.SleepsIn co session ∧ e.post.state co = .running) ∧
        (e.output = .returns true → e.post.wakeupQueue = []) := by
    refine hrun.ledger (fun tr m ↦ m.Sleeps ∧ (m.control.who = none → m.wakeupQueue = []) ∧
      Ledger tr m ∧ ∀ e ∈ tr, (∀ co session, e.output = .wakes co session →
        e.pre.SleepsIn co session) ∧
        (∀ co session, e.output = .wakened co (some session) →
          e.pre.SleepsIn co session ∧ e.post.state co = .running) ∧
        (e.output = .returns true → e.post.wakeupQueue = [])) ?_ ?_ hord
    · exact ⟨.init, fun _ ↦ rfl, ⟨[], [], rfl, .nil, rfl, fun w hw ↦ (nomatch hw)⟩,
        fun e he ↦ (nomatch he)⟩
    · rintro tr m i m' o hr ⟨hsleeps, hempty, hledger, hevents⟩ hord hm
      have hstep := queueStep (Placed.of_run hr) hsleeps hempty hord hm
      refine ⟨hstep.sleeps, hstep.empty, hledger.step hstep.move, fun e he ↦ ?_⟩
      rcases List.mem_append.mp he with he | he
      · exact hevents e he
      · rw [List.mem_singleton.mp he]
        refine ⟨fun co session ho ↦ ?_, hstep.ends, hstep.returns true⟩
        dsimp only at ho
        subst ho
        cases hstep.move with
        | stays ho => rcases ho with ho | ⟨_, ho⟩ <;> cases ho
        | issues hsession => exact hsleeps.sleepsIn hsession
  exact ⟨fun _ _ _ hk ↦ hall.2.2.1.same hk, fun e he ↦ (hall.2.2.2 e he).1,
    fun e he ↦ (hall.2.2.2 e he).2.1, fun e he ↦ (hall.2.2.2 e he).2.2⟩

/-- A coroutine is woken twice, and sleeps again before the second entry is taken from the queue. -/
theorem not_wakesExactly : ∃ tr m, Run luaService .init tr m ∧ ¬ WakesExactly tr := by
  have hpasses : Passes luaService .init
      [.response 0, .fork none, .sleep, .forked 1, .wakeup 0, .wakeup 0, .finish, .sleep]
      fun tr _ ↦ (popped tr)[1]? = some (0, some 2) ∧ (issued tr)[1]? = some (0, 1) := by
    decide +kernel
  obtain ⟨tr, m, hrun, hpopped, hissued⟩ := Run.of_passes hpasses
  refine ⟨tr, m, hrun, fun h ↦ ?_⟩
  have hsame := h.same 1 0 2 hpopped
  rw [hissued] at hsame
  cases hsame

/-- A coroutine is woken and comes to the end of its function. -/
theorem wakesExactly_one : ∃ tr m, Run luaService .init tr m ∧ WakesExactly tr ∧
    issued tr = [(0, 1)] ∧ popped tr = [(0, some 1)] := by
  have hpasses : Passes luaService .init
      [.response 0, .fork none, .sleep, .forked 1, .wakeup 0, .finish, .finish, .returns]
      fun tr _ ↦ Meets Orderly tr ∧ issued tr = [(0, 1)] ∧ popped tr = [(0, some 1)] := by
    decide +kernel
  obtain ⟨tr, m, hrun, hord, hissued, hpopped⟩ := Run.of_passes hpasses
  exact ⟨tr, m, hrun, wakesExactly hrun hord, hissued, hpopped⟩

end LuaService

end ZTask
