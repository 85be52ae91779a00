import ZTask.Server.Lifecycle

/-!
# Every queue is in one place

The invariant holds in every reachable state of the scheduler, and no step faults. What the
tokens count is then read off: a queue is in the global list, in the hands of one worker, or with
the creator of its service, and never in two of these places.

## Tokens

The state of the source has no owner of a queue. `Server.Tokens` gives each program point the tokens
of what its actor holds: references to contexts, queues in dispatch, queues that are being made. The
invariant compares the shared memory with the tokens of all actors, added up: the counts of the
contexts are the numbers of references, and a queue that is marked as global is in the global list
or in somebody's hands.

## One actor at a time

A step belongs to one actor and changes its tokens and the shared memory; the tokens of the others
are a rest `R` of which nothing needs to be known (`Keeps`). There is a lemma for every program
point, and `keeps_act` collects them. `sched_ok` puts the rest back, and `sched_reachable` is the
induction over the run. Assertions of the source are part of it: a step that would fail one is a
fault, and no step faults.
-/

namespace ZTask

open Lib

/-! ## One step of one actor -/

/-- A step that does not fault and leaves the invariant with the tokens of the actor's new program
point, next to the tokens `R` of the other actors. -/
def Keeps (R : Multiset Token) (r : Except SchedFault (Shared × Pc)) : Prop :=
  ∃ s p L, r = .ok (s, p) ∧ Inv s L (p.tokens + R)

section Steps

variable {s : Shared} {L : List QueueId} {R : Multiset Token} {c : CtxId} {q : QueueId}
  {weight : ℤ} {i n : ℕ} {k : Pc}

theorem Keeps.mk {r : Except SchedFault (Shared × Pc)} {p : Pc} {T : Multiset Token}
    (hr : r = .ok (s, p)) (hT : p.tokens + R = T) (h : Inv s L T) : Keeps R r :=
  ⟨s, p, L, hr, hT ▸ h⟩

theorem Inv.cast {T T' : Multiset Token} (h : Inv s L T) (hT : T = T') : Inv s L T' := hT ▸ h

namespace Pc

private theorem tokens_one {p : Pc} {tk : Token} (h : p.tokens = {tk}) (R : Multiset Token) :
    p.tokens + R = tk ::ₘ R := by
  rw [h, Multiset.singleton_add]

private theorem tokens_cons {p k : Pc} {tk : Token} (h : p.tokens = tk ::ₘ k.tokens)
    (R : Multiset Token) : p.tokens + R = tk ::ₘ (k.tokens + R) := by
  rw [h, Multiset.cons_add]

theorem tokens_two {p : Pc} {tk tk' : Token} (h : p.tokens = tk ::ₘ {tk'}) (R : Multiset Token) :
    p.tokens + R = tk ::ₘ tk' ::ₘ R := by
  rw [h, Multiset.cons_add, Multiset.singleton_add]

end Pc

private theorem keeps_release (h : Inv s L (.ref c ::ₘ (k.tokens + R))) :
    Keeps R (s.contextRelease c k) := by
  obtain ⟨s', ⟨hdec, hinv, -⟩ | ⟨hdec, hinv⟩⟩ := h.contextDec
  · exact .mk (p := .deleteContext c k) (by rw [Shared.contextRelease, hdec]; rfl)
      (Pc.tokens_cons rfl R) hinv
  · exact .mk (p := k) (by rw [Shared.contextRelease, hdec]; rfl) rfl hinv

private theorem keeps_grab (h : Inv s L R) (handle : ℕ) {next : CtxId → Pc}
    (hnext : ∀ c, (next c).tokens = {.ref c}) : Keeps R (s.stepGrab handle next) := by
  rcases h.handleGrab handle with ⟨-, hgrab⟩ | ⟨c, x, -, hx, -, hgrab, hinv⟩
  · exact .mk (p := .idle) (by rw [Shared.stepGrab, hgrab]; rfl) (zero_add R) h
  · exact .mk (p := next c) (by rw [Shared.stepGrab, hgrab]; rfl) (Pc.tokens_one (hnext c) R) hinv

private theorem keeps_retire (h : Inv s L (k.tokens + R)) (handle : ℕ) :
    Keeps R (.ok (s.handleRetire handle k)) := by
  cases ht : s.table handle with
  | none => exact .mk (p := k) (by rw [Shared.handleRetire, ht]) rfl h
  | some c =>
    exact .mk (p := .release c k) (by rw [Shared.handleRetire, ht]) (Pc.tokens_cons rfl R)
      (h.handleRetire ht)

private theorem keeps_idle (h : Inv s L R) (choice : Choice)
    (hnew : ∀ c q handle, choice = .new c q handle → s.ctx c = none ∧ s.queues.mq q = none ∧
      ∀ q' m, s.queues.mq q' = some m → m.handle ≠ handle) : Keeps R (s.act .idle choice) := by
  cases choice with
  | dispatch weight => exact .mk (p := .popGlobal weight) rfl (zero_add R) h
  | push handle message => exact keeps_grab h handle fun _ ↦ rfl
  | grab handle => exact keeps_grab h handle fun _ ↦ rfl
  | retire handle => exact keeps_retire (k := .idle) ((zero_add R).symm ▸ h) handle
  | new c q handle =>
    obtain ⟨hc, hq, hfresh⟩ := hnew c q handle rfl
    exact .mk (p := .beginInit c q) rfl (Pc.tokens_one rfl R) (h.contextRegister hc hq hfresh)
  | run | initResult ok cb | send message => exact .mk (p := .idle) rfl (zero_add R) h

/-! ### `ztask_context_message_dispatch` -/

private theorem keeps_popGlobal (h : Inv s L R) : Keeps R (s.stepPopGlobal weight) := by
  rcases h.globalmqPop with ⟨-, hpop⟩ | ⟨q, L', queues, hpop, hinv⟩
  · exact .mk (p := .idle) (by rw [Shared.stepPopGlobal, hpop]; rfl) (zero_add R) h
  · exact .mk (p := .grabHandle weight q) (by rw [Shared.stepPopGlobal, hpop]; rfl)
      (Pc.tokens_one rfl R) hinv

private theorem keeps_grabHandle (h : Inv s L (.held q ::ₘ R)) :
    Keeps R (s.stepGrabHandle weight q) := by
  obtain ⟨-, -, m, hm, -⟩ := h.of_atQueue (Token.atQueue_held q q |>.trans (decide_eq_true rfl))
  rcases h.handleGrab m.handle with ⟨-, hgrab⟩ | ⟨c, x, ht, hx, hxh, hgrab, hinv⟩
  · exact .mk (p := .mqRelease q (.popGlobal weight))
      (by simp only [Shared.stepGrabHandle, hm, hgrab]; rfl) (Pc.tokens_one rfl R) h
  · -- the context found by the queue's handle is the one that owns the queue
    have hxq : x.queue = q := by
      obtain ⟨m', hm', hh', -⟩ := (h.ctxOk hx).queue
      exact h.handleInj hm' hm (hh'.trans hxh)
    refine .mk (p := .popMessage weight q c 0 1)
      (by simp only [Shared.stepGrabHandle, hm, hgrab]; rfl)
      (Pc.tokens_one rfl R) (hinv.joinWork (Function.update_self _ _ _) hxq ?_)
    exact hxh ▸ ht

private theorem keeps_popMessage (h : Inv s L (.work c q ::ₘ R)) :
    Keeps R (s.stepPopMessage weight q c i n) := by
  obtain ⟨-, -, m, hm, -⟩ := h.of_atQueue (Token.atQueue_work q q c |>.trans (decide_eq_true rfl))
  by_cases hi : i < n
  · have hpop : s.queues.mqPop q =
        .ok ((mqPopQueue m).1, s.queues.setMq q (some (mqPopQueue m).2)) := by
      simp only [Queues.mqPop, hm]
    cases hmsg : (mqPopQueue m).1 with
    | none =>
      exact .mk (p := .release c (.popGlobal weight))
        (by simp only [Shared.stepPopMessage, if_pos hi, hpop, hmsg]; rfl) (Pc.tokens_one rfl R)
        (h.mqPop_none hm hmsg)
    | some message =>
      have hinv := h.mqPop_some (by simp) hm hmsg
      by_cases hw : i = 0 ∧ 0 ≤ weight
      · exact .mk (p := .readLength weight q c i)
          (by simp only [Shared.stepPopMessage, if_pos hi, hpop, hmsg, if_pos hw]; rfl)
              (Pc.tokens_one rfl R) hinv
      · exact .mk (p := .handleMessage weight q c i n)
          (by simp only [Shared.stepPopMessage, if_pos hi, hpop, hmsg, if_neg hw]; rfl)
              (Pc.tokens_one rfl R) hinv
  · obtain ⟨x, hx, hxq, -⟩ := h.valid_head
    have hcheck : s.checkQueue c q = .ok () := by
      simp only [Shared.checkQueue, hx, if_pos hxq]
    rcases h.globalmqPop with ⟨-, hpop⟩ | ⟨nq, L', queues, hpop, hinv⟩
    · exact .mk (p := .release c (.grabHandle weight q))
        (by simp only [Shared.stepPopMessage, if_neg hi, hcheck, hpop]; rfl) (Pc.tokens_two rfl R)
        h.splitWork
    · refine .mk (p := .pushBack weight q c nq)
        (by simp only [Shared.stepPopMessage, if_neg hi, hcheck, hpop]; rfl) ?_ hinv
      rw [Pc.tokens, Multiset.cons_add, Multiset.singleton_add, Multiset.cons_swap]

private theorem keeps_readLength (h : Inv s L (.work c q ::ₘ R)) :
    Keeps R (s.stepReadLength weight q c i) := by
  obtain ⟨-, -, m, hm, -⟩ := h.of_atQueue (Token.atQueue_work q q c |>.trans (decide_eq_true rfl))
  exact .mk (p := .handleMessage weight q c i (mqLength m >>> weight.toNat))
    (by simp only [Shared.stepReadLength, hm]) (Pc.tokens_one rfl R) h

/-- `assert(ctx->init)` and `CHECKCALLING_BEGIN` in `dispatch_message`. -/
theorem keeps_handleMessage (h : Inv s L (.work c q ::ₘ R)) :
    Keeps R (s.stepHandleMessage weight q c i n) := by
  obtain ⟨s', hclear, -, hinv⟩ := h.clearOverload (q := q) (by simp)
  obtain ⟨x, hx, hxq, hxi⟩ := hinv.valid_head
  cases hcb : x.cb with
  | false =>
    have hd : s'.dispatchMessage c = .ok (false, s') := by
      simp [Shared.dispatchMessage, hx, hcb]
    exact .mk (p := .popMessage weight q c (i + 1) n) (by
      simp only [Shared.stepHandleMessage, hclear]
      simp only [bind, Except.bind, hd]
      rfl)
      (Pc.tokens_one rfl R) hinv
  | true =>
    obtain ⟨s'', hbegin, hinv'⟩ := hinv.callingBegin (b := .running c q) hx (by simp [hxq]) rfl
      (by simp [Token.runs]) (fun _ ↦ rfl) (fun _ ↦ rfl) (fun _ ↦ rfl)
      (fun c' hc' ↦ by simp [Token.runs, hc'.symm]) (fun _ _ hun ↦ hun) ⟨x, hx, hxq, hxi⟩
    have hd : s'.dispatchMessage c = .ok (true, s'') := by
      simp only [Shared.dispatchMessage, hx, hcb, hxi, hbegin]
      rfl
    exact .mk (p := .callback weight q c i n) (by
      simp only [Shared.stepHandleMessage, hclear]
      simp only [bind, Except.bind, hd]
      rfl)
      (Pc.tokens_one rfl R) hinv'

private theorem keeps_callback (h : Inv s L (.running c q ::ₘ R)) :
    Keeps R (s.stepCallback weight q c i n) := by
  obtain ⟨x, hx, hxq, hxi⟩ := h.valid_head
  obtain ⟨s', hend, hinv⟩ := h.callingEnd (b := .work c q) hx Context.cb (by simp [Token.runs]) rfl
    (fun _ ↦ rfl) (fun _ ↦ rfl) (fun _ ↦ rfl) (fun c' hc' ↦ by simp [Token.runs, hc'.symm])
    (fun _ _ hun ↦ hun) ⟨x, hx, hxq, hxi⟩
  exact .mk (p := .popMessage weight q c (i + 1) n) (by rw [Shared.stepCallback, hend]; rfl)
    (Pc.tokens_one rfl R) hinv

private theorem keeps_pushBack {nq : QueueId} (h : Inv s L (.work c q ::ₘ .held nq ::ₘ R)) :
    Keeps R (s.stepPushBack weight q c nq) := by
  have h' : Inv s L (.held q ::ₘ .ref c ::ₘ .held nq ::ₘ R) :=
    Multiset.cons_swap _ _ _ ▸ h.splitWork
  obtain ⟨queues, hpush, hinv⟩ := h'.globalmqPush
  exact .mk (p := .release c (.grabHandle weight nq)) (by rw [Shared.stepPushBack, hpush]; rfl)
    (Pc.tokens_two rfl R) hinv

/-! ### `ztask_mq_release`, `ztask_context_push` and `delete_context` -/

private theorem keeps_mqRelease (h : Inv s L (.held q ::ₘ (k.tokens + R))) :
    Keeps R (s.stepMqRelease q k) := by
  obtain ⟨L', queues, ⟨htest, hinv⟩ | ⟨htest, hinv⟩⟩ := h.mqReleaseTest
  · exact .mk (p := .dropMessage q k) (by rw [Shared.stepMqRelease, htest]; rfl)
      (Pc.tokens_cons rfl R) hinv
  · exact .mk (p := k) (by rw [Shared.stepMqRelease, htest]; rfl) rfl hinv

private theorem keeps_dropMessage (h : Inv s L (.drop q ::ₘ (k.tokens + R))) :
    Keeps R (s.stepDropMessage q k) := by
  obtain ⟨m, hm, -⟩ := h.valid_head
  have hpop : s.queues.mqPop q =
      .ok ((mqPopQueue m).1, s.queues.setMq q (some (mqPopQueue m).2)) := by
    simp only [Queues.mqPop, hm]
  have hinv := h.mqPop_drop hm
  cases hmsg : (mqPopQueue m).1 with
  | none =>
    exact .mk (p := .freeQueue q k) (by rw [Shared.stepDropMessage, hpop, hmsg]; rfl)
        (Pc.tokens_cons rfl R) hinv
  | some message =>
    exact .mk (p := .dropMessage q k) (by rw [Shared.stepDropMessage, hpop, hmsg]; rfl)
        (Pc.tokens_cons rfl R) hinv

private theorem keeps_freeQueue (h : Inv s L (.drop q ::ₘ (k.tokens + R))) :
    Keeps R (s.stepFreeQueue q k) := by
  obtain ⟨queues, hfree, hinv⟩ := h.freeQueue
  exact .mk (p := k) (by rw [Shared.stepFreeQueue, hfree]; rfl) rfl hinv

private theorem keeps_deleteContext (h : Inv s L (.del c ::ₘ (k.tokens + R))) :
    Keeps R (s.stepDeleteContext c k) := by
  obtain ⟨L', s', hdel, hinv⟩ := h.contextDelete
  exact .mk (p := k) (by rw [Shared.stepDeleteContext, hdel]; rfl) rfl hinv

private theorem keeps_send {p : Pc} (h : Inv s L (.ref c ::ₘ R)) (hp : p.tokens = {.ref c})
    (message : ZtaskMessage) : Keeps R (s.stepSend c message p) := by
  obtain ⟨x, hx, -⟩ := h.of_refs (c := c) (by simp [Token.refs])
  obtain ⟨L', queues, hpush, hinv⟩ := h.mqPush hx message
  have hsend : s.contextSend c message = .ok { s with queues := queues } := by
    simp only [Shared.contextSend, hx, hpush]
    rfl
  exact .mk (p := p) (by rw [Shared.stepSend, hsend]; rfl) (Pc.tokens_one hp R) hinv

/-! ### `ztask_context_new` -/

private theorem keeps_beginInit (h : Inv s L (.created c q ::ₘ R)) :
    Keeps R (s.stepBeginInit c q) := by
  obtain ⟨x, hx, hxq⟩ := h.valid_head
  obtain ⟨s', hbegin, hinv⟩ := h.callingBegin (b := .starting c q) hx (by simp [hxq]) rfl
    (by simp [Token.runs]) (fun _ ↦ rfl) (fun _ ↦ rfl) (fun _ ↦ rfl)
    (fun c' hc' ↦ by simp [Token.runs, hc'.symm]) (fun _ _ hun ↦ hun) ⟨x, hx, hxq⟩
  exact .mk (p := .initialise c q) (by rw [Shared.stepBeginInit, hbegin]; rfl)
    (Pc.tokens_one rfl R) hinv

private theorem keeps_initialise (h : Inv s L (.starting c q ::ₘ R)) (ok cb : Bool) :
    Keeps R (s.stepInitialise c q ok cb) := by
  obtain ⟨x, hx, hxq⟩ := h.valid_head
  obtain ⟨s', hend, hinv⟩ := h.callingEnd (b := .created c q) hx (fun _ ↦ cb)
    (by simp [Token.runs]) rfl (fun _ ↦ rfl) (fun _ ↦ rfl) (fun _ ↦ rfl)
    (fun c' hc' ↦ by simp [Token.runs, hc'.symm]) (fun _ _ hun ↦ hun) ⟨x, hx, hxq⟩
  cases ok with
  | true =>
    exact .mk (p := .initDone c q) (by rw [Shared.stepInitialise, hend]; rfl)
      (Pc.tokens_one rfl R) hinv
  | false =>
    exact .mk (p := .initFailed c q) (by rw [Shared.stepInitialise, hend]; rfl)
      (Pc.tokens_one rfl R) hinv

private theorem keeps_initDone (h : Inv s L (.created c q ::ₘ R)) :
    Keeps R (s.stepInitDone c q) := by
  obtain ⟨s', ⟨hdec, hinv, hgone⟩ | ⟨hdec, hinv⟩⟩ := h.splitCreated.contextDec
  · -- the service retired itself in its initialiser
    have hheld : Inv s' L (.del c ::ₘ .held q ::ₘ R) := by
      rw [Multiset.cons_swap] at hinv ⊢
      exact hinv.forget fun x hx _ ↦ Or.inr (hgone x hx)
    exact .mk (p := .deleteContext c (.publish q)) (by rw [Shared.stepInitDone, hdec]; rfl)
      (Pc.tokens_two rfl R) hheld
  · exact .mk (p := .setInit c q) (by rw [Shared.stepInitDone, hdec]; rfl)
      (Pc.tokens_one rfl R) hinv

private theorem keeps_publish (h : Inv s L (.held q ::ₘ R)) : Keeps R (s.stepPublish q) := by
  obtain ⟨queues, hpush, hinv⟩ := h.globalmqPush
  exact .mk (p := .idle) (by rw [Shared.stepPublish, hpush]; rfl) (zero_add R) hinv

private theorem keeps_initFailed (h : Inv s L (.created c q ::ₘ R)) :
    Keeps R (s.stepInitFailed c q) := by
  obtain ⟨x, hx, -⟩ := h.valid_head
  simp only [Shared.stepInitFailed, hx]
  refine keeps_release (L := L) ?_
  rw [Pc.tokens_one rfl R]
  exact h.splitFailed hx

private theorem keeps_retireNew {handle : ℕ} (h : Inv s L (.retiring c q handle ::ₘ R)) :
    Keeps R (.ok (s.handleRetire handle (.mqRelease q .idle))) := by
  rcases h.retireNew with ⟨ht, hinv⟩ | ⟨c', ht, hinv⟩
  · exact .mk (p := .mqRelease q .idle) (by rw [Shared.handleRetire, ht]) (Pc.tokens_one rfl R) hinv
  · exact .mk (p := .release c' (.mqRelease q .idle)) (by rw [Shared.handleRetire, ht])
      (Pc.tokens_two rfl R) hinv

/-- **Every step of an actor keeps the invariant**, and no assertion of the source fails in it. -/
theorem keeps_act {p : Pc} (h : Inv s L (p.tokens + R)) (choice : Choice)
    (hnew : ∀ c q handle, choice = .new c q handle → s.ctx c = none ∧ s.queues.mq q = none ∧
      ∀ q' m, s.queues.mq q' = some m → m.handle ≠ handle) : Keeps R (s.act p choice) := by
  have hstay : ∀ {r}, r = .ok (s, p) → Keeps R r := fun hr ↦ .mk hr rfl h
  -- one case for each program counter; a choice that is not offered there leaves all as it is
  cases p with
  | idle => exact keeps_idle (h.cast (zero_add R)) choice hnew
  | reserved c =>
    cases choice with
    | run => exact .mk (p := .release c .idle) rfl rfl h
    | send message => exact keeps_send (h.cast (Pc.tokens_one rfl R)) rfl message
    | _ => exact hstay rfl
  | initialise c q =>
    cases choice with
    | initResult ok cb => exact keeps_initialise (h.cast (Pc.tokens_one rfl R)) ok cb
    | _ => exact hstay rfl
  | popGlobal weight =>
    cases choice with
    | run => exact keeps_popGlobal (h.cast (zero_add R))
    | _ => exact hstay rfl
  | grabHandle weight q =>
    cases choice with
    | run => exact keeps_grabHandle (h.cast (Pc.tokens_one rfl R))
    | _ => exact hstay rfl
  | popMessage weight q c i n =>
    cases choice with
    | run => exact keeps_popMessage (h.cast (Pc.tokens_one rfl R))
    | _ => exact hstay rfl
  | readLength weight q c i =>
    cases choice with
    | run => exact keeps_readLength (h.cast (Pc.tokens_one rfl R))
    | _ => exact hstay rfl
  | handleMessage weight q c i n =>
    cases choice with
    | run => exact keeps_handleMessage (h.cast (Pc.tokens_one rfl R))
    | _ => exact hstay rfl
  | callback weight q c i n =>
    cases choice with
    | run => exact keeps_callback (h.cast (Pc.tokens_one rfl R))
    | _ => exact hstay rfl
  | pushBack weight q c nq =>
    cases choice with
    | run =>
      rw [Pc.tokens, Multiset.cons_add, Multiset.singleton_add] at h
      exact keeps_pushBack h
    | _ => exact hstay rfl
  | mqRelease q k =>
    cases choice with
    | run => exact keeps_mqRelease (h.cast (Pc.tokens_cons rfl R))
    | _ => exact hstay rfl
  | dropMessage q k =>
    cases choice with
    | run => exact keeps_dropMessage (h.cast (Pc.tokens_cons rfl R))
    | _ => exact hstay rfl
  | freeQueue q k =>
    cases choice with
    | run => exact keeps_freeQueue (h.cast (Pc.tokens_cons rfl R))
    | _ => exact hstay rfl
  | release c k =>
    cases choice with
    | run => exact keeps_release (h.cast (Pc.tokens_cons rfl R))
    | _ => exact hstay rfl
  | deleteContext c k =>
    cases choice with
    | run => exact keeps_deleteContext (h.cast (Pc.tokens_cons rfl R))
    | _ => exact hstay rfl
  | pushMessage c message =>
    cases choice with
    | run => exact keeps_send (h.cast (Pc.tokens_one rfl R)) rfl message
    | _ => exact hstay rfl
  | beginInit c q =>
    cases choice with
    | run => exact keeps_beginInit (h.cast (Pc.tokens_one rfl R))
    | _ => exact hstay rfl
  | initDone c q =>
    cases choice with
    | run => exact keeps_initDone (h.cast (Pc.tokens_one rfl R))
    | _ => exact hstay rfl
  | setInit c q =>
    cases choice with
    | run =>
      exact .mk (p := .publish q) rfl (Pc.tokens_one rfl R)
        (Inv.storeInit (h.cast (Pc.tokens_one rfl R)))
    | _ => exact hstay rfl
  | publish q =>
    cases choice with
    | run => exact keeps_publish (h.cast (Pc.tokens_one rfl R))
    | _ => exact hstay rfl
  | initFailed c q =>
    cases choice with
    | run => exact keeps_initFailed (h.cast (Pc.tokens_one rfl R))
    | _ => exact hstay rfl
  | retireNew c q handle =>
    cases choice with
    | run => exact keeps_retireNew (h.cast (Pc.tokens_one rfl R))
    | _ => exact hstay rfl

end Steps

/-! ## Runs -/

section Runs

variable {τ : Type} [Fintype τ] [DecidableEq τ]

/-- The invariant of the system: the shared memory agrees with what all actors hold. -/
def Sched.Ok (s : Sched τ) : Prop := ∃ L, Inv s.shared L (holdings Pc.tokens s.pc)

omit [DecidableEq τ] in
theorem Sched.ok_initial : (Sched.initial τ).Ok := by
  have hnone : holdings Pc.tokens (Sched.initial τ).pc = 0 := Finset.sum_const_zero
  refine ⟨[], LinkQueue.empty_represents, fun q ↦ ?_, ?_, ?_, ?_, ?_, ?_, ?_, ?_⟩
  · rw [hnone]
    rfl
  · intro c x hx
    cases hx
  · intro c _
    rw [hnone]
    exact ⟨rfl, rfl⟩
  · intro k c hk
    cases hk
  · intro c c' x x' hx
    cases hx
  · intro q q' m m' hm
    cases hm
  · intro q m hm
    cases hm
  · intro tk htk
    rw [hnone] at htk
    cases htk

/-- A step of the system does not fault and keeps the invariant. -/
theorem sched_ok {s : Sched τ} (h : s.Ok) {i : SchedInput τ} (hi : i.Allowed s) :
    ∃ s', sched s i = .ok (s', ()) ∧ s'.Ok := by
  obtain ⟨L, hinv⟩ := h
  cases i with
  | act t choice =>
    rw [holdings_eq Pc.tokens s.pc t, add_comm] at hinv
    have hnew : ∀ c q handle, choice = .new c q handle → s.shared.ctx c = none ∧
        s.shared.queues.mq q = none ∧
        ∀ q' m, s.shared.queues.mq q' = some m → m.handle ≠ handle := by
      rintro c q handle rfl
      exact hi
    obtain ⟨shared, p, L', hact, hinv'⟩ := keeps_act hinv choice hnew
    refine ⟨⟨shared, Function.update s.pc t p⟩, ?_, L', ?_⟩
    · simp only [sched, hact]
      rfl
    · rw [holdings_update, add_comm]
      exact hinv'
  | reserve t t' =>
    have hstay : s.Ok := ⟨L, hinv⟩
    cases ht : s.pc t with
    | idle =>
      cases ht' : s.pc t' with
      | initialise c q =>
        have hmem : Token.starting c q ∈ holdings Pc.tokens s.pc :=
          mem_holdings Pc.tokens s.pc (t := t') (by rw [ht']; exact Multiset.mem_singleton_self _)
        obtain ⟨T, hT⟩ := Multiset.exists_cons_of_mem hmem
        obtain ⟨x, hx, hpos⟩ := (hinv.cast hT).of_refs (c := c) (by simp [Token.refs])
        have hinv' := hinv.refInc hx (Nat.pos_iff_ne_zero.mp hpos)
        refine ⟨⟨_, Function.update s.pc t (.reserved c)⟩, by simp only [sched, ht, ht', hx]; rfl,
          L, ?_⟩
        rw [holdings_eq Pc.tokens s.pc t, ht, Pc.tokens, add_zero] at hinv'
        have hpc : holdings Pc.tokens (Function.update s.pc t (.reserved c))
            = .ref c ::ₘ others Pc.tokens s.pc t := by
          rw [holdings_update, add_comm]
          exact Pc.tokens_one rfl _
        exact hinv'.cast hpc.symm
      | _ => exact ⟨s, by simp only [sched, ht, ht'], hstay⟩
    | _ => exact ⟨s, by simp only [sched, ht], hstay⟩

/-- **The invariant holds in every reachable state.** -/
theorem sched_reachable {s : Sched τ}
    (h : Reachable sched SchedInput.Allowed (Sched.initial τ) s) : s.Ok := by
  refine h.invariant Sched.Ok Sched.ok_initial ?_
  intro s i s' o hok hi hstep
  obtain ⟨s'', hs'', hok'⟩ := sched_ok hok hi
  rw [hstep, Except.ok.injEq, Prod.mk.injEq] at hs''
  exact hs''.1 ▸ hok'

/-! ## Where the queues are -/

/-- The places an actor at `p` counts for are covered by its tokens. -/
theorem Pc.places_le (p : Pc) (q : QueueId) :
    (if p.dispatching q then 1 else 0) + (if p.creating q then 1 else 0)
      ≤ p.tokens.countP (Token.atQueue q ·) := by
  induction p with
  | mqRelease q' k ih | dropMessage q' k ih | freeQueue q' k ih =>
    rw [Pc.tokens, Multiset.countP_cons]
    by_cases hq : q' = q <;> by_cases hk : k = .idle <;>
      simp [Pc.dispatching, Pc.creating, hq, hk] at ih ⊢ <;> omega
  | release c k ih | deleteContext c k ih =>
    rw [Pc.tokens, Multiset.countP_cons_of_neg _ (by simp)]
    exact ih
  | pushBack weight q' c nq =>
    by_cases hq : q' = q <;> by_cases hnq : nq = q <;>
      simp [Pc.dispatching, Pc.creating, Pc.tokens, hq, hnq, ← Multiset.cons_zero]
  | idle | popGlobal weight | pushMessage c message | reserved c =>
    simp [Pc.dispatching, Pc.creating]
  | grabHandle weight q' | popMessage weight q' c i n | readLength weight q' c i
  | handleMessage weight q' c i n | callback weight q' c i n | publish q' | beginInit c q'
  | initialise c q' | initDone c q' | setInit c q' | initFailed c q' | retireNew c q' k =>
    simp [Pc.dispatching, Pc.creating, Pc.tokens, Multiset.countP_cons, ← Multiset.cons_zero]

/-- A token at `q` is held by a worker in dispatch or by the creator of the service. -/
theorem Pc.place_of_mem {p : Pc} {q : QueueId} {tk : Token} (h : tk ∈ p.tokens)
    (hat : tk.atQueue q = true) : p.dispatching q = true ∨ p.creating q = true := by
  induction p with
  | mqRelease q' k ih | dropMessage q' k ih | freeQueue q' k ih =>
    rcases Multiset.mem_cons.mp h with rfl | h
    · have hq : q' = q := by simpa using hat
      by_cases hk : k = .idle <;> simp [Pc.dispatching, Pc.creating, hq, hk]
    · rcases ih h with hd | hc <;> simp [Pc.dispatching, Pc.creating, *]
  | release c k ih | deleteContext c k ih =>
    rcases Multiset.mem_cons.mp h with rfl | h
    · cases hat
    · exact ih h
  | pushBack weight q' c nq =>
    rcases Multiset.mem_cons.mp h with rfl | h
    · simp_all [Pc.dispatching]
    · simp_all [Pc.dispatching, Pc.tokens]
  | idle | popGlobal weight => cases h
  | pushMessage c message | reserved c =>
    rw [Multiset.mem_singleton.mp h] at hat
    cases hat
  | grabHandle weight q' | popMessage weight q' c i n | readLength weight q' c i
  | handleMessage weight q' c i n | callback weight q' c i n =>
    rw [Multiset.mem_singleton.mp h] at hat
    exact Or.inl hat
  | publish q' | beginInit c q' | initialise c q' | initDone c q' | setInit c q'
  | initFailed c q' | retireNew c q' k =>
    rw [Multiset.mem_singleton.mp h] at hat
    exact Or.inr hat

theorem Pc.runs_of_inCallback {p : Pc} {c : CtxId} (h : p.inCallback c = true) :
    0 < p.tokens.countP (Token.runs c ·) := by
  cases p with
  | callback weight q c' i n =>
    refine Multiset.countP_pos.mpr ⟨_, Multiset.mem_singleton_self _, ?_⟩
    exact h
  | _ => cases h

/-- **Exclusivity and no stranded messages.** In every reachable state of the scheduler, with any
number of actors:

* a queue is counted at most once over the global list, the workers in
  `ztask_context_message_dispatch` and the creators in `ztask_context_new`;
* no step faults, so no assertion of the source fails, the one in `ztask_globalmq_push` included,
  and no freed block is touched;
* no two actors run the callback of one service;
* a queue that holds a message is in one of the three places, so some worker will get to it. -/
theorem sched_exclusive {s : Sched τ}
    (h : Reachable sched SchedInput.Allowed (Sched.initial τ) s) :
    ∃ L, s.shared.queues.global.Represents L ∧
      (∀ q, L.count q + (∑ t, if (s.pc t).dispatching q then 1 else 0)
        + (∑ t, if (s.pc t).creating q then 1 else 0) ≤ 1) ∧
      (∀ i, SchedInput.Allowed s i → ∃ s', sched s i = .ok (s', ())) ∧
      (∀ c t t', (s.pc t).inCallback c = true → (s.pc t').inCallback c = true → t = t') ∧
      ∀ q m, s.shared.queues.mq q = some m → m.ring.toList ≠ [] →
        q ∈ L ∨ ∃ t, (s.pc t).dispatching q = true ∨ (s.pc t).creating q = true := by
  have hok := sched_reachable h
  have ⟨L, hinv⟩ := hok
  refine ⟨L, hinv.repr, fun q ↦ ?_, fun i hi ↦ ?_, fun c t t' ht ht' ↦ ?_, fun q m hm hne ↦ ?_⟩
  · -- what the threads dispatch and create is among the tokens that they hold for the queue
    have hle : (∑ t, ((if (s.pc t).dispatching q then 1 else 0)
        + if (s.pc t).creating q then 1 else 0))
        ≤ (holdings Pc.tokens s.pc).countP (Token.atQueue q ·) := by
      rw [countP_holdings]
      exact Finset.sum_le_sum fun t _ ↦ (s.pc t).places_le q
    have hplaces := hinv.places q
    have hone := s.shared.queues.expected_le_one q
    rw [Finset.sum_add_distrib] at hle
    omega
  · obtain ⟨s', hs', -⟩ := sched_ok hok hi
    exact ⟨s', hs'⟩
  · -- two workers in one callback would both hold the run token of the context
    by_contra hne
    have htwo := countP_two_le Pc.tokens s.pc (Token.runs c · = true) hne
      (Pc.runs_of_inCallback ht) (Pc.runs_of_inCallback ht')
    have hone := hinv.runs_le_one c
    omega
  · -- a queue that is expected nowhere is empty, and this one is not
    have hexp : s.shared.queues.expected q = 1 := by
      by_contra hexp
      refine hne (hinv.quiet hm ?_ ?_) <;>
      · by_contra hflag
        exact hexp (Queues.expected_eq_one hm (by simp_all))
    have hplaces := hinv.places q
    by_cases hL : q ∈ L
    · exact Or.inl hL
    · rw [List.count_eq_zero.mpr hL, hexp, zero_add, countP_holdings] at hplaces
      obtain ⟨t, -, ht⟩ : ∃ t ∈ Finset.univ, 0 < (s.pc t).tokens.countP (Token.atQueue q ·) := by
        by_contra hno
        push Not at hno
        have := Finset.sum_nonpos hno
        omega
      obtain ⟨tk, htk, hat⟩ := Multiset.countP_pos.mp ht
      exact Or.inr ⟨t, Pc.place_of_mem htk hat⟩

end Runs

/-- Actor 0 creates a service, actor 1 sends it a message, and actor 0 is in its callback. -/
def deliveryRun : Sched (Fin 2) :=
  [.act 0 .run, .act 0 (.initResult true true), .act 0 .run, .act 0 .run, .act 0 .run,
    .act 1 (.push 7 ⟨0, 1, none, 0⟩), .act 1 .run, .act 1 .run, .act 0 (.dispatch 0), .act 0 .run,
    .act 0 .run, .act 0 .run, .act 0 .run, .act 0 .run].foldl (after sched)
      (after sched (Sched.initial (Fin 2)) (.act 0 (.new 1 1 7)))

theorem sched_exclusive_delivery : (deliveryRun.pc 0).inCallback 1 = true ∧
    ∃ L, deliveryRun.shared.queues.global.Represents L ∧
      (∀ q, L.count q + (∑ t, if (deliveryRun.pc t).dispatching q then 1 else 0)
        + (∑ t, if (deliveryRun.pc t).creating q then 1 else 0) ≤ 1) ∧
      (∀ i, SchedInput.Allowed deliveryRun i → ∃ s', sched deliveryRun i = .ok (s', ())) ∧
      (∀ c t t', (deliveryRun.pc t).inCallback c = true →
        (deliveryRun.pc t').inCallback c = true → t = t') ∧
      ∀ q m, deliveryRun.shared.queues.mq q = some m → m.ring.toList ≠ [] →
        q ∈ L ∨ ∃ t, (deliveryRun.pc t).dispatching q = true ∨
          (deliveryRun.pc t).creating q = true := by
  refine ⟨by decide +kernel, sched_exclusive ?_⟩
  have hnew : SchedInput.Allowed (Sched.initial (Fin 2)) (.act 0 (.new 1 1 7)) := ⟨rfl, rfl, nofun⟩
  refine ((Reachable.refl sched SchedInput.Allowed _).after hnew).foldl ?_
  simp [Along, SchedInput.Allowed]

end ZTask
