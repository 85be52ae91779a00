import ZTask.Server.Tokens

/-!
# The locked sections keep the invariant

One lemma for each section of `ztask_mq.c` and each access to a context: from the tokens its
caller holds, it does not fault and leaves the tokens its caller goes on with. The rest `T` of the
tokens is arbitrary.
-/

namespace ZTask

open Lib

/-! ## The global queue -/

namespace Queues

variable {s : Queues} {L : List QueueId} {q : QueueId}

theorem globalmqPush_ok (h : s.global.Represents L) (hq : q ∉ L) :
    s.globalmqPush q = .ok { s with global := s.global.push q } ∧
      (s.global.push q).Represents (L ++ [q]) := by
  refine ⟨?_, LinkQueue.push_represents h hq⟩
  rw [globalmqPush, if_pos (h.next_eq_none hq)]

private theorem globalmqPop_nil (h : s.global.Represents []) : s.globalmqPop = .ok (none, s) := by
  have hh : s.global.head = none := h.chain
  rw [globalmqPop, hh]

private theorem globalmqPop_cons (h : s.global.Represents (q :: L)) :
    ∃ g, s.globalmqPop = .ok (some q, { s with global := g }) ∧ g.Represents L := by
  obtain ⟨g, hpop, hg, htail⟩ := LinkQueue.pop_represents h
  refine ⟨g, ?_, hg⟩
  have hh : s.global.head = some q := h.chain.1
  have hno : ¬(s.global.next q = none ∧ s.global.tail ≠ some q) := fun hc ↦ hc.2 (htail hc.1)
  rw [globalmqPop, hh]
  simp only [if_neg hno, hpop]

end Queues

namespace Inv

variable {s : Shared} {L : List QueueId} {T : Multiset Token} {c : CtxId} {q : QueueId}

/-- `ztask_globalmq_push` by an actor with the queue in hand, which lets go of it. -/
theorem globalmqPush (h : Inv s L (.held q ::ₘ T)) :
    ∃ queues, s.queues.globalmqPush q = .ok queues ∧
      Inv { s with queues := queues } (L ++ [q]) T := by
  obtain ⟨hq, -, -⟩ := h.of_atQueue (Token.atQueue_held q q |>.trans (decide_eq_true rfl))
  obtain ⟨hpush, hrepr⟩ := Queues.globalmqPush_ok h.repr hq
  refine ⟨_, hpush, h.onQueues hrepr (fun q' ↦ ?_) (fun _ ↦ rfl) (fun _ _ ↦ h.quiet)
    (fun _ ↦ .drop T rfl rfl rfl fun _ ↦ rfl) ?_⟩
  · have hp := h.places q'
    simp only [Multiset.countP_cons, Token.atQueue_held, decide_eq_true_eq] at hp
    change _ = s.queues.expected q'
    rw [List.count_append, List.count_singleton, ← hp]
    simp only [beq_iff_eq]
    omega
  · intro tk htk
    exact (h.valid_tail tk htk).congr rfl fun _ m hm ↦ ⟨m, hm, rfl, id⟩

/-- `ztask_globalmq_pop`. -/
theorem globalmqPop (h : Inv s L T) :
    (L = [] ∧ s.queues.globalmqPop = .ok (none, s.queues)) ∨
      ∃ q L' queues, s.queues.globalmqPop = .ok (some q, queues) ∧
        Inv { s with queues := queues } L' (.held q ::ₘ T) := by
  cases L with
  | nil => exact Or.inl ⟨rfl, Queues.globalmqPop_nil h.repr⟩
  | cons q L =>
    obtain ⟨g, hpop, hrepr⟩ := Queues.globalmqPop_cons h.repr
    refine Or.inr ⟨q, L, _, hpop,
      h.onQueues hrepr (fun q' ↦ ?_) (fun _ ↦ rfl) (fun _ _ ↦ h.quiet)
        (fun _ ↦ .add T rfl rfl rfl) ?_⟩
    · have hp := h.places q'
      rw [List.count_cons] at hp
      change _ = s.queues.expected q'
      rw [← hp]
      simp only [Multiset.countP_cons, Token.atQueue_held, decide_eq_true_eq, beq_iff_eq]
      omega
    · intro tk htk
      have hv : tk.Valid s := by
        rcases Multiset.mem_cons.mp htk with rfl | htk
        · trivial
        · exact h.valid tk htk
      exact hv.congr rfl fun _ m hm ↦ ⟨m, hm, rfl, id⟩

/-! ## One message queue -/

/-- Overwriting the block of one queue, with its handle and release flag kept. -/
theorem onSetMq {L' : List QueueId} {T' : Multiset Token} {m n : MessageQueue}
    {g : LinkQueue QueueId} (h : Inv s L T) (hm : s.queues.mq q = some m)
    (hh : n.handle = m.handle) (hr : n.release = m.release) (hrepr : g.Represents L')
    (hplace : L'.count q + T'.countP (Token.atQueue q ·)
      = if n.inGlobal ∨ n.release then 1 else 0)
    (hother : ∀ q' ≠ q, L'.count q' + T'.countP (Token.atQueue q' ·)
      = L.count q' + T.countP (Token.atQueue q' ·))
    (hquiet : n.inGlobal = false → n.release = false → n.ring.toList = [])
    (hT : ∀ c, SameClaims c T T') (hvalid : ∀ tk ∈ T', Token.Valid s tk) :
    Inv { s with queues := ⟨g, Function.update s.queues.mq q (some n)⟩ } L' T' := by
  refine h.onQueues hrepr (fun q' ↦ ?_) (fun q' ↦ ?_) (fun q' m' hm' ↦ ?_) hT ?_
  · by_cases hq : q' = q
    · rw [hq, Queues.expected]
      simpa only [Function.update_self] using hplace
    · rw [hother q' hq, h.places, Queues.expected, Queues.expected]
      simp only [Function.update_of_ne hq]
  · by_cases hq : q' = q
    · simp only [hq, Function.update_self, hm, Option.map_some, hh, hr]
    · simp only [Function.update_of_ne hq]
  · by_cases hq : q' = q
    · simp only [hq, Function.update_self, Option.some.injEq] at hm'
      exact hm' ▸ hquiet
    · simp only [Function.update_of_ne hq] at hm'
      exact h.quiet hm'
  · intro tk htk
    refine (hvalid tk htk).congr rfl fun q' m' hm' ↦ ?_
    by_cases hq : q' = q
    · rw [hq, hm, Option.some.injEq] at hm'
      exact ⟨n, by simp [hq], by rw [hh, hm'], fun hr' ↦ by rw [hr, hm', hr']⟩
    · exact ⟨m', by simp [hq, hm'], rfl, id⟩

/-- `ztask_mq_push` through a live context. -/
theorem mqPush {x : Context} (h : Inv s L T) (hx : s.ctx c = some x) (message : ZtaskMessage) :
    ∃ L' queues, s.queues.mqPush x.queue message = .ok queues ∧
      Inv { s with queues := queues } L' T := by
  obtain ⟨m, hm, -, hr⟩ := (h.ctxOk hx).queue
  have hp := h.places x.queue
  cases hg : m.inGlobal with
  | true =>
    -- the queue is in the global queue or being dispatched already
    have hpush : s.queues.mqPush x.queue message
        = .ok (s.queues.setMq x.queue (some { m with ring := pushRing m.ring message })) := by
      simp only [Queues.mqPush, hm, hg, if_true]
    refine ⟨L, _, hpush, h.onSetMq hm rfl rfl h.repr ?_ (fun _ _ ↦ rfl) ?_
      (fun _ ↦ .refl _ _) h.valid⟩
    · rw [hp, Queues.expected_eq_one hm (Or.inl hg), if_pos (Or.inl hg)]
    · intro hg'
      simp [hg] at hg'
  | false =>
    -- an idle queue is nowhere, and is chained
    rw [Queues.expected_eq_zero hm hg hr] at hp
    have hq : x.queue ∉ L := List.count_eq_zero.mp (by omega)
    have hrepr : (s.queues.setMq x.queue
        (some { m with ring := pushRing m.ring message, inGlobal := true })).global.Represents L :=
      h.repr
    obtain ⟨hpush, hrepr⟩ := Queues.globalmqPush_ok hrepr hq
    have hmq : s.queues.mqPush x.queue message
        = (s.queues.setMq x.queue
          (some { m with ring := pushRing m.ring message, inGlobal := true })).globalmqPush
            x.queue := by
      simp only [Queues.mqPush, hm, hg, Bool.false_eq_true, if_false]
    refine ⟨L ++ [x.queue], _, hmq.trans hpush,
      h.onSetMq hm rfl rfl hrepr ?_ (fun q' hq' ↦ ?_) (by simp) (fun _ ↦ .refl _ _) h.valid⟩
    · rw [List.count_append, List.count_singleton_self, if_pos (Or.inl rfl)]
      omega
    · rw [List.count_append, List.count_singleton, beq_eq_false_iff_ne.mpr hq'.symm]
      rfl

/-- `ztask_mq_pop` that yields a message. -/
theorem mqPop_some {tk : Token} {m : MessageQueue} {message : ZtaskMessage}
    (h : Inv s L (tk ::ₘ T)) (hat : tk.atQueue q = true) (hm : s.queues.mq q = some m)
    (hpop : (mqPopQueue m).1 = some message) :
    Inv { s with queues := s.queues.setMq q (some (mqPopQueue m).2) } L (tk ::ₘ T) := by
  obtain ⟨-, -, m₁, hm₁, hflag⟩ := h.of_atQueue hat
  obtain rfl : m = m₁ := by rw [hm] at hm₁; exact Option.some.inj hm₁
  have hm' : (mqPopQueue m).2.handle = m.handle ∧ (mqPopQueue m).2.release = m.release ∧
      (mqPopQueue m).2.inGlobal = m.inGlobal := by
    rw [mqPopQueue] at hpop ⊢
    split at hpop
    · exact ⟨rfl, rfl, rfl⟩
    · cases hpop
  refine h.onSetMq hm hm'.1 hm'.2.1 h.repr ?_ (fun _ _ ↦ rfl) ?_ (fun _ ↦ .refl _ _) h.valid
  · rw [h.places, Queues.expected_eq_one hm hflag, hm'.2.1, hm'.2.2, if_pos hflag]
  · intro hg hr
    rw [hm'.2.2] at hg
    rw [hm'.2.1] at hr
    simp [hg, hr] at hflag

/-- `ztask_mq_pop` that finds the queue empty takes it out of the worker's hands: the worker is
left with its reference. -/
theorem mqPop_none {m : MessageQueue} (h : Inv s L (.work c q ::ₘ T))
    (hm : s.queues.mq q = some m) (hpop : (mqPopQueue m).1 = none) :
    Inv { s with queues := s.queues.setMq q (some (mqPopQueue m).2) } L (.ref c ::ₘ T) := by
  obtain ⟨hq, hT, -⟩ := h.of_atQueue (Token.atQueue_work q q c |>.trans (decide_eq_true rfl))
  obtain ⟨x, hx, rfl, -⟩ := h.valid_head
  obtain ⟨m₁, hm₁, -, hr⟩ := (h.ctxOk hx).queue
  obtain rfl : m = m₁ := by rw [hm] at hm₁; exact Option.some.inj hm₁
  have hring : m.ring.pop? = none := by
    rw [mqPopQueue] at hpop
    split at hpop
    · cases hpop
    · assumption
  have hm' : (mqPopQueue m).2
      = { m with overloadThreshold := mqOverload, inGlobal := false } := by
    rw [mqPopQueue, hring]
  rw [hm']
  refine h.onSetMq hm rfl rfl h.repr ?_ (fun q' hq' ↦ ?_) ?_ ?_ ?_
  · rw [List.count_eq_zero.mpr hq, Multiset.countP_cons, hT, if_neg (by simp),
      if_neg (by simp [hr])]
  · rw [Multiset.countP_cons, Multiset.countP_cons, if_neg (by simp),
      if_neg (by simpa using hq'.symm)]
  · intro _ _
    exact RingBuffer.pop?_eq_none_iff.mp hring
  · exact fun _ ↦ .cons T rfl rfl rfl fun _ h ↦ h
  · intro tk htk
    rcases Multiset.mem_cons.mp htk with rfl | htk
    · trivial
    · exact h.valid_tail tk htk

/-- `ztask_mq_pop` in `_drop_queue`. The queue stays in hand whatever the pop finds. -/
theorem mqPop_drop {m : MessageQueue} (h : Inv s L (.drop q ::ₘ T))
    (hm : s.queues.mq q = some m) :
    Inv { s with queues := s.queues.setMq q (some (mqPopQueue m).2) } L (.drop q ::ₘ T) := by
  cases hpop : (mqPopQueue m).1 with
  | some message => exact h.mqPop_some (by simp) hm hpop
  | none =>
    obtain ⟨m₁, hm₁, hr⟩ := h.valid_head
    obtain rfl : m = m₁ := by rw [hm] at hm₁; exact Option.some.inj hm₁
    have hm' : (mqPopQueue m).2
        = { m with overloadThreshold := mqOverload, inGlobal := false } := by
      rw [mqPopQueue] at hpop ⊢
      split at hpop
      · cases hpop
      · rfl
    rw [hm']
    refine h.onSetMq hm rfl rfl h.repr ?_ (fun _ _ ↦ rfl) (by simp [hr]) (fun _ ↦ .refl _ _) h.valid
    rw [h.places, Queues.expected_eq_one hm (Or.inr hr)]
    simp [hr]

theorem clearOverload {tk : Token} (h : Inv s L (tk ::ₘ T)) (hat : tk.atQueue q = true) :
    ∃ s', s.clearOverload q = .ok s' ∧ s'.ctx = s.ctx ∧ Inv s' L (tk ::ₘ T) := by
  obtain ⟨-, -, m, hm, hflag⟩ := h.of_atQueue hat
  have hclear : s.clearOverload q
      = .ok { s with queues := s.queues.setMq q (some { m with overload := 0 }) } := by
    rw [Shared.clearOverload, hm]
  refine ⟨_, hclear, rfl, h.onSetMq hm rfl rfl h.repr ?_ (fun _ _ ↦ rfl) ?_
    (fun _ ↦ .refl _ _) h.valid⟩
  · rw [h.places, Queues.expected_eq_one hm hflag, if_pos hflag]
  · intro hg hr
    simp only at hg hr
    simp [hg, hr] at hflag

/-- The section of `ztask_mq_release`: the queue is to be dropped, or is chained again. -/
theorem mqReleaseTest (h : Inv s L (.held q ::ₘ T)) :
    ∃ L' queues, (s.queues.mqReleaseTest q = .ok (true, queues) ∧
        Inv { s with queues := queues } L' (.drop q ::ₘ T)) ∨
      (s.queues.mqReleaseTest q = .ok (false, queues) ∧ Inv { s with queues := queues } L' T) := by
  obtain ⟨-, -, m, hm, -⟩ := h.of_atQueue (Token.atQueue_held q q |>.trans (decide_eq_true rfl))
  by_cases hr : m.release
  · refine ⟨L, s.queues, Or.inl ⟨by simp only [Queues.mqReleaseTest, hm, hr, if_true],
      h.retoken (fun q' ↦ by rw [Multiset.countP_cons, Multiset.countP_cons]; rfl)
        (fun _ ↦ .cons T rfl rfl rfl fun _ h ↦ h) ?_⟩⟩
    intro tk htk
    rcases Multiset.mem_cons.mp htk with rfl | htk
    · exact ⟨m, hm, hr⟩
    · exact h.valid_tail tk htk
  · obtain ⟨queues, hpush, hinv⟩ := h.globalmqPush
    refine ⟨L ++ [q], queues, Or.inr ⟨?_, hinv⟩⟩
    simp only [Queues.mqReleaseTest, hm, if_neg hr, hpush]

end Inv

end ZTask
