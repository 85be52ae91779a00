import ZTask.Server.Contexts

/-!
# Registration, retirement and deletion keep the invariant

The steps at which blocks come and go. A context enters the slot table together with its queue, is
unlinked by `ztask_handle_retire`, is freed by whoever gives up the last reference, and its queue is
freed by whoever then takes the queue from the global list.

## Blocks that come and go

For each of these steps the lemma has the invariant before it, with the token of the actor that
takes the step, and the invariant after it, with the token that the actor has then. What has to be
shown of a block that goes is that no token of anybody refers to it (`unreferred`); of a block that
comes, that nothing refers to its address yet (`runs_eq_zero`). The blocks that are not concerned
keep what is said of them.
-/

namespace ZTask

open Lib

namespace Inv

variable {s : Shared} {L : List QueueId} {T : Multiset Token} {c : CtxId} {q : QueueId}

/-! ## Contexts -/

/-- `ctx->init = true`. -/
theorem storeInit (h : Inv s L (.fresh c q ::ₘ T)) :
    Inv (s.storeInit c) L (.held q ::ₘ T) := by
  cases hx : s.ctx c with
  | none =>
    rw [Shared.storeInit, hx]
    exact h.forget fun x hx' _ ↦ by simp [hx] at hx'
  | some x =>
    have ho := h.ctxOk hx
    have h' : Inv (s.setCtx c (some { x with init := true })) L (.fresh c q ::ₘ T) :=
      h.onSetCtx hx rfl rfl (fun _ ↦ rfl) (fun _ ↦ rfl) (fun _ _ ↦ .refl _ _)
        ⟨ho.ref, ho.del, ho.calls, ho.queue, fun hi ↦ by cases hi⟩ h.valid
    rw [Shared.storeInit, hx]
    refine h'.forget fun y hy _ ↦ Or.inl ?_
    rw [Shared.setCtx_ctx, Function.update_self, Option.some.injEq] at hy
    rw [← hy]

/-- `ztask_handle_retire`: the reference of the slot table becomes the retirer's. -/
theorem handleRetire {handle : ℕ} (h : Inv s L T) (ht : s.table handle = some c) :
    Inv (s.setTable handle none) L (.ref c ::ₘ T) := by
  obtain ⟨x, hx, hxh⟩ := h.table ht
  refine ⟨h.repr, fun q ↦ ?_, ?_, ?_, ?_, h.queueInj, h.handleInj, h.quiet, ?_⟩
  · rw [Multiset.countP_cons_of_neg T (by simp)]
    exact h.places q
  · intro c' x' hx'
    have ho := h.ctxOk hx'
    -- the reference of the table becomes the one that the caller holds
    by_cases he : c' = c
    · subst he
      rw [Shared.setTable_ctx, hx, Option.some.injEq] at hx'
      subst hx'
      refine ⟨?_, ?_, ?_, ho.queue, ?_⟩
      · rw [ho.ref, Multiset.countP_cons_of_pos T (by simp [Token.refs]), hxh, if_pos ht]
        simp only [Shared.setTable_table, Function.update_self, reduceCtorEq, if_false]
        omega
      · rw [Multiset.countP_cons_of_neg T (by simp [Token.dels]), ho.del]
      · rw [Multiset.countP_cons_of_neg T (by simp [Token.runs]), ho.calls]
      · intro _ ht'
        simp [hxh] at ht'
    · have hne : ∀ k, (s.setTable handle none).table k = some c' ↔ s.table k = some c' := by
        intro k
        by_cases hk : k = handle
        · simp [hk, ht, Ne.symm he]
        · simp [hk]
      exact ho.congr (hne _) (.add T (by simp [Token.refs, Ne.symm he]) rfl rfl)
        fun m hm ↦ ⟨m, hm, rfl, rfl⟩
  · intro c' hc'
    have hne : c ≠ c' := by
      rintro rfl
      have hc' : s.ctx c = none := hc'
      rw [hx] at hc'
      cases hc'
    rw [Multiset.countP_cons_of_neg T (by simp [Token.refs, hne]),
      Multiset.countP_cons_of_neg T (by simp [Token.dels])]
    exact h.ctxNone hc'
  · intro k c' hk
    refine h.table (c := c') ?_
    by_cases hkh : k = handle
    · simp [hkh] at hk
    · simpa [hkh] using hk
  · intro tk htk
    rcases Multiset.mem_cons.mp htk with rfl | htk
    · trivial
    · exact (h.valid tk htk).congr rfl fun _ m hm ↦ ⟨m, hm, rfl, id⟩

/-- `ztask_handle_retire` for a service that failed to initialise. Whoever has the handle now, the
queue can be given back. -/
theorem retireNew {handle : ℕ} (h : Inv s L (.retiring c q handle ::ₘ T)) :
    (s.table handle = none ∧ Inv s L (.held q ::ₘ T)) ∨
      ∃ c', s.table handle = some c' ∧
        Inv (s.setTable handle none) L (.ref c' ::ₘ .held q ::ₘ T) := by
  obtain ⟨m, hm, hmh⟩ := h.valid_head
  have hhandle : ∀ {x}, s.ctx c = some x → x.queue = q → x.handle = handle := by
    rintro x hx rfl
    obtain ⟨m', hm', hh, -⟩ := (h.ctxOk hx).queue
    rw [hm, Option.some.injEq] at hm'
    rw [← hh, ← hm', hmh]
  cases ht : s.table handle with
  | none =>
    refine Or.inl ⟨rfl, h.fresh_of_retiring.forget fun x hx hq ↦ Or.inr ?_⟩
    rw [hhandle hx hq, ht]
    exact nofun
  | some c' =>
    have h' := h.fresh_of_retiring.handleRetire ht
    rw [Multiset.cons_swap] at h'
    refine Or.inr ⟨c', rfl, Multiset.cons_swap _ _ _ ▸ h'.forget fun x hx hq ↦ Or.inr ?_⟩
    rw [hhandle hx hq]
    simp

/-- `ztask_mq_mark_release`: the queue ends up in exactly one place, whether it was in one or
not. -/
theorem mqMarkRelease {x : Context} (h : Inv s L T) (hx : s.ctx c = some x) :
    ∃ m g L', s.queues.mq x.queue = some m ∧
      s.queues.mqMarkRelease x.queue
        = .ok ⟨g, Function.update s.queues.mq x.queue (some { m with release := true })⟩ ∧
      g.Represents L' ∧ L'.count x.queue + T.countP (Token.atQueue x.queue ·) = 1 ∧
      ∀ q' ≠ x.queue, L'.count q' = L.count q' := by
  obtain ⟨m, hm, -, hr⟩ := (h.ctxOk hx).queue
  have hp := h.places x.queue
  cases hg : m.inGlobal with
  | true =>
    refine ⟨m, s.queues.global, L, hm, ?_, h.repr, ?_, fun _ _ ↦ rfl⟩
    · simp [Queues.mqMarkRelease, hm, hr, hg, Queues.setMq]
    · rw [hp, Queues.expected_eq_one hm (Or.inl hg)]
  | false =>
    rw [Queues.expected_eq_zero hm hg hr] at hp
    have hq : x.queue ∉ L := List.count_eq_zero.mp (by omega)
    have hrepr : (s.queues.setMq x.queue (some { m with release := true })).global.Represents L :=
      h.repr
    obtain ⟨hpush, hrepr⟩ := Queues.globalmqPush_ok hrepr hq
    refine ⟨m, _, L ++ [x.queue], hm, ?_, hrepr, ?_, fun q' hq' ↦ ?_⟩
    · simp only [Queues.mqMarkRelease, hm, hr, Bool.false_eq_true, if_false]
      rw [if_neg (by simp [hg])]
      exact hpush
    · rw [List.count_append, List.count_singleton_self]
      omega
    · rw [List.count_append, List.count_singleton, beq_eq_false_iff_ne.mpr hq'.symm]
      rfl

/-! ## The end of a context -/

/-- A context whose last reference has been given up: no token and no slot refers to it. -/
theorem unreferred {x : Context} (h : Inv s L (.del c ::ₘ T)) (hx : s.ctx c = some x) :
    T.countP (Token.refs c ·) = 0 ∧ T.countP (Token.dels c ·) = 0 ∧ s.table x.handle ≠ some c := by
  have hdel := (h.ctxOk hx).del
  have href := (h.ctxOk hx).ref
  rw [Multiset.countP_cons_of_pos T (by simp [Token.dels])] at hdel
  have hz : x.ref = 0 := by
    by_contra hne
    rw [if_neg hne] at hdel
    omega
  rw [if_pos hz] at hdel
  rw [hz, Multiset.countP_cons_of_neg T (by simp [Token.refs])] at href
  refine ⟨by omega, by omega, fun ht ↦ ?_⟩
  rw [if_pos ht] at href
  omega

/-- `delete_context`, for a context that nobody refers to: its queue is marked and it is freed. -/
theorem contextDelete (h : Inv s L (.del c ::ₘ T)) :
    ∃ L' s', s.contextDelete c = .ok s' ∧ Inv s' L' T := by
  cases hx : s.ctx c with
  | none =>
    have h0 := (h.ctxNone hx).2
    rw [Multiset.countP_cons_of_pos T (by simp [Token.dels])] at h0
    omega
  | some x =>
    -- the last reference is gone, so no other token speaks of the context
    obtain ⟨hrefs, hdels, hno⟩ := h.unreferred hx
    obtain ⟨m, g, L', hm, hmark, hrepr, hplace, hcount⟩ := h.mqMarkRelease hx
    rw [Multiset.countP_cons_of_neg T (by simp)] at hplace
    -- marking the queue for release touches no other context
    have hqne : ∀ {c' x'}, s.ctx c' = some x' → c' ≠ c → x'.queue ≠ x.queue :=
      fun hx' hne he ↦ hne (h.queueInj hx' hx he)
    have hctx : ∀ {c' x'}, Function.update s.ctx c none c' = some x' →
        c' ≠ c ∧ s.ctx c' = some x' := by
      intro c' x' hx'
      have hne : c' ≠ c := by
        rintro rfl
        rw [Function.update_self] at hx'
        cases hx'
      rw [Function.update_of_ne hne] at hx'
      exact ⟨hne, hx'⟩
    refine ⟨L', _, by simp only [Shared.contextDelete, hx, hmark]; rfl, hrepr, ?_, ?_, ?_, ?_, ?_,
      ?_, ?_, ?_⟩
    · intro q'
      by_cases hq : q' = x.queue
      · rw [hq, hplace]
        simp [Queues.expected]
      · have hp' := h.places q'
        rw [Multiset.countP_cons_of_neg T (by simp)] at hp'
        rw [hcount q' hq, hp']
        simp [Queues.expected, Function.update_of_ne hq]
    · intro c' x' hx'
      obtain ⟨hne, hx'⟩ := hctx hx'
      refine (h.ctxOk hx').congr Iff.rfl
        (.drop T rfl (by simp [Token.dels, hne.symm]) rfl fun _ ↦ rfl) fun m' hm' ↦
          ⟨m', ?_, rfl, rfl⟩
      simpa [hqne hx' hne] using hm'
    · intro c' hc'
      by_cases hne : c' = c
      · rw [hne]
        exact ⟨hrefs, hdels⟩
      · rw [Shared.setCtx_ctx, Function.update_of_ne hne] at hc'
        have h0 := h.ctxNone hc'
        rwa [Multiset.countP_cons_of_neg T (by simp [Token.refs]),
          Multiset.countP_cons_of_neg T (by simp [Token.dels, Ne.symm hne])] at h0
    · intro k c' hk
      obtain ⟨x', hx', hk'⟩ := h.table hk
      have hne : c' ≠ c := by
        rintro rfl
        rw [hx, Option.some.injEq] at hx'
        exact hno (by rw [hx', hk']; exact hk)
      exact ⟨x', by simpa [hne] using hx', hk'⟩
    · exact key_inj_keep h.queueInj fun hx' ↦ ⟨_, (hctx hx').2, rfl⟩
    · refine key_inj_keep h.handleInj fun {q' m'} hm' ↦ ?_
      by_cases hq : q' = x.queue
      · simp only [hq, Shared.setCtx_queues, Function.update_self, Option.some.injEq] at hm'
        exact ⟨m, hq ▸ hm, by rw [← hm']⟩
      · simp only [Shared.setCtx_queues, Function.update_of_ne hq] at hm'
        exact ⟨m', hm', rfl⟩
    · intro q' m' hm' hg' hr'
      by_cases hq : q' = x.queue
      · simp only [hq, Shared.setCtx_queues, Function.update_self, Option.some.injEq] at hm'
        rw [← hm'] at hr'
        cases hr'
      · simp only [Shared.setCtx_queues, Function.update_of_ne hq] at hm'
        exact h.quiet hm' hg' hr'
    · intro tk htk
      refine (h.valid_tail tk htk).mono (fun c' x' hr hx' ↦ ?_) fun q' m' _ hm' ↦ ?_
      · have hne : c' ≠ c := by
          rintro rfl
          exact Multiset.countP_eq_zero.mp hrefs tk htk hr
        simpa [hne] using hx'
      · by_cases hq : q' = x.queue
        · obtain rfl : m = m' := by rw [hq, hm] at hm'; exact Option.some.inj hm'
          exact ⟨{ m with release := true }, by simp [hq], rfl, fun _ ↦ rfl⟩
        · exact ⟨m', by simpa [hq] using hm', rfl, id⟩

/-- `_release`: the queue is in hand, so it is on no list and no context has it. -/
theorem freeQueue (h : Inv s L (.drop q ::ₘ T)) :
    ∃ queues, s.queues.freeQueue q = .ok queues ∧ Inv { s with queues := queues } L T := by
  obtain ⟨hq, hT, -⟩ := h.of_atQueue (Token.atQueue_drop q q |>.trans (decide_eq_true rfl))
  obtain ⟨m, hm, hr⟩ := h.valid_head
  -- the queue of a context that is alive is not marked for release
  have hne : ∀ {c x}, s.ctx c = some x → x.queue ≠ q := by
    rintro c x hx rfl
    obtain ⟨m', hm', -, hr'⟩ := (h.ctxOk hx).queue
    rw [hm, Option.some.injEq] at hm'
    rw [hm', hr'] at hr
    cases hr
  have hkeep : ∀ {q' m'}, Function.update s.queues.mq q none q' = some m' →
      s.queues.mq q' = some m' := by
    intro q' m' hm'
    by_cases hqq : q' = q
    · simp [hqq] at hm'
    · simpa [hqq] using hm'
  have hfree : s.queues.freeQueue q = .ok (s.queues.setMq q none) := by
    rw [Queues.freeQueue, if_pos (h.repr.next_eq_none hq)]
  refine ⟨_, hfree, h.repr, fun q' ↦ ?_, ?_, ?_, h.table, h.queueInj, ?_, ?_, ?_⟩
  · by_cases hqq : q' = q
    · rw [hqq, List.count_eq_zero.mpr hq, hT]
      simp [Queues.expected]
    · have hp := h.places q'
      rw [Multiset.countP_cons_of_neg T (by simpa using Ne.symm hqq)] at hp
      rw [hp]
      simp [Queues.expected, Function.update_of_ne hqq]
  · intro c x hx
    refine (h.ctxOk hx).congr Iff.rfl (.drop T rfl rfl rfl fun _ ↦ rfl) fun m' hm' ↦
      ⟨m', ?_, rfl, rfl⟩
    simpa [hne hx] using hm'
  · intro c hc
    have h0 := h.ctxNone hc
    rwa [Multiset.countP_cons_of_neg T (by simp [Token.refs]),
      Multiset.countP_cons_of_neg T (by simp [Token.dels])] at h0
  · intro q₁ q₂ m₁ m₂ h₁ h₂ he
    exact h.handleInj (hkeep h₁) (hkeep h₂) he
  · intro q' m' hm' hg' hr'
    exact h.quiet (hkeep hm') hg' hr'
  · intro tk htk
    refine (h.valid_tail tk htk).mono (fun _ _ _ hx ↦ hx) fun q' m' hat hm' ↦ ?_
    have hqq : q' ≠ q := by
      rintro rfl
      exact Multiset.countP_eq_zero.mp hT tk htk hat
    exact ⟨m', by simpa [hqq] using hm', rfl, id⟩

/-! ## The beginning of a context -/

/-- Nobody is inside a context that does not exist. -/
theorem runs_eq_zero (h : Inv s L T) (hc : s.ctx c = none) : T.countP (Token.runs c ·) = 0 := by
  refine Multiset.countP_eq_zero.mpr fun tk htk hrun ↦ ?_
  have hr := Multiset.countP_eq_zero.mp (h.ctxNone hc).1 tk htk
  cases tk with
  | running c' q' | starting c' q' => exact hr hrun
  | held q' | work c' q' | created c' q' | fresh c' q' | retiring c' q' k | drop q' | ref c'
  | del c' => cases hrun

/-- The state of the context that is registered. -/
theorem ctxOk_registered {handle : ℕ} (h : Inv s L T) (hc : s.ctx c = none) :
    CtxOk (s.contextRegister c q handle) (.created c q ::ₘ T) c
      ⟨handle, q, 2, false, false, false⟩ := by
  obtain ⟨hrefs, hdels⟩ := h.ctxNone hc
  have hqueue : (s.contextRegister c q handle).queues.mq q = some (mqCreate handle) :=
    Function.update_self _ _ _
  refine ⟨?_, ?_, ?_, ⟨_, hqueue, rfl, rfl⟩,
    fun _ _ ↦ ⟨_, Multiset.mem_cons_self _ _, ?_⟩⟩
  · rw [Multiset.countP_cons_of_pos T (by simp [Token.refs]), hrefs]
    simp [Shared.contextRegister]
  · rw [Multiset.countP_cons_of_neg T (by simp [Token.dels]), hdels]
    rfl
  · rw [Multiset.countP_cons_of_neg T (by simp [Token.runs]), h.runs_eq_zero hc]
    rfl
  · simp [Token.uninit]

/-- Registration, with blocks that are not in use and a handle that no queue carries. -/
theorem contextRegister {handle : ℕ} (h : Inv s L T) (hc : s.ctx c = none)
    (hq : s.queues.mq q = none) (hfresh : ∀ q' m, s.queues.mq q' = some m → m.handle ≠ handle) :
    Inv (s.contextRegister c q handle) L (.created c q ::ₘ T) := by
  -- nobody can have the new queue yet, since it did not exist
  have hplace : L.count q + T.countP (Token.atQueue q ·) = 0 := by
    rw [h.places, Queues.expected, hq]
  -- nor does any context that is there share its queue or its handle
  have hxq : ∀ {c' x'}, s.ctx c' = some x' → x'.queue ≠ q ∧ x'.handle ≠ handle := by
    intro c' x' hx'
    obtain ⟨m', hm', hh', -⟩ := (h.ctxOk hx').queue
    refine ⟨?_, hh' ▸ hfresh _ _ hm'⟩
    rintro rfl
    rw [hq] at hm'
    cases hm'
  have hctx_ne : ∀ {c'}, c' ≠ c → (s.contextRegister c q handle).ctx c' = s.ctx c' :=
    fun hne ↦ Function.update_of_ne hne _ _
  have hmq_ne : ∀ {q'}, q' ≠ q → (s.contextRegister c q handle).queues.mq q' = s.queues.mq q' :=
    fun hne ↦ Function.update_of_ne hne _ _
  have hctx_self : (s.contextRegister c q handle).ctx c =
      some ⟨handle, q, 2, false, false, false⟩ :=
    Function.update_self _ _ _
  have hmq_self : (s.contextRegister c q handle).queues.mq q = some (mqCreate handle) :=
    Function.update_self _ _ _
  have hctx : ∀ {c' x'}, s.ctx c' = some x' → (s.contextRegister c q handle).ctx c' = some x' := by
    intro c' x' hx'
    rw [hctx_ne, hx']
    rintro rfl
    rw [hc] at hx'
    cases hx'
  have hmq : ∀ {q' m'}, s.queues.mq q' = some m' →
      (s.contextRegister c q handle).queues.mq q' = some m' := by
    intro q' m' hm'
    rw [hmq_ne, hm']
    rintro rfl
    rw [hq] at hm'
    cases hm'
  refine ⟨h.repr, fun q' ↦ ?_, ?_, ?_, ?_, ?_, ?_, ?_, ?_⟩
  · by_cases hqq : q' = q
    · subst hqq
      rw [Multiset.countP_cons_of_pos T (by simp),
        Queues.expected_eq_one hmq_self (Or.inl rfl)]
      omega
    · rw [Multiset.countP_cons_of_neg T (by simpa using Ne.symm hqq), h.places q',
        Queues.expected_congr (hmq_ne hqq)]
  · intro c' x' hx'
    by_cases hne : c' = c
    · subst hne
      obtain rfl := Option.some.inj (hctx_self.symm.trans hx')
      exact h.ctxOk_registered hc
    · have hold : s.ctx c' = some x' := (hctx_ne hne).symm.trans hx'
      refine (h.ctxOk hold).congr ?_ (.add T (by simp [Token.refs, Ne.symm hne]) rfl rfl)
        fun m' hm' ↦ ⟨m', hmq hm', rfl, rfl⟩
      simp [Shared.contextRegister, Function.update_of_ne (hxq hold).2]
  · intro c' hc'
    have hne : c ≠ c' := by
      rintro rfl
      cases hctx_self.symm.trans hc'
    rw [Multiset.countP_cons_of_neg T (by simp [Token.refs, hne]),
      Multiset.countP_cons_of_neg T (by simp [Token.dels])]
    exact h.ctxNone ((hctx_ne hne.symm).symm.trans hc')
  · intro k c' hk
    by_cases hkh : k = handle
    · subst hkh
      obtain rfl : c = c' := by simpa [Shared.contextRegister] using hk
      exact ⟨_, hctx_self, rfl⟩
    · obtain ⟨x', hx', hk'⟩ := h.table (h := k) (c := c')
        (by simpa [Shared.contextRegister, Function.update_of_ne hkh] using hk)
      exact ⟨x', hctx hx', hk'⟩
  · exact key_inj_add h.queueInj fun hx' ↦ (hxq hx').1
  · exact key_inj_add h.handleInj fun hm' ↦ hfresh _ _ hm'
  · intro q' m' hm' hg' hr'
    by_cases hqq : q' = q
    · subst hqq
      obtain rfl := Option.some.inj (hmq_self.symm.trans hm')
      cases hg'
    · exact h.quiet ((hmq_ne hqq).symm.trans hm') hg' hr'
  · intro tk htk
    rcases Multiset.mem_cons.mp htk with rfl | htk
    · exact ⟨_, hctx_self, rfl⟩
    · exact (h.valid tk htk).mono (fun _ _ _ hx ↦ hctx hx) fun _ m' _ hm' ↦ ⟨m', hmq hm', rfl, id⟩

end Inv

end ZTask
