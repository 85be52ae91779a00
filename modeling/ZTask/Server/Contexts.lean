import ZTask.Server.Sections

/-!
# The context operations keep the invariant

The counterpart of the sections for `ztask_server.c` and the slot table: taking and giving up
references, the `CHECKCALLING` lock, and the three events in the life of a context (registration,
retirement, deletion), together with the freeing of its queue.
-/

namespace ZTask

open Lib

namespace Inv

variable {s : Shared} {L : List QueueId} {T : Multiset Token} {c : CtxId} {q : QueueId}

/-! ## Updating one context -/

/-- Overwriting a context, with its handle and queue kept. -/
theorem onSetCtx {T' : Multiset Token} {x y : Context} (h : Inv s L T) (hx : s.ctx c = some x)
    (hh : y.handle = x.handle) (hq : y.queue = x.queue) (hi : x.init = true → y.init = true)
    (hat : ∀ q, T'.countP (Token.atQueue q ·) = T.countP (Token.atQueue q ·))
    (hother : ∀ c' ≠ c, SameClaims c' T T') (hc : CtxOk s T' c y)
    (hvalid : ∀ tk ∈ T', Token.Valid s tk) : Inv (s.setCtx c (some y)) L T' where
  repr := h.repr
  places := fun q ↦ by rw [hat, h.places]; rfl
  ctxOk := by
    intro c' x' hx'
    by_cases he : c' = c
    · subst he
      rw [Shared.setCtx_ctx, Function.update_self, Option.some.injEq] at hx'
      exact hx' ▸ hc.congr Iff.rfl (.refl _ _) fun m hm ↦ ⟨m, hm, rfl, rfl⟩
    · rw [Shared.setCtx_ctx, Function.update_of_ne he] at hx'
      exact (h.ctxOk hx').congr Iff.rfl (hother c' he) fun m hm ↦ ⟨m, hm, rfl, rfl⟩
  ctxNone := by
    intro c' hc'
    by_cases he : c' = c
    · simp [he] at hc'
    · rw [Shared.setCtx_ctx, Function.update_of_ne he] at hc'
      rw [(hother c' he).refs, (hother c' he).dels]
      exact h.ctxNone hc'
  table := by
    intro k c' hk
    obtain ⟨x', hx', hx'k⟩ := h.table hk
    by_cases he : c' = c
    · subst he
      rw [hx, Option.some.injEq] at hx'
      exact ⟨y, by simp, by rw [hh, hx', hx'k]⟩
    · exact ⟨x', by simpa [he] using hx', hx'k⟩
  queueInj := by
    -- the queue of every context is the one it had before
    have hkey : ∀ {c' y'}, (s.setCtx c (some y)).ctx c' = some y' →
        ∃ x', s.ctx c' = some x' ∧ x'.queue = y'.queue := by
      intro c' y' hy'
      by_cases he : c' = c
      · subst he
        rw [Shared.setCtx_ctx, Function.update_self, Option.some.injEq] at hy'
        exact ⟨x, hx, by rw [← hq, hy']⟩
      · rw [Shared.setCtx_ctx, Function.update_of_ne he] at hy'
        exact ⟨y', hy', rfl⟩
    intro c₁ c₂ y₁ y₂ h₁ h₂ hqq
    obtain ⟨x₁, hx₁, hq₁⟩ := hkey h₁
    obtain ⟨x₂, hx₂, hq₂⟩ := hkey h₂
    exact h.queueInj hx₁ hx₂ (by rw [hq₁, hq₂, hqq])
  handleInj := h.handleInj
  quiet := h.quiet
  valid := by
    intro tk htk
    have hv := hvalid tk htk
    -- tokens that name a context need its queue, and those at work also that it is initialised
    cases tk with
    | work c' q | running c' q =>
      obtain ⟨x', hx', hxq, hxi⟩ := hv
      by_cases he : c' = c
      · subst he
        rw [hx, Option.some.injEq] at hx'
        exact ⟨y, by simp, by rw [hq, hx', hxq], hi (by rw [hx', hxi])⟩
      · exact ⟨x', by simpa [he] using hx', hxq, hxi⟩
    | created c' q | starting c' q =>
      obtain ⟨x', hx', hxq⟩ := hv
      by_cases he : c' = c
      · subst he
        rw [hx, Option.some.injEq] at hx'
        exact ⟨y, by simp, by rw [hq, hx', hxq]⟩
      · exact ⟨x', by simpa [he] using hx', hxq⟩
    | retiring c' q handle => exact hv
    | drop q => exact hv
    | held q | fresh c' q | ref c' | del c' => trivial

/-! ## References -/

/-- Taking a reference while there is one. -/
theorem refInc {x : Context} (h : Inv s L T) (hx : s.ctx c = some x) (hpos : x.ref ≠ 0) :
    Inv (s.setCtx c (some { x with ref := x.ref + 1 })) L (.ref c ::ₘ T) := by
  have ho := h.ctxOk hx
  refine h.onSetCtx hx rfl rfl id (fun q ↦ Multiset.countP_cons_of_neg T (by simp))
    (fun c' hc' ↦ .add T (by simp [Token.refs, hc'.symm]) rfl rfl) ⟨?_, ?_, ?_, ho.queue, ?_⟩ ?_
  · rw [Multiset.countP_cons_of_pos T (by simp [Token.refs])]
    have := ho.ref
    simp only
    omega
  · rw [Multiset.countP_cons_of_neg T (by simp [Token.dels]), ho.del, if_neg hpos,
      if_neg (Nat.succ_ne_zero _)]
  · rw [Multiset.countP_cons_of_neg T (by simp [Token.runs]), ho.calls]
  · intro hi ht
    obtain ⟨tk, htk, hun⟩ := ho.init hi ht
    exact ⟨tk, Multiset.mem_cons_of_mem htk, hun⟩
  · intro tk htk
    rcases Multiset.mem_cons.mp htk with rfl | htk
    · trivial
    · exact h.valid tk htk

/-- `ztask_handle_grab`: a registered context is alive. -/
theorem handleGrab (h : Inv s L T) (handle : ℕ) :
    (s.table handle = none ∧ s.handleGrab handle = .ok (none, s)) ∨
      ∃ c x, s.table handle = some c ∧ s.ctx c = some x ∧ x.handle = handle ∧
        s.handleGrab handle = .ok (some c, s.setCtx c (some { x with ref := x.ref + 1 })) ∧
        Inv (s.setCtx c (some { x with ref := x.ref + 1 })) L (.ref c ::ₘ T) := by
  cases ht : s.table handle with
  | none => exact Or.inl ⟨rfl, by rw [Shared.handleGrab, ht]⟩
  | some c =>
    obtain ⟨x, hx, hxh⟩ := h.table ht
    have href := (h.ctxOk hx).ref
    rw [hxh, if_pos ht] at href
    exact Or.inr ⟨c, x, rfl, hx, hxh, by simp only [Shared.handleGrab, ht, hx],
      h.refInc hx (by omega)⟩

/-- The decrement of `ztask_context_release`: whoever takes the count to zero has to delete the
context. -/
theorem contextDec (h : Inv s L (.ref c ::ₘ T)) :
    ∃ s', (s.contextDec c = .ok (true, s') ∧ Inv s' L (.del c ::ₘ T) ∧
        ∀ x, s'.ctx c = some x → s'.table x.handle ≠ some c) ∨
      (s.contextDec c = .ok (false, s') ∧ Inv s' L T) := by
  obtain ⟨x, hx, hpos⟩ := h.of_refs (c := c) (by simp [Token.refs])
  have ho := h.ctxOk hx
  have href := ho.ref
  have hdel := ho.del
  have hcalls := ho.calls
  rw [Multiset.countP_cons_of_pos T (by simp [Token.refs])] at href
  rw [Multiset.countP_cons_of_neg T (by simp [Token.dels]), if_neg (by omega)] at hdel
  rw [Multiset.countP_cons_of_neg T (by simp [Token.runs])] at hcalls
  have hinit : x.init = false → s.table x.handle = some c →
      ∃ tk ∈ T, tk.uninit c x.queue = true := by
    intro hi ht
    obtain ⟨tk, htk, hun⟩ := ho.init hi ht
    rcases Multiset.mem_cons.mp htk with rfl | htk
    · cases hun
    · exact ⟨tk, htk, hun⟩
  have hdec : s.contextDec c
      = .ok (decide (x.ref - 1 = 0), s.setCtx c (some { x with ref := x.ref - 1 })) := by
    rw [Shared.contextDec, hx]
  refine ⟨s.setCtx c (some { x with ref := x.ref - 1 }), ?_⟩
  by_cases hz : x.ref - 1 = 0
  · -- no reference is left, the slot table's included
    have hno : ¬s.table x.handle = some c := by
      intro ht
      rw [if_pos ht] at href
      omega
    refine Or.inl ⟨by rw [hdec, decide_eq_true hz], h.onSetCtx hx rfl rfl id
      (fun q ↦ by rw [Multiset.countP_cons, Multiset.countP_cons]; rfl)
      (fun c' hc' ↦ .cons T (by simp [Token.refs, hc'.symm]) (by simp [Token.dels, hc'.symm]) rfl
        fun _ h ↦ h) ⟨?_, ?_, ?_, ho.queue, fun _ ht ↦ absurd ht hno⟩ ?_, ?_⟩
    · rw [Multiset.countP_cons_of_neg T (by simp [Token.refs])]
      simp only
      omega
    · rw [Multiset.countP_cons_of_pos T (by simp [Token.dels]), hdel, if_pos hz]
    · rw [Multiset.countP_cons_of_neg T (by simp [Token.runs]), hcalls]
    · intro tk htk
      rcases Multiset.mem_cons.mp htk with rfl | htk
      · trivial
      · exact h.valid_tail tk htk
    · intro y hy
      rw [Shared.setCtx_ctx, Function.update_self, Option.some.injEq] at hy
      rw [← hy]
      exact hno
  · refine Or.inr ⟨by rw [hdec, decide_eq_false hz], h.onSetCtx hx rfl rfl id
      (fun q ↦ by rw [Multiset.countP_cons_of_neg T (by simp)])
      (fun c' hc' ↦ .drop T (by simp [Token.refs, hc'.symm]) rfl rfl fun _ ↦ rfl)
      ⟨?_, ?_, hcalls, ho.queue, hinit⟩ h.valid_tail⟩
    · simp only
      omega
    · rw [hdel, if_neg hz]

/-! ## Regrouping tokens -/

/-- A token that counts as a reference is that reference and whatever else it says. -/
theorem splitRef {a b : Token} (h : Inv s L (a ::ₘ T)) (hat : ∀ q, b.atQueue q = a.atQueue q)
    (href : ∀ c', a.refs c' = (Token.ref c).refs c' ∧ b.refs c' = false)
    (hdel : ∀ c', a.dels c' = false ∧ b.dels c' = false)
    (hruns : ∀ c', a.runs c' = false ∧ b.runs c' = false)
    (hun : ∀ c' q, a.uninit c' q = true → b.uninit c' q = true) (hvalid : b.Valid s) :
    Inv s L (.ref c ::ₘ b ::ₘ T) := by
  refine h.retoken (fun q ↦ ?_) (fun c' ↦ ⟨?_, ?_, ?_, ?_⟩) ?_
  · simp only [Multiset.countP_cons, hat, Token.atQueue_ref, Bool.false_eq_true, if_false, add_zero]
  · simp only [Multiset.countP_cons, href, Bool.false_eq_true, if_false, add_zero]
  · rw [Multiset.countP_cons_of_neg _ (by simp [Token.dels]),
      Multiset.countP_cons_of_neg T (by simp [hdel]),
        Multiset.countP_cons_of_neg T (by simp [hdel])]
  · rw [Multiset.countP_cons_of_neg _ (by simp [Token.runs]),
      Multiset.countP_cons_of_neg T (by simp [hruns]),
        Multiset.countP_cons_of_neg T (by simp [hruns])]
  · rintro q ⟨tk, htk, htk'⟩
    rcases Multiset.mem_cons.mp htk with rfl | htk
    · exact ⟨b, by simp, hun _ _ htk'⟩
    · exact ⟨tk, by simp [htk], htk'⟩
  · intro tk htk
    rcases Multiset.mem_cons.mp htk with rfl | htk
    · trivial
    rcases Multiset.mem_cons.mp htk with rfl | htk
    · exact hvalid
    · exact h.valid_tail tk htk

theorem splitWork (h : Inv s L (.work c q ::ₘ T)) : Inv s L (.ref c ::ₘ .held q ::ₘ T) :=
  h.splitRef (fun _ ↦ rfl) (fun _ ↦ ⟨rfl, rfl⟩) (fun _ ↦ ⟨rfl, rfl⟩) (fun _ ↦ ⟨rfl, rfl⟩)
    (fun _ _ hun ↦ by cases hun) trivial

theorem splitCreated (h : Inv s L (.created c q ::ₘ T)) : Inv s L (.ref c ::ₘ .fresh c q ::ₘ T) :=
  h.splitRef (fun _ ↦ rfl) (fun _ ↦ ⟨rfl, rfl⟩) (fun _ ↦ ⟨rfl, rfl⟩) (fun _ ↦ ⟨rfl, rfl⟩)
    (fun _ _ hun ↦ hun) trivial

theorem splitFailed {x : Context} (h : Inv s L (.created c q ::ₘ T)) (hx : s.ctx c = some x) :
    Inv s L (.ref c ::ₘ .retiring c q x.handle ::ₘ T) := by
  refine h.splitRef (fun _ ↦ rfl) (fun _ ↦ ⟨rfl, rfl⟩) (fun _ ↦ ⟨rfl, rfl⟩) (fun _ ↦ ⟨rfl, rfl⟩)
    (fun _ _ hun ↦ hun) ?_
  obtain ⟨x', hx', rfl⟩ := h.valid_head
  obtain rfl : x = x' := by rw [hx] at hx'; exact Option.some.inj hx'
  obtain ⟨m, hm, hh, -⟩ := (h.ctxOk hx).queue
  exact ⟨m, hm, hh⟩

/-- The context that was grabbed for a queue in hand is the queue's, and it is initialised. -/
theorem joinWork {x : Context} (h : Inv s L (.ref c ::ₘ .held q ::ₘ T)) (hx : s.ctx c = some x)
    (hq : x.queue = q) (ht : s.table x.handle = some c) : Inv s L (.work c q ::ₘ T) := by
  have hi : x.init = true := by
    rw [Multiset.cons_swap] at h
    exact h.init_of_atQueue hx (by simp [hq]) rfl ht
  refine h.retoken (fun q' ↦ ?_) (fun c' ↦ ⟨?_, ?_, ?_, ?_⟩) ?_
  · simp only [Multiset.countP_cons]
    rfl
  · simp only [Multiset.countP_cons]
    rfl
  · simp only [Multiset.countP_cons]
    rfl
  · simp only [Multiset.countP_cons]
    rfl
  · rintro q' ⟨tk, htk, hun⟩
    rcases Multiset.mem_cons.mp htk with rfl | htk
    · cases hun
    rcases Multiset.mem_cons.mp htk with rfl | htk
    · cases hun
    · exact ⟨tk, by simp [htk], hun⟩
  · intro tk htk
    rcases Multiset.mem_cons.mp htk with rfl | htk
    · exact ⟨x, hx, hq, hi⟩
    · exact h.valid tk (by simp [htk])

theorem fresh_of_retiring {handle : ℕ} (h : Inv s L (.retiring c q handle ::ₘ T)) :
    Inv s L (.fresh c q ::ₘ T) := by
  refine h.retoken (fun q' ↦ by rw [Multiset.countP_cons, Multiset.countP_cons]; rfl)
    (fun _ ↦ .cons T rfl rfl rfl fun _ hun ↦ hun) ?_
  intro tk htk
  rcases Multiset.mem_cons.mp htk with rfl | htk
  · trivial
  · exact h.valid_tail tk htk

/-- The creator has done with a context that is initialised or retired: what it still has is the
queue. -/
theorem forget (h : Inv s L (.fresh c q ::ₘ T))
    (hc : ∀ x, s.ctx c = some x → x.queue = q → x.init = true ∨ s.table x.handle ≠ some c) :
    Inv s L (.held q ::ₘ T) where
  repr := h.repr
  places := fun q' ↦ by
    rw [← h.places q', Multiset.countP_cons, Multiset.countP_cons]
    rfl
  ctxOk := by
    intro c' x hx
    have ho := h.ctxOk hx
    refine ⟨?_, ?_, ?_, ho.queue, ?_⟩
    · rw [ho.ref, Multiset.countP_cons, Multiset.countP_cons]
      rfl
    · rw [← ho.del, Multiset.countP_cons, Multiset.countP_cons]
      rfl
    · rw [← ho.calls, Multiset.countP_cons, Multiset.countP_cons]
      rfl
    · intro hi ht
      obtain ⟨tk, htk, hun⟩ := ho.init hi ht
      rcases Multiset.mem_cons.mp htk with rfl | htk
      · -- the token that goes was the one for `c`
        simp only [Token.uninit, Bool.and_eq_true, decide_eq_true_eq] at hun
        obtain ⟨rfl, hq⟩ := hun
        rcases hc x hx hq.symm with hi' | hno
        · rw [hi] at hi'
          cases hi'
        · exact absurd ht hno
      · exact ⟨tk, Multiset.mem_cons_of_mem htk, hun⟩
  ctxNone := by
    intro c' hc'
    have := h.ctxNone hc'
    rw [Multiset.countP_cons, Multiset.countP_cons] at this ⊢
    exact this
  table := h.table
  queueInj := h.queueInj
  handleInj := h.handleInj
  quiet := h.quiet
  valid := by
    intro tk htk
    rcases Multiset.mem_cons.mp htk with rfl | htk
    · trivial
    · exact h.valid_tail tk htk

/-! ## The `CHECKCALLING` lock -/

/-- Whoever has the queue of a context in hand finds its lock free: a thread inside the callback or
the initialiser would have the queue in hand as well. -/
theorem calling_eq_false {tk : Token} {x : Context} (h : Inv s L (tk ::ₘ T))
    (hx : s.ctx c = some x) (hat : tk.atQueue x.queue = true) (hn : tk.runs c = false) :
    x.calling = false := by
  by_contra hcall
  have hcount := (h.ctxOk hx).calls
  rw [if_pos (by simpa using hcall), Multiset.countP_cons_of_neg T (by simp [hn])] at hcount
  obtain ⟨tk', htk', hrun⟩ := Multiset.countP_pos.mp (by rw [hcount]; exact Nat.one_pos)
  have h0 := Multiset.countP_eq_zero.mp (h.of_atQueue hat).2.1 tk' htk'
  have hv := h.valid_tail tk' htk'
  cases tk' with
  | running c' q' =>
    obtain ⟨x', hx', hq', -⟩ := hv
    obtain rfl : c' = c := by simpa [Token.runs] using hrun
    rw [hx, Option.some.injEq] at hx'
    simp [← hq', hx'] at h0
  | starting c' q' =>
    obtain ⟨x', hx', hq'⟩ := hv
    obtain rfl : c' = c := by simpa [Token.runs] using hrun
    rw [hx, Option.some.injEq] at hx'
    simp [← hq', hx'] at h0
  | held q' | work c' q' | created c' q' | fresh c' q' | retiring c' q' k | drop q' | ref c'
  | del c' => cases hrun

/-- One thread at a time is inside the lock of a context. -/
theorem runs_le_one (h : Inv s L T) (c : CtxId) : T.countP (Token.runs c ·) ≤ 1 := by
  by_contra hlt
  obtain ⟨tk, htk, hrun⟩ := Multiset.countP_pos.mp (Nat.zero_lt_one.trans (Nat.not_le.mp hlt))
  have hx : ∃ x, s.ctx c = some x := by
    have hv := h.valid tk htk
    cases tk with
    | running c' q' | starting c' q' =>
      obtain ⟨x, hx, -⟩ := hv
      obtain rfl : c' = c := by simpa [Token.runs] using hrun
      exact ⟨x, hx⟩
    | held q' | work c' q' | created c' q' | fresh c' q' | retiring c' q' k | drop q' | ref c'
    | del c' => cases hrun
  obtain ⟨x, hx⟩ := hx
  have hcalls := (h.ctxOk hx).calls
  split at hcalls <;> omega

/-- A token is traded for the one of the same holder inside or outside of the lock. -/
theorem setCalling {a b : Token} {x y : Context} (h : Inv s L (a ::ₘ T)) (hx : s.ctx c = some x)
    (hy : y = { x with calling := y.calling, cb := y.cb })
    (hat : ∀ q, b.atQueue q = a.atQueue q) (href : ∀ c, b.refs c = a.refs c)
    (hdel : ∀ c, b.dels c = a.dels c) (hruns : ∀ c' ≠ c, b.runs c' = a.runs c')
    (hun : ∀ c q, a.uninit c q = true → b.uninit c q = true)
    (hcall : T.countP (Token.runs c ·) + (if b.runs c then 1 else 0) = if y.calling then 1 else 0)
    (hvalid : b.Valid s) : Inv (s.setCtx c (some y)) L (b ::ₘ T) := by
  have ho := h.ctxOk hx
  have hq : y.queue = x.queue := by rw [hy]
  have hr : y.ref = x.ref := by rw [hy]
  have hh : y.handle = x.handle := by rw [hy]
  have hi : y.init = x.init := by rw [hy]
  refine h.onSetCtx hx hh hq (fun h ↦ by rw [hi, h])
    (fun q ↦ by rw [Multiset.countP_cons, Multiset.countP_cons, hat])
    (fun c' hc' ↦ .cons T (href c') (hdel c') (hruns c' hc') (hun c')) ⟨?_, ?_, ?_, ?_, ?_⟩ ?_
  · rw [hr, hh, ho.ref, Multiset.countP_cons, Multiset.countP_cons, href]
  · rw [hr, ← ho.del, Multiset.countP_cons, Multiset.countP_cons, hdel]
  · rw [Multiset.countP_cons, hcall]
  · rw [hq, hh]
    exact ho.queue
  · intro hi' ht
    rw [hi] at hi'
    rw [hh] at ht
    obtain ⟨tk, htk, hun'⟩ := ho.init hi' ht
    rw [hq]
    rcases Multiset.mem_cons.mp htk with rfl | htk
    · exact ⟨b, Multiset.mem_cons_self _ _, hun c _ hun'⟩
    · exact ⟨tk, Multiset.mem_cons_of_mem htk, hun'⟩
  · intro tk htk
    rcases Multiset.mem_cons.mp htk with rfl | htk
    · exact hvalid
    · exact h.valid_tail tk htk

theorem callingBegin {a b : Token} {x : Context} (h : Inv s L (a ::ₘ T)) (hx : s.ctx c = some x)
    (hata : a.atQueue x.queue = true) (ha : a.runs c = false) (hb : b.runs c = true)
    (hat : ∀ q, b.atQueue q = a.atQueue q) (href : ∀ c, b.refs c = a.refs c)
    (hdel : ∀ c, b.dels c = a.dels c) (hruns : ∀ c' ≠ c, b.runs c' = a.runs c')
    (hun : ∀ c q, a.uninit c q = true → b.uninit c q = true) (hvalid : b.Valid s) :
    ∃ s', s.callingBegin c = .ok s' ∧ Inv s' L (b ::ₘ T) := by
  have hfree := h.calling_eq_false hx hata ha
  have hcount := (h.ctxOk hx).calls
  rw [Multiset.countP_cons_of_neg T (by simp [ha]), hfree] at hcount
  refine ⟨s.setCtx c (some { x with calling := true }), by simp [Shared.callingBegin, hx, hfree],
    h.setCalling hx rfl hat href hdel hruns hun ?_ hvalid⟩
  rw [hcount, if_pos hb, if_neg Bool.false_ne_true, if_pos rfl]

theorem callingEnd {a b : Token} {x : Context} (h : Inv s L (a ::ₘ T)) (hx : s.ctx c = some x)
    (cb : Context → Bool) (ha : a.runs c = true) (hb : b.runs c = false)
    (hat : ∀ q, b.atQueue q = a.atQueue q) (href : ∀ c, b.refs c = a.refs c)
    (hdel : ∀ c, b.dels c = a.dels c) (hruns : ∀ c' ≠ c, b.runs c' = a.runs c')
    (hun : ∀ c q, a.uninit c q = true → b.uninit c q = true) (hvalid : b.Valid s) :
    ∃ s', s.callingEnd c cb = .ok s' ∧ Inv s' L (b ::ₘ T) := by
  have hcount := (h.ctxOk hx).calls
  rw [Multiset.countP_cons_of_pos T ha] at hcount
  refine ⟨s.setCtx c (some { x with calling := false, cb := cb x }),
    by rw [Shared.callingEnd, hx], h.setCalling hx rfl hat href hdel hruns hun ?_ hvalid⟩
  rw [if_neg (by simp [hb]), if_neg Bool.false_ne_true]
  split at hcount <;> omega

end Inv

end ZTask
