import ZTask.Snc.Service

/-!
# Which operation a response completes

A response is matched by the session number of the coroutine, which all operations of the coroutine
share. So a response or a timer that is left over from an operation completes a later operation of
the same coroutine (`snc_stale`), and if the session numbers have gone round it may even be that of
another coroutine. And an operation with a timeout that is answered before it looks for its timer on
the first list of the wheel that is not empty: if the timer is on another list, the operation does
not come back.

Nothing else goes wrong. If no operation is issued while something with the coroutine's session is
still under way, no session is given out that a living coroutine has, and an answered operation
finds its timer where it looks for it, every operation is completed by its own response or its own
timer (`snc_matches`). The invariant behind this is one line of `Snc.Ok`: whatever is under way with
the session of a suspended coroutine belongs to the operation it is suspended in (`own`). A step
outside the service only moves what is under way; issuing an operation adds to it under a session
for which nothing was.
-/

namespace ZTask

open Lib

/-- What is under way with a session number, and the operation it belongs to: unanswered requests,
timers of the service, and responses not yet taken up. -/
def Snc.underWay (s : Snc) : List (ℕ × Option ℕ) :=
  s.requests.map (fun r ↦ (r.session, some r.origin)) ++
    ((s.timers.filter (·.handle = s.handle)).map (fun t ↦ (t.session, t.origin)) ++
      (s.mailbox.filter (·.type = ptypeResponse)).map fun m ↦ (m.session, m.origin))

/-- All lists of the wheel are empty, or the first one that is not has a timer of the service with
the session. -/
def Snc.DelReturns (s : Snc) (session : ℕ) : Prop :=
  ∀ slot ∈ s.firstSlot, ∃ t ∈ s.timers, s.Sought session slot t

instance Snc.decidableDelReturns (s : Snc) (session : ℕ) : Decidable (s.DelReturns session) :=
  inferInstanceAs (Decidable (∀ slot ∈ s.firstSlot, ∃ t ∈ s.timers, s.Sought session slot t))

/-- The operations that have a timer as well as something else to wait for. -/
def SncOp.timed : SncOp → Bool
  | callnameS _ _ | yieldS _ => true
  | call _ | callname _ | sleep _ => false

/-- A response with a payload answers an operation whose timer is not looked for in vain. -/
def Snc.Answers (s : Snc) (m : SncMessage) : Prop :=
  m.msg.isSome ∨ m.sz ≠ 0 → ∀ c ∈ s.tree m.session, ∀ x ∈ s.co c, ∀ p ∈ x.op, p.2.timed = true →
    s.DelReturns m.session

instance Snc.decidableAnswers (s : Snc) (m : SncMessage) : Decidable (s.Answers m) :=
  inferInstanceAs (Decidable (m.msg.isSome ∨ m.sz ≠ 0 → ∀ c ∈ s.tree m.session, ∀ x ∈ s.co c,
    ∀ p ∈ x.op, p.2.timed = true → s.DelReturns m.session))

/-- The step is no operation of a coroutine with whose session something is under way, gives no
session to a new coroutine that a coroutine has, and answers no operation whose timer is not on the
first list that is not empty. -/
def SncInput.Clean (s : Snc) : SncInput → Prop
  | issue _ _ => ∀ c ∈ s.running, ∀ x ∈ s.co c, ∀ p ∈ s.underWay, p.1 ≠ x.session
  | deliver _ => ∀ m ∈ s.mailbox.head?,
      if m.type = ptypeResponse then s.Answers m else s.tree (newsession s.sessionId) = none
  | _ => True

instance SncInput.decidableClean (s : Snc) : ∀ i : SncInput, Decidable (i.Clean s)
  | .issue _ _ =>
    inferInstanceAs (Decidable (∀ c ∈ s.running, ∀ x ∈ s.co c, ∀ p ∈ s.underWay, p.1 ≠ x.session))
  | .deliver _ =>
    inferInstanceAs (Decidable (∀ m ∈ s.mailbox.head?,
      if m.type = ptypeResponse then s.Answers m else s.tree (newsession s.sessionId) = none))
  | .finish | .respond _ _ _ | .fire _ | .move _ _ | .timeout _ _ _ | .receive _ _ _ _ =>
      .isTrue trivial

namespace Snc

/-- What holds between steps. -/
structure Ok (s : Snc) : Prop where
  inTree : ∀ {c x}, s.co c = some x → s.tree x.session = some c
  ofTree : ∀ {n c}, s.tree n = some c → ∃ x, s.co c = some x ∧ x.session = n
  own : ∀ {c x id op}, s.co c = some x → x.op = some (id, op) →
    ∀ p ∈ s.underWay, p.1 = x.session → p.2 = some id
  runs : ∀ {c x}, s.co c = some x → (x.op = none ↔ s.running = some c)
  alive : ∀ {c}, s.running = some c → ∃ x, s.co c = some x

theorem ok_init (handle : ℕ) : (init handle).Ok where
  inTree := fun h ↦ by cases h
  ofTree := fun h ↦ by cases h
  own := fun h ↦ by cases h
  runs := fun h ↦ by cases h
  alive := fun h ↦ by cases h

variable {s s' : Snc}

theorem Ok.session_inj (h : s.Ok) {c c' : ℕ} {x x' : Coroutine} (hx : s.co c = some x)
    (hx' : s.co c' = some x') (heq : x.session = x'.session) : c = c' := by
  have ht := h.inTree hx
  rw [heq, h.inTree hx', Option.some.injEq] at ht
  exact ht.symm

/-- A step outside the service, which can only move what is under way. -/
theorem Ok.outside (h : s.Ok) (htree : s'.tree = s.tree) (hco : s'.co = s.co)
    (hrun : s'.running = s.running) (hsub : ∀ p ∈ s'.underWay, p ∈ s.underWay) : s'.Ok where
  inTree := by
    rw [htree, hco]
    exact h.inTree
  ofTree := by
    rw [htree, hco]
    exact h.ofTree
  own := by
    rw [hco]
    exact fun hx hop p hp ↦ h.own hx hop p (hsub p hp)
  runs := by
    rw [hco, hrun]
    exact h.runs
  alive := by
    rw [hco, hrun]
    exact h.alive

/-- One coroutine is resumed or suspended. -/
theorem Ok.setCo (h : s.Ok) {c : ℕ} {x y : Coroutine} {r : Option ℕ} (hx : s.co c = some x)
    (hy : y.session = x.session) (hr : y.op = none ↔ r = some c)
    (hothers : ∀ c' ≠ c, s.running ≠ some c' ∧ r ≠ some c')
    (hown : ∀ id op, y.op = some (id, op) → ∀ p ∈ s.underWay, p.1 = x.session → p.2 = some id) :
    Ok { s with co := Function.update s.co c (some y), running := r } := by
  have hkey : ∀ {c' x'}, Function.update s.co c (some y) c' = some x' →
      (c' = c ∧ x' = y) ∨ (c' ≠ c ∧ s.co c' = some x') := by
    intro c' x' hx'
    by_cases hc : c' = c
    · subst hc
      rw [Function.update_self, Option.some.injEq] at hx'
      exact Or.inl ⟨rfl, hx'.symm⟩
    · rw [Function.update_of_ne hc] at hx'
      exact Or.inr ⟨hc, hx'⟩
  constructor
  · intro c' x' hx'
    rcases hkey hx' with ⟨rfl, rfl⟩ | ⟨-, hx'⟩
    · rw [hy]
      exact h.inTree hx
    · exact h.inTree hx'
  · intro n c' hn
    obtain ⟨x', hx', hn'⟩ := h.ofTree hn
    by_cases hc : c' = c
    · subst hc
      rw [hx, Option.some.injEq] at hx'
      exact ⟨y, Function.update_self _ _ _, by rw [hy, hx', hn']⟩
    · exact ⟨x', (Function.update_of_ne hc _ _).trans hx', hn'⟩
  · intro c' x' id op hx' hop
    rcases hkey hx' with ⟨rfl, rfl⟩ | ⟨-, hx'⟩
    · rw [hy]
      exact hown id op hop
    · exact h.own hx' hop
  · intro c' x' hx'
    rcases hkey hx' with ⟨rfl, rfl⟩ | ⟨hc, hx'⟩
    · exact hr
    · rw [h.runs hx']
      exact iff_of_false (hothers c' hc).1 (hothers c' hc).2
  · intro c' hc'
    by_cases hc : c' = c
    · exact ⟨y, by rw [hc]; exact Function.update_self _ _ _⟩
    · exact absurd hc' (hothers c' hc).2

/-! ## Outside the service -/

theorem Ok.respond (h : s.Ok) (i : ℕ) (msg : Option ℕ) (sz : ℕ) : (s.respond i msg sz).Ok := by
  rw [Snc.respond]
  cases hr : s.requests[i]? with
  | none => exact h
  | some r =>
    refine h.outside rfl rfl rfl fun p hp ↦ ?_
    have hmem : (r.session, some r.origin) ∈ s.requests.map fun r ↦ (r.session, some r.origin) :=
      List.mem_map_of_mem (List.mem_of_getElem? hr)
    simp only [underWay, List.filter_append, List.map_append, List.mem_append] at hp ⊢
    rcases hp with hp | hp | hp | hp
    · obtain ⟨r', hr', rfl⟩ := List.mem_map.mp hp
      exact Or.inl (List.mem_map_of_mem (List.mem_of_mem_eraseIdx hr'))
    · exact Or.inr (Or.inl hp)
    · exact Or.inr (Or.inr hp)
    · rw [List.filter_singleton, decide_eq_true rfl] at hp
      rw [List.mem_singleton.mp hp]
      exact Or.inl hmem

theorem mem_underWay_of_timer {t : SncTimer} (ht : t ∈ s.timers) (hown : t.handle = s.handle) :
    (t.session, t.origin) ∈ s.underWay := by
  have hmem : (t.session, t.origin) ∈
      (s.timers.filter (·.handle = s.handle)).map fun t ↦ (t.session, t.origin) :=
    List.mem_map_of_mem (List.mem_filter.mpr ⟨ht, decide_eq_true hown⟩)
  exact List.mem_append_right _ (List.mem_append_left _ hmem)

/-- With no timers but old ones, or timers of others, and nothing else new, nothing new is under
way. -/
theorem underWay_of_timers {timers : List SncTimer}
    (hold : ∀ t ∈ timers, t.handle = s.handle →
      ∃ t' ∈ s.timers, t'.handle = s.handle ∧ t'.session = t.session ∧ t'.origin = t.origin) :
    ∀ p ∈ underWay { s with timers }, p ∈ s.underWay := by
  intro p hp
  rcases List.mem_append.mp hp with hp | hp
  · exact List.mem_append_left _ hp
  rcases List.mem_append.mp hp with hp | hp
  · obtain ⟨t, ht, rfl⟩ := List.mem_map.mp hp
    obtain ⟨ht, hown⟩ := List.mem_filter.mp ht
    obtain ⟨t', ht', hown', hsession, horigin⟩ := hold t ht (of_decide_eq_true hown)
    rw [← hsession, ← horigin]
    exact mem_underWay_of_timer ht' hown'
  · exact List.mem_append_right _ (List.mem_append_right _ hp)

theorem Ok.timers (h : s.Ok) {timers : List SncTimer}
    (hold : ∀ t ∈ timers, t.handle = s.handle →
      ∃ t' ∈ s.timers, t'.handle = s.handle ∧ t'.session = t.session ∧ t'.origin = t.origin) :
    Ok { s with timers } := h.outside rfl rfl rfl (underWay_of_timers hold)

theorem Ok.fire (h : s.Ok) (i : ℕ) : (s.fire i).Ok := by
  rw [Snc.fire]
  cases ht : s.timers[i]? with
  | none => exact h
  | some t =>
    have hless : Ok { s with timers := s.timers.eraseIdx i } := h.timers fun t' ht' hown ↦
      ⟨t', List.mem_of_mem_eraseIdx ht', hown, rfl, rfl⟩
    by_cases hown : t.handle = s.handle
    · refine h.outside rfl rfl rfl fun p hp ↦ ?_
      simp only [underWay, if_pos hown, List.filter_append, List.map_append, List.mem_append] at hp
      rcases hp with hp | hp | hp | hp
      · exact List.mem_append_left _ hp
      · obtain ⟨t', ht', rfl⟩ := List.mem_map.mp hp
        obtain ⟨ht', hown'⟩ := List.mem_filter.mp ht'
        exact mem_underWay_of_timer (List.mem_of_mem_eraseIdx ht') (of_decide_eq_true hown')
      · exact List.mem_append_right _ (List.mem_append_right _ hp)
      · rw [List.filter_singleton, decide_eq_true rfl] at hp
        rw [List.mem_singleton.mp hp]
        exact mem_underWay_of_timer (List.mem_of_getElem? ht) hown
    · simp only [if_neg hown]
      exact hless

theorem Ok.move (h : s.Ok) (i : ℕ) (slot : Slot) : (s.move i slot).Ok := by
  rw [Snc.move]
  cases ht : s.timers[i]? with
  | none => exact h
  | some t =>
    refine h.timers fun t' ht' hown ↦ ?_
    rcases List.mem_append.mp ht' with ht' | ht'
    · exact ⟨t', List.mem_of_mem_eraseIdx ht', hown, rfl, rfl⟩
    · rw [List.mem_singleton.mp ht'] at hown ⊢
      exact ⟨t, List.mem_of_getElem? ht, hown, rfl, rfl⟩

theorem Ok.timeout (h : s.Ok) (slot : Slot) {handle : ℕ} (hne : handle ≠ s.handle) (session : ℕ) :
    Ok { s with timers := s.timers ++ [⟨slot, handle, session, none⟩] } := by
  refine h.timers fun t ht hown ↦ ?_
  rcases List.mem_append.mp ht with ht | ht
  · exact ⟨t, ht, hown, rfl, rfl⟩
  · rw [List.mem_singleton.mp ht] at hown
    exact absurd hown hne

theorem Ok.receive (h : s.Ok) {m : SncMessage} (hm : m.type ≠ ptypeResponse) :
    Ok { s with mailbox := s.mailbox ++ [m] } := by
  refine h.outside rfl rfl rfl fun p hp ↦ ?_
  rw [underWay, List.filter_append, List.filter_singleton, decide_eq_false hm] at hp
  simpa [underWay] using hp

theorem Ok.tail (h : s.Ok) {m : SncMessage} {rest : List SncMessage}
    (hm : s.mailbox = m :: rest) : Ok { s with mailbox := rest } := by
  refine h.outside rfl rfl rfl fun p hp ↦ ?_
  simp only [underWay, hm, List.mem_append] at hp ⊢
  refine hp.imp_right fun hp ↦ hp.imp_right fun hp ↦ ?_
  obtain ⟨m', hm', rfl⟩ := List.mem_map.mp hp
  refine List.mem_map_of_mem ?_
  rw [List.mem_filter] at hm' ⊢
  exact ⟨List.mem_cons_of_mem m hm'.1, hm'.2⟩

/-! ## The steps of the service -/

/-- **What `ztask_timeout_del` leaves,** where it returns. -/
theorem timeoutDel_ok {session : ℕ} (hreturns : s.DelReturns session) :
    ∃ timers, s.timeoutDel session = .ok { s with timers } ∧ ∀ t ∈ timers, t ∈ s.timers := by
  rw [timeoutDel]
  cases hfirst : s.firstSlot with
  | none => exact ⟨s.timers, rfl, fun t ht ↦ ht⟩
  | some slot =>
    obtain ⟨t, ht, hsought⟩ := hreturns slot hfirst
    have hany : s.timers.any (s.Sought session slot) = true :=
      List.any_eq_true.mpr ⟨t, ht, decide_eq_true hsought⟩
    exact ⟨_, if_pos hany, fun t' ht' ↦ List.mem_of_mem_eraseP ht'⟩

/-- It does not return otherwise. -/
theorem timeoutDel_endless {session : ℕ} (hnot : ¬s.DelReturns session) :
    s.timeoutDel session = .error .spins := by
  rw [timeoutDel]
  cases hfirst : s.firstSlot with
  | none =>
    refine absurd (fun slot hslot ↦ ?_) hnot
    rw [hfirst] at hslot
    cases hslot
  | some slot =>
    refine if_neg fun hany ↦ hnot fun slot' hslot ↦ ?_
    obtain ⟨t, ht, hsought⟩ := List.any_eq_true.mp hany
    rw [hfirst] at hslot
    cases hslot
    exact ⟨t, ht, of_decide_eq_true hsought⟩

private theorem afterYield_ok {session : ℕ} {msg : Option ℕ} {sz : ℕ} {op : SncOp}
    (hreturns : msg.isSome ∨ sz ≠ 0 → op.timed = true → s.DelReturns session) :
    ∃ timers, s.afterYield session msg sz op = .ok { s with timers } ∧
      ∀ t ∈ timers, t ∈ s.timers := by
  cases op with
  | call sent | callname sent | sleep time => exact ⟨s.timers, rfl, fun t ht ↦ ht⟩
  | callnameS sent time | yieldS time =>
    rw [afterYield]
    by_cases hpayload : msg.isSome ∨ sz ≠ 0
    · rw [if_pos hpayload]
      exact timeoutDel_ok (hreturns hpayload rfl)
    · rw [if_neg hpayload]
      exact ⟨s.timers, rfl, fun t ht ↦ ht⟩

/-- **A response resumes the coroutine of its session**, and the operation comes back. -/
theorem Ok.resume (h : s.Ok) (hrun : s.running = none) (m : SncMessage) (hanswers : s.Answers m) :
    ∃ s' o, s.resume m = .ok (s', o) ∧ s'.Ok := by
  cases ht : s.tree m.session with
  | none => exact ⟨s, none, by rw [Snc.resume, ht], h⟩
  | some c =>
    obtain ⟨x, hx, hxs⟩ := h.ofTree ht
    cases hop : x.op with
    | none =>
      -- no coroutine is running, so all are suspended
      have := (h.runs hx).mp hop
      rw [hrun] at this
      cases this
    | some p =>
      obtain ⟨id, op⟩ := p
      let mid : Snc := { s with
        co := Function.update s.co c (some { x with op := none, msg := m.msg, sz := m.sz })
        running := some c }
      have hmid : mid.Ok := by
        refine h.setCo hx rfl (by simp) (fun c' hc' ↦ ?_) fun _ _ hop' ↦ by cases hop'
        rw [hrun]
        exact ⟨nofun, fun heq ↦ hc' (Option.some.inj heq).symm⟩
      have hreturns : m.msg.isSome ∨ m.sz ≠ 0 → op.timed = true → mid.DelReturns x.session := by
        intro hpayload htimed
        rw [hxs]
        exact hanswers hpayload c ht x hx (id, op) hop htimed
      obtain ⟨timers, hafter, hsub⟩ := afterYield_ok hreturns
      refine ⟨{ mid with timers }, some (id, m.origin), ?_, ?_⟩
      · simp only [Snc.resume, ht, hx, hop]
        exact congrArg (Except.map fun s'' ↦ (s'', some (id, m.origin))) hafter
      · exact hmid.timers fun t ht' hown ↦ ⟨t, hsub t ht', hown, rfl, rfl⟩

/-- What a response completes, if the operation comes back. -/
theorem resume_completes {m : SncMessage} {id : ℕ} {origin : Option ℕ} (h : s.Ok)
    (hres : s.resume m = .ok (s', some (id, origin))) :
    origin = m.origin ∧ ∃ c x op, s.co c = some x ∧ x.session = m.session ∧
      x.op = some (id, op) := by
  cases ht : s.tree m.session with
  | none =>
    rw [Snc.resume, ht] at hres
    cases hres
  | some c =>
    obtain ⟨x, hx, hxs⟩ := h.ofTree ht
    cases hop : x.op with
    | none =>
      simp only [Snc.resume, ht, hx, hop] at hres
      cases hres
    | some p =>
      obtain ⟨id', op⟩ := p
      simp only [Snc.resume, ht, hx, hop] at hres
      generalize afterYield _ _ _ _ _ = after at hres
      cases after with
      | error e => cases hres
      | ok s'' =>
        cases hres
        exact ⟨rfl, c, x, op, hx, hxs, hop⟩

/-- A new coroutine, with a session that no coroutine has. -/
theorem Ok.start (h : s.Ok) (hrun : s.running = none) (m : SncMessage) {c : ℕ}
    (hc : s.co c = none) (hfree : s.tree (newsession s.sessionId) = none) : (s.start m c).Ok := by
  have hkey : ∀ {c' x'}, (s.start m c).co c' = some x' →
      (c' = c ∧ x' = ⟨newsession s.sessionId, none, m.msg, m.sz⟩) ∨
        (c' ≠ c ∧ s.co c' = some x') := by
    intro c' x' hx'
    by_cases hcc : c' = c
    · subst hcc
      simp only [Snc.start, Function.update_self, Option.some.injEq] at hx'
      exact Or.inl ⟨rfl, hx'.symm⟩
    · simp only [Snc.start, Function.update_of_ne hcc] at hx'
      exact Or.inr ⟨hcc, hx'⟩
  have htree : (s.start m c).tree = Function.update s.tree (newsession s.sessionId) (some c) :=
    if_pos hfree
  -- the new session is free, so no coroutine that is there has it
  have hne : ∀ {c' x'}, s.co c' = some x' → x'.session ≠ newsession s.sessionId := by
    intro c' x' hx' heq
    have ht := h.inTree hx'
    rw [heq, hfree] at ht
    cases ht
  constructor
  · intro c' x' hx'
    rw [htree]
    rcases hkey hx' with ⟨rfl, rfl⟩ | ⟨-, hx'⟩
    · rw [Function.update_self]
    · rw [Function.update_of_ne (hne hx'), h.inTree hx']
  · intro n c' hn
    rw [htree] at hn
    by_cases hnn : n = newsession s.sessionId
    · subst hnn
      rw [Function.update_self, Option.some.injEq] at hn
      subst hn
      exact ⟨_, Function.update_self _ _ _, rfl⟩
    · rw [Function.update_of_ne hnn] at hn
      obtain ⟨x', hx', hxn⟩ := h.ofTree hn
      have hcc : c' ≠ c := by
        rintro rfl
        rw [hc] at hx'
        cases hx'
      exact ⟨x', (Function.update_of_ne hcc _ _).trans hx', hxn⟩
  · intro c' x' id op hx' hop
    rcases hkey hx' with ⟨rfl, rfl⟩ | ⟨-, hx'⟩
    · cases hop
    · exact h.own hx' hop
  · intro c' x' hx'
    rcases hkey hx' with ⟨rfl, rfl⟩ | ⟨hcc, hx'⟩
    · simp [Snc.start]
    · have hr := h.runs hx'
      rw [hrun] at hr
      simpa [Snc.start, Ne.symm hcc] using hr
  · intro c' hc'
    obtain rfl : c = c' := Option.some.inj hc'
    exact ⟨_, Function.update_self _ _ _⟩

/-- What an operation adds is tagged with it. -/
theorem underWay_beforeYield (s : Snc) (session id : ℕ) (slot : Slot) (op : SncOp) :
    ∀ p ∈ (s.beforeYield session id slot op).underWay, p ∈ s.underWay ∨ p = (session, some id) := by
  have hsend : ∀ (s : Snc) (sent : Bool), ∀ p ∈ (s.send session id sent).underWay,
      p ∈ s.underWay ∨ p = (session, some id) := by
    intro s sent p hp
    cases sent with
    | false => exact Or.inl hp
    | true =>
      simp only [Snc.send, if_true, underWay, List.map_append, List.map_singleton, List.mem_append,
        List.mem_singleton] at hp ⊢
      tauto
  have htimeout : ∀ (s : Snc) (time : ℤ), ∀ p ∈ (s.timeout session id time slot).underWay,
      p ∈ s.underWay ∨ p = (session, some id) := by
    intro s time p hp
    rw [Snc.timeout] at hp
    by_cases htime : time ≤ 0
    · rw [if_pos htime] at hp
      simp only [underWay, List.filter_append, List.map_append, List.mem_append] at hp ⊢
      rw [List.filter_singleton, decide_eq_true rfl] at hp
      simp only [cond_true, List.map_singleton, List.mem_singleton] at hp
      tauto
    · rw [if_neg htime] at hp
      simp only [underWay, List.filter_append, List.map_append, List.mem_append] at hp ⊢
      rw [List.filter_singleton, decide_eq_true rfl] at hp
      simp only [cond_true, List.map_singleton, List.mem_singleton] at hp
      tauto
  cases op with
  | call sent | callname sent => exact hsend s sent
  | sleep time | yieldS time => exact htimeout s time
  | callnameS sent time =>
    intro p hp
    rcases htimeout _ time p hp with hp | rfl
    · exact hsend s sent p hp
    · exact Or.inr rfl

private theorem beforeYield_frame (s : Snc) (session id : ℕ) (slot : Slot) (op : SncOp) :
    (s.beforeYield session id slot op).tree = s.tree ∧
      (s.beforeYield session id slot op).co = s.co ∧
      (s.beforeYield session id slot op).running = s.running := by
  have htimeout : ∀ (s : Snc) (time : ℤ), (s.timeout session id time slot).tree = s.tree ∧
      (s.timeout session id time slot).co = s.co ∧
      (s.timeout session id time slot).running = s.running := by
    intro s time
    rw [Snc.timeout]
    by_cases htime : time ≤ 0
    · rw [if_pos htime]
      exact ⟨rfl, rfl, rfl⟩
    · rw [if_neg htime]
      exact ⟨rfl, rfl, rfl⟩
  cases op with
  | call sent | callname sent => cases sent <;> exact ⟨rfl, rfl, rfl⟩
  | sleep time | yieldS time => exact htimeout s time
  | callnameS sent time => cases sent <;> exact htimeout _ time

/-- **An operation is issued** when nothing is under way with the coroutine's session: whatever is,
from now on, belongs to it. -/
theorem Ok.issue (h : s.Ok) (op : SncOp) (slot : Slot)
    (hclean : ∀ c ∈ s.running, ∀ x ∈ s.co c, ∀ p ∈ s.underWay, p.1 ≠ x.session) :
    ∃ s', s.issue op slot = .ok s' ∧ s'.Ok := by
  cases hrun : s.running with
  | none => exact ⟨s, by rw [Snc.issue, hrun], h⟩
  | some c =>
    obtain ⟨x, hx⟩ := h.alive hrun
    obtain ⟨htree, hco, hrun'⟩ := beforeYield_frame s x.session s.issued slot op
    have hnew := underWay_beforeYield s x.session s.issued slot op
    -- what the operation adds concerns no other coroutine
    have hmid : (s.beforeYield x.session s.issued slot op).Ok := by
      refine ⟨?_, ?_, ?_, ?_, ?_⟩
      · rw [htree, hco]
        exact h.inTree
      · rw [htree, hco]
        exact h.ofTree
      · rw [hco]
        intro c' x' id' op' hx' hop' p hp hps
        rcases hnew p hp with hp | rfl
        · exact h.own hx' hop' p hp hps
        · obtain rfl := h.session_inj hx hx' hps
          have hnone := (h.runs hx').mpr hrun
          rw [hop'] at hnone
          cases hnone
      · rw [hco, hrun']
        exact h.runs
      · rw [hco, hrun']
        exact h.alive
    have hown : ∀ p ∈ (s.beforeYield x.session s.issued slot op).underWay, p.1 = x.session →
        p.2 = some s.issued := by
      intro p hp hps
      rcases hnew p hp with hp | rfl
      · exact absurd hps (hclean c hrun x hx p hp)
      · rfl
    have hok := hmid.setCo (c := c) (x := x) (y := { x with op := some (s.issued, op) })
      (r := none) (by rw [hco, hx]) rfl (by simp) (fun c' hc' ↦ by
        rw [hrun', hrun]
        exact ⟨fun heq ↦ hc' (Option.some.inj heq).symm, nofun⟩) (by
        intro id' op' hop'
        rw [Option.some.injEq, Prod.mk.injEq] at hop'
        rw [← hop'.1]
        exact hown)
    refine ⟨_, by simp only [Snc.issue, hrun, hx]; rfl, ?_⟩
    rw [← hco]
    exact hok.outside rfl rfl rfl fun p hp ↦ hp

theorem Ok.finish (h : s.Ok) : ∃ s', s.finish = .ok s' ∧ s'.Ok := by
  cases hrun : s.running with
  | none => exact ⟨s, by rw [Snc.finish, hrun], h⟩
  | some c =>
    obtain ⟨x, hx⟩ := h.alive hrun
    have hfinish : s.finish = .ok { s with
        tree := Function.update s.tree x.session none
        co := Function.update s.co c none
        running := none } := by
      simp only [Snc.finish, hrun, hx, h.inTree hx, if_true]
    have hkey : ∀ {c' x'}, Function.update s.co c none c' = some x' →
        c' ≠ c ∧ s.co c' = some x' := by
      intro c' x' hx'
      by_cases hc : c' = c
      · simp [hc] at hx'
      · exact ⟨hc, by simpa [hc] using hx'⟩
    refine ⟨_, hfinish, ?_, ?_, ?_, ?_, ?_⟩
    · intro c' x' hx'
      obtain ⟨hc, hx'⟩ := hkey hx'
      have hne : x'.session ≠ x.session := fun heq ↦ hc (h.session_inj hx' hx heq)
      simp only [Function.update_of_ne hne]
      exact h.inTree hx'
    · intro n c' hn
      by_cases hnx : n = x.session
      · simp [hnx] at hn
      · simp only [Function.update_of_ne hnx] at hn
        obtain ⟨x', hx', hn'⟩ := h.ofTree hn
        have hc : c' ≠ c := by
          rintro rfl
          rw [hx, Option.some.injEq] at hx'
          exact hnx (by rw [← hn', ← hx'])
        exact ⟨x', by simp only [Function.update_of_ne hc, hx'], hn'⟩
    · intro c' x' id op hx' hop
      exact h.own (hkey hx').2 hop
    · intro c' x' hx'
      obtain ⟨hc, hx'⟩ := hkey hx'
      have hr := h.runs hx'
      rw [hrun] at hr
      simpa [Ne.symm hc] using hr
    · intro c' hc'
      cases hc'

end Snc

/-- A clean step does not fault and keeps the invariant. -/
theorem snc_ok {s : Snc} (h : s.Ok) {i : SncInput} (hi : i.Allowed s) (hclean : i.Clean s) :
    ∃ s' o, snc s i = .ok (s', o) ∧ s'.Ok := by
  cases i with
  | deliver c =>
    cases hrun : s.running with
    | some c' => exact ⟨s, none, by simp only [snc, hrun], h⟩
    | none =>
      cases hm : s.mailbox with
      | nil => exact ⟨s, none, by simp only [snc, hrun, hm], h⟩
      | cons m rest =>
        have htail := h.tail hm
        have hhead := hclean m (by rw [hm]; rfl)
        by_cases htype : m.type = ptypeResponse
        · rw [if_pos htype] at hhead
          obtain ⟨s', o, hres, hok⟩ := htail.resume hrun m hhead
          simp only [hrun] at hres
          exact ⟨s', o, by simp only [snc, hrun, hm, htype, if_true, hres], hok⟩
        · rw [if_neg htype] at hhead
          have hfree : s.tree (newsession s.sessionId) = none := hhead
          have hok := htail.start hrun m hi hfree
          simp only [hrun] at hok
          exact ⟨_, none, by simp only [snc, hrun, hm, htype, if_false], hok⟩
  | issue op slot =>
    obtain ⟨s', hs', hok⟩ := h.issue op slot hclean
    exact ⟨s', none, by simp only [snc, hs']; rfl, hok⟩
  | finish =>
    obtain ⟨s', hs', hok⟩ := h.finish
    exact ⟨s', none, by simp only [snc, hs']; rfl, hok⟩
  | respond n msg sz => exact ⟨_, none, rfl, h.respond n msg sz⟩
  | fire n => exact ⟨_, none, rfl, h.fire n⟩
  | move n slot => exact ⟨_, none, rfl, h.move n slot⟩
  | timeout slot handle session => exact ⟨_, none, rfl, h.timeout slot hi session⟩
  | receive type session msg sz => exact ⟨_, none, rfl, h.receive hi⟩

/-- Only a response completes an operation, and it is one that was under way. -/
theorem Snc.Ok.completes_own {s s' : Snc} (h : s.Ok) {i : SncInput} {id : ℕ} {origin : Option ℕ}
    (hstep : snc s i = .ok (s', some (id, origin))) : origin = some id := by
  cases i with
  | deliver c =>
    cases hrun : s.running with
    | some c' => simp [snc, hrun] at hstep
    | none =>
      cases hm : s.mailbox with
      | nil => simp [snc, hrun, hm] at hstep
      | cons m rest =>
        by_cases htype : m.type = ptypeResponse
        · simp only [snc, hrun, hm, htype, if_true] at hstep
          have htail := h.tail hm
          simp only [hrun] at htail
          obtain ⟨rfl, c', x, op, hx, hxs, hop⟩ := resume_completes htail hstep
          refine h.own hx hop (m.session, m.origin) ?_ hxs.symm
          simp only [Snc.underWay, List.mem_append]
          refine Or.inr (Or.inr (List.mem_map.mpr ⟨m, List.mem_filter.mpr ⟨?_, ?_⟩, rfl⟩))
          · rw [hm]
            exact List.mem_cons_self
          · exact decide_eq_true htype
        · simp [snc, hrun, hm, htype] at hstep
  | issue op slot =>
    cases hs : s.issue op slot <;> simp [snc, hs, bind, Except.bind, pure, Except.pure] at hstep
  | finish =>
    cases hs : s.finish <;> simp [snc, hs, bind, Except.bind, pure, Except.pure] at hstep
  | respond n msg sz | fire n | move n slot | timeout slot handle session
    | receive type session msg sz => cases hstep

/-- **Requests and responses match in clean runs.** In every state of a run in which no operation is
issued while something with the coroutine's session is under way, no session is given out that a
coroutine has, and answered operations find their timers on the first list that is not empty, no
clean step faults or fails to come back, and whatever completes an operation next belongs to it: the
response to its own request, or its own timer. -/
theorem snc_matches {handle : ℕ} {s : Snc}
    (h : Reachable snc (fun s i ↦ i.Allowed s ∧ i.Clean s) (Snc.init handle) s) :
    (∀ i s' id origin, snc s i = .ok (s', some (id, origin)) → origin = some id) ∧
      ∀ i, i.Allowed s → i.Clean s → ∃ s' o, snc s i = .ok (s', o) := by
  -- `Ok` carries the run: it says which session each suspended coroutine waits for
  have hok : s.Ok := by
    refine h.invariant Snc.Ok (Snc.ok_init handle) ?_
    intro s i s' o hok hi hstep
    obtain ⟨s'', o'', hs'', hok'⟩ := snc_ok hok hi.1 hi.2
    rw [hstep, Except.ok.injEq, Prod.mk.injEq] at hs''
    exact hs''.1 ▸ hok'
  constructor
  · intro i s' id origin hstep
    exact hok.completes_own hstep
  · intro i hi hclean
    obtain ⟨s', o, hs', -⟩ := snc_ok hok hi hclean
    exact ⟨s', o, hs'⟩

/-- A coroutine of the service 5 calls by name with a timeout, is answered, and calls again. When
the answer comes, its timer is the second one on the first list that is not empty. -/
def cleanRun : Snc :=
  [.receive 0 0 none 0, .deliver 1, .timeout (.near 30) 6 1, .timeout (.near 31) 6 2,
    .issue (.callnameS true 100) (.level 0 1), .move 2 (.near 30), .respond 0 (some 7) 1,
    .deliver 2, .issue (.call true) (.near 0), .respond 0 (some 8) 1].foldl (after snc) (Snc.init 5)

theorem snc_matches_clean : (∃ s', snc cleanRun (.deliver 2) = .ok (s', some (1, some 1))) ∧
    cleanRun.timers.length = 2 ∧
    ∀ i s' id origin, snc cleanRun i = .ok (s', some (id, origin)) → origin = some id := by
  have hreach : Reachable snc (fun s i ↦ i.Allowed s ∧ i.Clean s) (Snc.init 5) cleanRun :=
    (Reachable.refl _ _ _).foldl (by decide +kernel)
  refine ⟨?_, by decide +kernel, (snc_matches hreach).1⟩
  obtain ⟨s', o, hstep⟩ := (snc_matches hreach).2 (.deliver 2) (by decide +kernel)
      (by decide +kernel)
  have ho : ((snc cleanRun (.deliver 2)).map Prod.snd).toOption = some (some (1, some 1)) := by
    decide +kernel
  rw [hstep] at ho ⊢
  cases ho
  exact ⟨s', rfl⟩

/-- A coroutine calls by name with a timeout, and the timeout comes first. It calls again, and now
the first call is answered. -/
def staleRun : Snc :=
  [.receive 0 0 none 0, .deliver 1, .issue (.callnameS true 100) (.near 10), .fire 0, .deliver 2,
    .issue (.call true) (.near 0), .respond 0 (some 7) 1].foldl (after snc) (Snc.init 5)

/-- **A late response completes the next call.** In `staleRun` the message at the head of the queue
is the response to operation 0, and it completes operation 1. -/
theorem snc_stale : Reachable snc (fun s i ↦ i.Allowed s) (Snc.init 5) staleRun ∧
    ∃ s', snc staleRun (.deliver 2) = .ok (s', some (1, some 0)) := by
  exact ⟨(Reachable.refl _ _ _).foldl (by decide +kernel), _, rfl⟩

/-- A call is answered while a timer of another service is on an earlier list. -/
def spinRun : Snc :=
  [.receive 0 0 none 0, .deliver 1, .timeout (.near 3) 6 1, .issue (.callnameS true 100) (.near 10),
    .respond 0 (some 7) 1].foldl (after snc) (Snc.init 5)

example : snc spinRun (.deliver 2) = .error .spins := rfl

end ZTask
