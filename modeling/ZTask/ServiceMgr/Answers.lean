import ZTask.ServiceMgr.Launch

/-!
# One launch for all requests of a name

The slot of a name goes from nothing to a list of coroutines to the result of its function. The
ledger says what each of the three means for the requests made so far: a request is in the list, or
runs the function, until the function has returned, and has got the function's result after that.

## One coroutine at a time

The service is one Lua state, so a step is what a coroutine does up to where it waits: a request is
made, the function of a name is called, the function returns or raises an error. Calls of several
functions may be under way at once, and requests come in between.

## The ledger

`Entry` says for one name what its slot means for the requests made for it so far; other names are
not touched (`Entry.frame`, `Ledger.entry_other`). The ways a request can go and the end of a
function each have a lemma, and `Ledger.step` collects them. That no assertion fails is a part of
the induction (`no_fault`), as is that `wakeup` is called for coroutines that wait.
-/

namespace ZTask

open Lib

namespace ServiceMgr

/-- What an entry of `service` means for the requests `callers` of its name. -/
inductive Entry (m : ServiceMgr) (effects : List ServiceEffect) (callers : List ℕ)
    (name : List UInt8) : ServiceSlot → Prop
  | absent : callers = [] → calls effects name = 0 → Entry m effects callers name .absent
  | pending {launch : Bool} {s : List ℕ} : calls effects name = (if launch then 1 else 0) →
      s.Nodup → (∀ co ∈ s, m.threads co = some (.waitfor name)) →
      (∀ co ∈ callers, answers effects co = [] ∧
        (co ∈ s ∨ m.threads co = some (.request name))) →
      Entry m effects callers name (.pending launch s)
  | launched {result : LaunchResult} : calls effects name = 1 →
      (∀ co ∈ callers, answers effects co = [result] ∧ m.threads co = none) →
      Entry m effects callers name (.launched result)

/-- The requests of a run and the state it leads to. -/
structure Ledger (tr : List ServiceEvent) (m : ServiceMgr) : Prop where
  entry : ∀ name, Entry m (effects tr) (callers tr name) name (m.service name)
  /-- Coroutines are numbered as requests arrive. -/
  new : ∀ co, m.requests ≤ co → m.threads co = none ∧ answers (effects tr) co = [] ∧
    ∀ name, co ∉ callers tr name
  running : ∀ {co name}, m.threads co = some (.request name) →
    answers (effects tr) co = [] ∧ ∃ s, m.service name = .pending true s
  /-- One coroutine runs the function of a name. -/
  one : ∀ {co co' name}, m.threads co = some (.request name) →
    m.threads co' = some (.request name) → co = co'
  finished : ∀ e ∈ tr, ∀ co name result, e.input = .finish co result →
    e.pre.threads co = some (.request name) → m.service name = .launched result

theorem ledger_init : Ledger [] init where
  entry _ := .absent rfl rfl
  new _ _ := ⟨rfl, rfl, fun _ h ↦ (nomatch h)⟩
  running h := (nomatch h)
  one h := (nomatch h)
  finished _ h := (nomatch h)

variable {m m' : ServiceMgr} {tr : List ServiceEvent} {name : List UInt8} {co : ℕ} {func : Bool}
  {result : LaunchResult} {out : List ServiceEffect}

/-- An entry is not about other coroutines, nor about the calls for other names. -/
theorem Entry.frame {l l' : List ServiceEffect} {cs : List ℕ} {slot : ServiceSlot}
    (h : Entry m l cs name slot) (hcalls : calls l' name = calls l name)
    (hanswers : ∀ co ∈ cs, answers l' co = answers l co)
    (hthreads : ∀ co, co ∈ cs ∨ m.threads co = some (.waitfor name) →
      m'.threads co = m.threads co) : Entry m' l' cs name slot := by
  cases h with
  | absent hcs hzero => exact .absent hcs (hcalls.trans hzero)
  | pending hlaunch hnodup hwait hall =>
    refine .pending (hcalls.trans hlaunch) hnodup (fun co hco ↦ ?_) fun co hco ↦ ?_
    · rw [hthreads co (.inr (hwait co hco))]
      exact hwait co hco
    · obtain ⟨hnone, hs | hrequest⟩ := hall co hco
      · exact ⟨(hanswers co hco).trans hnone, .inl hs⟩
      · refine ⟨(hanswers co hco).trans hnone, .inr ?_⟩
        rw [hthreads co (.inl hco)]
        exact hrequest
  | launched hone hall =>
    refine .launched (hcalls.trans hone) fun co hco ↦ ?_
    rw [hthreads co (.inl hco)]
    exact ⟨(hanswers co hco).trans (hall co hco).1, (hall co hco).2⟩

theorem Entry.thread {l : List ServiceEffect} {cs : List ℕ} {slot : ServiceSlot}
    (h : Entry m l cs name slot) (hco : co ∈ cs) : m.threads co = none ∨
      m.threads co = some (.waitfor name) ∨ m.threads co = some (.request name) := by
  cases h with
  | absent hcs _ =>
    rw [hcs] at hco
    cases hco
  | pending _ _ hwait hall => exact .inr ((hall co hco).2.imp_left (hwait co))
  | launched _ hall => exact .inl (hall co hco).2

theorem Entry.listed {l : List ServiceEffect} {cs : List ℕ} {launch : Bool} {s : List ℕ}
    (h : Entry m l cs name (m.service name)) (hlisted : m.Listed name launch s) :
    Entry m l cs name (.pending launch s) := by
  rcases hlisted with hslot | ⟨hslot, rfl, rfl⟩
  · exact hslot ▸ h
  · rw [hslot] at h
    cases h with
    | absent hcs hzero =>
      exact .pending hzero .nil (fun co hco ↦ (nomatch hco)) fun co hco ↦ by
        rw [hcs] at hco
        cases hco

theorem Listed.not_launched {launch : Bool} {s : List ℕ} (h : m.Listed name launch s) :
    m.service name ≠ .launched result := by
  rcases h with hslot | ⟨hslot, -⟩ <;> rw [hslot] <;> exact fun heq ↦ (nomatch heq)

/-! ## A request -/

/-- A request leaves the names alone that it is not for. -/
theorem Ledger.entry_other (h : Ledger tr m) {name' : List UInt8}
    (hservice : m'.service name' = m.service name')
    (hthreads : ∀ co, co ≠ m.requests → m'.threads co = m.threads co)
    (hcalls : calls out name' = 0) (hanswers : ∀ co, co ≠ m.requests → answers out co = []) :
    Entry m' (effects tr ++ out) (callers tr name') name' (m'.service name') := by
  obtain ⟨hnone, -, hcallers⟩ := h.new m.requests (Nat.le_refl _)
  rw [hservice]
  refine (h.entry name').frame ?_ (fun co hco ↦ ?_) fun co hco ↦ ?_
  · rw [calls_append, hcalls, Nat.add_zero]
  · have hne : co ≠ m.requests := fun heq ↦ hcallers name' (heq ▸ hco)
    rw [answers_append, hanswers co hne, List.append_nil]
  · refine hthreads co fun heq ↦ ?_
    subst heq
    rcases hco with hco | hco
    · exact hcallers name' hco
    · rw [hnone] at hco
      cases hco

/-- The coroutines to come are new. -/
theorem Ledger.new_request (h : Ledger tr m) (hrequests : m'.requests = m.requests + 1)
    (hthreads : ∀ co, co ≠ m.requests → m'.threads co = m.threads co)
    (hanswers : ∀ co, co ≠ m.requests → answers out co = []) :
    ∀ co, m'.requests ≤ co → m'.threads co = none ∧
      answers (effects (tr ++ [⟨m, .request name func, out, m'⟩])) co = [] ∧
        ∀ name', co ∉ callers (tr ++ [⟨m, .request name func, out, m'⟩]) name' := by
  intro co hco
  rw [hrequests] at hco
  have hne : co ≠ m.requests := by omega
  obtain ⟨hnone, hunanswered, hcallers⟩ := h.new co (by omega)
  refine ⟨(hthreads co hne).trans hnone, ?_, fun name' hmem ↦ ?_⟩
  · rw [effects_concat, answers_append, hunanswered, hanswers co hne, List.nil_append]
  · rw [callers_request, List.mem_append] at hmem
    rcases hmem with hmem | hmem
    · exact hcallers name' hmem
    · split at hmem
      · exact hne (List.mem_singleton.mp hmem)
      · cases hmem

theorem Ledger.finished_request (h : Ledger tr m)
    (hservice : ∀ name' result, m.service name' = .launched result →
      m'.service name' = .launched result) :
    ∀ e ∈ tr ++ [⟨m, .request name func, out, m'⟩], ∀ co name' result,
      e.input = .finish co result → e.pre.threads co = some (.request name') →
        m'.service name' = .launched result := by
  intro e he co name' result hinput hthread
  rcases List.mem_append.mp he with he | he
  · exact hservice name' result (h.finished e he co name' result hinput hthread)
  · rw [List.mem_singleton.mp he] at hinput
    cases hinput

private theorem answers_ret_ne {co' : ℕ} (hne : co' ≠ co) : answers [.ret co result] co' = [] := by
  simp [answers, Ne.symm hne]

private theorem answers_ret_self : answers [.ret co result] co = [result] := by simp [answers]

/-- A request for a name whose function has returned. -/
theorem Ledger.known (h : Ledger tr m) (hslot : m.service name = .launched result)
    (hm' : m' = { m with requests := m.requests + 1 }) :
    Ledger (tr ++ [⟨m, .request name func, [.ret m.requests result], m'⟩]) m' := by
  subst hm'
  have hanswers : ∀ co, co ≠ m.requests → answers [.ret m.requests result] co = [] :=
    fun co hne ↦ answers_ret_ne hne
  obtain ⟨hnone, hunanswered, hcallers⟩ := h.new m.requests (Nat.le_refl _)
  refine ⟨fun name' ↦ ?_, h.new_request rfl (fun _ _ ↦ rfl) hanswers, fun {co name'} hco ↦ ?_,
    h.one, h.finished_request fun _ _ ↦ id⟩
  · rw [effects_concat, callers_request]
    by_cases hname : name = name'
    · subst hname
      rw [if_pos rfl]
      have hentry := h.entry name
      rw [hslot] at hentry
      change Entry _ _ _ name (m.service name)
      rw [hslot]
      cases hentry with
      | launched hone hall =>
        refine .launched ?_ fun co hco ↦ ?_
        · rw [calls_append, hone]
          rfl
        · rw [answers_append]
          rcases List.mem_append.mp hco with hco | hco
          · have hne : co ≠ m.requests := fun heq ↦ hcallers name (heq ▸ hco)
            rw [(hall co hco).1, hanswers co hne, List.append_nil]
            exact ⟨rfl, (hall co hco).2⟩
          · rw [List.mem_singleton.mp hco, hunanswered, answers_ret_self, List.nil_append]
            exact ⟨rfl, hnone⟩
    · rw [if_neg hname, List.append_nil]
      exact h.entry_other rfl (fun _ _ ↦ rfl) rfl hanswers
  · obtain ⟨hempty, hs⟩ := h.running hco
    refine ⟨?_, hs⟩
    have hne : co ≠ m.requests := fun heq ↦ by
      rw [heq, hnone] at hco
      cases hco
    rw [effects_concat, answers_append, hempty, hanswers co hne, List.append_nil]

/-- What a request that joins a list leaves in the ledger, whether it calls the function or waits.
-/
theorem Ledger.entry_join (h : Ledger tr m) {thread : ServiceThread} {launch launch' : Bool}
    {s s' : List ℕ} (hlisted : m.Listed name launch s)
    (hm' : m' = { m with
      service := Function.update m.service name (.pending launch' s')
      threads := Function.update m.threads m.requests (some thread)
      requests := m.requests + 1 })
    (hcalls : calls out name + (if launch then 1 else 0) = if launch' then 1 else 0)
    (hother : ∀ name', name ≠ name' → calls out name' = 0) (hanswers : ∀ co, answers out co = [])
    (hnodup : s.Nodup → m.requests ∉ s → s'.Nodup) (hsub : ∀ co ∈ s, co ∈ s')
    (hwait : ∀ co ∈ s', co ∈ s ∨ co = m.requests ∧ thread = .waitfor name)
    (hnew : m.requests ∈ s' ∨ thread = .request name) (name' : List UInt8) :
    Entry m' (effects tr ++ out) (callers tr name' ++ if name = name' then [m.requests] else [])
      name' (m'.service name') := by
  obtain ⟨hnone, hunanswered, hcallers⟩ := h.new m.requests (Nat.le_refl _)
  have hthreads : ∀ co, co ≠ m.requests → m'.threads co = m.threads co := by
    intro co hne
    rw [hm']
    exact Function.update_of_ne hne _ _
  -- the entry that the request joins, and all the others
  by_cases hname : name = name'
  · subst hname
    have hself : m'.threads m.requests = some thread := by
      rw [hm']
      exact Function.update_self _ _ _
    have hslot : m'.service name = .pending launch' s' := by
      rw [hm']
      exact Function.update_self _ _ _
    rw [if_pos rfl, hslot]
    cases (h.entry name).listed hlisted with
    | pending hone hs hwaiting hall =>
      -- the thread of the request is new, so it does not wait yet
      have hfresh : ∀ co ∈ s, co ≠ m.requests := by
        rintro co hco rfl
        have hthread := hwaiting _ hco
        rw [hnone] at hthread
        cases hthread
      refine .pending ?_ (hnodup hs fun hmem ↦ hfresh _ hmem rfl) (fun co hco ↦ ?_) fun co hco ↦ ?_
      · rw [calls_append, hone, Nat.add_comm]
        exact hcalls
      · rcases hwait co hco with hco | ⟨rfl, rfl⟩
        · rw [hthreads co (hfresh co hco)]
          exact hwaiting co hco
        · exact hself
      · rw [answers_append, hanswers, List.append_nil]
        rcases List.mem_append.mp hco with hco | hco
        · have hne : co ≠ m.requests := fun heq ↦ hcallers name (heq ▸ hco)
          rw [hthreads co hne]
          exact ⟨(hall co hco).1, (hall co hco).2.imp_left (hsub co)⟩
        · rw [List.mem_singleton.mp hco]
          refine ⟨hunanswered, hnew.imp_right fun hthread ↦ ?_⟩
          rw [hself, hthread]
  · rw [if_neg hname, List.append_nil]
    refine h.entry_other ?_ hthreads (hother name' hname) fun co _ ↦ hanswers co
    rw [hm']
    exact Function.update_of_ne (Ne.symm hname) _ _

/-- A request that calls the function. -/
theorem Ledger.called (h : Ledger tr m) {s : List ℕ} (hlisted : m.Listed name false s)
    (hm' : m' = { m with
      service := Function.update m.service name (.pending true s)
      threads := Function.update m.threads m.requests (some (.request name))
      requests := m.requests + 1 }) :
    Ledger (tr ++ [⟨m, .request name func, [.call name], m'⟩]) m' := by
  have hthreads : ∀ co, co ≠ m.requests → m'.threads co = m.threads co := by
    intro co hne
    rw [hm']
    exact Function.update_of_ne hne _ _
  have hself : m'.threads m.requests = some (.request name) := by
    rw [hm']
    exact Function.update_self _ _ _
  have hservice : ∀ name', name' ≠ name → m'.service name' = m.service name' := by
    intro name' hne
    rw [hm']
    exact Function.update_of_ne hne _ _
  -- no coroutine runs the function yet
  have hidle : ∀ co, m.threads co ≠ some (.request name) := by
    intro co hco
    obtain ⟨-, s', hs'⟩ := h.running hco
    rcases hlisted with hslot | ⟨hslot, -⟩ <;> rw [hs'] at hslot <;> cases hslot
  obtain ⟨-, hunanswered, -⟩ := h.new m.requests (Nat.le_refl _)
  refine ⟨fun name' ↦ ?_, h.new_request (by rw [hm']) hthreads fun _ _ ↦ rfl,
    fun {co name'} hco ↦ ?_, fun {co co' name'} hco hco' ↦ ?_,
    h.finished_request fun name' result hslot ↦ ?_⟩
  · rw [effects_concat, callers_request]
    refine h.entry_join hlisted hm' (by simp [calls]) (fun name' hne ↦ by simp [calls, hne])
      (fun _ ↦ rfl) (fun hs _ ↦ hs) (fun _ hco ↦ hco) (fun _ hco ↦ .inl hco) (.inr rfl) name'
  · rw [effects_concat, answers_append]
    by_cases hnew : co = m.requests
    · subst hnew
      rw [hself] at hco
      cases hco
      refine ⟨by rw [hunanswered]; rfl, s, ?_⟩
      rw [hm']
      exact Function.update_self _ _ _
    · rw [hthreads co hnew] at hco
      obtain ⟨hnone, s', hs'⟩ := h.running hco
      refine ⟨by rw [hnone]; rfl, s', ?_⟩
      rw [hservice name' fun heq ↦ hidle co (heq ▸ hco)]
      exact hs'
  · by_cases hnew : co = m.requests <;> by_cases hnew' : co' = m.requests
    · rw [hnew, hnew']
    · rw [hnew, hself] at hco
      cases hco
      rw [hthreads co' hnew'] at hco'
      exact (hidle co' hco').elim
    · rw [hnew', hself] at hco'
      cases hco'
      rw [hthreads co hnew] at hco
      exact (hidle co hco).elim
    · rw [hthreads co hnew] at hco
      rw [hthreads co' hnew'] at hco'
      exact h.one hco hco'
  · rw [hservice name' fun heq ↦ hlisted.not_launched (heq ▸ hslot)]
    exact hslot

/-- A request that waits. -/
theorem Ledger.waiting (h : Ledger tr m) {launch : Bool} {s : List ℕ}
    (hlisted : m.Listed name launch s)
    (hm' : m' = { m with
      service := Function.update m.service name (.pending launch (s ++ [m.requests]))
      threads := Function.update m.threads m.requests (some (.waitfor name))
      requests := m.requests + 1 }) :
    Ledger (tr ++ [⟨m, .request name func, [], m'⟩]) m' := by
  have hthreads : ∀ co, co ≠ m.requests → m'.threads co = m.threads co := by
    intro co hne
    rw [hm']
    exact Function.update_of_ne hne _ _
  have hservice : ∀ name', name' ≠ name → m'.service name' = m.service name' := by
    intro name' hne
    rw [hm']
    exact Function.update_of_ne hne _ _
  have hold : ∀ {co name'}, m'.threads co = some (.request name') →
      m.threads co = some (.request name') := by
    intro co name' hco
    by_cases hnew : co = m.requests
    · rw [hnew, hm'] at hco
      cases (Function.update_self m.requests _ m.threads).symm.trans hco
    · rw [← hthreads co hnew]
      exact hco
  refine ⟨fun name' ↦ ?_, h.new_request (by rw [hm']) hthreads fun _ _ ↦ rfl,
    fun {co name'} hco ↦ ?_, fun hco hco' ↦ h.one (hold hco) (hold hco'),
    h.finished_request fun name' result hslot ↦ ?_⟩
  · rw [effects_concat, callers_request]
    refine h.entry_join hlisted hm' (Nat.zero_add _) (fun _ _ ↦ rfl) (fun _ ↦ rfl)
      (fun hs hnew ↦ ?_) (fun co hco ↦ List.mem_append_left _ hco) (fun co hco ↦ ?_)
      (.inl (List.mem_append_right _ List.mem_cons_self)) name'
    · refine List.nodup_append.mpr ⟨hs, List.pairwise_singleton _ _, fun co hco co' hco' heq ↦ ?_⟩
      rw [List.mem_singleton.mp hco'] at heq
      exact hnew (heq ▸ hco)
    · rcases List.mem_append.mp hco with hco | hco
      · exact .inl hco
      · exact .inr ⟨List.mem_singleton.mp hco, rfl⟩
  · obtain ⟨hnone, s', hs'⟩ := h.running (hold hco)
    rw [effects_concat, List.append_nil]
    by_cases hname : name' = name
    · subst hname
      rcases hlisted with hslot | ⟨hslot, -⟩ <;> rw [hs'] at hslot <;> cases hslot
      refine ⟨hnone, s ++ [m.requests], ?_⟩
      rw [hm']
      exact Function.update_self _ _ _
    · rw [hservice name' hname]
      exact ⟨hnone, s', hs'⟩
  · rw [hservice name' fun heq ↦ hlisted.not_launched (heq ▸ hslot)]
    exact hslot

/-! ## The end of the function -/

private theorem answers_finish {s : List ℕ} (hs : s.Nodup) (hco : co ∉ s) (co' : ℕ) :
    answers (.ret co result :: s.map fun co ↦ .ret co result) co' =
      if co' = co ∨ co' ∈ s then [result] else [] := by
  rw [← List.singleton_append, answers_append, answers_map_ret s hs]
  by_cases hsame : co' = co
  · subst hsame
    rw [answers_ret_self, if_neg hco, if_pos (.inl rfl), List.append_nil]
  · rw [answers_ret_ne hsame, List.nil_append]
    simp only [hsame, false_or]

/-- The state when a function has returned. -/
def ended (m : ServiceMgr) (co : ℕ) (name : List UInt8) (s : List ℕ) (result : LaunchResult) :
    ServiceMgr :=
  { m with
    service := Function.update m.service name (.launched result)
    threads := fun co' ↦ if co' = co ∨ co' ∈ s then none else m.threads co' }

private theorem request_eq {s : List ℕ} (hslot : m.service name = .pending true s) (hs : s.Nodup)
    (hco : co ∉ s) (hwait : ∀ co ∈ s, m.threads co = some (.waitfor name)) :
    m.request co name result = .ok (m.ended co name s result,
      .ret co result :: s.map fun co ↦ .ret co result) := by
  let m₁ : ServiceMgr := { m with
    service := Function.update m.service name (.launched result)
    threads := Function.update m.threads co none }
  have hservice : m₁.service name = .launched result := Function.update_self _ _ _
  have hqueue : ∀ co' ∈ s, m₁.threads co' = some (.waitfor name) := by
    intro co' hco'
    have hne : co' ≠ co := fun heq ↦ hco (heq ▸ hco')
    exact (Function.update_of_ne hne _ _).trans (hwait co' hco')
  have hwoken := dispatchWakeup_launched s hs hservice hqueue
  have hthreads : (fun co' ↦ if co' ∈ s then none else m₁.threads co') =
      (m.ended co name s result).threads := by
    funext co'
    by_cases hsame : co' = co
    · subst hsame
      simp [m₁, ended, hco]
    · simp [m₁, ended, hsame]
  rw [request, hslot]
  simp only
  rw [hwoken, hthreads]
  rfl

/-- The function returns: everyone in the list is answered. -/
theorem Ledger.finish (h : Ledger tr m) (hco : m.threads co = some (.request name)) :
    ∃ out m', m.request co name result = .ok (m', out) ∧
      Ledger (tr ++ [⟨m, .finish co result, out, m'⟩]) m' := by
  obtain ⟨hunanswered, s, hslot⟩ := h.running hco
  have hentry := h.entry name
  rw [hslot] at hentry
  cases hentry with
  | pending hone hs hwait hall =>
    have hnot : co ∉ s := fun hmem ↦ by
      have hthread := hwait co hmem
      rw [hco] at hthread
      cases hthread
    refine ⟨_, _, request_eq hslot hs hnot hwait, ?_⟩
    -- the coroutines of other names are not the ones that go on
    have hother : ∀ {co' name'}, name' ≠ name → m.threads co' = none ∨
        m.threads co' = some (.waitfor name') ∨ m.threads co' = some (.request name') →
          ¬(co' = co ∨ co' ∈ s) := by
      rintro co' name' hne hthread (rfl | hmem)
      · rw [hco] at hthread
        rcases hthread with hthread | hthread | hthread <;> cases hthread
        exact hne rfl
      · rw [hwait co' hmem] at hthread
        rcases hthread with hthread | hthread | hthread <;> cases hthread
        exact hne rfl
    have hrunning : ∀ {co' name'}, (m.ended co name s result).threads co' =
        some (.request name') → name' ≠ name ∧ m.threads co' = some (.request name') := by
      intro co' name' hco'
      rw [ended] at hco'
      dsimp only at hco'
      split at hco'
      next => cases hco'
      next hstays =>
        refine ⟨fun heq ↦ hstays (.inl ?_), hco'⟩
        exact h.one (heq ▸ hco') hco
    refine ⟨fun name' ↦ ?_, fun co' hco' ↦ ?_, fun {co' name'} hco' ↦ ?_,
      fun hco' hco'' ↦ h.one (hrunning hco').2 (hrunning hco'').2,
      fun e he co' name' result' hinput hthread ↦ ?_⟩
    · rw [effects_concat, callers_finish]
      by_cases hname : name' = name
      · subst hname
        rw [ended]
        dsimp only
        rw [Function.update_self]
        refine .launched ?_ fun co' hco' ↦ ?_
        · have hzero : calls (.ret co result :: s.map fun co ↦ .ret co result) name' = 0 :=
            calls_map_ret (co :: s) result name'
          rw [calls_append, hone, hzero]
          rfl
        · have hin : co' = co ∨ co' ∈ s := by
            rcases (hall co' hco').2 with hmem | hrequest
            · exact .inr hmem
            · exact .inl (h.one hrequest hco)
          rw [answers_append, (hall co' hco').1, answers_finish hs hnot, if_pos hin]
          exact ⟨rfl, if_pos hin⟩
      · have hslot' : (m.ended co name s result).service name' = m.service name' :=
          Function.update_of_ne hname _ _
        rw [hslot']
        refine (h.entry name').frame ?_ (fun co' hco' ↦ ?_) fun co' hco' ↦ ?_
        · have hzero : calls (.ret co result :: s.map fun co ↦ .ret co result) name' = 0 :=
            calls_map_ret (co :: s) result name'
          rw [calls_append, hzero, Nat.add_zero]
        · rw [answers_append, answers_finish hs hnot,
            if_neg (hother hname ((h.entry name').thread hco')), List.append_nil]
        · refine if_neg (hother hname ?_)
          rcases hco' with hco' | hco'
          · exact (h.entry name').thread hco'
          · exact .inr (.inl hco')
    · obtain ⟨hnone, hempty, hcallers⟩ := h.new co' hco'
      have hout : ¬(co' = co ∨ co' ∈ s) := by
        rintro (rfl | hmem)
        · rw [hco] at hnone
          cases hnone
        · rw [hwait co' hmem] at hnone
          cases hnone
      refine ⟨(if_neg hout).trans hnone, ?_, fun name' ↦ ?_⟩
      · rw [effects_concat, answers_append, hempty, answers_finish hs hnot, if_neg hout,
          List.nil_append]
      · rw [callers_finish]
        exact hcallers name'
    · obtain ⟨hname, hold⟩ := hrunning hco'
      obtain ⟨hempty, s', hs'⟩ := h.running hold
      rw [effects_concat, answers_append, hempty, answers_finish hs hnot,
        if_neg (hother hname (.inr (.inr hold)))]
      exact ⟨rfl, s', (Function.update_of_ne hname _ _).trans hs'⟩
    · rcases List.mem_append.mp he with he | he
      · have hdone := h.finished e he co' name' result' hinput hthread
        have hname : name' ≠ name := fun heq ↦ by
          rw [heq, hslot] at hdone
          cases hdone
        exact (Function.update_of_ne hname _ _).trans hdone
      · rw [List.mem_singleton.mp he] at hinput hthread
        cases hinput
        rw [hco] at hthread
        cases hthread
        exact Function.update_self _ _ _

/-! ## Runs -/

/-- **A step** keeps the ledger. -/
theorem Ledger.step (h : Ledger tr m) {input : ServiceInput}
    (hstep : serviceMgr m input = .ok (m', out)) : Ledger (tr ++ [⟨m, input, out, m'⟩]) m' := by
  cases input with
  | request name func =>
    have hcases := waitfor_cases { m with requests := m.requests + 1 } m.requests name func
    rw [serviceMgr] at hstep
    have heq := Except.ok.inj hstep
    rw [heq] at hcases
    dsimp only at hcases
    cases hcases with
    | known hslot => exact h.known hslot rfl
    | called hlisted => exact h.called hlisted rfl
    | waiting hlisted => exact h.waiting hlisted rfl
  | finish co result =>
    rw [serviceMgr] at hstep
    split at hstep
    next name hco =>
      obtain ⟨out', m₁, hrequest, hledger⟩ := @Ledger.finish m tr name co result h hco
      rw [hrequest] at hstep
      cases hstep
      exact hledger
    next => cases hstep

theorem ledger (hrun : Run serviceMgr init tr m) : Ledger tr m :=
  hrun.ledger (C := fun _ _ ↦ True) Ledger ledger_init (fun _ h _ hm ↦ h.step hm)
    fun _ _ ↦ trivial

/-- No assertion fails, and only coroutines are woken that wait. -/
theorem no_fault (hrun : Run serviceMgr init tr m) (input : ServiceInput) :
    serviceMgr m input ≠ .error .assertion ∧ serviceMgr m input ≠ .error .awake := by
  cases input with
  | request name func =>
    rw [serviceMgr]
    exact ⟨fun h ↦ (nomatch h), fun h ↦ (nomatch h)⟩
  | finish co result =>
    rw [serviceMgr]
    split
    next name hco =>
      obtain ⟨out', m₁, hrequest, -⟩ := @Ledger.finish m tr name co result (ledger hrun) hco
      rw [hrequest]
      exact ⟨fun h ↦ (nomatch h), fun h ↦ (nomatch h)⟩
    next => exact ⟨fun h ↦ (nomatch h), fun h ↦ (nomatch h)⟩

/-- **The function of a name is called at most once**; and when it has returned, every request for
the name, whether it came earlier or later, has been answered once, with the result of the function,
and no coroutine is in a list. -/
theorem launched_once (hrun : Run serviceMgr init tr m) :
    (∀ name, calls (effects tr) name ≤ 1) ∧
      ∀ e ∈ tr, ∀ co name result, e.input = .finish co result →
        e.pre.threads co = some (.request name) →
          (∀ co' ∈ callers tr name, answers (effects tr) co' = [result]) ∧
            ∀ launch s, m.service name ≠ .pending launch s := by
  have h := ledger hrun
  constructor
  · intro name
    -- the entry of the table knows how often the service was launched: not at all, or once
    cases hentry : m.service name with
    | absent =>
      have hname := h.entry name
      rw [hentry] at hname
      cases hname with
      | absent _ hzero => omega
    | pending launch s =>
      have hname := h.entry name
      rw [hentry] at hname
      cases hname with
      | pending hone _ _ _ => rw [hone]; split <;> omega
    | launched result =>
      have hname := h.entry name
      rw [hentry] at hname
      cases hname with
      | launched hone _ => omega
  · intro e he co name result hinput hthread
    have hslot := h.finished e he co name result hinput hthread
    have hname := h.entry name
    rw [hslot] at hname
    cases hname with
    | launched _ hall =>
      refine ⟨fun co' hco' ↦ (hall co' hco').1, fun launch s heq ↦ ?_⟩
      rw [hslot] at heq
      cases heq

/-- A service is asked for, launched, asked for again, and asked for once more when it is there. -/
theorem launched_once_four : ∃ tr m, Run serviceMgr init tr m ∧
    callers tr [100] = [0, 1, 2, 3] ∧
      ∀ co ∈ callers tr [100], answers (effects tr) co = [.ok 7] := by
  have hpasses : Passes serviceMgr init
      [.request [100] false, .request [100] true, .request [100] true, .finish 1 (.ok 7),
        .request [100] false]
      fun tr _ ↦ callers tr [100] = [0, 1, 2, 3] ∧ ∃ e ∈ tr, e.input = .finish 1 (.ok 7) ∧
        e.pre.threads 1 = some (.request [100]) := by
    decide +kernel
  obtain ⟨tr, m, hrun, hcallers, e, he, hinput, hthread⟩ := Run.of_passes hpasses
  exact ⟨tr, m, hrun, hcallers,
    ((launched_once hrun).2 e he 1 [100] (.ok 7) hinput hthread).1⟩

end ServiceMgr

end ZTask
