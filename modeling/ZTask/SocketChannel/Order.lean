import ZTask.SocketChannel.Places
import Mathlib.Data.List.DropRight

/-!
# Responses in the order of the requests

The requests of a connection that have not been answered are, in their order, the one whose response
the dispatcher reads and those in the queues (`Up`). So the `k`-th response of the connection goes
to its `k`-th request.

This rests on two things (`Orderly`). A part of a response that is not the last one must not come:
after it the dispatcher goes on to the next request, and the rest of the response is taken for the
next one's. And a connection must not be made before the earlier ones have come to rest:
`changehost` leaves a dispatcher that waits for a request behind, a second one reads then from the
same socket, and requests that are left in the queues get responses of a connection that they were
not written to.
-/

namespace ZTask

open Lib

/-- An event of the run of a channel. -/
abbrev ChannelEvent (Co Func : Type) :=
  Event (SocketChannel Co Func) (ChannelInput Co Func) (ChannelOutput Co Func)

section

variable {Co Func : Type}

/-! ## What is claimed -/

def ChannelInput.isConnect : ChannelInput Co Func → Bool
  | .connect => true
  | _ => false

/-- The part of a response that is read in this step. -/
def ChannelInput.part : ChannelInput Co Func → Option ResponsePart
  | .responds _ (.returns p) => some p
  | _ => none

def ChannelOutput.request : ChannelOutput Co Func → Option (IssuedRequest Co Func)
  | .issued q => some q
  | _ => none

def ChannelOutput.reception : ChannelOutput Co Func → Option (ℕ × Received)
  | .received session value => some (session, value)
  | _ => none

/-- The responses that the parts make up; a response ends with a part that is not followed by
another one. The first parts of the response are given. -/
def responses : List ResponsePart → List ResponsePart → List (List ResponsePart)
  | _, [] => []
  | first, p :: ps =>
    if p.more then responses (first ++ [p]) ps else (first ++ [p]) :: responses [] ps

/-- What the coroutine of a request gets from its response. -/
def delivered (response : List ResponsePart) : Received :=
  match response with
  | [p] => receive p.ok (.value p.data)
  | _ =>
    match response.getLast? with
    | none => .raisesSocketError
    | some p =>
      if p.ok.truthy then
        receive p.ok (.parts ((response.map ResponsePart.data).filter fun v ↦ !v.isNil))
      else receive p.ok (.value p.data)

namespace SocketChannel

/-- What has happened on the current connection. -/
def connection (tr : List (ChannelEvent Co Func)) : List (ChannelEvent Co Func) :=
  tr.rtakeWhile fun e ↦ !e.input.isConnect

/-- The requests written on the current connection. -/
def issued (tr : List (ChannelEvent Co Func)) : List (IssuedRequest Co Func) :=
  (connection tr).filterMap fun e ↦ e.output.request

/-- The parts of responses read from the current connection. -/
def parts (tr : List (ChannelEvent Co Func)) : List ResponsePart :=
  (connection tr).filterMap fun e ↦ e.input.part

/-- What the coroutines get, with their sessions. -/
def received (tr : List (ChannelEvent Co Func)) : List (ℕ × Received) :=
  tr.filterMap fun e ↦ e.output.reception

/-- The channel is at rest: the dispatchers of earlier connections have exited, no request is in the
queues, and nobody closes a socket. -/
structure AtRest (m : SocketChannel Co Func) : Prop where
  dispatcher : ∀ d, m.dispatcher d = .exited
  request : m.request = []
  thread : m.thread = []
  requester : ∀ co, m.requester co ≠ .failing ∧ ∀ thread, m.requester co ≠ .closing thread

/-- The steps of which nothing goes wrong. -/
def Orderly (m : SocketChannel Co Func) : ChannelInput Co Func → Prop
  | .connect => m.AtRest
  | .responds _ (.returns p) => p.more = false
  | _ => True

/-- The `k`-th request of the connection gets the `k`-th response, all of it and nothing else, and
the queues hold the requests whose responses have not been read. -/
structure InStep (tr : List (ChannelEvent Co Func)) (m : SocketChannel Co Func) : Prop where
  queues : ∃ reading queue, (issued tr).drop (responses [] (parts tr)).length = reading ++ queue ∧
    m.request = queue.map (fun q ↦ some q.func) ∧ m.thread = queue.map (fun q ↦ some q.co) ∧
    (∀ q ∈ reading ++ queue, m.requester q.co = .waiting q.session) ∧
    (∀ d func co, m.dispatcher d = .calling func co →
      ∃ q, reading = [q] ∧ func = some q.func ∧ co = q.co) ∧
    ((∀ d func co, m.dispatcher d ≠ .calling func co) → reading = [])
  answered : ∀ (k : ℕ) response, (responses [] (parts tr))[k]? = some response →
    ∃ q : IssuedRequest Co Func, (issued tr)[k]? = some q ∧
      ((q.session, delivered response) ∈ received tr ∨
      m.requester q.co = .woken q.session ∧
        receive (m.result q.co) (m.resultData q.co) = delivered response)
  own : ∀ (k : ℕ) (q : IssuedRequest Co Func) v, (issued tr)[k]? = some q →
    (q.session, v) ∈ received tr →
    ∃ response, (responses [] (parts tr))[k]? = some response ∧ v = delivered response
  once : ((received tr).map Prod.fst).Nodup

/-! ## The invariant -/

/-- Where the dispatcher of the connection is, with the request that it reads for and those in the
queues, and whether the next request wakes it. -/
def AtLine (reading queue : List (IssuedRequest Co Func)) (waits : Prop) :
    ChannelDispatcher Co Func → Prop
  | .looping | .woken => reading = []
  | .waiting => reading = [] ∧ queue = [] ∧ waits
  | .calling func co => ∃ q, reading = [q] ∧ func = some q.func ∧ co = q.co
  | .closing _ _ | .exited => False

/-- The invariant of a connection with these requests, parts of responses and results taken. -/
structure Up (is : List (IssuedRequest Co Func)) (ps : List ResponsePart) (rs : List (ℕ × Received))
    (m : SocketChannel Co Func) : Prop where
  made : m.connections ≠ 0
  alone : ∀ {d}, m.dispatcher d ≠ .exited → d + 1 = m.connections
  quiet : ∀ co, m.requester co ≠ .failing ∧ ∀ thread, m.requester co ≠ .closing thread
  line : ∃ reading queue, is.drop ps.length = reading ++ queue ∧
    m.request = queue.map (fun q ↦ some q.func) ∧ m.thread = queue.map (fun q ↦ some q.co) ∧
    (∀ q ∈ reading ++ queue, m.requester q.co = .waiting q.session) ∧
    ∀ d, d + 1 = m.connections → AtLine reading queue (m.waitResponse = some d) (m.dispatcher d)
  answered : ∀ {k : ℕ} {p}, ps[k]? = some p → ∃ q : IssuedRequest Co Func, is[k]? = some q ∧
    ((q.session, delivered [p]) ∈ rs ∨
      m.requester q.co = .woken q.session ∧ m.result q.co = p.ok ∧
        m.resultData q.co = .value p.data)
  own : ∀ {k : ℕ} {q : IssuedRequest Co Func} {v}, is[k]? = some q → (q.session, v) ∈ rs →
    ∃ p, ps[k]? = some p ∧ v = delivered [p]

namespace Up

variable {m : SocketChannel Co Func} {is : List (IssuedRequest Co Func)} {ps : List ResponsePart}
  {rs : List (ℕ × Received)} {co : Co} {d s : ℕ}

theorem length_le (h : Up is ps rs m) : ps.length ≤ is.length := by
  by_contra hlt
  obtain ⟨p, hp⟩ : ∃ p, ps[is.length]? = some p :=
    ⟨_, List.getElem?_eq_getElem (Nat.lt_of_not_le hlt)⟩
  obtain ⟨q, hq, -⟩ := h.answered hp
  rw [List.getElem?_eq_none (Nat.le_refl _)] at hq
  cases hq

/-- A connection begins. -/
theorem connect (hrest : m.AtRest) (dispatchThread : Option ℕ) :
    Up [] [] rs { m.setDispatcher m.connections .looping with
      sock := true, dispatchThread := dispatchThread, connections := m.connections + 1 } where
  made := Nat.succ_ne_zero _
  alone := by
    intro d hd
    by_contra hne
    have hne : d ≠ m.connections := fun heq ↦ hne (heq ▸ rfl)
    exact hd ((dispatcher_setDispatcher_of_ne hne).trans (hrest.dispatcher d))
  quiet := hrest.requester
  line := by
    refine ⟨[], [], rfl, hrest.request, hrest.thread, (fun q hq ↦ nomatch hq), fun d hd ↦ ?_⟩
    obtain rfl := Nat.succ.inj hd
    show AtLine [] [] _ ((m.setDispatcher m.connections .looping).dispatcher m.connections)
    rw [dispatcher_setDispatcher]
    rfl
  answered h := nomatch h
  own h := nomatch h

variable [DecidableEq Co]

/-- The dispatcher comes to the head of its loop. -/
theorem popResponse (h : Up is ps rs m) (hd : m.dispatcher d = .looping ∨ m.dispatcher d = .woken) :
    Up is ps rs (m.popResponse d) := by
  have hlast : d + 1 = m.connections := h.alone fun hexited ↦ by
    rw [hexited] at hd
    rcases hd with hd | hd <;> cases hd
  obtain ⟨reading, queue, hline, hrequest, hthread, hwaiting, hat⟩ := h.line
  obtain rfl : reading = [] := by
    have hat := hat d hlast
    rcases hd with hd | hd <;> (rw [hd] at hat; exact hat)
  have hother : ∀ {d' x}, d' ≠ d →
      (m.setDispatcher d x).dispatcher d' = m.dispatcher d' := fun hne ↦
    dispatcher_setDispatcher_of_ne hne
  have halone : ∀ {d' x}, (m.setDispatcher d x).dispatcher d' ≠ .exited →
      d' + 1 = m.connections := by
    intro d' x hd'
    by_cases hne : d' = d
    · exact hne ▸ hlast
    · rw [hother hne] at hd'
      exact h.alone hd'
  rw [SocketChannel.popResponse]
  dsimp only
  cases queue with
  | nil =>
    rw [hrequest, hthread]
    refine ⟨h.made, halone, h.quiet, ⟨[], [], hline, rfl, rfl, hwaiting, fun d' hd' ↦ ?_⟩,
      h.answered, h.own⟩
    obtain rfl := Nat.succ.inj (hd'.trans hlast.symm)
    show AtLine [] [] (some d' = some d') ((m.setDispatcher d' .waiting).dispatcher d')
    rw [dispatcher_setDispatcher]
    exact ⟨rfl, rfl, rfl⟩
  | cons q queue =>
    rw [hrequest, hthread]
    refine ⟨h.made, halone, h.quiet, ⟨[q], queue, hline, rfl, rfl, hwaiting, fun d' hd' ↦ ?_⟩,
      h.answered, h.own⟩
    obtain rfl := Nat.succ.inj (hd'.trans hlast.symm)
    show AtLine [q] queue _ ((m.setDispatcher d' (.calling (some q.func) q.co)).dispatcher d')
    rw [dispatcher_setDispatcher]
    exact ⟨q, rfl, rfl, rfl⟩

/-- A response comes; it is for the request that the dispatcher reads for. -/
theorem respond (h : Up is ps rs m) (hplaced : Placed m) {func : Option Func} {p : ResponsePart}
    (hd : m.dispatcher d = .calling func co) :
    Up is (ps ++ [p]) rs ((m.setDispatcher d .looping).answer co p.ok (.value p.data)) := by
  have hlast : d + 1 = m.connections := h.alone fun hexited ↦ by rw [hexited] at hd; cases hd
  obtain ⟨reading, queue, hline, hrequest, hthread, hwaiting, hat⟩ := h.line
  have hcalling := hat d hlast
  rw [hd] at hcalling
  obtain ⟨q, rfl, -, rfl⟩ := hcalling
  have hq : m.requester q.co = .waiting q.session := hwaiting q List.mem_cons_self
  -- the request that is being read is the next of those without a response
  have hnow : is[ps.length]? = some q := by
    rw [← List.head?_drop, hline]
    rfl
  let m' := (m.setDispatcher d .looping).answer q.co p.ok (.value p.data)
  have hwoken : m'.requester = Function.update m.requester q.co (.woken q.session) := by
    show ((m.setDispatcher d .looping).answer q.co p.ok (.value p.data)).requester = _
    rw [SocketChannel.answer, show (m.setDispatcher d .looping).requester q.co =
      .waiting q.session from hq]
    rfl
  have hother : ∀ {co'}, co' ≠ q.co → m'.requester co' = m.requester co' := fun hne ↦ by
    rw [hwoken, Function.update_of_ne hne]
  refine ⟨h.made, fun {d'} hd' ↦ ?_, fun co ↦ ?_,
    ⟨[], queue, ?_, hrequest, hthread, fun q' hq' ↦ ?_, fun d' hd' ↦ ?_⟩,
    fun {k p'} hp' ↦ ?_, fun {k q' v} hq' hv ↦ ?_⟩
  · by_cases hne : d' = d
    · exact hne ▸ hlast
    · exact h.alone fun hexited ↦ hd' ((dispatcher_setDispatcher_of_ne hne).trans hexited)
  · by_cases hne : co = q.co
    · show m'.requester co ≠ _ ∧ ∀ t, m'.requester co ≠ _
      rw [hwoken, hne, Function.update_self]
      exact ⟨(fun heq ↦ by cases heq), fun t heq ↦ by cases heq⟩
    · show m'.requester co ≠ _ ∧ ∀ t, m'.requester co ≠ _
      rw [hother hne]
      exact h.quiet co
  · rw [List.length_append, ← List.drop_drop, hline]
    rfl
  · have hne : q'.co ≠ q.co := fun heq ↦ by
      have hnot := (hplaced.serving (d := d) (by rw [hd]; rfl)).2
      exact hnot (hthread ▸ heq ▸ List.mem_map_of_mem hq')
    exact (hother hne).trans (hwaiting q' (List.mem_cons_of_mem _ hq'))
  · obtain rfl := Nat.succ.inj (hd'.trans hlast.symm)
    show AtLine [] queue _ ((m.setDispatcher d' .looping).dispatcher d')
    rw [dispatcher_setDispatcher]
    rfl
  · -- the responses that were there before, and the new one
    rcases Nat.lt_or_ge k ps.length with hk | hk
    · rw [List.getElem?_append_left hk] at hp'
      obtain ⟨q', hq', hor⟩ := h.answered hp'
      refine ⟨q', hq', hor.imp_right fun hpaused ↦ ?_⟩
      obtain ⟨hs, hresult, hdata⟩ := hpaused
      have hne : q'.co ≠ q.co := fun heq ↦ by
        rw [heq, hq] at hs
        cases hs
      exact ⟨(hother hne).trans hs, (Function.update_of_ne hne _ _).trans hresult,
        (Function.update_of_ne hne _ _).trans hdata⟩
    · rw [List.getElem?_append_right hk] at hp'
      obtain hk0 : k - ps.length = 0 := by
        by_contra hne
        rw [List.getElem?_eq_none (Nat.one_le_iff_ne_zero.mpr hne)] at hp'
        cases hp'
      rw [hk0] at hp'
      obtain rfl := Option.some.inj hp'
      obtain rfl : k = ps.length := Nat.le_antisymm (Nat.le_of_sub_eq_zero hk0) hk
      exact ⟨q, hnow, Or.inr ⟨hwoken ▸ Function.update_self .., Function.update_self ..,
        Function.update_self ..⟩⟩
  · obtain ⟨p', hp', hv⟩ := h.own hq' hv
    exact ⟨p', (List.getElem?_append_left (List.getElem?_eq_some_iff.mp hp').1).trans hp', hv⟩

/-- A request is at the end of the queues, and its coroutine waits; where the dispatcher is comes
besides. -/
theorem enter {m' : SocketChannel Co Func} {q : IssuedRequest Co Func}
    {reading queue : List (IssuedRequest Co Func)} (h : Up is ps rs m)
    (hsession : q.session = m.sessions)
    (hidle : m.requester q.co = .idle) (hlt : ∀ v, (m.sessions, v) ∉ rs)
    (hline : is.drop ps.length = reading ++ queue)
    (hwaiting : ∀ q ∈ reading ++ queue, m.requester q.co = .waiting q.session)
    (hrequest : m'.request = (queue ++ [q]).map fun q ↦ some q.func)
    (hthread : m'.thread = (queue ++ [q]).map fun q ↦ some q.co)
    (hrequester : m'.requester = (m.wait q.co).requester) (hresult : m'.result = m.result)
    (hdata : m'.resultData = m.resultData) (hmade : m'.connections = m.connections)
    (halone : ∀ {d}, m'.dispatcher d ≠ .exited → d + 1 = m'.connections)
    (hat : ∀ d, d + 1 = m'.connections →
      AtLine reading (queue ++ [q]) (m'.waitResponse = some d) (m'.dispatcher d)) :
    Up (is ++ [q]) ps rs m' := by
  have hself : m'.requester q.co = .waiting q.session := by
    rw [hrequester, hsession]
    exact requester_setRequester
  have hother : ∀ {co'}, co' ≠ q.co → m'.requester co' = m.requester co' := fun hne ↦
    hrequester ▸ requester_setRequester_of_ne hne
  refine ⟨hmade ▸ h.made, halone, fun co' ↦ ?_, ⟨reading, queue ++ [q], ?_, hrequest, hthread,
      fun q' hq' ↦ ?_, hat⟩,
    fun {k p} hp ↦ ?_, fun {k q' v} hq' hv ↦ ?_⟩
  · by_cases hne : co' = q.co
    · rw [hne, hself]
      exact ⟨(fun heq ↦ nomatch heq), fun t heq ↦ nomatch heq⟩
    · rw [hother hne]
      exact h.quiet co'
  · rw [List.drop_append_of_le_length h.length_le, hline, List.append_assoc]
  · rw [← List.append_assoc] at hq'
    rcases List.mem_append.mp hq' with hq' | hq'
    · have hne : q'.co ≠ q.co := fun heq ↦ by
        have hs := hwaiting q' hq'
        rw [heq, hidle] at hs
        cases hs
      exact (hother hne).trans (hwaiting q' hq')
    · rw [List.mem_singleton.mp hq']
      exact hself
  · obtain ⟨q', hq', hor⟩ := h.answered hp
    refine ⟨q', (List.getElem?_append_left (List.getElem?_eq_some_iff.mp hq').1).trans hq',
      hor.imp_right fun ⟨hs, hr⟩ ↦ ?_⟩
    have hne : q'.co ≠ q.co := fun heq ↦ by
      rw [heq, hidle] at hs
      cases hs
    exact ⟨(hother hne).trans hs, hresult ▸ hdata ▸ hr⟩
  · rcases Nat.lt_or_ge k is.length with hk | hk
    · rw [List.getElem?_append_left hk] at hq'
      exact h.own hq' hv
    · rw [List.getElem?_append_right hk] at hq'
      obtain rfl := List.mem_singleton.mp (List.mem_of_getElem? hq')
      exact absurd (hsession ▸ hv) (hlt v)

/-- A request is written. -/
theorem request {q : IssuedRequest Co Func} (h : Up is ps rs m) (hplaced : Placed m)
    (hsession : q.session = m.sessions) (hidle : m.requester q.co = .idle)
    (hlt : ∀ v, (m.sessions, v) ∉ rs) :
    Up (is ++ [q]) ps rs ((m.wait q.co).pushResponse (some q.func) (some q.co)) := by
  obtain ⟨reading, queue, hline, hrequest, hthread, hwaiting, hat⟩ := h.line
  have hrequest' : m.request ++ [some q.func] = (queue ++ [q]).map fun q ↦ some q.func := by
    rw [hrequest, List.map_append]
    rfl
  have hthread' : m.thread ++ [some q.co] = (queue ++ [q]).map fun q ↦ some q.co := by
    rw [hthread, List.map_append]
    rfl
  rw [SocketChannel.pushResponse]
  dsimp only
  split
  next d hwait =>
    -- the dispatcher waits, and is woken
    have hd : m.dispatcher d = .waiting := hplaced.waits hwait
    have hlast : d + 1 = m.connections := h.alone fun hexited ↦ by rw [hexited] at hd; cases hd
    have hwaits := hat d hlast
    rw [hd] at hwaits
    obtain ⟨rfl, rfl, -⟩ := hwaits
    rw [Placed.wakeupDispatcher_eq (m := { m.wait q.co with
      request := (m.wait q.co).request ++ [some q.func]
      thread := (m.wait q.co).thread ++ [some q.co] }) hd]
    refine h.enter hsession hidle hlt hline hwaiting hrequest' hthread' rfl rfl rfl rfl
      (fun {d'} hd' ↦ ?_) fun d' hd' ↦ ?_
    · by_cases hne : d' = d
      · exact hne ▸ hlast
      · exact h.alone fun hexited ↦ hd' ((dispatcher_setDispatcher_of_ne hne).trans hexited)
    · obtain rfl := Nat.succ.inj (hd'.trans hlast.symm)
      show AtLine [] _ _ ((m.setDispatcher d' .woken).dispatcher d')
      rw [dispatcher_setDispatcher]
      rfl
  next hwait =>
    refine h.enter hsession hidle hlt hline hwaiting hrequest' hthread' rfl rfl rfl rfl h.alone
      fun d hd ↦ ?_
    have hat := hat d hd
    show AtLine reading _ _ (m.dispatcher d)
    cases hx : m.dispatcher d with
    | waiting =>
      rw [hx] at hat
      exact absurd (hat.2.2.symm.trans hwait) (fun heq ↦ by cases heq)
    | looping | woken | calling | closing | exited =>
      rw [hx] at hat
      exact hat

/-- A coroutine takes its result. -/
theorem take (h : Up is ps rs m) (hplaced : Placed m) (hs : m.requester co = .woken s)
    (hnew : ∀ v, (s, v) ∉ rs) :
    Up is ps (rs ++ [(s, receive (m.result co) (m.resultData co))]) (m.take co) := by
  obtain ⟨reading, queue, hline, hrequest, hthread, hwaiting, hat⟩ := h.line
  have hother : ∀ {co'}, co' ≠ co → (m.take co).requester co' = m.requester co' := fun hne ↦
    Function.update_of_ne hne ..
  -- the request of this coroutine, if it is one of this connection, has been answered
  have hmine : ∀ {q : IssuedRequest Co Func}, (m.requester q.co).session = some q.session →
      q.session = s → q.co = co := fun hq hsession ↦
    hplaced.inj hq (by rw [hs, hsession]; rfl)
  refine ⟨h.made, h.alone, fun co' ↦ ?_,
    ⟨reading, queue, hline, hrequest, hthread, fun q hq ↦ ?_, hat⟩,
    fun {k p} hp ↦ ?_, fun {k q v} hq hv ↦ ?_⟩
  · by_cases hne : co' = co
    · rw [hne, show (m.take co).requester co = .idle from Function.update_self ..]
      exact ⟨(fun heq ↦ nomatch heq), fun t heq ↦ nomatch heq⟩
    · rw [hother hne]
      exact h.quiet co'
  · have hne : q.co ≠ co := fun heq ↦ by
      have hq := hwaiting q hq
      rw [heq, hs] at hq
      cases hq
    exact (hother hne).trans (hwaiting q hq)
  · obtain ⟨q, hq, hor⟩ := h.answered hp
    refine ⟨q, hq, ?_⟩
    rcases hor with hmem | ⟨hq, hresult, hdata⟩
    · exact Or.inl (List.mem_append_left _ hmem)
    · by_cases heq : q.co = co
      · refine Or.inl (List.mem_append_right _ (List.mem_singleton.mpr ?_))
        rw [heq, hs] at hq
        rw [← Requester.woken.inj hq, ← heq, hresult, hdata]
        rfl
      · exact Or.inr ⟨(hother heq).trans hq, (Function.update_of_ne heq _ _).trans hresult,
          (Function.update_of_ne heq _ _).trans hdata⟩
  · rcases List.mem_append.mp hv with hv | hv
    · exact h.own hq hv
    · obtain ⟨hsession, hv⟩ := Prod.mk.inj (List.mem_singleton.mp hv)
      rcases Nat.lt_or_ge k ps.length with hk | hk
      · have hp : ps[k]? = some ps[k] := List.getElem?_eq_getElem hk
        obtain ⟨q', hq', hor⟩ := h.answered hp
        obtain rfl := Option.some.inj (hq.symm.trans hq')
        rcases hor with hmem | ⟨hwoken, hresult, hdata⟩
        · exact absurd (hsession ▸ hmem) (hnew _)
        · refine ⟨_, hp, ?_⟩
          rw [hv, ← hmine (by rw [hwoken]; rfl) hsession, hresult, hdata]
          rfl
      · have hmem : q ∈ is.drop ps.length := by
          refine List.mem_of_getElem? (i := k - ps.length) ?_
          rw [List.getElem?_drop, Nat.add_sub_cancel' hk]
          exact hq
        have hwaits := hwaiting q (hline ▸ hmem)
        rw [hmine (by rw [hwaits]; rfl) hsession, hs] at hwaits
        cases hwaits

end Up

/-! ## What a step leaves as it is -/

/-- Nobody starts to wait or returns, and the connection is up as before. -/
structure Frame (m m' : SocketChannel Co Func) : Prop where
  sock : m'.sock = m.sock
  sessions : m'.sessions = m.sessions
  session : ∀ co, (m'.requester co).session = (m.requester co).session

namespace Frame

variable [DecidableEq Co] {m m' m'' : SocketChannel Co Func} {co : Co} {d : ℕ}

omit [DecidableEq Co] in
theorem refl (m : SocketChannel Co Func) : Frame m m := ⟨rfl, rfl, fun _ ↦ rfl⟩

omit [DecidableEq Co] in
theorem trans (h : Frame m m') (h' : Frame m' m'') : Frame m m'' :=
  ⟨h'.sock.trans h.sock, h'.sessions.trans h.sessions,
    fun co ↦ (h'.session co).trans (h.session co)⟩

theorem answer (m : SocketChannel Co Func) (co : Co) (ok : ResultOk) (data : ResultData) :
    Frame m (m.answer co ok data) := by
  refine ⟨rfl, rfl, fun co' ↦ ?_⟩
  rw [SocketChannel.answer]
  dsimp only
  cases hs : m.requester co with
  | waiting s =>
    dsimp only
    by_cases hne : co' = co
    · rw [hne, Function.update_self, hs]
      rfl
    · rw [Function.update_of_ne hne]
  | idle | woken | failing | closing => rfl

theorem wakeupAll (m : SocketChannel Co Func) (errmsg : LuaData) :
    Frame m (m.wakeupAll errmsg) := by
  have hthreads : ∀ (l : List (Option Co)) (m : SocketChannel Co Func),
      Frame m (wakeupThreads errmsg l m) := by
    intro l
    induction l with
    | nil => exact fun m ↦ refl m
    | cons a l ih => cases a with
      | none => exact fun m ↦ ih m
      | some co => exact fun m ↦ (answer m co _ _).trans (ih _)
  obtain ⟨hsock, hsessions, hsession⟩ := hthreads m.thread m
  exact ⟨hsock, hsessions, hsession⟩

theorem popResponse (m : SocketChannel Co Func) (d : ℕ) : Frame m (m.popResponse d) := by
  rw [SocketChannel.popResponse]
  dsimp only
  split
  · exact ⟨rfl, rfl, fun co ↦ rfl⟩
  · obtain ⟨hsock, hsessions, hsession⟩ :=
      wakeupAll { m with request := m.request.tail, thread := m.thread.tail }
        (.scalar (.string (ascii "channel_closed")))
    exact ⟨hsock, hsessions, hsession⟩
  · exact ⟨rfl, rfl, fun co ↦ rfl⟩

theorem dispatch (m : SocketChannel Co Func) (d : ℕ) : Frame m (m.dispatch d) := by
  rw [SocketChannel.dispatch]
  split
  · exact popResponse m d
  · exact ⟨rfl, rfl, fun co ↦ rfl⟩

theorem respond {p : ResponsePart} (h : m.respond co p = some m') : Frame m m' := by
  rw [SocketChannel.respond] at h
  split at h
  · obtain ⟨data, -, rfl⟩ := Option.map_eq_some_iff.mp h
    exact ⟨rfl, rfl, fun co ↦ rfl⟩
  · split at h
    · obtain ⟨data, -, rfl⟩ := Option.map_eq_some_iff.mp h
      exact answer m co _ _
    · exact Option.some.inj h ▸ answer m co _ _

omit [DecidableEq Co] in
theorem pushResponse (m : SocketChannel Co Func) (response : Option Func) (a : Option Co) :
    Frame m (m.pushResponse response a) := by
  rw [SocketChannel.pushResponse]
  dsimp only
  split
  · rw [wakeupDispatcher]
    split <;> exact ⟨rfl, rfl, fun co ↦ rfl⟩
  · exact ⟨rfl, rfl, fun co ↦ rfl⟩

end Frame

/-! ## Every step -/

section

variable [DecidableEq Co] {m m' : SocketChannel Co Func} {i : ChannelInput Co Func}
  {o : ChannelOutput Co Func} {is : List (IssuedRequest Co Func)} {ps : List ResponsePart}
  {rs : List (ℕ × Received)}

/-- A step writes a request, or gives a coroutine its result, or does neither; then it comes to a
connection that is up only if it connects. -/
theorem step_cases (hm : socketChannel m i = .ok (m', o)) :
    (∃ q, i = .request q.co q.func true ∧ o = .issued q ∧ m.sock = true ∧ m.requester q.co = .idle ∧
      q.session = m.sessions ∧ m' = (m.wait q.co).pushResponse (some q.func) (some q.co)) ∨
    (∃ co s, i = .resume co ∧ o = .received s (receive (m.result co) (m.resultData co)) ∧
      m.requester co = .woken s ∧ m' = m.take co) ∨
    o.request = none ∧ o.reception = none ∧ m'.sessions = m.sessions ∧
      (∀ co, (m'.requester co).session = (m.requester co).session) ∧
      (m'.sock = true → m.sock = true ∨ i = .connect) := by
  have hquiet : ∀ {m' : SocketChannel Co Func}, Frame m m' → m'.sessions = m.sessions ∧
      (∀ co, (m'.requester co).session = (m.requester co).session) ∧
      (m'.sock = true → m.sock = true ∨ i = .connect) :=
    fun h ↦ ⟨h.sessions, h.session, fun hsock ↦ Or.inl (h.sock ▸ hsock)⟩
  -- a coroutine that has no session has none afterwards
  have hsession : ∀ {co} {r : Requester}, (m.requester co).session = none → r.session = none →
      ∀ co', ((m.setRequester co r).requester co').session = (m.requester co').session := by
    intro co r hnone hnone' co'
    by_cases hne : co' = co
    · rw [hne, requester_setRequester, hnone', hnone]
    · rw [requester_setRequester_of_ne hne]
  cases i with
  | connect =>
    dsimp only [socketChannel] at hm
    split at hm <;> cases hm
    exact .inr (.inr ⟨rfl, rfl, rfl, fun co ↦ rfl, fun _ ↦ .inr rfl⟩)
  | reopen =>
    dsimp only [socketChannel] at hm
    split at hm <;> cases hm
    exact .inr (.inr ⟨rfl, rfl, hquiet ⟨rfl, rfl, fun co ↦ rfl⟩⟩)
  | request co func written =>
    dsimp only [socketChannel] at hm
    by_cases hcond : m.sock = true ∧ m.requester co = .idle
    · rw [if_pos hcond] at hm
      cases written with
      | true =>
        cases hm
        exact .inl ⟨⟨m.sessions, co, func⟩, rfl, rfl, hcond.1, hcond.2, rfl, rfl⟩
      | false =>
        cases hm
        exact .inr (.inr ⟨rfl, rfl, rfl, hsession (by rw [hcond.2]; rfl) rfl, fun h ↦ nomatch h⟩)
    · rw [if_neg hcond] at hm
      cases hm
  | disconnect =>
    cases hm
    exact .inr (.inr ⟨rfl, rfl, rfl, fun co ↦ rfl, fun h ↦ nomatch h⟩)
  | close co =>
    dsimp only [socketChannel] at hm
    by_cases hidle : m.requester co = .idle
    · rw [if_pos hidle] at hm
      split at hm <;> cases hm
      · exact .inr (.inr ⟨rfl, rfl, hquiet (.refl m)⟩)
      · exact .inr (.inr ⟨rfl, rfl, rfl, hsession (by rw [hidle]; rfl) rfl, fun h ↦ nomatch h⟩)
    · rw [if_neg hidle] at hm
      cases hm
  | closed co =>
    dsimp only [socketChannel] at hm
    cases hreq : m.requester co with
    | failing =>
      rw [hreq] at hm
      cases hm
      have hidle : Frame m (m.setRequester co .idle) :=
        ⟨rfl, rfl, hsession (by rw [hreq]; rfl) rfl⟩
      exact .inr (.inr ⟨rfl, rfl, hquiet (hidle.trans (.wakeupAll _ _))⟩)
    | closing thread =>
      rw [hreq] at hm
      have hidle : Frame m (m.setRequester co .idle) :=
        ⟨rfl, rfl, hsession (by rw [hreq]; rfl) rfl⟩
      dsimp only at hm
      split at hm <;> cases hm
      · exact .inr (.inr ⟨rfl, rfl, hquiet (hidle.trans (.pushResponse _ _ _))⟩)
      · exact .inr (.inr ⟨rfl, rfl, hquiet hidle⟩)
    | idle | waiting | woken =>
      rw [hreq] at hm
      cases hm
  | resume co =>
    dsimp only [socketChannel] at hm
    cases hreq : m.requester co with
    | woken s =>
      rw [hreq] at hm
      cases hm
      exact .inr (.inl ⟨co, s, rfl, rfl, hreq, rfl⟩)
    | idle | waiting | failing | closing =>
      rw [hreq] at hm
      cases hm
  | run d =>
    dsimp only [socketChannel] at hm
    split at hm <;> cases hm
    · exact .inr (.inr ⟨rfl, rfl, hquiet (.dispatch m d)⟩)
    · exact .inr (.inr ⟨rfl, rfl, hquiet (.popResponse m d)⟩)
  | responds d outcome =>
    cases outcome with
    | returns p =>
      dsimp only [socketChannel] at hm
      split at hm
      next func co hd =>
        have hset : Frame m (m.setDispatcher d .looping) := ⟨rfl, rfl, fun co ↦ rfl⟩
        cases hrespond : (m.setDispatcher d .looping).respond co p with
        | some m₁ =>
          rw [hrespond] at hm
          cases hm
          exact .inr (.inr ⟨rfl, rfl,
            hquiet ((hset.trans (.respond hrespond)).trans (.dispatch m₁ d))⟩)
        | none =>
          rw [hrespond] at hm
          cases hm
      next => cases hm
    | error err =>
      dsimp only [socketChannel] at hm
      split at hm <;> cases hm
      exact .inr (.inr ⟨rfl, rfl, rfl, fun co ↦ rfl, fun h ↦ nomatch h⟩)
  | dispatcherClosed d =>
    dsimp only [socketChannel] at hm
    split at hm <;> cases hm
    have hset : Frame m (m.setDispatcher d .looping) := ⟨rfl, rfl, fun co ↦ rfl⟩
    exact .inr (.inr ⟨rfl, rfl,
      hquiet (((hset.trans (.answer _ _ _ _)).trans (.wakeupAll _ _)).trans (.dispatch _ _))⟩)

/-- **A connection that stays up** keeps the invariant; a step adds the part of a response that it
reads. -/
theorem Up.step (h : Up is ps rs m) (hplaced : Placed m) (hsock : m.sock = true) (hC : Orderly m i)
    (hm : socketChannel m i = .ok (m', o)) (hup : m'.sock = true) (hconnect : i.isConnect = false)
    (hrequest : o.request = none) (hreception : o.reception = none) :
    Up is (ps ++ i.part.toList) rs m' := by
  cases i with
  | connect => cases hconnect
  | reopen =>
    dsimp only [socketChannel] at hm
    split at hm <;> cases hm
    rw [show (ChannelInput.reopen : ChannelInput Co Func).part.toList = [] from rfl,
      List.append_nil]
    exact ⟨h.made, h.alone, h.quiet, h.line, h.answered, h.own⟩
  | request co func written =>
    dsimp only [socketChannel] at hm
    split at hm
    · split at hm <;> cases hm
      · cases hrequest
      · cases hup
    · cases hm
  | disconnect =>
    cases hm
    cases hup
  | close co =>
    dsimp only [socketChannel] at hm
    split at hm
    · split at hm <;> cases hm
      · rw [show (ChannelInput.close co : ChannelInput Co Func).part.toList = [] from rfl,
          List.append_nil]
        exact h
      · cases hup
    · cases hm
  | closed co =>
    dsimp only [socketChannel] at hm
    cases hreq : m.requester co with
    | failing => exact absurd hreq (h.quiet co).1
    | closing thread => exact absurd hreq ((h.quiet co).2 thread)
    | idle | waiting | woken =>
      rw [hreq] at hm
      cases hm
  | resume co =>
    dsimp only [socketChannel] at hm
    split at hm <;> cases hm
    cases hreception
  | run d =>
    rw [show (ChannelInput.run d : ChannelInput Co Func).part.toList = [] from rfl, List.append_nil]
    dsimp only [socketChannel] at hm
    cases hd : m.dispatcher d with
    | looping =>
      rw [hd] at hm
      cases hm
      rw [SocketChannel.dispatch, if_pos hsock]
      exact h.popResponse (.inl hd)
    | woken =>
      rw [hd] at hm
      cases hm
      exact h.popResponse (.inr hd)
    | waiting | calling | closing | exited =>
      rw [hd] at hm
      cases hm
  | responds d outcome =>
    cases outcome with
    | returns p =>
      dsimp only [socketChannel] at hm
      split at hm
      next func co hd =>
        have hserves : (m.dispatcher d).serves = some co := by rw [hd]; rfl
        obtain ⟨s, hs⟩ := (hplaced.serving hserves).1
        have hset : Placed (m.setDispatcher d .looping) :=
          hplaced.setDispatcher (h.alone (d := d) (fun hexited ↦ by rw [hexited] at hd; cases hd) ▸
            Nat.lt_succ_self d) (fun hwait ↦ by rw [hplaced.waits hwait] at hd; cases hd) rfl
        rw [hset.respond_eq hC hs] at hm
        cases hm
        have hlooping : ((m.setDispatcher d .looping).answer co p.ok (.value p.data)).dispatcher d =
            .looping := dispatcher_setDispatcher
        rw [SocketChannel.dispatch, if_pos (show ((m.setDispatcher d .looping).answer co p.ok
          (.value p.data)).sock = true from hsock)]
        exact (h.respond hplaced hd).popResponse (.inl hlooping)
      next => cases hm
    | error err =>
      dsimp only [socketChannel] at hm
      split at hm <;> cases hm
      cases hup
  | dispatcherClosed d =>
    dsimp only [socketChannel] at hm
    split at hm
    next co errmsg hd =>
      -- while the connection is up the dispatcher of the last connection is not closing
      obtain ⟨reading, queue, -, -, -, -, hat⟩ := h.line
      have hclosing := hat d (h.alone fun hexited ↦ by rw [hexited] at hd; cases hd)
      rw [hd] at hclosing
      exact hclosing.elim
    next => cases hm

/-- The sessions of the results taken are over. -/
structure Once (rs : List (ℕ × Received)) (m : SocketChannel Co Func) : Prop where
  nodup : (rs.map Prod.fst).Nodup
  lt : ∀ {s v}, (s, v) ∈ rs → s < m.sessions
  pending : ∀ {s v co}, (s, v) ∈ rs → (m.requester co).session ≠ some s

/-- No result is taken twice. -/
theorem Once.step (h : Once rs m) (hplaced : Placed m) (hm : socketChannel m i = .ok (m', o)) :
    Once (rs ++ o.reception.toList) m' := by
  rcases step_cases hm with ⟨q, -, rfl, -, hidle, hsession, rfl⟩ | ⟨co, s, -, rfl, hs, rfl⟩ |
    ⟨-, hnone, hsessions, hsession, -⟩
  · obtain ⟨-, hsessions, hpush⟩ := Frame.pushResponse (m.wait q.co) (some q.func) (some q.co)
    rw [show rs ++ (ChannelOutput.issued q).reception.toList = rs from List.append_nil rs]
    refine ⟨h.nodup, fun hv ↦ ?_, fun {s v co} hv heq ↦ ?_⟩
    · rw [hsessions]
      exact Nat.lt_succ_of_lt (h.lt hv)
    · rw [hpush] at heq
      by_cases hne : co = q.co
      · rw [hne, show (m.wait q.co).requester q.co =
          .waiting m.sessions from requester_setRequester]
          at heq
        exact absurd (h.lt hv) (Option.some.inj heq ▸ Nat.lt_irrefl _)
      · rw [show (m.wait q.co).requester co =
          m.requester co from requester_setRequester_of_ne hne] at heq
        exact h.pending hv heq
  · have hsession : (m.requester co).session = some s := by rw [hs]; rfl
    have hnew : ∀ v, (s, v) ∉ rs := fun v hv ↦ h.pending hv hsession
    have hmem : ∀ {s' v'}, (s', v') ∈ rs ++ [(s, receive (m.result co) (m.resultData co))] →
        (s', v') ∈ rs ∨ s' = s := fun hv ↦ (List.mem_append.mp hv).imp_right fun hv ↦
      (Prod.mk.inj (List.mem_singleton.mp hv)).1
    refine ⟨?_, fun hv ↦ ?_, fun {s' v co'} hv heq ↦ ?_⟩
    · show ((rs ++ [(s, receive (m.result co) (m.resultData co))]).map Prod.fst).Nodup
      rw [List.map_append]
      refine List.nodup_append.mpr ⟨h.nodup, List.nodup_singleton s, fun a ha b hb hab ↦ ?_⟩
      obtain ⟨⟨s', v⟩, hv, rfl⟩ := List.mem_map.mp ha
      have hb : b = s := List.mem_singleton.mp hb
      rw [hb] at hab
      exact hnew v (hab ▸ hv)
    · rcases hmem hv with hv | rfl
      · exact h.lt hv
      · exact hplaced.lt hsession
    · by_cases hne : co' = co
      · rw [hne, show (m.take co).requester co = .idle from Function.update_self ..] at heq
        cases heq
      · rw [show (m.take co).requester co' =
          m.requester co' from Function.update_of_ne hne ..] at heq
        rcases hmem hv with hv | rfl
        · exact h.pending hv heq
        · exact hne (hplaced.inj heq hsession)
  · rw [hnone, Option.toList_none, List.append_nil]
    exact ⟨h.nodup, fun hv ↦ hsessions ▸ h.lt hv, fun hv heq ↦ h.pending hv (hsession _ ▸ heq)⟩

/-! ## Every run -/

variable {tr : List (ChannelEvent Co Func)} {e : ChannelEvent Co Func}

omit [DecidableEq Co] in
theorem issued_connect (he : e.input.isConnect = true) :
    issued (tr ++ [e]) = [] ∧ parts (tr ++ [e]) = [] := by
  have hnil : connection (tr ++ [e]) = [] := List.rtakeWhile_concat_neg _ _ _ (by simp [he])
  rw [issued, parts, hnil]
  exact ⟨rfl, rfl⟩

omit [DecidableEq Co] in
theorem issued_concat (he : e.input.isConnect = false) :
    issued (tr ++ [e]) = issued tr ++ e.output.request.toList ∧
      parts (tr ++ [e]) = parts tr ++ e.input.part.toList := by
  have hconcat : connection (tr ++ [e]) = connection tr ++ [e] :=
    List.rtakeWhile_concat_pos _ _ _ (by simp [he])
  rw [issued, parts, hconcat, List.filterMap_append, List.filterMap_append]
  constructor
  · cases hr : e.output.request <;> simp [issued, hr]
  · cases hp : e.input.part <;> simp [parts, hp]

omit [DecidableEq Co] in
theorem received_concat : received (tr ++ [e]) = received tr ++ e.output.reception.toList := by
  rw [received, List.filterMap_append]
  cases hr : e.output.reception <;> simp [received, hr]

/-- The invariant of every run. -/
structure Sound (tr : List (ChannelEvent Co Func)) (m : SocketChannel Co Func) : Prop where
  placed : Placed m
  once : Once (received tr) m
  up : m.sock = true → Up (issued tr) (parts tr) (received tr) m

omit [DecidableEq Co] in
theorem Sound.init : Sound [] (init : SocketChannel Co Func) where
  placed := .init
  once := ⟨.nil, (fun h ↦ nomatch h), fun h ↦ nomatch h⟩
  up h := nomatch h

theorem Sound.step (h : Sound tr m) (hC : Orderly m i) (hm : socketChannel m i = .ok (m', o)) :
    Sound (tr ++ [⟨m, i, o, m'⟩]) m' := by
  have hmore : ∀ d p, i = .responds d (.returns p) → p.more = false := by
    rintro d p rfl
    exact hC
  refine ⟨h.placed.step hmore hm, received_concat ▸ h.once.step h.placed hm, fun hup ↦ ?_⟩
  rw [received_concat]
  by_cases hconnect : i.isConnect = true
  · obtain ⟨hissued, hparts⟩ := @issued_connect _ _ tr ⟨m, i, o, m'⟩ hconnect
    rw [hissued, hparts]
    cases i with
    | connect =>
      dsimp only [socketChannel] at hm
      split at hm <;> cases hm
      exact .connect hC _
    | reopen | request | disconnect | close | closed | resume | run | responds | dispatcherClosed =>
      cases hconnect
  · obtain ⟨hissued, hparts⟩ := @issued_concat _ _ tr ⟨m, i, o, m'⟩
      (Bool.eq_false_iff.mpr hconnect)
    rw [hissued, hparts]
    rcases step_cases hm with ⟨q, rfl, rfl, hsock, hidle, hsession, rfl⟩ | ⟨co, s, rfl,
        rfl, hs, rfl⟩ |
      ⟨hrequest, hreception, -, -, hwas⟩
    · show Up (issued tr ++ [q]) (parts tr ++ []) (received tr ++ []) _
      rw [List.append_nil, List.append_nil]
      exact (h.up hsock).request h.placed hsession hidle
        fun v hv ↦ Nat.lt_irrefl _ (h.once.lt hv)
    · show Up (issued tr ++ []) (parts tr ++ [])
        (received tr ++ [(s, receive (m.result co) (m.resultData co))]) _
      rw [List.append_nil, List.append_nil]
      exact (h.up hup).take h.placed hs fun v hv ↦ h.once.pending hv (by rw [hs]; rfl)
    · have hsock : m.sock = true := (hwas hup).resolve_right fun heq ↦ hconnect (heq ▸ rfl)
      dsimp only
      rw [hrequest, hreception, Option.toList_none, Option.toList_none, List.append_nil,
        List.append_nil]
      exact (h.up hsock).step h.placed hsock hC hm hup (Bool.eq_false_iff.mpr hconnect)
        hrequest hreception

omit [DecidableEq Co] in
theorem responses_eq {ps : List ResponsePart} (h : ∀ p ∈ ps, p.more = false) :
    responses [] ps = ps.map fun p ↦ [p] := by
  induction ps with
  | nil => rfl
  | cons p ps ih =>
    rw [responses, h p List.mem_cons_self, if_neg (by decide), List.nil_append,
      ih fun p hp ↦ h p (List.mem_cons_of_mem _ hp), List.map_cons]

omit [DecidableEq Co] in
theorem more_of_parts (hC : Meets Orderly tr) : ∀ p ∈ parts tr, p.more = false := by
  intro p hp
  obtain ⟨e, he, hpart⟩ := List.mem_filterMap.mp hp
  have hcond := hC e ((List.rtakeWhile_suffix _ _).subset he)
  generalize e.input = i at hcond hpart
  cases i with
  | responds d outcome => cases outcome with
    | returns p' => exact Option.some.inj hpart ▸ hcond
    | error err => cases hpart
  | connect | reopen | request | disconnect | close | closed | resume | run | dispatcherClosed =>
    cases hpart

end

end SocketChannel

/-- **Order mode.** In every run of steps of which nothing goes wrong, as long as the connection is
up, its `k`-th request gets the `k`-th response that is read, and the queues are in step. -/
theorem socketChannel_inStep [DecidableEq Co] {tr : List (ChannelEvent Co Func)}
    {m : SocketChannel Co Func} (hrun : Run socketChannel SocketChannel.init tr m)
    (hC : Meets SocketChannel.Orderly tr) (hup : m.sock = true) : SocketChannel.InStep tr m := by
  have hsound : SocketChannel.Sound tr m := by
    refine hrun.ledger SocketChannel.Sound SocketChannel.Sound.init ?_ hC
    rintro tr m i m' o - h hC hm
    exact h.step hC hm
  have h := hsound.up hup
  have hresponses := SocketChannel.responses_eq (SocketChannel.more_of_parts hC)
  refine ⟨?_, fun k response hk ↦ ?_, fun k q v hq hv ↦ ?_, hsound.once.nodup⟩
  · obtain ⟨reading, queue, hline, hrequest, hthread, hwaiting, hat⟩ := h.line
    -- the dispatcher of the last connection is the only one that is not exited
    obtain ⟨last, hlast⟩ := Nat.exists_eq_succ_of_ne_zero h.made
    refine ⟨reading, queue, ?_, hrequest, hthread, hwaiting, fun d func co hd ↦ ?_, fun hnot ↦ ?_⟩
    · rw [hresponses, List.length_map]
      exact hline
    · have hcalling := hat d (h.alone fun hexited ↦ by rw [hexited] at hd; cases hd)
      rw [hd] at hcalling
      exact hcalling
    · have hcases := hat last hlast.symm
      cases hx : m.dispatcher last with
      | looping | woken => rw [hx] at hcases; exact hcases
      | waiting => rw [hx] at hcases; exact hcases.1
      | calling func co => exact absurd hx (hnot last func co)
      | closing | exited => rw [hx] at hcases; exact hcases.elim
  · rw [hresponses, List.getElem?_map] at hk
    obtain ⟨p, hp, rfl⟩ := Option.map_eq_some_iff.mp hk
    obtain ⟨q, hq, hor⟩ := h.answered hp
    refine ⟨q, hq, hor.imp_right fun ⟨hs, hresult, hdata⟩ ↦ ⟨hs, ?_⟩⟩
    rw [hresult, hdata]
    rfl
  · obtain ⟨p, hp, hv⟩ := h.own hq hv
    exact ⟨[p], by rw [hresponses, List.getElem?_map, hp]; rfl, hv⟩

/-- A number, as the only part of a response or with others to come. -/
def numberPart (i : Int64) (padding : Bool) : ResponsePart := ⟨.yes, .scalar (.integer i), padding⟩

/-- A connection with two requests, up to where their responses have been read. -/
def twoRequests (padding : Bool) : List (ChannelInput ℕ ℕ) :=
  [.connect, .run 0, .request 1 10 true, .request 2 20 true, .run 0,
    .responds 0 (.returns (numberPart 5 padding)), .responds 0 (.returns (numberPart 6 false))]

/-- Two requests, with a response each. -/
theorem socketChannel_inStep_two : ∃ tr, ∃ m : SocketChannel ℕ ℕ,
    Run socketChannel SocketChannel.init tr m ∧ SocketChannel.InStep tr m ∧
      SocketChannel.received tr = [(1, .returns (.value (.scalar (.integer 6)))),
        (0, .returns (.value (.scalar (.integer 5))))] := by
  have halong : Along socketChannel SocketChannel.Orderly SocketChannel.init
      (twoRequests false ++ [.resume 2, .resume 1]) :=
    ⟨⟨fun _ ↦ rfl, rfl, rfl, fun _ ↦ ⟨(fun h ↦ nomatch h), fun _ h ↦ nomatch h⟩⟩,
      trivial, trivial, trivial, trivial, rfl, rfl, trivial, trivial, trivial⟩
  have hrun := @Run.of_exec _ _ _ _ socketChannel (twoRequests false ++ [.resume 2, .resume 1])
    SocketChannel.init _ _ rfl
  exact ⟨_, _, hrun, socketChannel_inStep hrun (exec_meets rfl halong) rfl, rfl⟩

/-- **The claim fails** if the first response has two parts: the second part goes to the second
request, whose own response has not come. -/
theorem not_socketChannel_inStep : ∃ tr, ∃ m : SocketChannel ℕ ℕ,
    Run socketChannel SocketChannel.init tr m ∧ m.sock = true ∧
      responses [] (SocketChannel.parts tr) = [[numberPart 5 true, numberPart 6 false]] ∧
      SocketChannel.received tr = [(1, .returns (.value (.scalar (.integer 6))))] ∧
      ¬ SocketChannel.InStep tr m := by
  have hrun := @Run.of_exec _ _ _ _ socketChannel (twoRequests true ++ [.resume 2])
    SocketChannel.init _ _ rfl
  refine ⟨_, _, hrun, rfl, rfl, rfl, fun h ↦ ?_⟩
  obtain ⟨response, hresponse, -⟩ :=
    h.own 1 ⟨1, 2, 20⟩ (.returns (.value (.scalar (.integer 6)))) rfl
    (List.mem_singleton.mpr rfl)
  cases hresponse

end

end ZTask
