import ZTask.SocketChannel.Channel
import Mathlib.Data.List.Nodup

/-!
# Where requests wait

A coroutine that waits for its response is in the queue of threads, or with one dispatcher, which
has taken it from there, and in no two of these places; its entry in `__result_data` is still empty
(`Placed`). So whatever answers it does so once, and its session is of no other coroutine.

This holds over any number of connections and with any number of dispatchers, as long as no part of
a response is followed by another one: the entry of a coroutine that gets a first part is not empty.
-/

namespace ZTask

open Lib

/-- The session of a request that has not returned yet. -/
def Requester.session : Requester → Option ℕ
  | .waiting session | .woken session => some session
  | .idle | .failing | .closing _ => none

/-- The coroutine whose request a dispatcher has taken. -/
def ChannelDispatcher.serves {Co Func : Type} : ChannelDispatcher Co Func → Option Co
  | .calling _ co | .closing co _ => some co
  | .looping | .waiting | .woken | .exited => none

namespace SocketChannel

variable {Co Func : Type}

/-- Every coroutine that waits does so in one place, with nothing in `__result_data`. -/
structure Placed (m : SocketChannel Co Func) : Prop where
  waits : ∀ {d}, m.waitResponse = some d → m.dispatcher d = .waiting
  past : ∀ {d}, m.dispatcher d ≠ .exited → d < m.connections
  nodup : (m.thread.filterMap id).Nodup
  queued : ∀ {co}, some co ∈ m.thread → ∃ s, m.requester co = .waiting s
  serving : ∀ {d co}, (m.dispatcher d).serves = some co →
    (∃ s, m.requester co = .waiting s) ∧ some co ∉ m.thread
  apart : ∀ {d d' co}, (m.dispatcher d).serves = some co →
    (m.dispatcher d').serves = some co → d = d'
  data : ∀ {co}, (∀ s, m.requester co ≠ .woken s) → m.resultData co = .nil
  lt : ∀ {co s}, (m.requester co).session = some s → s < m.sessions
  inj : ∀ {co co' s}, (m.requester co).session = some s →
    (m.requester co').session = some s → co = co'

namespace Placed

variable {m : SocketChannel Co Func} {d : ℕ} {co : Co} {s : ℕ} {x : ChannelDispatcher Co Func}
  {ok : ResultOk} {data : ResultData}

theorem init : Placed (init : SocketChannel Co Func) where
  waits h := nomatch h
  past h := absurd rfl h
  nodup := .nil
  queued h := nomatch h
  serving h := nomatch h
  apart h := nomatch h
  data _ := rfl
  lt h := nomatch h
  inj h := nomatch h

private theorem setSock (h : Placed m) (sock closed : Bool) (dispatchThread : Option ℕ) :
    Placed { m with sock := sock, closed := closed, dispatchThread := dispatchThread } :=
  ⟨h.waits, h.past, h.nodup, h.queued, h.serving, h.apart, h.data, h.lt, h.inj⟩

/-! ## Dispatchers -/

private theorem serves_setDispatcher {d' : ℕ} (hx : x.serves = none)
    (h : ((m.setDispatcher d x).dispatcher d').serves = some co) :
    d' ≠ d ∧ (m.dispatcher d').serves = some co := by
  by_cases hne : d' = d
  · rw [hne, dispatcher_setDispatcher, hx] at h
    cases h
  · rw [dispatcher_setDispatcher_of_ne hne] at h
    exact ⟨hne, h⟩

/-- A dispatcher that exists goes on, with no other request than before. -/
theorem setDispatcher_of_serves (h : Placed m) (hd : d < m.connections)
    (hwait : m.waitResponse ≠ some d)
    (hx : ∀ co, x.serves = some co → (m.dispatcher d).serves = some co) :
    Placed (m.setDispatcher d x) := by
  have hserves : ∀ {d' co}, ((m.setDispatcher d x).dispatcher d').serves = some co →
      (m.dispatcher d').serves = some co := by
    intro d' co hs
    by_cases hne : d' = d
    · rw [hne, dispatcher_setDispatcher] at hs
      exact hne ▸ hx co hs
    · rw [dispatcher_setDispatcher_of_ne hne] at hs
      exact hs
  refine ⟨fun {d'} hd' ↦ ?_, fun {d'} hd' ↦ ?_, h.nodup, h.queued, fun hs ↦ h.serving (hserves hs),
    fun hs hs' ↦ h.apart (hserves hs) (hserves hs'), h.data, h.lt, h.inj⟩
  · have hne : d' ≠ d := fun heq ↦ hwait (heq ▸ hd')
    exact (dispatcher_setDispatcher_of_ne hne).trans (h.waits hd')
  · by_cases hne : d' = d
    · exact hne ▸ hd
    · rw [dispatcher_setDispatcher_of_ne hne] at hd'
      exact h.past hd'

theorem setDispatcher (h : Placed m) (hd : d < m.connections) (hwait : m.waitResponse ≠ some d)
    (hx : x.serves = none) : Placed (m.setDispatcher d x) :=
  h.setDispatcher_of_serves hd hwait fun co hco ↦ by rw [hx] at hco; cases hco

/-! ## Answers -/

variable [DecidableEq Co]

/-- A coroutine that is in no place any more is answered. -/
theorem answer (h : Placed m) (hs : m.requester co = .waiting s) (hthread : some co ∉ m.thread)
    (hserves : ∀ d, (m.dispatcher d).serves ≠ some co) : Placed (m.answer co ok data) := by
  have hwoken : (m.answer co ok data).requester = Function.update m.requester co (.woken s) := by
    rw [SocketChannel.answer, hs]
  have hother : ∀ {co'}, co' ≠ co → (m.answer co ok data).requester co' = m.requester co' := by
    intro co' hne
    rw [hwoken, Function.update_of_ne hne]
  have hsession : ∀ co', ((m.answer co ok data).requester co').session =
      (m.requester co').session := by
    intro co'
    by_cases hne : co' = co
    · rw [hwoken, hne, Function.update_self, hs]
      rfl
    · rw [hother hne]
  refine ⟨h.waits, h.past, h.nodup, fun {co'} hmem ↦ ?_, fun {d co'} hd ↦ ?_, h.apart,
    fun {co'} hnot ↦ ?_, fun {co' s'} hs' ↦ ?_, fun hs' hs'' ↦ ?_⟩
  · have hne : co' ≠ co := fun heq ↦ hthread (heq ▸ hmem)
    rw [hother hne]
    exact h.queued hmem
  · have hne : co' ≠ co := fun heq ↦ hserves d (heq ▸ hd)
    rw [hother hne]
    exact h.serving hd
  · have hne : co' ≠ co := by
      rintro rfl
      rw [hwoken, Function.update_self] at hnot
      exact hnot s rfl
    rw [hother hne] at hnot
    exact (Function.update_of_ne hne _ _).trans (h.data hnot)
  · rw [hsession] at hs'
    exact h.lt hs'
  · rw [hsession] at hs' hs''
    exact h.inj hs' hs''

/-- **What `wakeup_all` does**, with the threads taken off the queue first. -/
theorem wakeupThreads {errmsg : LuaData} (l : List (Option Co)) (h : Placed m)
    (hl : (l.filterMap id).Nodup) (hwaiting : ∀ co, some co ∈ l → ∃ s, m.requester co = .waiting s)
    (hthread : ∀ co, some co ∈ l → some co ∉ m.thread)
    (hserves : ∀ co, some co ∈ l → ∀ d, (m.dispatcher d).serves ≠ some co) :
    Placed (wakeupThreads errmsg l m) := by
  induction l generalizing m with
  | nil => exact h
  | cons a l ih =>
    cases a with
    -- the close signal, which nobody waits for
    | none =>
      exact ih h hl (fun co hco ↦ hwaiting co (List.mem_cons_of_mem _ hco))
        (fun co hco ↦ hthread co (List.mem_cons_of_mem _ hco))
        (fun co hco ↦ hserves co (List.mem_cons_of_mem _ hco))
    | some co =>
      obtain ⟨hnot, hl⟩ := List.nodup_cons.mp hl
      have hmem : ∀ co', some co' ∈ l → co' ≠ co := by
        rintro co' hco' rfl
        exact hnot (List.mem_filterMap.mpr ⟨_, hco', rfl⟩)
      obtain ⟨s, hs⟩ := hwaiting co List.mem_cons_self
      refine ih (h.answer hs (hthread co List.mem_cons_self) (hserves co List.mem_cons_self)) hl
        (fun co' hco' ↦ ?_) (fun co' hco' ↦ hthread co' (List.mem_cons_of_mem _ hco'))
        (fun co' hco' ↦ hserves co' (List.mem_cons_of_mem _ hco'))
      obtain ⟨s', hs'⟩ := hwaiting co' (List.mem_cons_of_mem _ hco')
      refine ⟨s', ?_⟩
      rw [SocketChannel.answer, hs]
      exact (Function.update_of_ne (hmem co' hco') _ _).trans hs'

theorem wakeupThreads_frame (errmsg : LuaData) (l : List (Option Co)) (m : SocketChannel Co Func) :
    (SocketChannel.wakeupThreads errmsg l m).dispatcher = m.dispatcher ∧
      (SocketChannel.wakeupThreads errmsg l m).waitResponse = m.waitResponse ∧
      (SocketChannel.wakeupThreads errmsg l m).connections = m.connections ∧
      (SocketChannel.wakeupThreads errmsg l m).sessions = m.sessions := by
  induction l generalizing m with
  | nil => exact ⟨rfl, rfl, rfl, rfl⟩
  | cons a l ih => cases a with
    | none => exact ih m
    | some co => exact ih _

private theorem wakeupAll_frame (errmsg : LuaData) (m : SocketChannel Co Func) :
    (m.wakeupAll errmsg).dispatcher = m.dispatcher ∧
      (m.wakeupAll errmsg).waitResponse = m.waitResponse ∧
      (m.wakeupAll errmsg).connections = m.connections ∧
      (m.wakeupAll errmsg).sessions = m.sessions :=
  wakeupThreads_frame errmsg m.thread m

private theorem wakeupAll_eq (m : SocketChannel Co Func) (errmsg : LuaData) :
    m.wakeupAll errmsg =
      SocketChannel.wakeupThreads errmsg m.thread { m with request := [], thread := [] } := by
  have hcomm : ∀ (l : List (Option Co)) (m : SocketChannel Co Func),
      { SocketChannel.wakeupThreads errmsg l m with request := [], thread := [] } =
        SocketChannel.wakeupThreads errmsg l { m with request := [], thread := [] } := by
    intro l
    induction l with
    | nil => exact fun m ↦ rfl
    | cons a l ih => cases a with
      | none => exact fun m ↦ ih m
      | some co => exact fun m ↦ ih _
  exact hcomm m.thread m

omit [DecidableEq Co] in
theorem clear (h : Placed m) : Placed { m with request := [], thread := [] } where
  waits := h.waits
  past := h.past
  nodup := .nil
  queued hmem := nomatch hmem
  serving hserves := ⟨(h.serving hserves).1, fun hmem ↦ nomatch hmem⟩
  apart := h.apart
  data := h.data
  lt := h.lt
  inj := h.inj

theorem wakeupAll {errmsg : LuaData} (h : Placed m) : Placed (m.wakeupAll errmsg) := by
  rw [wakeupAll_eq]
  exact h.clear.wakeupThreads m.thread h.nodup (fun co ↦ h.queued) (fun co _ hmem ↦ nomatch hmem)
    fun co hmem d hserves ↦ (h.serving hserves).2 hmem

/-! ## The queue -/

omit [DecidableEq Co] in
theorem wakeupDispatcher_eq (hd : m.dispatcher d = .waiting) :
    m.wakeupDispatcher d = m.setDispatcher d .woken := by
  rw [SocketChannel.wakeupDispatcher, hd]

omit [DecidableEq Co] in
theorem wakeupDispatcher (h : Placed m) (hd : m.waitResponse = some d) :
    Placed { m.wakeupDispatcher d with waitResponse := none } := by
  have hwaits := h.waits hd
  have hpast : d < m.connections := h.past (by rw [hwaits]; exact fun heq ↦ nomatch heq)
  have hnone : Placed { m with waitResponse := none } :=
    ⟨(fun heq ↦ nomatch heq), h.past, h.nodup, h.queued, h.serving, h.apart, h.data, h.lt, h.inj⟩
  rw [wakeupDispatcher_eq hwaits]
  exact hnone.setDispatcher hpast (fun heq ↦ nomatch heq) rfl

omit [DecidableEq Co] in
theorem pushResponse (response : Option Func) {a : Option Co}
    (hm : Placed { m with request := m.request ++ [response], thread := m.thread ++ [a] }) :
    Placed (m.pushResponse response a) := by
  rw [SocketChannel.pushResponse]
  dsimp only
  split
  next d hd => exact hm.wakeupDispatcher hd
  next => exact hm

omit [DecidableEq Co] in
theorem pushClose (h : Placed m) : Placed (m.pushResponse none none) := by
  have hmem : ∀ {co}, some co ∈ m.thread ++ [none] → some co ∈ m.thread := fun hmem ↦
    (List.mem_append.mp hmem).resolve_right fun h ↦ nomatch List.mem_singleton.mp h
  refine pushResponse none ⟨h.waits, h.past, ?_, fun hco ↦ h.queued (hmem hco), fun hserves ↦
    ⟨(h.serving hserves).1, fun hco ↦ (h.serving hserves).2 (hmem hco)⟩, h.apart,
      h.data, h.lt, h.inj⟩
  rw [List.filterMap_append]
  exact (List.append_nil _).symm ▸ h.nodup

/-- A request is written, and its coroutine waits. -/
theorem request (h : Placed m) (func : Func) (hidle : m.requester co = .idle) :
    Placed ((m.wait co).pushResponse (some func) (some co)) := by
  have hself : (m.wait co).requester co = .waiting m.sessions := requester_setRequester
  have hother : ∀ {co'}, co' ≠ co → (m.wait co).requester co' = m.requester co' := fun hne ↦
    requester_setRequester_of_ne hne
  have hwaiting : ∀ {co'}, (∃ s, m.requester co' = .waiting s) → co' ≠ co := by
    rintro co' ⟨s, hs⟩ rfl
    rw [hidle] at hs
    cases hs
  have hnew : ∀ {co' s'}, ((m.wait co).requester co').session = some s' →
      co' = co ∧ s' = m.sessions ∨ co' ≠ co ∧ (m.requester co').session = some s' := by
    intro co' s' hs
    by_cases hne : co' = co
    · rw [hne, hself] at hs
      exact Or.inl ⟨hne, (Option.some.inj hs).symm⟩
    · rw [hother hne] at hs
      exact Or.inr ⟨hne, hs⟩
  have hmem : ∀ {co'}, some co' ∈ m.thread ++ [some co] → some co' ∈ m.thread ∨ co' = co :=
    fun hco ↦ (List.mem_append.mp hco).imp_right fun hco ↦
      Option.some.inj (List.mem_singleton.mp hco)
  refine pushResponse (some func) ⟨h.waits, h.past, ?_, fun {co'} hco ↦ ?_, fun {d co'} hd ↦ ?_,
    h.apart, fun {co'} hdata ↦ ?_, fun {co' s'} hs ↦ ?_, fun {co' co'' s'} hs hs' ↦ ?_⟩
  · rw [List.filterMap_append]
    refine List.nodup_append.mpr ⟨h.nodup, List.nodup_singleton co, fun a ha b hb heq ↦ ?_⟩
    obtain ⟨x, hx, hxa⟩ := List.mem_filterMap.mp ha
    rw [List.mem_singleton.mp hb] at heq
    exact hwaiting (h.queued (hxa ▸ hx)) heq
  · rcases hmem hco with hco | rfl
    · show ∃ s, (m.wait co).requester co' = .waiting s
      rw [hother (hwaiting (h.queued hco))]
      exact h.queued hco
    · exact ⟨_, hself⟩
  · obtain ⟨hs, hthread⟩ := h.serving hd
    refine ⟨?_, fun hco ↦ (hmem hco).elim hthread (hwaiting hs)⟩
    show ∃ s, (m.wait co).requester co' = .waiting s
    rw [hother (hwaiting hs)]
    exact hs
  · by_cases hne : co' = co
    · exact h.data (fun s hs ↦ by rw [hne, hidle] at hs; cases hs)
    · exact h.data (fun s hs ↦ hdata s ((hother hne).trans hs))
  · rcases hnew hs with ⟨-, rfl⟩ | ⟨-, hs⟩
    · exact Nat.lt_succ_self _
    · exact Nat.lt_succ_of_lt (h.lt hs)
  · rcases hnew hs with ⟨hco, hnow⟩ | ⟨-, hold⟩ <;> rcases hnew hs' with ⟨hco', hnow'⟩ | ⟨-, hold'⟩
    · rw [hco, hco']
    · exact absurd (h.lt (hnow ▸ hold')) (Nat.lt_irrefl _)
    · exact absurd (h.lt (hnow' ▸ hold)) (Nat.lt_irrefl _)
    · exact h.inj hold hold'

omit [DecidableEq Co] in
theorem tail (h : Placed m) :
    Placed { m with request := m.request.tail, thread := m.thread.tail } where
  waits := h.waits
  past := h.past
  nodup := h.nodup.sublist ((List.tail_sublist _).filterMap id)
  queued hmem := h.queued (List.mem_of_mem_tail hmem)
  serving hserves :=
    ⟨(h.serving hserves).1, fun hmem ↦ (h.serving hserves).2 (List.mem_of_mem_tail hmem)⟩
  apart := h.apart
  data := h.data
  lt := h.lt
  inj := h.inj

omit [DecidableEq Co] in
theorem exitThread (h : Placed m) (hd : d < m.connections) (hwait : m.waitResponse ≠ some d) :
    Placed (m.exitThread d) :=
  (h.setDispatcher hd hwait rfl).setSock m.sock m.closed _

omit [DecidableEq Co] in
/-- The dispatcher takes the request at the head of the queue. -/
theorem call (h : Placed m) (func : Option Func) {rest : List (Option Co)}
    (hthread : m.thread = some co :: rest) (hd : d < m.connections)
    (hwait : m.waitResponse ≠ some d) (hserves : (m.dispatcher d).serves = none) :
    Placed ({ m with request := m.request.tail, thread := m.thread.tail }.setDispatcher d
      (.calling func co)) := by
  have hnot : some co ∉ rest := by
    have hnodup := h.nodup
    rw [hthread] at hnodup
    exact fun hmem ↦ (List.nodup_cons.mp hnodup).1 (List.mem_filterMap.mpr ⟨_, hmem, rfl⟩)
  have hmem : some co ∈ m.thread := hthread ▸ List.mem_cons_self
  have hcases : ∀ {d' co'}, ((m.setDispatcher d (.calling func co)).dispatcher d').serves =
      some co' →
      d' = d ∧ co' = co ∨ d' ≠ d ∧ (m.dispatcher d').serves = some co' := by
    intro d' co' hs
    by_cases hne : d' = d
    · rw [hne, dispatcher_setDispatcher] at hs
      exact Or.inl ⟨hne, (Option.some.inj hs).symm⟩
    · rw [dispatcher_setDispatcher_of_ne hne] at hs
      exact Or.inr ⟨hne, hs⟩
  refine ⟨fun {d'} hd' ↦ ?_, fun {d'} hd' ↦ ?_, h.tail.nodup, h.tail.queued, fun {d' co'} hs ↦ ?_,
    fun {d' d'' co'} hs hs' ↦ ?_, h.data, h.lt, h.inj⟩
  · have hne : d' ≠ d := fun heq ↦ hwait (heq ▸ hd')
    exact (dispatcher_setDispatcher_of_ne (m := m) hne).trans (h.waits hd')
  · by_cases hne : d' = d
    · exact hne ▸ hd
    · exact h.past fun hexited ↦ hd' ((dispatcher_setDispatcher_of_ne (m := m) hne).trans hexited)
  · rcases hcases hs with ⟨-, rfl⟩ | ⟨-, hs⟩
    · refine ⟨h.queued hmem, ?_⟩
      show some co' ∉ m.thread.tail
      rw [hthread]
      exact hnot
    · exact h.tail.serving hs
  · rcases hcases hs with ⟨rfl, rfl⟩ | ⟨-, hold⟩ <;> rcases hcases hs' with ⟨hd'', hco⟩ | ⟨-, hold'⟩
    · exact hd''.symm
    · exact absurd hmem (h.serving hold').2
    · exact absurd hmem (h.serving (hco ▸ hold)).2
    · exact h.apart hold hold'

theorem popResponse (h : Placed m) (hd : d < m.connections) (hwait : m.waitResponse ≠ some d)
    (hserves : (m.dispatcher d).serves = none) : Placed (m.popResponse d) := by
  rw [SocketChannel.popResponse]
  dsimp only
  split
  next =>
    have hset := h.tail.setDispatcher (x := .waiting) hd hwait rfl
    refine ⟨fun {d'} hd' ↦ ?_, hset.past, hset.nodup, hset.queued, hset.serving, hset.apart,
      hset.data, hset.lt, hset.inj⟩
    obtain rfl := Option.some.inj hd'
    exact dispatcher_setDispatcher
  next =>
    refine h.tail.wakeupAll.exitThread ?_ ?_
    · rw [(wakeupAll_frame _ _).2.2.1]
      exact hd
    · rw [(wakeupAll_frame _ _).2.1]
      exact hwait
  next func co hrequest hjoin =>
    obtain ⟨rest, hthread⟩ : ∃ rest, m.thread = some co :: rest := by
      cases hm : m.thread with
      | nil => rw [hm] at hjoin; cases hjoin
      | cons a rest => rw [hm] at hjoin; exact ⟨rest, congrArg (· :: rest) hjoin⟩
    exact h.call func hthread hd hwait hserves

theorem dispatch (h : Placed m) (hd : d < m.connections) (hwait : m.waitResponse ≠ some d)
    (hserves : (m.dispatcher d).serves = none) : Placed (m.dispatch d) := by
  rw [SocketChannel.dispatch]
  split
  · exact h.popResponse hd hwait hserves
  · exact h.exitThread hd hwait

/-! ## The steps -/

/-- A coroutine that waits nowhere changes its mind; it has no result. -/
theorem setRequester (h : Placed m) {r : Requester} (r' : Requester) (hr : m.requester co = r)
    (hnone : r.session = none) (hnone' : r'.session = none) : Placed (m.setRequester co r') := by
  have hwaiting : ∀ {co'}, (∃ s, m.requester co' = .waiting s) →
      ∃ s, (m.setRequester co r').requester co' = .waiting s := by
    rintro co' ⟨s, hs⟩
    have hne : co' ≠ co := by
      rintro rfl
      rw [← hr, hs] at hnone
      cases hnone
    exact ⟨s, (requester_setRequester_of_ne hne).trans hs⟩
  have hsession : ∀ co', ((m.setRequester co r').requester co').session =
      (m.requester co').session := by
    intro co'
    by_cases hne : co' = co
    · rw [hne, requester_setRequester, hnone', hr, hnone]
    · rw [requester_setRequester_of_ne hne]
  refine ⟨h.waits, h.past, h.nodup, fun hmem ↦ hwaiting (h.queued hmem), fun hs ↦
    ⟨hwaiting (h.serving hs).1, (h.serving hs).2⟩, h.apart, fun {co'} hdata ↦ h.data fun s hs ↦ ?_,
    fun {co' s} hs ↦ h.lt ((hsession co').symm.trans hs), fun {co' co'' s} hs hs' ↦
    h.inj ((hsession co').symm.trans hs) ((hsession co'').symm.trans hs')⟩
  have hne : co' ≠ co := by
    rintro rfl
    rw [← hr, hs] at hnone
    cases hnone
  exact hdata s ((requester_setRequester_of_ne hne).trans hs)

theorem take (h : Placed m) (hs : m.requester co = .woken s) : Placed (m.take co) := by
  have hidle : (m.take co).requester co = .idle := Function.update_self ..
  have hother : ∀ {co'}, co' ≠ co → (m.take co).requester co' = m.requester co' := fun hne ↦
    Function.update_of_ne hne ..
  have hwaiting : ∀ {co'}, (∃ s, m.requester co' = .waiting s) →
      ∃ s, (m.take co).requester co' = .waiting s := by
    rintro co' ⟨s', hs'⟩
    have hne : co' ≠ co := by
      rintro rfl
      rw [hs] at hs'
      cases hs'
    exact ⟨s', (hother hne).trans hs'⟩
  have hsession : ∀ {co' s'}, ((m.take co).requester co').session = some s' →
      (m.requester co').session = some s' := by
    intro co' s' hs'
    by_cases hne : co' = co
    · rw [hne, hidle] at hs'
      cases hs'
    · rw [hother hne] at hs'
      exact hs'
  refine ⟨h.waits, h.past, h.nodup, fun hmem ↦ hwaiting (h.queued hmem), fun hs ↦
    ⟨hwaiting (h.serving hs).1, (h.serving hs).2⟩, h.apart, fun {co'} hdata ↦ ?_,
    fun hs ↦ h.lt (hsession hs), fun hs hs' ↦ h.inj (hsession hs) (hsession hs')⟩
  by_cases hne : co' = co
  · rw [hne]
    exact Function.update_self ..
  · exact (Function.update_of_ne hne _ _).trans (h.data fun s hs ↦ hdata s ((hother hne).trans hs))

theorem respond_eq (h : Placed m) {p : ResponsePart} (hmore : p.more = false)
    (hs : m.requester co = .waiting s) :
    m.respond co p = some (m.answer co p.ok (.value p.data)) := by
  have hdata : m.resultData co = .nil := h.data fun s' hs' ↦ by rw [hs] at hs'; cases hs'
  rw [ResponsePart.more, Bool.and_eq_false_iff] at hmore
  have hnot : ¬(p.padding ∧ p.ok.truthy) := by
    rintro ⟨hpadding, hok⟩
    rcases hmore with hmore | hmore
    · exact absurd hpadding (by rw [hmore]; decide)
    · exact absurd hok (by rw [hmore]; decide)
  rw [SocketChannel.respond, if_neg hnot, hdata, if_neg (fun hand ↦ nomatch hand.2)]

theorem answered (h : Placed m) (hserves : (m.dispatcher d).serves = some co) :
    Placed ((m.setDispatcher d .looping).answer co ok data) := by
  obtain ⟨⟨s, hs⟩, hthread⟩ := h.serving hserves
  have hd : d < m.connections := h.past fun hexited ↦ by rw [hexited] at hserves; cases hserves
  have hwait : m.waitResponse ≠ some d := fun hwait ↦ by
    rw [h.waits hwait] at hserves
    cases hserves
  refine Placed.answer (h.setDispatcher (x := .looping) hd hwait rfl) hs hthread fun d' hd' ↦ ?_
  obtain ⟨hne, hd'⟩ := serves_setDispatcher rfl hd'
  exact hne (h.apart hd' hserves)

omit [DecidableEq Co] in
theorem connect (h : Placed m) (sock : Bool) (dispatchThread : Option ℕ) :
    Placed { m.setDispatcher m.connections .looping with
      sock := sock, dispatchThread := dispatchThread, connections := m.connections + 1 } := by
  have hwait : m.waitResponse ≠ some m.connections := fun hwait ↦
    Nat.lt_irrefl _ (h.past (d := m.connections)
      (by rw [h.waits hwait]; exact fun heq ↦ nomatch heq))
  have hmore : Placed { m with connections := m.connections + 1 } :=
    ⟨h.waits, fun hd ↦ Nat.lt_succ_of_lt (h.past hd), h.nodup, h.queued, h.serving, h.apart, h.data,
      h.lt, h.inj⟩
  exact (hmore.setDispatcher (x := .looping) (Nat.lt_succ_self _) hwait rfl).setSock sock m.closed _

omit [DecidableEq Co] in
/-- A dispatcher that is at some point of its loop exists, and is not about to be woken. -/
theorem active (h : Placed m) (hexited : m.dispatcher d ≠ .exited)
    (hwaiting : m.dispatcher d ≠ .waiting) :
    d < m.connections ∧ m.waitResponse ≠ some d :=
  ⟨h.past hexited, fun hwait ↦ hwaiting (h.waits hwait)⟩

private theorem serves_looping (ok : ResultOk) (data : ResultData) (co : Co) :
    (((m.setDispatcher d .looping).answer co ok data).dispatcher d).serves = none := by
  show ((m.setDispatcher d .looping).dispatcher d).serves = none
  rw [dispatcher_setDispatcher]
  rfl

section Steps

variable {m' : SocketChannel Co Func} {o : ChannelOutput Co Func}

/-- The socket that a coroutine has closed is closed. -/
theorem closedStep (h : Placed m) (hm : socketChannel m (.closed co) = .ok (m', o)) :
    Placed m' := by
  dsimp only [socketChannel] at hm
  split at hm
  next hfailing =>
    cases hm
    exact (h.setRequester .idle hfailing rfl rfl).wakeupAll
  next thread hclosing =>
    have hidle := h.setRequester .idle hclosing rfl rfl
    split at hm <;> cases hm
    · exact hidle.pushClose
    · exact hidle
  next => cases hm

theorem runStep (h : Placed m) (hm : socketChannel m (.run d) = .ok (m', o)) : Placed m' := by
  cases hd : m.dispatcher d with
  | looping =>
    simp only [socketChannel, hd] at hm
    cases hm
    obtain ⟨hlt, hwait⟩ := h.active (d := d) (by simp [hd]) (by simp [hd])
    exact h.dispatch hlt hwait (by rw [hd]; rfl)
  | woken =>
    simp only [socketChannel, hd] at hm
    cases hm
    obtain ⟨hlt, hwait⟩ := h.active (d := d) (by simp [hd]) (by simp [hd])
    exact h.popResponse hlt hwait (by rw [hd]; rfl)
  | _ => simp [socketChannel, hd] at hm

/-- The function of a request returns or raises an error. -/
theorem respondsStep (h : Placed m) {outcome : ResponseOutcome}
    (hmore : ∀ p, outcome = .returns p → p.more = false)
    (hm : socketChannel m (.responds d outcome) = .ok (m', o)) : Placed m' := by
  cases outcome with
  | returns p =>
    dsimp only [socketChannel] at hm
    split at hm
    next func co hd =>
      have hserves : (m.dispatcher d).serves = some co := by rw [hd]; rfl
      obtain ⟨hlt, hwait⟩ := h.active (d := d) (by simp [hd]) (by simp [hd])
      have hset := h.setDispatcher (x := .looping) hlt hwait rfl
      obtain ⟨s, hs⟩ := (h.serving hserves).1
      rw [hset.respond_eq (hmore p rfl) hs] at hm
      cases hm
      exact (h.answered hserves).dispatch hlt hwait (serves_looping ..)
    next => cases hm
  | error err =>
    dsimp only [socketChannel] at hm
    split at hm
    next func co hd =>
      obtain ⟨hlt, hwait⟩ := h.active (d := d) (by simp [hd]) (by simp [hd])
      cases hm
      exact (h.setDispatcher_of_serves (x := .closing co (err.getD .nil)) hlt hwait
        fun co' hco' ↦ by rw [hd]; exact hco').setSock false m.closed m.dispatchThread
    next => cases hm

/-- The socket that a dispatcher has closed is closed. -/
theorem dispatcherClosedStep (h : Placed m)
    (hm : socketChannel m (.dispatcherClosed d) = .ok (m', o)) : Placed m' := by
  dsimp only [socketChannel] at hm
  split at hm
  next co errmsg hd =>
    have hserves : (m.dispatcher d).serves = some co := by rw [hd]; rfl
    obtain ⟨hlt, hwait⟩ := h.active (d := d) (by simp [hd]) (by simp [hd])
    cases hm
    refine (h.answered hserves).wakeupAll.dispatch ?_ ?_ ?_
    · rw [(wakeupAll_frame _ _).2.2.1]
      exact hlt
    · rw [(wakeupAll_frame _ _).2.1]
      exact hwait
    · rw [(wakeupAll_frame _ _).1]
      exact serves_looping ..
  next => cases hm

/-- The condition is that no part of a response is followed by another one. -/
theorem step {i : ChannelInput Co Func} (h : Placed m)
    (hC : ∀ d p, i = .responds d (.returns p) → p.more = false)
    (hm : socketChannel m i = .ok (m', o)) : Placed m' := by
  cases i with
  | connect =>
    dsimp only [socketChannel] at hm
    split at hm
    · cases hm
    · cases hm
      exact h.connect true _
  | reopen =>
    dsimp only [socketChannel] at hm
    split at hm
    · cases hm
      exact h.setSock m.sock false m.dispatchThread
    · cases hm
  | request co func written =>
    dsimp only [socketChannel] at hm
    by_cases hcond : m.sock = true ∧ m.requester co = .idle
    · rw [if_pos hcond] at hm
      split at hm <;> cases hm
      · exact h.request func hcond.2
      · exact (h.setRequester .failing hcond.2 rfl rfl).setSock false m.closed m.dispatchThread
    · rw [if_neg hcond] at hm
      cases hm
  | disconnect =>
    cases hm
    exact h.setSock false m.closed m.dispatchThread
  | close co =>
    dsimp only [socketChannel] at hm
    by_cases hidle : m.requester co = .idle
    · rw [if_pos hidle] at hm
      split at hm <;> cases hm
      · exact h
      · exact (h.setRequester (.closing _) hidle rfl rfl).setSock false true m.dispatchThread
    · rw [if_neg hidle] at hm
      cases hm
  | closed co => exact h.closedStep hm
  | resume co =>
    dsimp only [socketChannel] at hm
    split at hm
    next s hs =>
      cases hm
      exact h.take hs
    next => cases hm
  | run d => exact h.runStep hm
  | responds d outcome => exact h.respondsStep (fun p hp ↦ hC d p (by rw [hp])) hm
  | dispatcherClosed d => exact h.dispatcherClosedStep hm

end Steps

end Placed

end SocketChannel

end ZTask
