import ZTask.Cslave.Service
import ZTask.Lib.Tickets

/-!
# Requests that wait

`monitor[id]` holds requests of two kinds: while the slave is linked, requests that wait for it to
go; else requests that wait for it to come. Every change of `slaves[id]` from one to the other
clears the list, and every name that becomes known clears the list of the name (`waits_exact`).

## The books

`Ledger` has the requests of a run and the answers, next to the state: each request waits in the one
place that it is for, or has been answered once. `CslavePlace` names the places, so that the lists
of `monitor`, those of the names and the one of the master are treated alike (`Ledger.clear`).

## Coroutines

A request is one step, and so is each part of a coroutine between two calls that can suspend it. The
steps keep the ledger in any order (`answering_step`), so nothing is asked of the order in which
packets, accepted connections, reports and requests come.
-/

namespace ZTask

open Lib

/-- Where a request waits. -/
inductive CslavePlace
  | monitor (id : ℤ)
  | queryname (name : List UInt8)
  | master
deriving DecidableEq

namespace Cslave

/-- What waits; nothing waits for the loss of the master when it is lost. -/
def waitingAt (m : Cslave) : CslavePlace → List CslaveRequest
  | .monitor id => m.monitor id
  | .queryname name => m.queryname name
  | .master => if m.monitorMaster = .ended then [] else m.monitorMasterSet

def sessions (m : Cslave) (p : CslavePlace) : List ℕ := (m.waitingAt p).map CslaveRequest.session

/-- The requests that are answered. -/
def answered (l : List CslaveEffect) : List ℕ :=
  l.filterMap fun effect ↦
    match effect with
    | .response r _ | .raised r => some r.session
    | _ => none

@[simp] theorem answered_append (l l' : List CslaveEffect) :
    answered (l ++ l') = answered l ++ answered l' := List.filterMap_append

@[simp] theorem answered_respond (rs : List CslaveRequest) (result : Option ℤ) :
    answered (respond rs result) = rs.map CslaveRequest.session := by
  induction rs with
  | nil => rfl
  | cons r rs ih => exact congrArg (r.session :: ·) ih

/-- The right requests wait. -/
structure Waits (m : Cslave) : Prop where
  linked : ∀ {id fd}, m.slaves id = .socket fd → ∀ r ∈ m.monitor id, r.command = .link id
  unlinked : ∀ {id}, (∀ fd, m.slaves id ≠ .socket fd) → ∀ r ∈ m.monitor id, r.command = .connect id
  named : ∀ {name}, ∀ r ∈ m.queryname name,
    r.command = .queryname name ∧ m.globalname.lookup name = none
  mastered : ∀ r ∈ m.monitorMasterSet, r.command = .linkmaster

/-- The effects of a run and the state it leads to. -/
structure Ledger (l : List CslaveEffect) (m : Cslave) : Prop where
  waits : m.Waits
  served : Served m.sessions m.requests (answered l)

variable {m m' : Cslave} {l out : List CslaveEffect} {id : ℤ} {name : List UInt8}
  {rs : List CslaveRequest}

theorem ledger_init : Ledger [] init where
  waits := ⟨fun _ _ h ↦ (nomatch h), fun _ _ h ↦ (nomatch h), fun _ h ↦ (nomatch h),
    fun _ h ↦ (nomatch h)⟩
  served := Served.start.congr fun p ↦ by cases p <;> rfl

/-! ## The three kinds of places -/

private theorem sessions_monitor (hmonitor : m'.monitor = Function.update m.monitor id rs)
    (hqueryname : m'.queryname = m.queryname) (hset : m'.monitorMasterSet = m.monitorMasterSet)
    (hended : m'.monitorMaster = .ended ↔ m.monitorMaster = .ended) :
    m'.sessions = Function.update m.sessions (.monitor id) (rs.map CslaveRequest.session) := by
  funext p
  cases p with
  | monitor id' =>
    by_cases hid : id' = id
    · subst hid
      rw [Function.update_self, sessions, waitingAt, hmonitor, Function.update_self]
    · have hne : CslavePlace.monitor id' ≠ .monitor id :=
        fun heq ↦ hid (CslavePlace.monitor.inj heq)
      rw [Function.update_of_ne hne, sessions, waitingAt, hmonitor, Function.update_of_ne hid]
      rfl
  | queryname name =>
    simp [sessions, waitingAt, hqueryname]
  | master =>
    simp [sessions, waitingAt, hset, hended]

private theorem sessions_queryname (hqueryname : m'.queryname = Function.update m.queryname name rs)
    (hmonitor : m'.monitor = m.monitor) (hset : m'.monitorMasterSet = m.monitorMasterSet)
    (hended : m'.monitorMaster = .ended ↔ m.monitorMaster = .ended) :
    m'.sessions = Function.update m.sessions (.queryname name) (rs.map CslaveRequest.session) := by
  funext p
  cases p with
  | monitor id =>
    simp [sessions, waitingAt, hmonitor]
  | queryname name' =>
    by_cases hname : name' = name
    · subst hname
      rw [Function.update_self, sessions, waitingAt, hqueryname, Function.update_self]
    · have hne : CslavePlace.queryname name' ≠ .queryname name :=
        fun heq ↦ hname (CslavePlace.queryname.inj heq)
      rw [Function.update_of_ne hne, sessions, waitingAt, hqueryname, Function.update_of_ne hname]
      rfl
  | master =>
    simp [sessions, waitingAt, hset, hended]

private theorem sessions_master (hmonitor : m'.monitor = m.monitor)
    (hqueryname : m'.queryname = m.queryname) :
    m'.sessions = Function.update m.sessions .master (m'.sessions .master) := by
  funext p
  cases p with
  | monitor id =>
    simp [sessions, waitingAt, hmonitor]
  | queryname name =>
    simp [sessions, waitingAt, hqueryname]
  | master => rw [Function.update_self]

/-- Nothing about the requests changes. -/
structure Same (m m' : Cslave) : Prop where
  slaves : m'.slaves = m.slaves
  globalname : m'.globalname = m.globalname
  queryname : m'.queryname = m.queryname
  monitor : m'.monitor = m.monitor
  monitorMasterSet : m'.monitorMasterSet = m.monitorMasterSet
  ended : m'.monitorMaster = .ended ↔ m.monitorMaster = .ended
  requests : m'.requests = m.requests

theorem Same.refl (m : Cslave) : Same m m := ⟨rfl, rfl, rfl, rfl, rfl, Iff.rfl, rfl⟩

theorem Ledger.same (h : Ledger l m) (hsame : Same m m') (hout : answered out = []) :
    Ledger (l ++ out) m' := by
  refine ⟨⟨?_, ?_, ?_, ?_⟩, ?_⟩
  · rw [hsame.slaves, hsame.monitor]
    exact h.waits.linked
  · rw [hsame.slaves, hsame.monitor]
    exact h.waits.unlinked
  · rw [hsame.globalname, hsame.queryname]
    exact h.waits.named
  · rw [hsame.monitorMasterSet]
    exact h.waits.mastered
  · rw [answered_append, hout, List.append_nil, hsame.requests]
    refine h.served.congr fun p ↦ ?_
    rw [sessions, sessions, waitingAt.eq_def, waitingAt.eq_def, hsame.monitor, hsame.queryname,
      hsame.monitorMasterSet]
    simp only [hsame.ended]

/-! ## Lists are cleared -/

/-- The list of a slave is cleared, whatever becomes of the slave. -/
theorem Ledger.clear (h : Ledger l m) (id : ℤ) (entry : SlaveEntry) :
    Ledger (l ++ respond (m.monitor id) none) { m with
      slaves := Function.update m.slaves id entry
      monitor := Function.update m.monitor id [] } := by
  refine ⟨⟨fun {id' fd} hid' r hr ↦ ?_, fun {id'} hid' r hr ↦ ?_, h.waits.named,
    h.waits.mastered⟩, ?_⟩
  · dsimp only at hid' hr
    by_cases hsame : id' = id
    · subst hsame
      rw [Function.update_self] at hr
      cases hr
    · rw [Function.update_of_ne hsame] at hid' hr
      exact h.waits.linked hid' r hr
  · dsimp only at hid' hr
    by_cases hsame : id' = id
    · subst hsame
      rw [Function.update_self] at hr
      cases hr
    · rw [Function.update_of_ne hsame] at hid' hr
      exact h.waits.unlinked hid' r hr
  · rw [answered_append, answered_respond]
    refine (h.served.flush (.monitor id)).congr fun p ↦ ?_
    exact congrFun (@sessions_monitor m { m with
      slaves := Function.update m.slaves id entry
      monitor := Function.update m.monitor id [] } id [] rfl rfl rfl Iff.rfl) p

/-- A slave that is not linked is gone. -/
theorem Ledger.gone (h : Ledger l m) (hid : ∀ fd, m.slaves id ≠ .socket fd) :
    Ledger l { m with slaves := Function.update m.slaves id .gone } := by
  refine ⟨⟨fun {id' fd} hid' r hr ↦ ?_, fun {id'} hid' r hr ↦ ?_, h.waits.named,
    h.waits.mastered⟩, ?_⟩
  · dsimp only at hid' hr
    by_cases hsame : id' = id
    · rw [hsame, Function.update_self] at hid'
      cases hid'
    · rw [Function.update_of_ne hsame] at hid'
      exact h.waits.linked hid' r hr
  · dsimp only at hid' hr
    by_cases hsame : id' = id
    · rw [hsame] at hr ⊢
      exact h.waits.unlinked hid r hr
    · rw [Function.update_of_ne hsame] at hid'
      exact h.waits.unlinked hid' r hr
  · exact h.served

/-- A name is known, and the list of the name is cleared. -/
theorem Ledger.known (h : Ledger l m) (name : List UInt8) (address : ℤ) (result : Option ℤ) :
    Ledger (l ++ respond (m.queryname name) result) { m with
      globalname := m.globalname.insert name address
      queryname := Function.update m.queryname name [] } := by
  refine ⟨⟨h.waits.linked, h.waits.unlinked, fun {name'} r hr ↦ ?_, h.waits.mastered⟩, ?_⟩
  · dsimp only at hr
    by_cases hsame : name' = name
    · subst hsame
      rw [Function.update_self] at hr
      cases hr
    · rw [Function.update_of_ne hsame] at hr
      dsimp only
      rw [AList.lookup_insert_ne hsame]
      exact h.waits.named r hr
  · rw [answered_append, answered_respond]
    refine (h.served.flush (.queryname name)).congr fun p ↦ ?_
    exact congrFun (@sessions_queryname m { m with
      globalname := m.globalname.insert name address
      queryname := Function.update m.queryname name [] } name [] rfl rfl rfl Iff.rfl) p

theorem Ledger.ended (h : Ledger l m) (hreading : m.monitorMaster = .reading) :
    Ledger (l ++ m.masterLost.2) m.masterLost.1 := by
  refine ⟨⟨h.waits.linked, h.waits.unlinked, h.waits.named, h.waits.mastered⟩, ?_⟩
  have hset : m.sessions .master = m.monitorMasterSet.map CslaveRequest.session := by
    rw [sessions, waitingAt, if_neg (by rw [hreading]; exact fun heq ↦ nomatch heq)]
  rw [masterLost, answered_append, answered_respond, ← hset]
  refine (h.served.flush .master).congr fun p ↦ ?_
  exact congrFun (@sessions_master m { m with monitorMaster := .ended } rfl rfl) p

/-! ## Requests -/

theorem Ledger.now (h : Ledger l m) (hout : answered out = [m.requests]) :
    Ledger (l ++ out) { m with requests := m.requests + 1 } := by
  refine ⟨⟨h.waits.linked, h.waits.unlinked, h.waits.named, h.waits.mastered⟩, ?_⟩
  rw [answered_append, hout]
  exact h.served.take

theorem Ledger.never (h : Ledger l m) (hout : answered out = []) :
    Ledger (l ++ out) { m with requests := m.requests + 1 } := by
  refine ⟨⟨h.waits.linked, h.waits.unlinked, h.waits.named, h.waits.mastered⟩, ?_⟩
  rw [answered_append, hout, List.append_nil]
  exact h.served.skip

/-- A request waits for a slave. -/
theorem Ledger.enterMonitor (h : Ledger l m) {r : CslaveRequest} (hr : r.session = m.requests)
    (hlinked : ∀ fd, m.slaves id = .socket fd → r.command = .link id)
    (hunlinked : (∀ fd, m.slaves id ≠ .socket fd) → r.command = .connect id) :
    Ledger l { m with
      requests := m.requests + 1
      monitor := Function.update m.monitor id (m.monitor id ++ [r]) } := by
  have hold : ∀ {id' r'}, r' ∈ Function.update m.monitor id (m.monitor id ++ [r]) id' →
      r' ∈ m.monitor id' ∨ r' = r ∧ id' = id := by
    intro id' r' hr'
    by_cases hsame : id' = id
    · rw [hsame, Function.update_self] at hr'
      rw [hsame]
      exact (List.mem_append.mp hr').imp_right fun hr' ↦ ⟨List.mem_singleton.mp hr', rfl⟩
    · rw [Function.update_of_ne hsame] at hr'
      exact .inl hr'
  refine ⟨⟨fun {id' fd} hid' r' hr' ↦ ?_, fun {id'} hid' r' hr' ↦ ?_, h.waits.named,
    h.waits.mastered⟩, ?_⟩
  · rcases hold hr' with hr' | ⟨rfl, rfl⟩
    · exact h.waits.linked hid' r' hr'
    · exact hlinked fd hid'
  · rcases hold hr' with hr' | ⟨rfl, rfl⟩
    · exact h.waits.unlinked hid' r' hr'
    · exact hunlinked hid'
  · refine (h.served.enter (.monitor id)).congr fun p ↦ ?_
    have hsessions := @sessions_monitor m { m with
      requests := m.requests + 1
      monitor := Function.update m.monitor id (m.monitor id ++ [r]) } id _ rfl rfl rfl Iff.rfl
    rw [hsessions, List.map_append, List.map_singleton, hr]
    rfl

/-- A request waits for a name. -/
theorem Ledger.enterName (h : Ledger l m) {r : CslaveRequest} (hr : r.session = m.requests)
    (hcommand : r.command = .queryname name) (hnone : m.globalname.lookup name = none) :
    Ledger l { m with
      requests := m.requests + 1
      queryname := Function.update m.queryname name (m.queryname name ++ [r]) } := by
  refine ⟨⟨h.waits.linked, h.waits.unlinked, fun {name'} r' hr' ↦ ?_, h.waits.mastered⟩, ?_⟩
  · dsimp only at hr'
    by_cases hsame : name' = name
    · subst hsame
      rw [Function.update_self] at hr'
      rcases List.mem_append.mp hr' with hr' | hr'
      · exact h.waits.named r' hr'
      · rw [List.mem_singleton.mp hr']
        exact ⟨hcommand, hnone⟩
    · rw [Function.update_of_ne hsame] at hr'
      exact h.waits.named r' hr'
  · refine (h.served.enter (.queryname name)).congr fun p ↦ ?_
    have hsessions := @sessions_queryname m { m with
      requests := m.requests + 1
      queryname := Function.update m.queryname name (m.queryname name ++ [r]) } name _ rfl rfl rfl
        Iff.rfl
    rw [hsessions, List.map_append, List.map_singleton, hr]
    rfl

/-- A request waits for the loss of the master, if it is not lost. -/
theorem Ledger.enterMaster (h : Ledger l m) {r : CslaveRequest} (hr : r.session = m.requests)
    (hcommand : r.command = .linkmaster) :
    Ledger l { m with
      requests := m.requests + 1
      monitorMasterSet := m.monitorMasterSet ++ [r] } := by
  refine ⟨⟨h.waits.linked, h.waits.unlinked, h.waits.named, fun r' hr' ↦ ?_⟩, ?_⟩
  · rcases List.mem_append.mp hr' with hr' | hr'
    · exact h.waits.mastered r' hr'
    · rw [List.mem_singleton.mp hr']
      exact hcommand
  by_cases hended : m.monitorMaster = .ended
  · refine h.served.skip.congr fun p ↦ ?_
    cases p with
    | monitor _ | queryname _ => rfl
    | master => simp [sessions, waitingAt, hended]
  · refine (h.served.enter .master).congr fun p ↦ ?_
    have hsessions := @sessions_master m { m with
      requests := m.requests + 1
      monitorMasterSet := m.monitorMasterSet ++ [r] } rfl rfl
    rw [hsessions]
    simp only [sessions, waitingAt, if_neg hended, List.map_append, List.map_singleton, hr]

/-! ## Steps -/

/-- How a request comes to be answered. -/
inductive Answer (m m' : Cslave) (r : CslaveRequest) (result : Option ℤ) : Prop
  /-- It has just come. -/
  | new : r.session = m.requests → Answer m m' r result
  | slave {id : ℤ} : r ∈ m.monitor id → Answer m m' r result
  | name {name : List UInt8} {address : ℤ} : r ∈ m.queryname name → result = some address →
      m'.globalname.lookup name = some address → Answer m m' r result
  | master : r ∈ m.monitorMasterSet → Answer m m' r result

/-- What a step keeps, and whom it answers. -/
structure Answering (m : Cslave) (out : List CslaveEffect) (m' : Cslave) : Prop where
  ledger : ∀ l, Ledger l m → Ledger (l ++ out) m'
  answers : ∀ r result, .response r result ∈ out → Answer m m' r result

private theorem mem_respond {r : CslaveRequest} {result result' : Option ℤ}
    (h : CslaveEffect.response r result ∈ respond rs result') : r ∈ rs ∧ result = result' := by
  obtain ⟨r', hr', heq⟩ := List.mem_map.mp h
  cases heq
  exact ⟨hr', rfl⟩

/-- Effects that answer no one. -/
def Silent (out : List CslaveEffect) : Prop :=
  answered out = [] ∧ ∀ r result, CslaveEffect.response r result ∉ out

private theorem silent_nil : Silent [] := ⟨rfl, fun _ _ h ↦ (nomatch h)⟩

theorem Same.answering (h : Same m m') (hout : Silent out) : Answering m out m' :=
  ⟨fun _ hl ↦ hl.same h hout.1, fun r result hr ↦ (hout.2 r result hr).elim⟩

theorem Answering.of_same {m₁ : Cslave} (hsame : Same m m₁) (h : Answering m₁ out m') :
    Answering m out m' := by
  refine ⟨fun l hl ↦ ?_, fun r result hr ↦ ?_⟩
  · have hl₁ : Ledger (l ++ []) m₁ := hl.same hsame rfl
    rw [List.append_nil] at hl₁
    exact h.ledger l hl₁
  · cases h.answers r result hr with
    | new hnew => exact .new (hnew.trans hsame.requests)
    | slave hmem => exact .slave (hsame.monitor ▸ hmem)
    | name hmem hresult hlookup => exact .name (hsame.queryname ▸ hmem) hresult hlookup
    | master hmem => exact .master (hsame.monitorMasterSet ▸ hmem)

theorem Answering.same {m₁ : Cslave} {out' : List CslaveEffect} (h : Answering m out m₁)
    (hsame : Same m₁ m') (hout : Silent out') : Answering m (out ++ out') m' := by
  refine ⟨fun l hl ↦ ?_, fun r result hr ↦ ?_⟩
  · rw [← List.append_assoc]
    exact (h.ledger l hl).same hsame hout.1
  · rcases List.mem_append.mp hr with hr | hr
    · cases h.answers r result hr with
      | new hnew => exact .new hnew
      | slave hmem => exact .slave hmem
      | name hmem hresult hlookup => exact .name hmem hresult (hsame.globalname ▸ hlookup)
      | master hmem => exact .master hmem
    · exact (hout.2 r result hr).elim

private theorem answering_clear (m : Cslave) (id : ℤ) (entry : SlaveEntry) :
    Answering m (respond (m.monitor id) none) { m with
      slaves := Function.update m.slaves id entry
      monitor := Function.update m.monitor id [] } :=
  ⟨fun _ hl ↦ hl.clear id entry, fun _ _ hr ↦ .slave (mem_respond hr).1⟩

private theorem answering_known (m : Cslave) (name : List UInt8) (address : ℤ) :
    Answering m (respond (m.queryname name) (some address)) { m with
      globalname := m.globalname.insert name address
      queryname := Function.update m.queryname name [] } :=
  ⟨fun _ hl ↦ hl.known name address _, fun _ _ hr ↦
    .name (mem_respond hr).1 (mem_respond hr).2 (AList.lookup_insert _)⟩

private theorem answering_now (m : Cslave) {r : CslaveRequest} (hr : r.session = m.requests)
    (hout : out = [.raised r] ∨ ∃ result, out = [.response r result]) :
    Answering m out { m with requests := m.requests + 1 } := by
  rcases hout with rfl | ⟨result, rfl⟩
  · exact ⟨fun _ hl ↦ hl.now (congrArg (fun k ↦ [k]) hr),
      fun _ _ hmem ↦ nomatch List.mem_singleton.mp hmem⟩
  · refine ⟨fun _ hl ↦ hl.now (congrArg (fun k ↦ [k]) hr), fun r' result' hmem ↦ .new ?_⟩
    cases List.mem_singleton.mp hmem
    exact hr

private theorem answering_enter (h : ∀ l, Ledger l m → Ledger l m') (hout : Silent out) :
    Answering m out m' := by
  refine ⟨fun l hl ↦ (h l hl).same (.refl m') hout.1, fun r result hr ↦ (hout.2 r result hr).elim⟩

/-! ### Requests -/

private theorem answering_link (m : Cslave) (id : ℤ) (command : CslaveCommand)
    (hcommand : command = .link id) :
    Answering m ({ m with requests := m.requests + 1 }.link ⟨m.requests, command⟩ id).2
      ({ m with requests := m.requests + 1 }.link ⟨m.requests, command⟩ id).1 := by
  rw [link]
  cases hid : m.slaves id with
  | socket fd =>
    refine answering_enter (fun l hl ↦ hl.enterMonitor (r := ⟨m.requests, command⟩) rfl
      (fun _ _ ↦ hcommand) fun hnot ↦ (hnot fd hid).elim) silent_nil
  | unknown | gone => exact answering_now m rfl (.inr ⟨none, rfl⟩)

private theorem answering_connect (m : Cslave) (id : ℤ) (command : CslaveCommand)
    (hcommand : command = .connect id) :
    Answering m ({ m with requests := m.requests + 1 }.connect ⟨m.requests, command⟩ id).2
      ({ m with requests := m.requests + 1 }.connect ⟨m.requests, command⟩ id).1 := by
  rw [connect]
  cases hid : m.slaves id with
  | socket fd => exact answering_now m rfl (.inr ⟨none, rfl⟩)
  | unknown | gone =>
    refine answering_enter (fun l hl ↦ hl.enterMonitor (r := ⟨m.requests, command⟩) rfl
      (fun fd hfd ↦ ?_) fun _ ↦ hcommand) silent_nil
    rw [hid] at hfd
    cases hfd

private theorem answering_queryName (m : Cslave) (name : List UInt8) (command : CslaveCommand)
    (hcommand : command = .queryname name) (localname : Option ℤ) :
    Answering m
      ({ m with requests := m.requests + 1 }.queryName ⟨m.requests, command⟩ name localname).2
      ({ m with requests := m.requests + 1 }.queryName ⟨m.requests, command⟩ name localname).1 := by
  rw [queryName]
  split
  · exact answering_now m rfl (.inr ⟨localname, rfl⟩)
  · dsimp only
    cases hlookup : m.globalname.lookup name with
    | some result => exact answering_now m rfl (.inr ⟨some result, rfl⟩)
    | none =>
      have henter : ∀ l, Ledger l m → Ledger l { m with
          requests := m.requests + 1
          queryname := Function.update m.queryname name
            (m.queryname name ++ [⟨m.requests, command⟩]) } :=
        fun l hl ↦ hl.enterName rfl hcommand hlookup
      by_cases hempty : m.queryname name = []
      · rw [hempty] at henter
        simp only [if_pos hempty]
        split
        · exact answering_enter henter ⟨rfl, fun _ _ hmem ↦ nomatch List.mem_singleton.mp hmem⟩
        · exact answering_now m rfl (.inl rfl)
      · simp only [if_neg hempty]
        exact answering_enter henter silent_nil

private theorem answering_register (m : Cslave) (name : List UInt8) (handle : ℤ) (r : CslaveRequest)
    (hr : r.session = m.requests) :
    Answering m ({ m with requests := m.requests + 1 }.register r name handle).2
      ({ m with requests := m.requests + 1 }.register r name handle).1 := by
  rw [register]
  dsimp only
  cases hlookup : m.globalname.lookup name with
  | some _ => exact answering_now m hr (.inl rfl)
  | none =>
    have hknown := answering_known m name handle
    simp only [responseName, AList.lookup_insert]
    split
    · refine ⟨fun l hl ↦ ?_, fun r' result hmem ↦ ?_⟩
      · rw [← List.append_assoc]
        exact (hknown.ledger l hl).never rfl
      · rcases List.mem_append.mp hmem with hmem | hmem
        · exact .name (mem_respond hmem).1 (mem_respond hmem).2 (AList.lookup_insert _)
        · simp at hmem
    · refine ⟨fun l hl ↦ ?_, fun r' result hmem ↦ ?_⟩
      · rw [← List.append_assoc]
        exact (hknown.ledger l hl).now (congrArg (fun k ↦ [k]) hr)
      · rcases List.mem_append.mp hmem with hmem | hmem
        · exact .name (mem_respond hmem).1 (mem_respond hmem).2 (AList.lookup_insert _)
        · simp at hmem

private theorem answering_request (m : Cslave) (command : CslaveCommand) (localname : Option ℤ) :
    Answering m (m.request command localname).2 (m.request command localname).1 := by
  cases command with
  | link id => exact answering_link m id _ rfl
  | connect id => exact answering_connect m id _ rfl
  | linkmaster =>
    exact answering_enter (fun l hl ↦ hl.enterMaster (r := ⟨m.requests, .linkmaster⟩) rfl rfl)
      silent_nil
  | queryname name => exact answering_queryName m name _ rfl localname
  | register name handle => exact answering_register m name handle _ rfl

/-! ### Messages -/

/-- A slave that was linked, or was not, is gone. -/
theorem answering_gone (m : Cslave) (id : ℤ) :
    Answering m (match m.slaves id with
      | .socket _ => respond (m.monitor id) none
      | _ => []) { m with
        slaves := Function.update m.slaves id .gone
        monitor := match m.slaves id with
          | .socket _ => Function.update m.monitor id []
          | _ => m.monitor } := by
  cases hid : m.slaves id with
  | socket fd => exact answering_clear m id .gone
  | unknown | gone =>
    refine answering_enter (fun l hl ↦ hl.gone fun fd hfd ↦ ?_) silent_nil
    rw [hid] at hfd
    cases hfd

private theorem answering_text (m : Cslave) (command : List UInt8) :
    Answering m (m.monitorHarbor command).2 (m.monitorHarbor command).1 := by
  rw [monitorHarbor]
  dsimp only
  split
  · split
    · exact (Same.refl m).answering ⟨rfl, fun _ _ hmem ↦ nomatch List.mem_singleton.mp hmem⟩
    · refine (Same.refl m).answering ⟨?_, fun _ _ hmem ↦ ?_⟩
      · dsimp only
        split <;> rfl
      · dsimp only at hmem
        split at hmem
        · exact nomatch List.mem_singleton.mp hmem
        · cases hmem
  · split
    · split
      next => exact (Same.refl m).answering silent_nil
      next id _ =>
        have hgone := answering_gone m id
        cases hid : m.slaves id with
        | socket fd =>
          rw [hid] at hgone
          exact hgone
        | unknown | gone =>
          rw [hid] at hgone
          exact hgone
    · exact (Same.refl m).answering silent_nil

private theorem answering_connected (m : Cslave) (command : UInt8) (id : ℤ) (fd : ℕ) :
    Answering m (m.connected command id fd).2 (m.connected command id fd).1 :=
  (answering_clear m id (.socket fd)).same ⟨rfl, rfl, rfl, rfl, rfl, Iff.rfl, rfl⟩
    ⟨rfl, fun _ _ hmem ↦ nomatch List.mem_singleton.mp hmem⟩

theorem socketClose_same (m : Cslave) (fd : ℕ) :
    Same m (m.socketClose fd).1 ∧ Silent (m.socketClose fd).2.1 := by
  rw [socketClose]
  cases m.socketPool fd with
  | none => exact ⟨.refl m, silent_nil⟩
  | some connected =>
    cases connected with
    | false => exact ⟨⟨rfl, rfl, rfl, rfl, rfl, Iff.rfl, rfl⟩, silent_nil⟩
    | true => exact ⟨.refl m, rfl, fun _ _ hmem ↦ nomatch List.mem_singleton.mp hmem⟩

theorem Answering.closing (h : Answering m out m') (hnot : m'.monitorMaster ≠ .ended)
    {b : Bool} {fd : ℕ} :
    Answering m out (if b then { m' with monitorMaster := .closing fd } else m') := by
  cases b with
  | false => exact h
  | true =>
    have hsame : Same m' { m' with monitorMaster := .closing fd } :=
      ⟨rfl, rfl, rfl, rfl, rfl, ⟨fun heq ↦ (nomatch heq), fun heq ↦ (hnot heq).elim⟩, rfl⟩
    have hwait := h.same hsame silent_nil
    rw [List.append_nil] at hwait
    exact hwait

theorem answering_package (hreading : m.monitorMaster = .reading) (package : MasterPackage) :
    Answering m (m.masterPackage package).2 (m.masterPackage package).1 := by
  have hended : ∀ {p : MonitorMaster}, p ≠ .ended → (p = .ended ↔ m.monitorMaster = .ended) := by
    intro p hp
    rw [hreading]
    exact ⟨fun heq ↦ (hp heq).elim, fun heq ↦ nomatch heq⟩
  cases package with
  | wait n => exact (Same.refl m).answering silent_nil
  | connect id address =>
    rw [masterPackage]
    split
    · exact Same.answering ⟨rfl, rfl, rfl, rfl, rfl, Iff.rfl, rfl⟩ silent_nil
    · exact Same.answering ⟨rfl, rfl, rfl, rfl, rfl, hended (fun heq ↦ nomatch heq), rfl⟩
        ⟨rfl, fun _ _ hmem ↦ nomatch List.mem_singleton.mp hmem⟩
  | name name address =>
    rw [masterPackage]
    simp only [responseName, AList.lookup_insert]
    refine (answering_known m name address).same (.refl _) ?_
    split
    · exact ⟨rfl, fun _ _ hmem ↦ nomatch List.mem_singleton.mp hmem⟩
    · exact silent_nil
  | disconnect id =>
    rw [masterPackage]
    have hgone := answering_gone m id
    cases hid : m.slaves id with
    | unknown | gone =>
      rw [hid] at hgone
      exact hgone
    | socket fd =>
      rw [hid] at hgone
      simp only [monitorClear]
      obtain ⟨hsame, hsilent⟩ := socketClose_same { m with
        slaves := Function.update m.slaves id .gone
        monitor := Function.update m.monitor id [] } fd
      have hnot := mt hsame.ended.mp fun heq ↦ nomatch hreading.symm.trans heq
      exact (hgone.same hsame hsilent).closing hnot

private theorem answering_masterLost (hreading : m.monitorMaster = .reading) :
    Answering m m.masterLost.2 m.masterLost.1 :=
  ⟨fun _ hl ↦ hl.ended hreading, fun _ _ hr ↦ .master (mem_respond hr).1⟩

/-! ### Coroutines -/

theorem started_same {fd : ℕ} {ok : Bool} (h : m.started fd ok = some m') : Same m m' := by
  rw [started] at h
  split at h
  · cases h
    exact .refl m
  · split at h
    · cases h
      exact ⟨rfl, rfl, rfl, rfl, rfl, Iff.rfl, rfl⟩
    · cases h

theorem resume_same {ready : Bool} {call' : Option ConnectSlave} {c : ConnectSlave}
    (h : m.call ready = some c) : Same m (m.resume ready call') := by
  rw [call] at h
  unfold resume
  split at h
  next hready =>
    rw [if_pos hready]
    refine ⟨rfl, rfl, rfl, rfl, rfl, ?_, rfl⟩
    cases hmaster : m.monitorMaster with
    | connecting _ => cases call' <;> exact ⟨fun heq ↦ (nomatch heq), fun heq ↦ (nomatch heq)⟩
    | reading | closing _ | ended =>
      rw [hmaster] at h
      cases h
  next hready =>
    rw [if_neg hready]
    exact ⟨rfl, rfl, rfl, rfl, rfl, Iff.rfl, rfl⟩

private theorem answering_connectStarted (m : Cslave) (slaveId : ℤ) (fd : ℕ) (ok : Bool) :
    Answering m (m.connectStarted slaveId fd ok).2 (m.connectStarted slaveId fd ok).1 := by
  rw [connectStarted]
  cases hstarted : m.started fd ok with
  | some m₁ => exact .of_same (started_same hstarted) (answering_connected m₁ 83 slaveId fd)
  | none => exact (Same.refl m).answering silent_nil

private theorem answering_acceptRead (m : Cslave) (fd : ℕ) (id : Option UInt8) :
    Answering m (m.acceptRead fd id).2 (m.acceptRead fd id).1 := by
  have hclose : Answering m (m.socketClose fd).2.1 { (m.socketClose fd).1 with
      accepting := Function.update (m.socketClose fd).1.accepting fd
        (if (m.socketClose fd).2.2 then some .closing else none) } := by
    obtain ⟨hsame, hsilent⟩ := socketClose_same m fd
    exact Same.answering ⟨hsame.slaves, hsame.globalname, hsame.queryname, hsame.monitor,
      hsame.monitorMasterSet, hsame.ended, hsame.requests⟩ hsilent
  cases id with
  | none => exact hclose
  | some id =>
    rw [acceptRead]
    split
    · have hsame : Same m { m with accepting := Function.update m.accepting fd none } :=
        ⟨rfl, rfl, rfl, rfl, rfl, Iff.rfl, rfl⟩
      exact .of_same hsame (answering_connected _ 65 id.toNat fd)
    · exact hclose

private theorem answering_namesReady (m : Cslave) : Answering m m.namesReady.2 m.namesReady.1 := by
  refine Same.answering ⟨rfl, rfl, rfl, rfl, rfl, Iff.rfl, rfl⟩ ⟨?_, fun _ _ hmem ↦ ?_⟩
  · simp [namesReady, answered, List.filterMap_map]
  · obtain ⟨p, -, heq⟩ := List.mem_map.mp hmem
    cases heq

/-- **A step** keeps the ledger, and answers the right requests. -/
theorem answering_step {input : CslaveInput} (h : cslave m input = .ok (m', out)) :
    Answering m out m' := by
  cases cslave_cases h with
  | request command localname => exact answering_request m command localname
  | text command => exact answering_text m command
  | package package hreading => exact answering_package hreading package
  | masterLost hreading => exact answering_masterLost hreading
  | opened fd hcall =>
    refine (resume_same hcall).answering ?_
    cases fd with
    | none => exact silent_nil
    | some fd => exact ⟨rfl, fun _ _ hmem ↦ nomatch List.mem_singleton.mp hmem⟩
  | started ok hcall => exact .of_same (resume_same hcall) (answering_connectStarted _ _ _ ok)
  | namesReady => exact answering_namesReady m
  | next | accept | lost =>
    exact Same.answering ⟨rfl, rfl, rfl, rfl, rfl, Iff.rfl, rfl⟩
      ⟨rfl, fun _ _ hmem ↦ nomatch List.mem_singleton.mp hmem⟩
  | acceptStarted _ hstarted =>
    have hsame := started_same hstarted
    exact Same.answering ⟨hsame.slaves, hsame.globalname, hsame.queryname, hsame.monitor,
      hsame.monitorMasterSet, hsame.ended, hsame.requests⟩ silent_nil
  | acceptRead id => exact answering_acceptRead m _ id
  | closed hcloses =>
    refine Same.answering ⟨rfl, rfl, rfl, rfl, rfl, ?_, rfl⟩ silent_nil
    rw [hcloses]
    exact ⟨fun heq ↦ (nomatch heq), fun heq ↦ (nomatch heq)⟩
  | ready | acceptEnded | acceptClosed =>
    exact Same.answering ⟨rfl, rfl, rfl, rfl, rfl, Iff.rfl, rfl⟩ silent_nil
  | lostElsewhere => exact (Same.refl m).answering silent_nil

/-! ## Runs -/

abbrev CslaveEvent := Event Cslave CslaveInput (List CslaveEffect)

variable {tr : List CslaveEvent}

theorem ledger (hrun : Run cslave init tr m) : Ledger (tr.flatMap Event.output) m := by
  refine hrun.ledger (C := fun _ _ ↦ True)
    (fun tr m ↦ Ledger (tr.flatMap Event.output) m) ledger_init
    (fun {tr m input m' out} _ h _ hm ↦ ?_) fun _ _ ↦ trivial
  rw [List.flatMap_append, List.flatMap_singleton]
  exact (answering_step hm).ledger _ h

/-- **Nothing waits for what has happened**: in every reachable state the requests in `monitor[id]`
are the ones that wait for a change, no request waits for a name that is known, no request has been
answered twice, and those that have waited for a name have been told the address it had at that
moment. -/
theorem waits_exact (hrun : Run cslave init tr m) :
    m.Waits ∧ (answered (tr.flatMap Event.output)).Nodup ∧
      ∀ e ∈ tr, ∀ name r result, r ∈ e.pre.queryname name → .response r result ∈ e.output →
        ∃ address, result = some address ∧ e.post.globalname.lookup name = some address := by
  refine ⟨(ledger hrun).waits, (ledger hrun).served.once, ?_⟩
  have hboth := hrun.ledger (C := fun _ _ ↦ True) (fun tr m ↦ Ledger (tr.flatMap Event.output) m ∧
      ∀ e ∈ tr, (∃ l, Ledger l e.pre) ∧ Answering e.pre e.output e.post)
    ⟨ledger_init, fun e he ↦ nomatch he⟩ ?_ fun _ _ ↦ trivial
  · intro e he name r result hwaiting hresponse
    obtain ⟨⟨l, hl⟩, hanswering⟩ := hboth.2 e he
    -- a request waits in the queue of its own command, so only the name itself can answer it
    have hcommand := (hl.waits.named r hwaiting).1
    cases hanswering.answers r result hresponse with
    | new hnew =>
      have hlt := hl.served.waiting_lt (p := .queryname name) (List.mem_map_of_mem hwaiting)
      omega
    | @slave id hmem =>
      cases hid : e.pre.slaves id with
      | socket fd =>
        rw [hl.waits.linked hid r hmem] at hcommand
        cases hcommand
      | unknown | gone =>
        rw [hl.waits.unlinked (fun fd hfd ↦ by rw [hid] at hfd; cases hfd) r hmem] at hcommand
        cases hcommand
    | @name name' address hmem hresult hlookup =>
      rw [(hl.waits.named r hmem).1] at hcommand
      cases hcommand
      exact ⟨address, hresult, hlookup⟩
    | master hmem =>
      rw [hl.waits.mastered r hmem] at hcommand
      cases hcommand
  · rintro tr s i s' o - ⟨hs, hall⟩ - hm
    have hstep := answering_step hm
    refine ⟨?_, fun e he ↦ ?_⟩
    · rw [List.flatMap_append, List.flatMap_singleton]
      exact hstep.ledger _ hs
    · rcases List.mem_append.mp he with he | he
      · exact hall e he
      · rw [List.mem_singleton.mp he]
        exact ⟨⟨_, hs⟩, hstep⟩

/-- Requests that wait for a slave to come, for a name, and for the slave to go. -/
theorem waits_exact_three : ∃ tr m, Run cslave init tr m ∧ m.Waits ∧
    answered (tr.flatMap Event.output) = [1, 0, 2] := by
  have hpasses : Passes cslave init
      [.request (.connect 2) none, .request (.queryname [97]) none, .package (.connect 2 []),
        .package (.name [97] 7), .ready, .next 2, .opened true (some 4), .started true true,
        .request (.link 2) none, .text [68, 32, 50]]
      fun tr _ ↦ answered (tr.flatMap Event.output) = [1, 0, 2] := by decide +kernel
  obtain ⟨tr, m, hrun, hanswered⟩ := Run.of_passes hpasses
  exact ⟨tr, m, hrun, (waits_exact hrun).1, hanswered⟩

end Cslave

end ZTask
