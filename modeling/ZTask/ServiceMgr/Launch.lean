import Mathlib.Data.Int.Notation
import ZTask.Lib.Machine

/-!
# The manager of unique services

`service_mgr.lua`. A request runs in a coroutine of its own: it finds the handle, or the error, of
the name it asks for, or calls the launch function if no one has, or waits in the list of the name
until the function has returned. The coroutines woken then run before the next message is dispatched
(`dispatch_wakeup` in `ztask.lua`), so that the end of the function is one step.

A request is identified by its coroutine, and coroutines by the order in which requests arrive. The
position in the source that `error` puts in front of a text is left out: those who wait and those
who ask later get the text of the function, each with the place where it is raised for them.
-/

namespace ZTask

open Lib

/-- A handle, or the text of an error. -/
abbrev LaunchResult := Except (List UInt8) ℤ

/-- An entry of `service`. -/
inductive ServiceSlot
  | absent
  /-- A list of coroutines, with its field `launch`. -/
  | pending (launch : Bool) (s : List ℕ)
  /-- A number, or a string. -/
  | launched (result : LaunchResult)

/-- Where the coroutine of a request is suspended. -/
inductive ServiceThread
  /-- In `func`, called by `request`. -/
  | request (name : List UInt8)
  /-- In `ztask.wait`, called by `waitfor`. -/
  | waitfor (name : List UInt8)
deriving DecidableEq, Repr

/-- What others see. -/
inductive ServiceEffect
  /-- `func` is called. -/
  | call (name : List UInt8)
  /-- A request is answered. -/
  | ret (co : ℕ) (result : LaunchResult)

structure ServiceMgr where
  service : List UInt8 → ServiceSlot
  threads : ℕ → Option ServiceThread
  /-- The number of requests so far, which is the coroutine of the next one. -/
  requests : ℕ

/-- What happens to the manager. -/
inductive ServiceInput
  /-- `LAUNCH` and `QUERY`; the latter comes without a function. -/
  | request (name : List UInt8) (func : Bool)
  /-- The function that a coroutine has called returns, or raises an error. -/
  | finish (co : ℕ) (result : LaunchResult)
deriving DecidableEq

/-- What should not happen. -/
inductive ServiceFault
  /-- An assertion fails. -/
  | assertion
  /-- A coroutine is woken that does not wait. -/
  | awake
  /-- A function returns that was not called. -/
  | notCalled
deriving DecidableEq, Repr

namespace ServiceMgr

def init : ServiceMgr := ⟨fun _ ↦ .absent, fun _ ↦ none, 0⟩

/-- The rest of `waitfor` for a table `s`. -/
def join (m : ServiceMgr) (co : ℕ) (name : List UInt8) (func launch : Bool) (s : List ℕ) :
    ServiceMgr × List ServiceEffect :=
  if launch = false ∧ func = true then
    ({ m with
      service := Function.update m.service name (.pending true s)
      threads := Function.update m.threads co (some (.request name)) }, [.call name])
  else
    ({ m with
      service := Function.update m.service name (.pending launch (s ++ [co]))
      threads := Function.update m.threads co (some (.waitfor name)) }, [])

def waitfor (m : ServiceMgr) (co : ℕ) (name : List UInt8) (func : Bool) :
    ServiceMgr × List ServiceEffect :=
  match m.service name with
  | .launched result => (m, [.ret co result])
  | .absent => m.join co name func false []
  | .pending launch s => m.join co name func launch s

/-- The coroutines that have been woken go on with `waitfor`, one after the other. -/
def dispatchWakeup : List ℕ → ServiceMgr → Except ServiceFault (ServiceMgr × List ServiceEffect)
  | [], m => .ok (m, [])
  | co :: queue, m =>
    match m.threads co with
    | some (.waitfor name) =>
      match m.service name with
      | .launched result =>
        match dispatchWakeup queue { m with threads := Function.update m.threads co none } with
        | .ok (m', effects) => .ok (m', .ret co result :: effects)
        | .error e => .error e
      | _ => .error .assertion
    | _ => .error .awake

/-- `request`, after `func` has returned. -/
def request (m : ServiceMgr) (co : ℕ) (name : List UInt8) (result : LaunchResult) :
    Except ServiceFault (ServiceMgr × List ServiceEffect) :=
  match m.service name with
  | .pending _ s =>
    match dispatchWakeup s { m with
      service := Function.update m.service name (.launched result)
      threads := Function.update m.threads co none } with
    | .ok (m', effects) => .ok (m', .ret co result :: effects)
    | .error e => .error e
  | _ => .error .assertion

end ServiceMgr

/-- The manager, one message at a time. -/
def serviceMgr : Machine ServiceMgr ServiceInput (List ServiceEffect) ServiceFault := fun m input ↦
  match input with
  | .request name func => .ok ({ m with requests := m.requests + 1 }.waitfor m.requests name func)
  | .finish co result =>
    match m.threads co with
    | some (.request name) => m.request co name result
    | _ => .error .notCalled

namespace ServiceMgr

abbrev ServiceEvent := Event ServiceMgr ServiceInput (List ServiceEffect)

/-! ## What is asked and answered in a run -/

/-- The requests for a name. -/
def callers (tr : List ServiceEvent) (name : List UInt8) : List ℕ :=
  tr.filterMap fun e ↦
    match e.input with
    | .request name' _ => if name' = name then some e.pre.requests else none
    | .finish _ _ => none

/-- The answers to a request. -/
def answers (effects : List ServiceEffect) (co : ℕ) : List LaunchResult :=
  effects.filterMap fun effect ↦
    match effect with
    | .ret co' result => if co' = co then some result else none
    | .call _ => none

/-- The calls of the function for a name. -/
def calls (effects : List ServiceEffect) (name : List UInt8) : ℕ :=
  effects.countP fun effect ↦
    match effect with
    | .call name' => decide (name' = name)
    | .ret _ _ => false

def effects (tr : List ServiceEvent) : List ServiceEffect := tr.flatMap Event.output

@[simp] theorem effects_concat (tr : List ServiceEvent) (e : ServiceEvent) :
    effects (tr ++ [e]) = effects tr ++ e.output := by
  rw [effects, effects, List.flatMap_append, List.flatMap_singleton]

@[simp] theorem answers_append (l l' : List ServiceEffect) (co : ℕ) :
    answers (l ++ l') co = answers l co ++ answers l' co := List.filterMap_append

@[simp] theorem calls_append (l l' : List ServiceEffect) (name : List UInt8) :
    calls (l ++ l') name = calls l name + calls l' name := List.countP_append

@[simp] theorem callers_finish (tr : List ServiceEvent) (m m' : ServiceMgr) (co : ℕ)
    (result : LaunchResult) (out : List ServiceEffect) (name : List UInt8) :
    callers (tr ++ [⟨m, .finish co result, out, m'⟩]) name = callers tr name := by
  simp [callers, List.filterMap_append]

@[simp] theorem callers_request (tr : List ServiceEvent) (m m' : ServiceMgr) (name : List UInt8)
    (func : Bool) (out : List ServiceEffect) (name' : List UInt8) :
    callers (tr ++ [⟨m, .request name func, out, m'⟩]) name' =
      callers tr name' ++ if name = name' then [m.requests] else [] := by
  rw [callers, List.filterMap_append]
  refine congrArg (callers tr name' ++ ·) ?_
  by_cases hname : name = name' <;> simp [hname]

variable {m m' : ServiceMgr} {tr : List ServiceEvent} {name : List UInt8} {co : ℕ}
  {result : LaunchResult} {out : List ServiceEffect}

/-- The list of a name, which is made when there is none. -/
def Listed (m : ServiceMgr) (name : List UInt8) (launch : Bool) (s : List ℕ) : Prop :=
  m.service name = .pending launch s ∨ m.service name = .absent ∧ launch = false ∧ s = []

/-- The ways a request goes. -/
inductive WaitforStep (m : ServiceMgr) (co : ℕ) (name : List UInt8) :
    ServiceMgr → List ServiceEffect → Prop
  | known {result : LaunchResult} : m.service name = .launched result →
      WaitforStep m co name m [.ret co result]
  | called {s : List ℕ} : m.Listed name false s →
      WaitforStep m co name { m with
        service := Function.update m.service name (.pending true s)
        threads := Function.update m.threads co (some (.request name)) } [.call name]
  | waiting {launch : Bool} {s : List ℕ} : m.Listed name launch s →
      WaitforStep m co name { m with
        service := Function.update m.service name (.pending launch (s ++ [co]))
        threads := Function.update m.threads co (some (.waitfor name)) } []

private theorem join_cases {func launch : Bool} {s : List ℕ} (h : m.Listed name launch s) :
    WaitforStep m co name (m.join co name func launch s).1 (m.join co name func launch s).2 := by
  rw [join]
  split
  next hfirst =>
    rw [hfirst.1] at h
    exact .called h
  next => exact .waiting h

theorem waitfor_cases (m : ServiceMgr) (co : ℕ) (name : List UInt8) (func : Bool) :
    WaitforStep m co name (m.waitfor co name func).1 (m.waitfor co name func).2 := by
  rw [waitfor]
  cases hslot : m.service name with
  | launched result => exact .known hslot
  | absent => exact join_cases (.inr ⟨hslot, rfl, rfl⟩)
  | pending launch s => exact join_cases (.inl hslot)

/-- The coroutines of a list go on, and each is answered. -/
theorem dispatchWakeup_launched (queue : List ℕ) (hnodup : queue.Nodup)
    (hservice : m.service name = .launched result)
    (hqueue : ∀ co ∈ queue, m.threads co = some (.waitfor name)) :
    dispatchWakeup queue m = .ok
      ({ m with threads := fun co ↦ if co ∈ queue then none else m.threads co },
        queue.map fun co ↦ .ret co result) := by
  induction queue generalizing m with
  | nil => simp [dispatchWakeup]
  | cons co queue ih =>
    obtain ⟨hco, hnodup⟩ := List.nodup_cons.mp hnodup
    have hrest : ∀ co' ∈ queue,
        Function.update m.threads co none co' = some (.waitfor name) := by
      intro co' hco'
      have hne : co' ≠ co := fun heq ↦ hco (heq ▸ hco')
      rw [Function.update_of_ne hne]
      exact hqueue co' (List.mem_cons_of_mem co hco')
    have hwoken := @ih { m with threads := Function.update m.threads co none } hnodup hservice hrest
    have hthreads : (fun co' ↦ if co' ∈ queue then none
        else Function.update m.threads co none co') =
          fun co' ↦ if co' ∈ co :: queue then none else m.threads co' := by
      funext co'
      by_cases hsame : co' = co
      · subst hsame
        rw [if_neg hco, Function.update_self, if_pos List.mem_cons_self]
      · rw [Function.update_of_ne hsame]
        simp only [List.mem_cons, hsame, false_or]
    rw [dispatchWakeup, hqueue co List.mem_cons_self]
    simp only [hservice, hwoken, hthreads, List.map_cons]

theorem answers_map_ret (queue : List ℕ) (hnodup : queue.Nodup) (result : LaunchResult) (co : ℕ) :
    answers (queue.map fun co ↦ .ret co result) co = if co ∈ queue then [result] else [] := by
  induction queue with
  | nil => rfl
  | cons co' queue ih =>
    obtain ⟨hco', hnodup⟩ := List.nodup_cons.mp hnodup
    have htail := ih hnodup
    rw [List.map_cons, answers, List.filterMap_cons]
    by_cases hsame : co' = co
    · subst hsame
      rw [if_neg hco'] at htail
      rw [answers] at htail
      simp only [if_true, htail, List.mem_cons_self]
    · rw [answers] at htail
      simp only [if_neg hsame, htail, List.mem_cons, Ne.symm hsame, false_or]

theorem calls_map_ret (queue : List ℕ) (result : LaunchResult) (name : List UInt8) :
    calls (queue.map fun co ↦ .ret co result) name = 0 := by
  induction queue with
  | nil => rfl
  | cons co queue ih => simp [calls]

end ServiceMgr

end ZTask
