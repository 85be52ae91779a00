import ZTask.Lib.Machine
import Mathlib.Data.List.Basic
import Mathlib.Logic.Function.Basic

/-!
# The coroutines of a Lua service

`ztask.lua`: what `dispatch_message`, `suspend` and the functions that coroutines call do with the
tables of a service.

A step is a message, one thing that the running coroutine does, or the next entry of `fork_queue`.
When a coroutine gives way, `suspend` looks for a coroutine to wake (`dispatch_wakeup`) and then for
a call to fail (`dispatch_error_queue`), each in a call of `suspend` of its own; `depth` is the
number of calls of `dispatch_error_queue` that are still to be made when the innermost one returns.
An error in `suspend` leaves all of them.

Coroutines, sessions and the closures of `ztask.response` are numbered as they come. What the
coroutines do, and in which order the entries of `fork_queue` come, is up to the environment, and so
is whether `co_create` finds a coroutine in the pool, whose entries are weak. A request with a
session comes from a service, so that sending to its address does not raise an error.
-/

namespace ZTask

open Lib

/-- Where a coroutine is. -/
inductive CoroutineState
  /-- `co_create` has returned it. -/
  | ready
  | running
  /-- It is in `ztask.sleep`. -/
  | sleeping (session : ℕ)
  /-- It is in `ztask.wait(co)`. -/
  | waiting (session : ℕ) (co : ℕ)
  /-- It is in `ztask.call` or `ztask.yield`. -/
  | calling (session : ℕ)
  /-- It has yielded something else, and nobody is to resume it. -/
  | stuck
  /-- Its function has returned. -/
  | pooled
  /-- It has been resumed although its function had returned; it has no function to call. -/
  | spoiled
  | dead
deriving DecidableEq, Repr

/-- Its function has been called, and has neither returned nor raised an error. -/
def CoroutineState.started : CoroutineState → Bool
  | .running | .sleeping _ | .waiting _ _ | .calling _ | .stuck => true
  | .ready | .pooled | .spoiled | .dead => false

/-- The variable `f` of a closure of `ztask.response`: a function, `false` or `nil`. -/
inductive ResponseState
  | pending
  | refused
  | done
deriving DecidableEq, Repr

structure ResponseClosure where
  address : ℕ
  f : ResponseState
deriving DecidableEq, Repr

/-- Where `dispatch_message` is. -/
inductive DispatchControl
  /-- It is not running. -/
  | idle
  /-- It is in the loop over `fork_queue`. -/
  | forks
  /-- A coroutine runs. -/
  | running (co depth : ℕ)
deriving DecidableEq, Repr

structure LuaService where
  /-- No coroutine stands for `"BREAK"`. -/
  sessionIdCoroutine : ℕ → Option (Option ℕ)
  sessionCoroutineId : ℕ → Option ℕ
  sessionCoroutineAddress : ℕ → Option ℕ
  sessionResponse : ℕ → Bool
  wakeupQueue : List ℕ
  sleepSession : ℕ → Option ℕ
  watchingService : ℕ → Option ℕ
  watchingSession : ℕ → Option ℕ
  deadService : ℕ → Bool
  errorQueue : List ℕ
  forkQueue : List ℕ
  coroutinePool : List ℕ
  state : ℕ → CoroutineState
  coroutines : ℕ
  response : ℕ → ResponseClosure
  responses : ℕ
  sessions : ℕ
  control : DispatchControl
  /-- No call in `dispatch_message` has failed. -/
  succ : Bool

inductive DispatchInput
  /-- A message of `PTYPE_RESPONSE`. -/
  | response (session : ℕ)
  /-- A message with a dispatch function, for which `co_create` returns a coroutine from the pool or
  a new one, and whose `unpack` raises an error or not. -/
  | request (session source : ℕ) (reuse : Option ℕ) (unpacks : Bool)
  /-- A message without a dispatch function. -/
  | unknown (session : ℕ)
  /-- The loop over `fork_queue` comes to this entry. -/
  | forked (co : ℕ)
  /-- `fork_queue` is empty. -/
  | returns
  /-- What the running coroutine does. -/
  | wakeup (co : ℕ)
  | fork (reuse : Option ℕ)
  | timeout (reuse : Option ℕ)
  | errorDispatch (errorSession errorSource : ℕ)
  /-- A closure of `ztask.response` is called with `"TEST"`. -/
  | test (k : ℕ)
  /-- A closure of `ztask.response` is called; the function that packs may raise an error. -/
  | respond (k : ℕ) (packs : Bool)
  | sleep
  | wait (co : ℕ)
  | call (address : ℕ)
  | ret
  /-- `ztask.response` -/
  | makeResponse
  | exit
  /-- The function of the coroutine returns. -/
  | finish
  /-- The coroutine raises an error. -/
  | raise
  /-- The coroutine yields nothing, which is for debugging, or a command that there is not. -/
  | yield (command : Bool)
deriving DecidableEq, Repr

inductive DispatchOutput
  | silent
  /-- `ztask.wakeup` has succeeded; the session is that of the sleep of the coroutine. -/
  | wakes (co session : ℕ)
  /-- `dispatch_wakeup` has taken the coroutine from the queue and ended its sleep, if it has one.
  -/
  | wakened (co : ℕ) (session : Option ℕ)
  /-- `dispatch_message` returns, or raises an error. -/
  | returns (succ : Bool)
deriving DecidableEq, Repr

inductive DispatchFault
  /-- This cannot happen now. -/
  | impossible
deriving DecidableEq, Repr

/-- What a coroutine does when it is resumed, before it runs code that is not in the module. -/
inductive Resumed
  | runs (m : LuaService)
  /-- It yields nothing. -/
  | yields (m : LuaService)
  /-- It raises an error, or cannot be resumed. -/
  | fails (m : LuaService)

namespace LuaService

/-- The service at the end of `ztask.start`. -/
def init : LuaService where
  sessionIdCoroutine := Function.update (fun _ ↦ none) 0 (some (some 0))
  sessionCoroutineId _ := none
  sessionCoroutineAddress _ := none
  sessionResponse _ := false
  wakeupQueue := []
  sleepSession _ := none
  watchingService _ := none
  watchingSession _ := none
  deadService _ := false
  errorQueue := []
  forkQueue := []
  coroutinePool := []
  state := Function.update (fun _ ↦ .dead) 0 .ready
  coroutines := 1
  response _ := ⟨0, .done⟩
  responses := 0
  sessions := 1
  control := .idle
  succ := true

def setState (m : LuaService) (co : ℕ) (x : CoroutineState) : LuaService :=
  { m with state := Function.update m.state co x }

def setSession (m : LuaService) (session : ℕ) (x : Option (Option ℕ)) : LuaService :=
  { m with sessionIdCoroutine := Function.update m.sessionIdCoroutine session x }

def setSleep (m : LuaService) (co : ℕ) (session : Option ℕ) : LuaService :=
  { m with sleepSession := Function.update m.sleepSession co session }

/-! ## Coroutines -/

/-- `co_create` -/
def coCreate (m : LuaService) : Option ℕ → Option (ℕ × LuaService)
  | none => some (m.coroutines,
    { m.setState m.coroutines .ready with coroutines := m.coroutines + 1 })
  | some co =>
    if co ∈ m.coroutinePool then
      -- one that has been resumed in the pool calls what it has got instead of a function
      some (co, { m.setState co (if m.state co = .pooled then .ready else .dead) with
        coroutinePool := m.coroutinePool.erase co })
    else none

/-- `coroutine_resume` -/
def coroutineResume (m : LuaService) (co : ℕ) : Resumed :=
  match m.state co with
  | .sleeping _ => .runs ((m.setState co .running).setSleep co none)
  | .waiting session co' => .runs
      (((m.setState co .running).setSleep co' none).setSession session none)
  | .calling session =>
    .runs { m.setState co .running
      with watchingSession := Function.update m.watchingSession session none }
  | .ready | .stuck => .runs (m.setState co .running)
  | .pooled => .yields (m.setState co .spoiled)
  | .spoiled => .fails (m.setState co .dead)
  | .running | .dead => .fails m

/-! ## `suspend` -/

/-- The outermost call of `suspend` has returned. -/
def finished (m : LuaService) : LuaService := { m with control := .forks }

/-- An error has come to `dispatch_message`. -/
def failed (m : LuaService) : LuaService := { m with control := .forks, succ := false }

/-- The first lines of `suspend`, after an error in the coroutine. -/
def fail (m : LuaService) (co : ℕ) : LuaService :=
  match m.sessionCoroutineId co with
  | some _ =>
    failed { m with
      sessionCoroutineId := Function.update m.sessionCoroutineId co none
      sessionCoroutineAddress := Function.update m.sessionCoroutineAddress co none }
  | none => m.failed

/-- `dispatch_error_queue`, and the calls of it that follow. -/
def dispatchErrorQueue (depth : ℕ) (m : LuaService) : LuaService :=
  match m.errorQueue with
  | [] => m.finished
  | session :: rest =>
    let found := m.sessionIdCoroutine session
    let m := { m.setSession session none with errorQueue := rest }
    match found with
    | some (some co) =>
      match m.coroutineResume co with
      | .runs m => { m with control := .running co depth }
      | .fails m => m.fail co
      | .yields m =>
        match depth with
        | 0 => m.finished
        | depth + 1 => dispatchErrorQueue depth m
    -- there is no coroutine to resume
    | _ => m.failed

/-- `suspend` returns at once. -/
def leave (m : LuaService) : ℕ → LuaService
  | 0 => m.finished
  | depth + 1 => m.dispatchErrorQueue depth

/-- `suspend(co, coroutine_resume(co, ..))` -/
def resume (m : LuaService) (co depth : ℕ) : LuaService :=
  match m.coroutineResume co with
  | .runs m => { m with control := .running co depth }
  | .fails m => m.fail co
  | .yields m => m.leave depth

/-- The last lines of `suspend`: `dispatch_wakeup` and `dispatch_error_queue`. -/
def dispatchWakeup (m : LuaService) (depth : ℕ) : LuaService × DispatchOutput :=
  match m.wakeupQueue with
  | [] => (m.dispatchErrorQueue depth, .silent)
  | co :: rest =>
    let m := { m with wakeupQueue := rest }
    match m.sleepSession co with
    | none => (m.dispatchErrorQueue depth, .wakened co none)
    | some session =>
      ((m.setSession session (some none)).resume co (depth + 1), .wakened co (some session))

/-! ## Watching -/

/-- `release_watching` -/
def releaseWatching (m : LuaService) (address : ℕ) : LuaService :=
  match m.watchingService address with
  | none => m
  | some ref =>
    let left := if ref - 1 > 0 then some (ref - 1) else none
    { m with watchingService := Function.update m.watchingService address left }

def setResponse (m : LuaService) (k : ℕ) (f : ResponseState) : LuaService :=
  { m with response := Function.update m.response k { m.response k with f := f } }

/-- A closure that is called with `"TEST"`. -/
def testResponse (m : LuaService) (k : ℕ) : LuaService :=
  if m.deadService (m.response k).address then
    (m.releaseWatching (m.response k).address).setResponse k .refused
  else m

/-- A closure that is called otherwise. A call after the first one raises an error, which is for the
running coroutine to handle. -/
def callResponse (m : LuaService) (k : ℕ) (packs : Bool) : LuaService :=
  match (m.response k).f with
  | .done => m
  | .refused => m.setResponse k .done
  | .pending => if packs then (m.releaseWatching (m.response k).address).setResponse k .done else m

/-- The loop over `unresponse` in `ztask.exit`. -/
def refuseAll : ℕ → LuaService → LuaService
  | 0, m => m
  | k + 1, m =>
    let m := refuseAll k m
    if (m.response k).f = .pending then m.callResponse k true else m

/-- `_error_dispatch`; `pairs` goes through the sessions given so far. -/
def errorDispatch (m : LuaService) (errorSession errorSource : ℕ) : LuaService :=
  if errorSession = 0 then
    { m with
      deadService := if (m.watchingService errorSource).isSome then
        Function.update m.deadService errorSource true else m.deadService
      errorQueue := m.errorQueue ++
        (List.range m.sessions).filter fun session ↦ m.watchingSession session = some errorSource }
  else if (m.watchingSession errorSession).isSome then
    { m with errorQueue := m.errorQueue ++ [errorSession] }
  else m

/-! ## The commands -/

/-- `"SLEEP"`, in a new session. -/
def commandSleep (m : LuaService) (co depth : ℕ) (x : CoroutineState) :
    LuaService × DispatchOutput :=
  let session := m.sessions
  let m := ((m.setState co x).setSession session (some (some co))).setSleep co (some session)
  dispatchWakeup { m with sessions := session + 1 } depth

/-- `"CALL"`, in a new session. -/
def commandCall (m : LuaService) (co depth address : ℕ) : LuaService × DispatchOutput :=
  let session := m.sessions
  let m := (m.setState co (.calling session)).setSession session (some (some co))
  let watching := Function.update m.watchingSession session (some address)
  dispatchWakeup { m with watchingSession := watching, sessions := session + 1 } depth

/-- `"RETURN"` -/
def commandReturn (m : LuaService) (co : ℕ) : LuaService :=
  if m.sessionCoroutineId co = some 0 then m
  else if m.sessionResponse co then (m.setState co .stuck).failed
  else
    let m := { m with sessionResponse := Function.update m.sessionResponse co true }
    match m.sessionCoroutineAddress co with
    | some _ => m
    -- there is no address to send to
    | none => (m.setState co .stuck).failed

/-- `"RESPONSE"` -/
def commandResponse (m : LuaService) (co : ℕ) : LuaService :=
  if m.sessionResponse co then (m.setState co .stuck).failed
  else
    match m.sessionCoroutineAddress co with
    | none => (m.setState co .stuck).failed
    | some address =>
      match m.watchingService address with
      | none => (m.setState co .stuck).failed
      | some ref =>
        { m with
          watchingService := Function.update m.watchingService address (some (ref + 1))
          sessionResponse := Function.update m.sessionResponse co true
          response := Function.update m.response m.responses ⟨address, .pending⟩
          responses := m.responses + 1 }

/-- `"EXIT"` -/
def commandExit (m : LuaService) (co depth : ℕ) : LuaService × DispatchOutput :=
  let m := { m.setState co .pooled with coroutinePool := m.coroutinePool ++ [co] }
  match m.sessionCoroutineAddress co with
  | none => m.dispatchWakeup depth
  | some address =>
    let m := m.releaseWatching address
    dispatchWakeup { m with
      sessionCoroutineId := Function.update m.sessionCoroutineId co none
      sessionCoroutineAddress := Function.update m.sessionCoroutineAddress co none
      sessionResponse := Function.update m.sessionResponse co false } depth

/-- The running coroutine does something; an input that is not one of these cannot happen. -/
def act (m : LuaService) (co depth : ℕ) : DispatchInput → Option (LuaService × DispatchOutput)
  | .wakeup co' =>
    match m.sleepSession co' with
    | some session => some ({ m with wakeupQueue := m.wakeupQueue ++ [co'] }, .wakes co' session)
    | none => some (m, .silent)
  | .fork reuse =>
    (m.coCreate reuse).map fun (co', m) ↦ ({ m with forkQueue := m.forkQueue ++ [co'] }, .silent)
  | .timeout reuse =>
    (m.coCreate reuse).map fun (co', m) ↦
      ({ m.setSession m.sessions (some (some co')) with sessions := m.sessions + 1 }, .silent)
  | .errorDispatch errorSession errorSource =>
      some (m.errorDispatch errorSession errorSource, .silent)
  | .test k => if k < m.responses then some (m.testResponse k, .silent) else none
  | .respond k packs => if k < m.responses then some (m.callResponse k packs, .silent) else none
  | .sleep => some (m.commandSleep co depth (.sleeping m.sessions))
  | .wait co' => some (m.commandSleep co depth (.waiting m.sessions co'))
  | .call address => some (m.commandCall co depth address)
  | .ret => some (m.commandReturn co, .silent)
  | .makeResponse => some (m.commandResponse co, .silent)
  | .exit =>
    let m := refuseAll m.responses { m with forkQueue := [] }
    some ((m.setState co .stuck).leave depth, .silent)
  | .finish => some (m.commandExit co depth)
  | .raise => some ((m.setState co .dead).fail co, .silent)
  | .yield command =>
    let m := m.setState co .stuck
    some (if command then m.failed else m.leave depth, .silent)
  | .response _ | .request _ _ _ _ | .unknown _ | .forked _ | .returns => none

/-- `raw_dispatch_message` -/
def rawDispatchMessage (m : LuaService) : DispatchInput → Option LuaService
  | .response session =>
    match m.sessionIdCoroutine session with
    | some none => some (m.setSession session none).finished
    -- `unknown_response`
    | none => some m.failed
    | some (some co) => some ((m.setSession session none).resume co 0)
  | .request session source reuse unpacks =>
    let ref := match m.watchingService source with
      | some ref => ref + 1
      | none => 1
    let m := { m with watchingService := Function.update m.watchingService source (some ref) }
    (m.coCreate reuse).map fun (co, m) ↦
      let m := { m with
        sessionCoroutineId := Function.update m.sessionCoroutineId co (some session)
        sessionCoroutineAddress := Function.update m.sessionCoroutineAddress co (some source) }
      if unpacks then m.resume co 0 else m.failed
  | .unknown session => some (if session ≠ 0 then m.finished else m.failed)
  | _ => none

end LuaService

/-- The service. -/
def luaService : Machine LuaService DispatchInput DispatchOutput DispatchFault := fun m i ↦
  match m.control with
  | .idle =>
    match LuaService.rawDispatchMessage { m with succ := true } i with
    | some m => .ok (m, .silent)
    | none => .error .impossible
  | .forks =>
    match i with
    | .forked co =>
      if co ∈ m.forkQueue then
        .ok (LuaService.resume { m with forkQueue := m.forkQueue.erase co } co 0, .silent)
      else .error .impossible
    | .returns =>
      if m.forkQueue = [] then .ok ({ m with control := .idle }, .returns m.succ)
      else .error .impossible
    | _ => .error .impossible
  | .running co depth =>
    match m.act co depth i with
    | some p => .ok p
    | none => .error .impossible

abbrev DispatchEvent := Event LuaService DispatchInput DispatchOutput

end ZTask
