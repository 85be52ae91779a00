import ZTask.Lib.Machine
import ZTask.Lib.Word
import ZTask.Seri.Value
import Mathlib.Logic.Function.Basic

/-!
# A channel in order mode

`socketchannel`, for a channel without `response` in its description: requests are written to a
socket by any number of coroutines, and one coroutine, the dispatcher, reads the responses in the
order of the requests. Each request has a function that reads its response, or a part of it, from
the socket.

A step is what happens between two points at which a coroutine gives way: in `ztask.wait`, while a
response function reads, and in `socket.close`. Each connection has a dispatcher of its own,
numbered as they come, and one may outlive its connection: it waits for a request, reads, or closes
a socket.

What a response function returns is up to the environment. Requests are numbered by the sessions in
which they wait.
-/

namespace ZTask

open Lib

/-- `result_ok`, as far as it is looked at. -/
inductive ResultOk
  | no
  | yes
  | socketError
deriving DecidableEq, Repr

/-- `result_data`: a value, or the table in which the parts of a response are collected. -/
inductive ResultData
  | value (v : LuaData)
  | parts (l : List LuaData)

/-- What `wait_for_response` does. -/
inductive Received
  | returns (data : ResultData)
  | raises (data : ResultData)
  | raisesSocketError

/-- What a response function returns. -/
structure ResponsePart where
  ok : ResultOk
  data : LuaData
  padding : Bool

/-- How the call of a response function ends; an error without a value is `socket_error`. -/
inductive ResponseOutcome
  | returns (part : ResponsePart)
  | error (err : Option LuaData)

/-- A request that has been written, with the session in which it waits. -/
structure IssuedRequest (Co Func : Type) where
  session : ℕ
  co : Co
  func : Func
deriving DecidableEq

/-- Where a coroutine is that uses the channel. -/
inductive Requester
  | idle
  /-- It waits in `wait_for_response`. -/
  | waiting (session : ℕ)
  /-- It has been woken, and does not run yet. -/
  | woken (session : ℕ)
  /-- It closes the socket because it cannot write. -/
  | failing
  /-- It closes the socket in `channel:close`, which found this dispatcher. -/
  | closing (thread : Option ℕ)
deriving DecidableEq

/-- Where a dispatcher is. -/
inductive ChannelDispatcher (Co Func : Type)
  /-- It comes to the head of its loop. -/
  | looping
  /-- It waits in `pop_response`. -/
  | waiting
  | woken
  /-- It is in a response function. -/
  | calling (func : Option Func) (co : Co)
  /-- It closes the socket after an error in the response function. -/
  | closing (co : Co) (errmsg : LuaData)
  | exited

structure SocketChannel (Co Func : Type) where
  sock : Bool
  closed : Bool
  /-- `__request`; the close signal has no function. -/
  request : List (Option Func)
  /-- `__thread`; the close signal has no coroutine. -/
  thread : List (Option Co)
  result : Co → ResultOk
  resultData : Co → ResultData
  waitResponse : Option ℕ
  dispatchThread : Option ℕ
  dispatcher : ℕ → ChannelDispatcher Co Func
  connections : ℕ
  requester : Co → Requester
  sessions : ℕ

inductive ChannelInput (Co Func : Type)
  /-- `connect_once` has a socket. -/
  | connect
  /-- `channel:connect` opens the channel again after `channel:close`. -/
  | reopen
  /-- `channel:request`, which is written to the socket or not. -/
  | request (co : Co) (func : Func) (written : Bool)
  /-- `changehost`, or `check_connection` finds the socket disconnected. -/
  | disconnect
  /-- `channel:close` -/
  | close (co : Co)
  /-- `socket.close` returns to a coroutine. -/
  | closed (co : Co)
  /-- A coroutine runs after it has been woken. -/
  | resume (co : Co)
  /-- A dispatcher runs for the first time, or after it has been woken. -/
  | run (d : ℕ)
  /-- The response function that a dispatcher has called comes to its end. -/
  | responds (d : ℕ) (outcome : ResponseOutcome)
  /-- `socket.close` returns to a dispatcher. -/
  | dispatcherClosed (d : ℕ)

inductive ChannelOutput (Co Func : Type)
  | silent
  | issued (q : IssuedRequest Co Func)
  | received (session : ℕ) (value : Received)
  /-- `socket_error` is raised to the caller of `request`. -/
  | raises

inductive ChannelFault
  /-- The coroutine cannot do this now. -/
  | impossible
  /-- `table.insert` finds something that is not a table of parts. -/
  | notTable

/-! ## Results -/

/-- What counts as true. -/
def ResultOk.truthy (ok : ResultOk) : Bool := ok != .no

namespace ResultData

def nil : ResultData := .value .nil

/-- What counts as true. -/
def truthy : ResultData → Bool
  | .value v => v.truthy
  | .parts _ => true

/-- `table.insert` -/
def insert (v : LuaData) : ResultData → Option ResultData
  | .value _ => none
  | .parts l => some (.parts (if v.isNil then l else l ++ [v]))

end ResultData

/-- The part is not the last of its response. -/
def ResponsePart.more (p : ResponsePart) : Bool := p.padding && p.ok.truthy

/-- The last lines of `wait_for_response`. -/
def receive (result : ResultOk) (data : ResultData) : Received :=
  match result with
  | .socketError => if data.truthy then .raises data else .raisesSocketError
  | .no => .raises data
  | .yes => .returns data

namespace SocketChannel

variable {Co Func : Type} [DecidableEq Co]

def init : SocketChannel Co Func :=
  ⟨false, false, [], [], fun _ ↦ .no, fun _ ↦ .nil, none, none, fun _ ↦ .exited, 0,
    fun _ ↦ .idle, 0⟩

/-! ## The functions -/

def setRequester (m : SocketChannel Co Func) (co : Co) (r : Requester) : SocketChannel Co Func :=
  { m with requester := Function.update m.requester co r }

def setDispatcher (m : SocketChannel Co Func) (d : ℕ) (x : ChannelDispatcher Co Func) :
    SocketChannel Co Func :=
  { m with dispatcher := Function.update m.dispatcher d x }

section

variable {m : SocketChannel Co Func} {co co' : Co} {r : Requester} {d d' : ℕ}
  {x : ChannelDispatcher Co Func}

@[simp] theorem requester_setRequester : (m.setRequester co r).requester co = r :=
  Function.update_self ..

theorem requester_setRequester_of_ne (hne : co' ≠ co) :
    (m.setRequester co r).requester co' = m.requester co' := Function.update_of_ne hne ..

omit [DecidableEq Co] in
@[simp] theorem dispatcher_setDispatcher : (m.setDispatcher d x).dispatcher d = x :=
  Function.update_self ..

omit [DecidableEq Co] in
theorem dispatcher_setDispatcher_of_ne (hne : d' ≠ d) :
    (m.setDispatcher d x).dispatcher d' = m.dispatcher d' := Function.update_of_ne hne ..

end

/-- `ztask.wakeup` of a coroutine in `wait_for_response`, after its result has been set. -/
def answer (m : SocketChannel Co Func) (co : Co) (ok : ResultOk) (data : ResultData) :
    SocketChannel Co Func := { m with
  result := Function.update m.result co ok
  resultData := Function.update m.resultData co data
  requester := match m.requester co with
    | .waiting session => Function.update m.requester co (.woken session)
    | _ => m.requester }

/-- The second loop of `wakeup_all`. -/
def wakeupThreads (errmsg : LuaData) :
    List (Option Co) → SocketChannel Co Func → SocketChannel Co Func
  | [], m => m
  | none :: l, m => wakeupThreads errmsg l m
  | some co :: l, m => wakeupThreads errmsg l (m.answer co .socketError (.value errmsg))

/-- `wakeup_all` -/
def wakeupAll (m : SocketChannel Co Func) (errmsg : LuaData) : SocketChannel Co Func :=
  { wakeupThreads errmsg m.thread m with request := [], thread := [] }

/-- `exit_thread` -/
def exitThread (m : SocketChannel Co Func) (d : ℕ) : SocketChannel Co Func := { m with
  dispatcher := Function.update m.dispatcher d .exited
  dispatchThread := if m.dispatchThread = some d then none else m.dispatchThread }

/-- `ztask.wakeup` of a dispatcher in `pop_response`. -/
def wakeupDispatcher (m : SocketChannel Co Func) (d : ℕ) : SocketChannel Co Func :=
  match m.dispatcher d with
  | .waiting => m.setDispatcher d .woken
  | _ => m

/-- `push_response` -/
def pushResponse (m : SocketChannel Co Func) (response : Option Func) (co : Option Co) :
    SocketChannel Co Func :=
  let m := { m with request := m.request ++ [response], thread := m.thread ++ [co] }
  match m.waitResponse with
  | some d => { m.wakeupDispatcher d with waitResponse := none }
  | none => m

/-- The loop of `dispatch_by_order` from `pop_response` on, up to the call of the response function.
-/
def popResponse (m : SocketChannel Co Func) (d : ℕ) : SocketChannel Co Func :=
  let popped := { m with request := m.request.tail, thread := m.thread.tail }
  match m.request.head?, m.thread.head?.join with
  | none, _ => { popped.setDispatcher d .waiting with waitResponse := some d }
  | some _, none => (popped.wakeupAll (.scalar (.string (ascii "channel_closed")))).exitThread d
  | some func, some co => popped.setDispatcher d (.calling func co)

/-- The loop of `dispatch_by_order`, up to the call of the response function. -/
def dispatch (m : SocketChannel Co Func) (d : ℕ) : SocketChannel Co Func :=
  if m.sock then m.popResponse d else m.exitThread d

/-- The loop of `dispatch_by_order`, after the response function has returned. -/
def respond (m : SocketChannel Co Func) (co : Co) (p : ResponsePart) :
    Option (SocketChannel Co Func) :=
  if p.padding ∧ p.ok.truthy then
    let result := if (m.resultData co).truthy then m.resultData co else .parts []
    (result.insert p.data).map fun result ↦
      { m with resultData := Function.update m.resultData co result }
  else if p.ok.truthy ∧ (m.resultData co).truthy then
    ((m.resultData co).insert p.data).map fun result ↦ m.answer co p.ok result
  else some (m.answer co p.ok (.value p.data))

/-- `ztask.wait`, in a session of its own. -/
def wait (m : SocketChannel Co Func) (co : Co) : SocketChannel Co Func :=
  { m.setRequester co (.waiting m.sessions) with sessions := m.sessions + 1 }

/-- The coroutine that runs after it has been woken takes its result. -/
def take (m : SocketChannel Co Func) (co : Co) : SocketChannel Co Func := { m with
  result := Function.update m.result co .no
  resultData := Function.update m.resultData co .nil
  requester := Function.update m.requester co .idle }

end SocketChannel

/-- The channel. -/
def socketChannel {Co Func : Type} [DecidableEq Co] :
    Machine (SocketChannel Co Func) (ChannelInput Co Func) (ChannelOutput Co Func) ChannelFault :=
  fun m i ↦
  match i with
  | .connect =>
    -- `connect_once` looks at `__closed` before it gives way in `socket.open`
    if m.sock then .error .impossible
    else
      let d := m.connections
      .ok ({ m.setDispatcher d .looping with
        sock := true, dispatchThread := some d, connections := d + 1 }, .silent)
  | .reopen =>
    if m.closed ∧ m.dispatchThread = none then .ok ({ m with closed := false }, .silent)
    else .error .impossible
  | .request co func written =>
    if m.sock ∧ m.requester co = .idle then
      if written then
        .ok ((m.wait co).pushResponse (some func) (some co), .issued ⟨m.sessions, co, func⟩)
      else .ok ({ m.setRequester co .failing with sock := false }, .silent)
    else .error .impossible
  | .disconnect => .ok ({ m with sock := false }, .silent)
  | .close co =>
    if m.requester co = .idle then
      if m.closed then .ok (m, .silent)
      else
        .ok ({ m.setRequester co (.closing m.dispatchThread) with sock := false, closed := true },
          .silent)
    else .error .impossible
  | .closed co =>
    match m.requester co with
    | .failing => .ok ((m.setRequester co .idle).wakeupAll .nil, .raises)
    | .closing thread =>
      let m := m.setRequester co .idle
      if m.dispatchThread = thread ∧ thread.isSome then .ok (m.pushResponse none none, .silent)
      else .ok (m, .silent)
    | _ => .error .impossible
  | .resume co =>
    match m.requester co with
    | .woken session =>
      .ok (m.take co, .received session (receive (m.result co) (m.resultData co)))
    | _ => .error .impossible
  | .run d =>
    match m.dispatcher d with
    | .looping => .ok (m.dispatch d, .silent)
    | .woken => .ok (m.popResponse d, .silent)
    | _ => .error .impossible
  | .responds d (.returns p) =>
    match m.dispatcher d with
    | .calling _ co =>
      match (m.setDispatcher d .looping).respond co p with
      | some m => .ok (m.dispatch d, .silent)
      | none => .error .notTable
    | _ => .error .impossible
  | .responds d (.error err) =>
    match m.dispatcher d with
    | .calling _ co =>
      .ok ({ m.setDispatcher d (.closing co (err.getD .nil)) with sock := false }, .silent)
    | _ => .error .impossible
  | .dispatcherClosed d =>
    match m.dispatcher d with
    | .closing co errmsg =>
      let m := (m.setDispatcher d .looping).answer co .socketError (.value errmsg)
      .ok ((m.wakeupAll errmsg).dispatch d, .silent)
    | _ => .error .impossible

end ZTask
