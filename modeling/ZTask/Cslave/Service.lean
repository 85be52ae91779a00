import ZTask.Harbor.Service
import ZTask.Master.Cmaster
import ZTask.Seri.Pack

/-!
# The slave of a node

`cslave.lua`. Every node has a slave. It is connected to the master, which tells it of the other
nodes and of names; it connects to the other slaves, accepts connections from them, and hands the
sockets to the harbor service of its node. Services ask it for names and for the state of the links.

The service runs until it is suspended. What can happen between two suspensions is an input: a
request, a package of the master, a text from the harbor service, an event of a socket, or that a
suspended coroutine goes on. `monitor_master` is one coroutine, and waits for a connection it opens
(`MonitorMaster`); so does `ready` (`Ready`). Every connection accepted has a coroutine
(`AcceptSlave`).

A response that is waiting is known by the number of its request, and by its command.
-/

namespace ZTask

open Lib

/-! ## Data -/

/-- An entry of `slaves`: nil, false, or a socket. -/
inductive SlaveEntry
  | unknown
  | gone
  | socket (fd : ℕ)
deriving DecidableEq, Repr

/-- The functions of `harbor`. -/
inductive CslaveCommand
  | link (id : ℤ)
  | connect (id : ℤ)
  | linkmaster
  | queryname (name : List UInt8)
  | register (name : List UInt8) (handle : ℤ)
deriving DecidableEq, Repr

/-- A request, and the response that `ztask.response` makes for it. -/
structure CslaveRequest where
  session : ℕ
  command : CslaveCommand
deriving DecidableEq, Repr

/-- A call of `connect_slave`, by what it waits for. -/
inductive ConnectSlave
  /-- `socket.open` -/
  | opening (slaveId : ℤ)
  /-- `socket.start` -/
  | starting (slaveId : ℤ) (fd : ℕ)
deriving DecidableEq, Repr

/-- The coroutine of `monitor_master`. -/
inductive MonitorMaster
  /-- In `read_package`. -/
  | reading
  | connecting (call : ConnectSlave)
  /-- In `socket.close`, for the socket of a slave that is gone. -/
  | closing (fd : ℕ)
  /-- The master is lost. -/
  | ended
deriving DecidableEq, Repr

/-- The coroutine of `ready`, with what is left of the queue. -/
inductive Ready
  | notStarted
  | next (queue : AList fun _ : ℤ ↦ List UInt8)
  | connecting (queue : AList fun _ : ℤ ↦ List UInt8) (call : ConnectSlave)
  | done

/-- A coroutine of `accept_slave`, by what it waits for. -/
inductive AcceptSlave
  /-- `socket.start` -/
  | starting
  /-- `socket.read` -/
  | reading
  /-- `socket.close` -/
  | closing
deriving DecidableEq, Repr

structure Cslave where
  slaves : ℤ → SlaveEntry
  /-- None when `ready` has taken it. -/
  connectQueue : Option (AList fun _ : ℤ ↦ List UInt8)
  globalname : AList fun _ : List UInt8 ↦ ℤ
  /-- An empty list is nil. -/
  queryname : List UInt8 → List CslaveRequest
  /-- An empty list is nil. -/
  monitor : ℤ → List CslaveRequest
  monitorMasterSet : List CslaveRequest
  /-- `socket_pool` of `socket.lua`, as far as the sockets of other slaves are concerned: whether
  the socket is connected. -/
  socketPool : ℕ → Option Bool
  monitorMaster : MonitorMaster
  ready : Ready
  accepting : ℕ → Option AcceptSlave
  /-- The number of requests so far. -/
  requests : ℕ

/-- What others see of the service. -/
inductive CslaveEffect
  /-- A request is answered. -/
  | response (r : CslaveRequest) (result : Option ℤ)
  /-- A request ends with an error. -/
  | raised (r : CslaveRequest)
  /-- `socket.write` to the master. -/
  | write (package : SlavePackage)
  /-- A message to the harbor service; `ztask.redirect` gives its source. -/
  | harbor (source : Option ℤ) (msg : List UInt8)
  | open (address : List UInt8)
  | start (fd : ℕ)
  | close (fd : ℕ)
deriving DecidableEq, Repr

/-- What a step does. -/
abbrev CslaveStep := Cslave × List CslaveEffect

/-- The values that are packed for the master. -/
def SlavePackage.fields : SlavePackage → List LuaObject
  | .handshake id addr =>
    [.scalar (.string [72]), .scalar (.integer (.ofInt id)), .scalar (.string addr)]
  | .register name (some address) =>
    [.scalar (.string [82]), .scalar (.string name), .scalar (.integer (.ofInt address))]
  | .register name none => [.scalar (.string [82]), .scalar (.string name)]
  | .query name => [.scalar (.string [81]), .scalar (.string name)]
  | .unknown | .malformed => []

/-- The assertion in `pack_package`. -/
def SlavePackage.fits (package : SlavePackage) : Bool :=
  match luaseriPack package.fields with
  | .ok (some message) => decide (message.length ≤ 255)
  | _ => false

/-- `%d` of a number. -/
def decimalInt (n : ℤ) : List UInt8 := if n < 0 then 45 :: decimal n.natAbs else decimal n.natAbs

/-- `string.format("S %d %d", fd, id)`, for `S` and for `A`. -/
def connectText (command : UInt8) (fd : ℕ) (id : ℤ) : List UInt8 :=
  command :: 32 :: (decimal fd ++ 32 :: decimalInt id)

/-- `"N " .. name`. -/
def nameText (name : List UInt8) : List UInt8 := 78 :: 32 :: name

/-- `tonumber`, of decimal integers. -/
def tonumber (text : List UInt8) : Option ℤ :=
  match scanInt text with
  | some (n, []) => some n
  | _ => none

namespace Cslave

def init : Cslave where
  slaves _ := .unknown
  connectQueue := some ∅
  globalname := ∅
  queryname _ := []
  monitor _ := []
  monitorMasterSet := []
  socketPool _ := none
  monitorMaster := .reading
  ready := .notStarted
  accepting _ := none
  requests := 0

/-! ## Links -/

/-- The responses are called, with no result. -/
def respond (rs : List CslaveRequest) (result : Option ℤ) : List CslaveEffect :=
  rs.map fun r ↦ .response r result

def monitorClear (m : Cslave) (id : ℤ) : CslaveStep :=
  ({ m with monitor := Function.update m.monitor id [] }, respond (m.monitor id) none)

/-- A slave is connected: what `connect_slave` (`S`) and `accept_slave` (`A`) end with. -/
def connected (m : Cslave) (command : UInt8) (id : ℤ) (fd : ℕ) : CslaveStep :=
  let m' := { m with slaves := Function.update m.slaves id (.socket fd) }
  let p := m'.monitorClear id
  ({ p.1 with socketPool := Function.update p.1.socketPool fd none },
    p.2 ++ [.harbor none (connectText command fd id)])

/-- `socket.start` has returned; false when it fails. None if its assertion fails. -/
def started (m : Cslave) (fd : ℕ) (ok : Bool) : Option Cslave :=
  if ok = false then some m
  else if m.socketPool fd = none then
    some { m with socketPool := Function.update m.socketPool fd (some true) }
  else none

/-- `connect_slave` after `socket.start`. -/
def connectStarted (m : Cslave) (slaveId : ℤ) (fd : ℕ) (ok : Bool) : CslaveStep :=
  match m.started fd ok with
  | some m' => m'.connected 83 slaveId fd
  | none => (m, [])

/-- `socket.close`, and whether it waits. -/
def socketClose (m : Cslave) (fd : ℕ) : Cslave × List CslaveEffect × Bool :=
  match m.socketPool fd with
  | none => (m, [], false)
  | some true => (m, [.close fd], true)
  | some false => ({ m with socketPool := Function.update m.socketPool fd none }, [], false)

/-- The rest of `socket.close` when it has waited. -/
def socketClosed (m : Cslave) (fd : ℕ) : Cslave :=
  { m with socketPool := Function.update m.socketPool fd none }

/-! ## Names -/

def responseName (m : Cslave) (name : List UInt8) : CslaveStep :=
  ({ m with queryname := Function.update m.queryname name [] },
    respond (m.queryname name) (m.globalname.lookup name))

/-- `harbor.QUERYNAME`, with what `ztask.localname` returns. -/
def queryName (m : Cslave) (r : CslaveRequest) (name : List UInt8) (localname : Option ℤ) :
    CslaveStep :=
  if name.head? = some 46 then (m, [.response r localname])
  else
    match m.globalname.lookup name with
    | some result => (m, [.response r (some result)])
    | none =>
      if m.queryname name = [] then
        if (SlavePackage.query name).fits = true then
          ({ m with queryname := Function.update m.queryname name [r] }, [.write (.query name)])
        else (m, [.raised r])
      else
        ({ m with queryname := Function.update m.queryname name (m.queryname name ++ [r]) }, [])

/-- `harbor.REGISTER`. -/
def register (m : Cslave) (r : CslaveRequest) (name : List UInt8) (handle : ℤ) : CslaveStep :=
  match m.globalname.lookup name with
  | some _ => (m, [.raised r])
  | none =>
    let p := { m with globalname := m.globalname.insert name handle }.responseName name
    if (SlavePackage.register name (some handle)).fits = true then
      (p.1, p.2 ++ [.write (.register name (some handle)), .harbor (some handle) (nameText name)])
    else (p.1, p.2 ++ [.raised r])

/-! ## Messages -/

/-- `harbor.LINK`. -/
def link (m : Cslave) (r : CslaveRequest) (id : ℤ) : CslaveStep :=
  match m.slaves id with
  | .socket _ => ({ m with monitor := Function.update m.monitor id (m.monitor id ++ [r]) }, [])
  | _ => (m, [.response r none])

/-- `harbor.CONNECT`. -/
def connect (m : Cslave) (r : CslaveRequest) (id : ℤ) : CslaveStep :=
  match m.slaves id with
  | .socket _ => (m, [.response r none])
  | _ => ({ m with monitor := Function.update m.monitor id (m.monitor id ++ [r]) }, [])

/-- A request is dispatched. -/
def request (m : Cslave) (command : CslaveCommand) (localname : Option ℤ) : CslaveStep :=
  let r : CslaveRequest := ⟨m.requests, command⟩
  let m' := { m with requests := m.requests + 1 }
  match command with
  | .link id => m'.link r id
  | .connect id => m'.connect r id
  | .linkmaster => ({ m' with monitorMasterSet := m'.monitorMasterSet ++ [r] }, [])
  | .queryname name => m'.queryName r name localname
  | .register name handle => m'.register r name handle

/-- `monitor_harbor`: a text from the harbor service. -/
def monitorHarbor (m : Cslave) (command : List UInt8) : CslaveStep :=
  let arg := command.drop 2
  if command.head? = some 81 then
    match m.globalname.lookup arg with
    | some address => (m, [.harbor (some address) (nameText arg)])
    | none => (m, if (SlavePackage.query arg).fits = true then [.write (.query arg)] else [])
  else if command.head? = some 68 then
    match tonumber arg with
    -- `slaves[nil] = false` raises an error
    | none => (m, [])
    | some id =>
      let p :=
        match m.slaves id with
        | .socket _ => m.monitorClear id
        | _ => (m, [])
      ({ p.1 with slaves := Function.update p.1.slaves id .gone }, p.2)
  else (m, [])

/-- `monitor_master`: a package of the master. -/
def masterPackage (m : Cslave) : MasterPackage → CslaveStep
  | .connect id address =>
    match m.connectQueue with
    | some queue => ({ m with connectQueue := some (queue.insert id address) }, [])
    | none => ({ m with monitorMaster := .connecting (.opening id) }, [.open address])
  | .name name address =>
    let p := { m with globalname := m.globalname.insert name address }.responseName name
    (p.1, p.2 ++ if m.connectQueue.isNone then [.harbor (some address) (nameText name)] else [])
  | .disconnect id =>
    let m' := { m with slaves := Function.update m.slaves id .gone }
    match m.slaves id with
    | .socket fd =>
      let p := m'.monitorClear id
      let q := p.1.socketClose fd
      (if q.2.2 then { q.1 with monitorMaster := .closing fd } else q.1, p.2 ++ q.2.1)
    | _ => (m', [])
  | .wait _ => (m, [])

/-- `monitor_master` when the master is lost. -/
def masterLost (m : Cslave) : CslaveStep :=
  ({ m with monitorMaster := .ended }, respond m.monitorMasterSet none)

end Cslave

/-- What happens to the service. -/
inductive CslaveInput
  | request (command : CslaveCommand) (localname : Option ℤ)
  /-- A text from the harbor service. -/
  | text (command : List UInt8)
  /-- A package of the master. -/
  | package (package : MasterPackage)
  | masterLost
  /-- `connect_slave` goes on, called by `monitor_master` or by `ready`: `socket.open` returns. -/
  | opened (ready : Bool) (fd : Option ℕ)
  /-- The same, for `socket.start`. -/
  | started (ready : Bool) (ok : Bool)
  /-- `ready` takes the queue. -/
  | ready
  /-- `ready` takes the next slave of the queue. -/
  | next (id : ℤ)
  /-- A connection is accepted. -/
  | accept (fd : ℕ)
  /-- `accept_slave` goes on. -/
  | acceptStarted (fd : ℕ) (ok : Bool)
  | acceptRead (fd : ℕ) (id : Option UInt8)
  /-- `socket.close` returns, in `monitor_master` or in `accept_slave`. -/
  | closed (fd : ℕ)
  /-- A socket is lost while it belongs to this service. -/
  | lost (fd : ℕ)
deriving DecidableEq, Repr

/-- No coroutine waits for the input. -/
inductive CslaveFault
  | noWaiter
deriving DecidableEq, Repr

namespace Cslave

/-- `connect_slave` when `socket.open` has returned: its next call, or none when it ends. -/
def openReturned (slaveId : ℤ) : Option ℕ → Option ConnectSlave × List CslaveEffect
  | some fd => (some (.starting slaveId fd), [.start fd])
  | none => (none, [])

/-- The end of `ready`. -/
def namesReady (m : Cslave) : CslaveStep :=
  ({ m with ready := .done },
    m.globalname.entries.map fun p ↦ .harbor (some p.2) (nameText p.1))

/-- `accept_slave` when `socket.read` has returned. -/
def acceptRead (m : Cslave) (fd : ℕ) (id : Option UInt8) : CslaveStep :=
  let close : CslaveStep :=
    let q := m.socketClose fd
    ({ q.1 with
        accepting := Function.update q.1.accepting fd (if q.2.2 then some .closing else none) },
      q.2.1)
  match id with
  | none => close
  | some id =>
    match m.slaves id.toNat with
    | .unknown =>
      { m with accepting := Function.update m.accepting fd none }.connected 65 id.toNat fd
    | _ => close

/-- `connect_slave`, called by `monitor_master` or by `ready`, goes on or ends. -/
def resume (m : Cslave) (ready : Bool) (call : Option ConnectSlave) : Cslave :=
  if ready = false then
    { m with monitorMaster := match call with
        | some call => .connecting call
        | none => .reading }
  else
    { m with ready := match m.ready, call with
        | .connecting queue _, some call => .connecting queue call
        | .connecting queue _, none => .next queue
        | r, _ => r }

/-- The call of `connect_slave` that `monitor_master` or `ready` waits for. -/
def call (m : Cslave) (ready : Bool) : Option ConnectSlave :=
  if ready = false then
    match m.monitorMaster with
    | .connecting call => some call
    | _ => none
  else
    match m.ready with
    | .connecting _ call => some call
    | _ => none

end Cslave

/-- The service, from one suspension to the next. -/
def cslave : Machine Cslave CslaveInput (List CslaveEffect) CslaveFault := fun m input ↦
  match input with
  | .request command localname => .ok (m.request command localname)
  | .text command => .ok (m.monitorHarbor command)
  | .package package =>
    if m.monitorMaster = .reading then .ok (m.masterPackage package) else .error .noWaiter
  | .masterLost => if m.monitorMaster = .reading then .ok m.masterLost else .error .noWaiter
  | .opened ready fd =>
    match m.call ready with
    | some (.opening slaveId) =>
      let p := Cslave.openReturned slaveId fd
      .ok (m.resume ready p.1, p.2)
    | _ => .error .noWaiter
  | .started ready ok =>
    match m.call ready with
    | some (.starting slaveId fd) => .ok ((m.resume ready none).connectStarted slaveId fd ok)
    | _ => .error .noWaiter
  | .ready =>
    match m.ready, m.connectQueue with
    | .notStarted, some queue => .ok ({ m with ready := .next queue, connectQueue := none }, [])
    | _, _ => .error .noWaiter
  | .next id =>
    match m.ready with
    | .next queue =>
      match queue.lookup id with
      | some address =>
        .ok ({ m with ready := .connecting (queue.erase id) (.opening id) }, [.open address])
      | none => if queue.keys = [] then .ok m.namesReady else .error .noWaiter
    | _ => .error .noWaiter
  | .accept fd =>
    match m.accepting fd with
    | none => .ok ({ m with accepting := Function.update m.accepting fd (some .starting) },
        [.start fd])
    | some _ => .error .noWaiter
  | .acceptStarted fd ok =>
    match m.accepting fd with
    | some .starting =>
      -- without an entry in the pool, `socket.read` raises an error
      let ended := { m with accepting := Function.update m.accepting fd none }
      match ok, m.started fd ok with
      | true, some m' =>
        .ok ({ m' with accepting := Function.update m'.accepting fd (some .reading) }, [])
      | _, _ => .ok (ended, [])
    | _ => .error .noWaiter
  | .acceptRead fd id =>
    match m.accepting fd with
    | some .reading => .ok (m.acceptRead fd id)
    | _ => .error .noWaiter
  | .closed fd =>
    if m.monitorMaster = .closing fd then
      .ok ({ m.socketClosed fd with monitorMaster := .reading }, [])
    else
      match m.accepting fd with
      | some .closing =>
        .ok ({ m.socketClosed fd with accepting := Function.update m.accepting fd none }, [])
      | _ => .error .noWaiter
  | .lost fd =>
    match m.socketPool fd with
    | some _ =>
      .ok ({ m with socketPool := Function.update m.socketPool fd (some false) }, [.close fd])
    | none => .ok (m, [])

/-! ## What a step comes to -/

namespace Cslave

/-- The steps of the service, each with the coroutine that has waited for the input. -/
inductive Moves (m : Cslave) : CslaveInput → Cslave → List CslaveEffect → Prop
  | request (command : CslaveCommand) (localname : Option ℤ) :
      Moves m (.request command localname) (m.request command localname).1
        (m.request command localname).2
  | text (command : List UInt8) :
      Moves m (.text command) (m.monitorHarbor command).1 (m.monitorHarbor command).2
  | package (package : MasterPackage) : m.monitorMaster = .reading →
      Moves m (.package package) (m.masterPackage package).1 (m.masterPackage package).2
  | masterLost : m.monitorMaster = .reading → Moves m .masterLost m.masterLost.1 m.masterLost.2
  | opened {ready : Bool} {slaveId : ℤ} (fd : Option ℕ) : m.call ready = some (.opening slaveId) →
      Moves m (.opened ready fd) (m.resume ready (openReturned slaveId fd).1)
        (openReturned slaveId fd).2
  | started {ready : Bool} {slaveId : ℤ} {fd : ℕ} (ok : Bool) :
      m.call ready = some (.starting slaveId fd) →
      Moves m (.started ready ok) ((m.resume ready none).connectStarted slaveId fd ok).1
        ((m.resume ready none).connectStarted slaveId fd ok).2
  | ready {queue : AList fun _ : ℤ ↦ List UInt8} : m.ready = .notStarted →
      Moves m .ready { m with ready := .next queue, connectQueue := none } []
  | next {queue : AList fun _ : ℤ ↦ List UInt8} {id : ℤ} {address : List UInt8} :
      m.ready = .next queue →
      Moves m (.next id) { m with ready := .connecting (queue.erase id) (.opening id) }
        [.open address]
  | namesReady {queue : AList fun _ : ℤ ↦ List UInt8} {id : ℤ} : m.ready = .next queue →
      Moves m (.next id) m.namesReady.1 m.namesReady.2
  | accept {fd : ℕ} : m.accepting fd = none →
      Moves m (.accept fd) { m with accepting := Function.update m.accepting fd (some .starting) }
        [.start fd]
  | acceptStarted {fd : ℕ} {m' : Cslave} : m.accepting fd = some .starting →
      m.started fd true = some m' → Moves m (.acceptStarted fd true)
        { m' with accepting := Function.update m'.accepting fd (some .reading) } []
  | acceptEnded {fd : ℕ} {ok : Bool} : m.accepting fd = some .starting →
      (ok = true → m.started fd true = none) → Moves m (.acceptStarted fd ok)
        { m with accepting := Function.update m.accepting fd none } []
  | acceptRead {fd : ℕ} (id : Option UInt8) : m.accepting fd = some .reading →
      Moves m (.acceptRead fd id) (m.acceptRead fd id).1 (m.acceptRead fd id).2
  | closed {fd : ℕ} : m.monitorMaster = .closing fd →
      Moves m (.closed fd) { m.socketClosed fd with monitorMaster := .reading } []
  | acceptClosed {fd : ℕ} : m.accepting fd = some .closing → Moves m (.closed fd)
      { m.socketClosed fd with accepting := Function.update m.accepting fd none } []
  | lost {fd : ℕ} : m.socketPool fd ≠ none → Moves m (.lost fd)
      { m with socketPool := Function.update m.socketPool fd (some false) } [.close fd]
  | lostElsewhere (fd : ℕ) : Moves m (.lost fd) m []

theorem Moves.of_pair {m m' : Cslave} {input : CslaveInput} {p : CslaveStep}
    {out : List CslaveEffect} (h : (.ok p : Except CslaveFault CslaveStep) = .ok (m', out))
    (hp : Moves m input p.1 p.2) : Moves m input m' out := by
  rw [Except.ok.inj h] at hp
  exact hp

/-- **Every step of the service** is one of these. -/
theorem cslave_cases {m m' : Cslave} {input : CslaveInput} {out : List CslaveEffect}
    (h : cslave m input = .ok (m', out)) : Moves m input m' out := by
  cases input with
  | request command localname =>
    exact .of_pair h (.request command localname)
  | text command =>
    exact .of_pair h (.text command)
  | package package =>
    by_cases hreading : m.monitorMaster = .reading
    · rw [cslave, if_pos hreading] at h
      exact .of_pair h (.package package hreading)
    · rw [cslave, if_neg hreading] at h
      cases h
  | masterLost =>
    by_cases hreading : m.monitorMaster = .reading
    · rw [cslave, if_pos hreading] at h
      cases h
      exact .masterLost hreading
    · rw [cslave, if_neg hreading] at h
      cases h
  | opened ready fd =>
    rw [cslave] at h
    split at h
    · exact .of_pair h (.opened fd ‹_›)
    · cases h
  | started ready ok =>
    rw [cslave] at h
    split at h
    · exact .of_pair h (.started ok ‹_›)
    · cases h
  | ready =>
    rw [cslave] at h
    split at h
    · cases h
      exact .ready ‹_›
    · cases h
  | next id =>
    rw [cslave] at h
    split at h
    · split at h
      · cases h
        exact .next ‹_›
      · split at h
        · cases h
          exact .namesReady ‹_›
        · cases h
    · cases h
  | accept fd =>
    rw [cslave] at h
    split at h
    · cases h
      exact .accept ‹_›
    · cases h
  | acceptStarted fd ok =>
    rw [cslave] at h
    split at h
    next hwaits =>
      cases ok with
      | false =>
        cases h
        exact .acceptEnded hwaits fun heq ↦ nomatch heq
      | true =>
        cases hstarted : m.started fd true with
        | some m₁ =>
          rw [hstarted] at h
          cases h
          exact .acceptStarted hwaits hstarted
        | none =>
          rw [hstarted] at h
          cases h
          exact .acceptEnded hwaits fun _ ↦ hstarted
    next => cases h
  | acceptRead fd id =>
    rw [cslave] at h
    split at h
    · exact .of_pair h (.acceptRead id ‹_›)
    · cases h
  | closed fd =>
    by_cases hcloses : m.monitorMaster = .closing fd
    · rw [cslave, if_pos hcloses] at h
      cases h
      exact .closed hcloses
    · rw [cslave, if_neg hcloses] at h
      split at h
      · cases h
        exact .acceptClosed ‹_›
      · cases h
  | lost fd =>
    cases hpool : m.socketPool fd with
    | some _ =>
      simp only [cslave, hpool] at h
      cases h
      exact .lost (by rw [hpool]; exact Option.some_ne_none _)
    | none =>
      simp only [cslave, hpool] at h
      cases h
      exact .lostElsewhere fd

end Cslave

end ZTask
