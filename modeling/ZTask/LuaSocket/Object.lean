import ZTask.LuaSocket.Flat

/-!
# Socket objects

`socket.lua`: a TCP socket object without a buffer limit, from `socket.start` on, with its buffer in
the driver. A coroutine that reads from it may be suspended; what it reads for is in
`read_required`, and the messages of the socket thread wake it. A coroutine that has been woken runs
in a later step.

There is one such coroutine at a time. The other sockets of the service use the same pool of nodes.
-/

namespace ZTask

open Lib

/-! ## Reads -/

/-- The functions that read, with their arguments. -/
inductive SocketRead
  /-- `socket.read(id)` -/
  | any
  /-- `socket.read(id, sz)` -/
  | size (sz : ℤ)
  /-- `socket.readline(id, sep)` -/
  | line (sep : List UInt8)
  /-- `socket.readall(id)` -/
  | all
deriving DecidableEq, Repr

/-- `read_required`, when it is neither nil nor false. -/
inductive ReadRequired
  | number (n : ℤ)
  | string (sep : List UInt8)
  | boolean
deriving DecidableEq, Repr

/-- What a function returns. -/
inductive ReadResult
  | string (s : List UInt8)
  /-- `false`, and what is left. -/
  | failed (s : List UInt8)
  /-- `false` alone. -/
  | no
  /-- Nothing. -/
  | nil
deriving DecidableEq, Repr

/-- The coroutine that reads. -/
inductive SocketReader
  | idle
  | suspended (r : SocketRead)
  | woken (r : SocketRead)
deriving DecidableEq, Repr

/-! ## The object -/

/-- A socket object, with the buffers of the service. -/
structure SocketObject where
  driver : LuaSockets
  connected : Bool
  readRequired : Option ReadRequired
  /-- `co` is set. -/
  co : Bool
  reader : SocketReader

inductive ReaderInput
  /-- The messages of the socket thread. -/
  | data (msg : List UInt8)
  | close
  | error
  | read (r : SocketRead)
  /-- The coroutine runs after it has been woken. -/
  | resume
  /-- Another buffer is written or read. -/
  | other (op : BufferOp)
deriving DecidableEq, Repr

inductive ReaderOutput
  | silent
  | returns (r : SocketRead) (result : ReadResult)
deriving DecidableEq, Repr

inductive ReaderFault
  | driver (fault : BufferFault)
  /-- An assertion fails. -/
  | assertion
  /-- This does not happen now. -/
  | impossible
deriving DecidableEq, Repr

/-- The buffer of an operation. -/
def BufferOp.buffer : BufferOp → ℕ
  | .push b _ | .pop b _ | .readline b _ | .checkline b _ | .readall b | .clear b => b

/-! ## The functions -/

namespace SocketObject

def init : SocketObject := ⟨.init, true, none, false, .idle⟩

/-- `wakeup` -/
def wakeup (s : SocketObject) : SocketObject :=
  if s.co then
    { s with
      co := false
      reader := match s.reader with
        | .suspended r => .woken r
        | reader => reader }
  else s

/-- `suspend`, with the assertion and the assignment before it. -/
def suspend (s : SocketObject) (r : SocketRead) (required : ReadRequired) :
    Except ReaderFault (SocketObject × ReaderOutput) :=
  if s.readRequired.isSome ∨ s.co then .error .assertion
  else
    .ok ({ s with readRequired := required, co := true, reader := .suspended r }, .silent)

/-- A function of the driver is called. -/
def call {α : Type} (x : Except BufferFault α) : Except ReaderFault α := x.mapError .driver

/-- The coroutine goes on with this result. -/
def returns (s : SocketObject) (driver : LuaSockets) (r : SocketRead) (result : ReadResult) :
    SocketObject × ReaderOutput :=
  ({ s with driver := driver, reader := .idle }, .returns r result)

variable (b : ℕ)

/-- `socket_message[1]` -/
def receive (s : SocketObject) (msg : List UInt8) : Except ReaderFault SocketObject := do
  let (sz, driver) ← call (s.driver.pushBuffer b msg)
  let s := { s with driver := driver }
  match s.readRequired with
  | some (.number rr) => .ok (if sz ≥ rr then wakeup { s with readRequired := none } else s)
  | some (.string rr) =>
    let found ← call (driver.findLine b rr)
    .ok (if found.isSome then wakeup { s with readRequired := none } else s)
  | _ => .ok s

/-- The functions that read, up to where they return or the coroutine is suspended. -/
def read (s : SocketObject) : SocketRead → Except ReaderFault (SocketObject × ReaderOutput)
  | .any => do
    let (ret, driver) ← call (s.driver.readAll b)
    if ret ≠ [] then .ok (s.returns driver .any (.string ret))
    else if !s.connected then .ok (s.returns driver .any (.failed ret))
    else suspend { s with driver := driver } .any (.number 0)
  | .size sz => do
    let (ret, _, driver) ← call (s.driver.popBuffer b sz)
    match ret with
    | some ret => .ok (s.returns driver (.size sz) (.string ret))
    | none =>
      if !s.connected then do
        let (ret, driver) ← call (driver.readAll b)
        .ok (s.returns driver (.size sz) (.failed ret))
      else suspend { s with driver := driver } (.size sz) (.number sz)
  | .all =>
    if !s.connected then do
      let (r, driver) ← call (s.driver.readAll b)
      .ok (s.returns driver .all (if r ≠ [] then .string r else .no))
    else s.suspend .all .boolean
  | .line sep => do
    let (ret, driver) ← call (s.driver.readLine b sep)
    match ret with
    | some ret => .ok (s.returns driver (.line sep) (.string ret))
    | none =>
      if !s.connected then do
        let (ret, driver) ← call (driver.readAll b)
        .ok (s.returns driver (.line sep) (.failed ret))
      else suspend { s with driver := driver } (.line sep) (.string sep)

/-- The functions that read, after the coroutine has been suspended. -/
def readOn (s : SocketObject) : SocketRead → Except ReaderFault (SocketObject × ReaderOutput)
  | .any => do
    let (ret, driver) ← call (s.driver.readAll b)
    .ok (s.returns driver .any (if ret ≠ [] then .string ret else .failed ret))
  | .size sz => do
    let (ret, _, driver) ← call (s.driver.popBuffer b sz)
    match ret with
    | some ret => .ok (s.returns driver (.size sz) (.string ret))
    | none => do
      let (ret, driver) ← call (driver.readAll b)
      .ok (s.returns driver (.size sz) (.failed ret))
  | .all =>
    if s.connected then .error .assertion
    else do
      let (ret, driver) ← call (s.driver.readAll b)
      .ok (s.returns driver .all (.string ret))
  | .line sep =>
    if s.connected then do
      let (ret, driver) ← call (s.driver.readLine b sep)
      .ok (s.returns driver (.line sep) (match ret with
        | some ret => .string ret
        | none => .nil))
    else do
      let (ret, driver) ← call (s.driver.readAll b)
      .ok (s.returns driver (.line sep) (.failed ret))

end SocketObject

/-! ## The machine -/

/-- The socket object whose buffer is number `b`. -/
def socketObject (b : ℕ) : Machine SocketObject ReaderInput ReaderOutput ReaderFault := fun s i ↦
  match i with
  | .data msg =>
    -- the socket thread does not send a block that is empty
    if msg = [] then .error .impossible else (s.receive b msg).map fun s ↦ (s, .silent)
  | .close | .error => .ok ({ s with connected := false }.wakeup, .silent)
  | .read r => if s.reader = .idle then s.read b r else .error .impossible
  | .resume =>
    match s.reader with
    | .woken r => s.readOn b r
    | _ => .error .impossible
  | .other op =>
    if op.buffer = b then .error .impossible
    else
      match luaSocket s.driver op with
      | .error fault => .error (.driver fault)
      | .ok (driver, _) => .ok ({ s with driver := driver }, .silent)

end ZTask
