import ZTask.Lib.Custody
import ZTask.Socket.Reuse

/-!
# Requests and their completions

The socket server with the requests that services make, in any order. A request that has been posted
is completed once, at any time, successfully or not. A socket in a slot comes to its end when the
loop closes its handle, which it does for a request that has failed, for a receive of no bytes, and
for a close. It does not write this down; `ended` does.
-/

namespace ZTask

open Lib

/-! ## What a step takes -/

/-- The buffer of a request. -/
def IoRequest.buffer : IoRequest → Option ℕ
  | .recv _ buf | .send _ buf | .sendto _ buf | .recvfrom _ _ buf | .acceptex _ _ buf => some buf
  | _ => none

namespace SocketServer

/-- The slot whose handle the loop closes for a packet. -/
def ends (s : SocketServer) (packet : IoPacket) : Option ℕ :=
  match packet.ok, packet.request with
  | false, .connect _ _ ns | false, .recv ns _ | false, .listen _ _ ns => some ns
  | false, .accept _ id _ | false, .send id _ => if s.stale id then none else some (hashId id)
  | true, .recv ns _ => if packet.bytes = 0 then some ns else none
  | true, .close id => if (s.slot (hashId id)).id = id then some (hashId id) else none
  | _, _ => none

/-- A slot and a new handle, for `ztask_socket_listen` and `ztask_socket_connect`. -/
def create (s : SocketServer) (owner : ℕ) : Option ℕ × SocketServer :=
  match s.reserveId with
  | (none, s') => (none, s')
  | (some id, s') =>
    if id < 0 then (none, s')
    else
      let fd := s'.handles + 1
      match { s' with handles := fd }.newFd id fd owner with
      | some s'' => (some (hashId id), s'')
      -- `reserve_id` has just set what `new_fd` asserts
      | none => (none, s')

end SocketServer

/-! ## The world -/

structure SocketWorld where
  server : SocketServer
  /-- The requests that have not been completed. -/
  posted : List IoRequest
  /-- The loop has closed the handle of the slot. -/
  ended : ℕ → Bool

inductive SocketInput
  /-- `ztask_socket_connect`; `ConnectEx` begins to connect, or fails at once. -/
  | connect (owner : ℕ) (session : ℤ) (begun : Bool)
  /-- `ztask_socket_listen` -/
  | listen (owner : ℕ) (session : ℤ)
  /-- `ztask_socket_start` -/
  | start (owner : ℕ) (id session : ℤ)
  /-- `ztask_socket_accept` -/
  | accept (owner : ℕ) (id session : ℤ)
  /-- `ztask_socket_send`; `WSASend` begins to send, or fails at once. -/
  | send (id : ℤ) (begun : Bool)
  /-- `ztask_socket_close` and `ztask_socket_shutdown` -/
  | close (id : ℤ)
  /-- A request is completed. -/
  | packet (packet : IoPacket) (replies : IoReplies)

inductive SocketFault
  /-- There is no service with the handle. -/
  | noService
  /-- The request is not one that waits for its completion. -/
  | notPosted
deriving DecidableEq, Repr

namespace SocketWorld

def init : SocketWorld := ⟨.init, [], fun _ ↦ false⟩

def post (w : SocketWorld) (request : IoRequest) : SocketWorld :=
  { w with posted := w.posted ++ [request] }

/-- The handle of a service. -/
def isHandle (owner : ℕ) : Bool := decide (0 < owner ∧ owner < 2 ^ 32)

/-- A new socket, and the request that is posted for its slot, if one is. -/
def createSocket (w : SocketWorld) (owner : ℕ) (request : ℕ → Option IoRequest) : SocketWorld :=
  match w.server.create owner with
  | (none, s) => { w with server := s }
  | (some i, s) => ⟨s, w.posted ++ (request i).toList, Function.update w.ended i false⟩

/-- `ztask_socket_send`, with a buffer of the service. -/
def sendTo (w : SocketWorld) (id : ℤ) (begun : Bool) : SocketWorld × List IoEffect :=
  let buf := w.server.blocks
  let w' := { w with server := { w.server with blocks := buf + 1 } }
  if w.server.stale id then (w', [.free (some buf)])
  else (if begun then w'.post (.send id buf) else w', [])

/-- The requests that the loop posts. -/
def posts (effects : List IoEffect) : List IoRequest :=
  effects.filterMap fun effect ↦
    match effect with
    | .post request => some request
    | _ => none

def endedAfter (w : SocketWorld) (packet : IoPacket) : ℕ → Bool :=
  match w.server.ends packet, w.server.reserved packet with
  | some i, _ => Function.update w.ended i true
  | none, nid :: _ => Function.update w.ended (hashId nid) false
  | none, [] => w.ended

/-- The loop takes a completed request. -/
def complete (w : SocketWorld) (packet : IoPacket) (replies : IoReplies) :
    SocketWorld × List IoEffect :=
  let p := w.server.poll packet replies
  (⟨p.1, w.posted.erase packet.request ++ posts p.2, w.endedAfter packet⟩, p.2)

end SocketWorld

/-! ## The machine -/

/-- The socket server and its services. -/
def sockets : Machine SocketWorld SocketInput (List IoEffect) SocketFault := fun w input ↦
  match input with
  | .connect owner session begun =>
    if SocketWorld.isHandle owner then
      .ok (w.createSocket owner fun i ↦
        if begun then some (.connect owner session i) else none, [])
    else .error .noService
  | .listen owner session =>
    if SocketWorld.isHandle owner then
      .ok (w.createSocket owner fun i ↦ some (.listen owner session i), [])
    else .error .noService
  | .start owner id session =>
    if SocketWorld.isHandle owner then .ok (w.post (.start owner id session), [])
    else .error .noService
  | .accept owner id session =>
    if SocketWorld.isHandle owner then .ok (w.post (.accept owner id session), [])
    else .error .noService
  | .send id begun => .ok (w.sendTo id begun)
  | .close id => .ok (w.post (.close id), [])
  | .packet packet replies =>
    if packet.request ∈ w.posted then .ok (w.complete packet replies) else .error .notPosted

end ZTask
