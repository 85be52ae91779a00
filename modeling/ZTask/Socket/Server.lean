import Mathlib.Data.Int.Notation
import Mathlib.Logic.Function.Basic
import ZTask.Lib.Machine
import ZTask.Lib.Word

/-!
# The socket server

`ztask_socket.c`. A socket has a slot, which is found by its id; `reserve_id` takes a free slot, and
`new_fd` puts a handle of the system into it. Services post requests to a completion port. The loop
of the socket thread takes the completed requests out of the port one by one (`ztask_socket_poll`),
successful ones and others, and tells services of them by messages.

The calls that the loop makes of the system and of other parts of the node are its effects, in their
order. The blocks that the loop frees are the buffers of requests; a request itself and a message
that is not sent are freed as well, which is not recorded. Blocks and handles are numbered as they
are handed out, the handles from 1.
-/

namespace ZTask

open Lib

/-- `MAX_SOCKET` -/
def maxSocket : ℕ := 65536

/-- The state of a slot; the source has others that it does not use. -/
inductive SlotType
  | invalid
  | reserve
deriving DecidableEq, Repr

/-- `struct socket` -/
structure IoSocket where
  /-- `opaque`, the handle of a service. -/
  owner : ℕ
  fd : ℤ
  id : ℤ
  type : SlotType
  start : Bool
deriving DecidableEq, Repr

/-- A request that has been posted, by its `Type`; `ns` is the index of a slot. -/
inductive IoRequest
  /-- `C` -/
  | connect (owner : ℕ) (session : ℤ) (ns : ℕ)
  /-- `R` -/
  | recv (ns : ℕ) (buf : ℕ)
  /-- `S` -/
  | send (id : ℤ) (buf : ℕ)
  /-- `t` -/
  | sendto (fd : ℤ) (buf : ℕ)
  /-- `f` -/
  | recvfrom (fd : ℤ) (owner : ℕ) (buf : ℕ)
  /-- `A` -/
  | acceptex (ns : ℕ) (cfd : ℤ) (buf : ℕ)
  /-- `a` -/
  | accept (owner : ℕ) (id session : ℤ)
  /-- `s` -/
  | start (owner : ℕ) (id session : ℤ)
  /-- `L` -/
  | listen (owner : ℕ) (session : ℤ) (ns : ℕ)
  /-- `k` -/
  | close (id : ℤ)
deriving DecidableEq, Repr

/-- The types of `struct ztask_socket_message` that the loop uses; 0 if it has not set one. -/
inductive IoMessageType
  | none
  | data
  | connect
  | start
  | accept
  | error
  | udp
deriving DecidableEq, Repr

/-- `struct ztask_socket_message` -/
structure IoMessage where
  type : IoMessageType
  id : ℤ
  ud : ℤ
  buffer : Option ℕ
deriving DecidableEq, Repr

/-- The types of messages to services. -/
inductive PushType
  /-- `PTYPE_RESPONSE` -/
  | response
  /-- `PTYPE_SOCKET` -/
  | socket
deriving DecidableEq, Repr

inductive IoEffect
  /-- `ztask_context_push`; whether it succeeds. -/
  | push (handle : ℕ) (type : PushType) (session : ℤ) (message : IoMessage) (delivered : Bool)
  | closesocket (fd : ℤ)
  /-- `ztask_free` of a buffer, which may be null. -/
  | free (buf : Option ℕ)
  /-- `WSARecv` -/
  | wsaRecv (fd : ℤ)
  /-- `WSARecvFrom` -/
  | wsaRecvFrom (fd : ℤ)
  /-- `AcceptEx` -/
  | acceptEx (fd : ℤ)
  /-- A request is with the system from here on. -/
  | post (request : IoRequest)
deriving DecidableEq, Repr

structure SocketServer where
  /-- `alloc_id`, an `int` -/
  allocId : ℤ
  slot : ℕ → IoSocket
  /-- The blocks handed out so far. -/
  blocks : ℕ
  /-- The handles handed out so far. -/
  handles : ℕ

/-- What a step does. -/
abbrev IoStep := SocketServer × List IoEffect

/-- A completed request as `GetQueuedCompletionStatus` returns it. -/
structure IoPacket where
  /-- `bReturn` -/
  ok : Bool
  request : IoRequest
  /-- `dwBytesTransfered` -/
  bytes : ℕ
deriving DecidableEq, Repr

/-- What the calls that the loop makes come to. -/
structure IoReplies where
  /-- `WSARecv` or `WSARecvFrom` fails at once. -/
  recvFails : Bool
  /-- `AcceptEx` fails at once, when it is called for the nth time. -/
  acceptFails : ℕ → Bool
  /-- There is a service with the handle. -/
  delivered : Bool

/-- `HASH_ID` -/
def hashId (id : ℤ) : ℕ := (id % maxSocket).toNat

namespace SocketServer

/-- `ztask_socket_init` -/
def init : SocketServer := ⟨0, fun _ ↦ ⟨0, 0, 0, .invalid, false⟩, 0, 0⟩

def setSlot (s : SocketServer) (i : ℕ) (x : IoSocket) : SocketServer :=
  { s with slot := Function.update s.slot i x }

/-! ## Slots -/

/-- `alloc_id` after `ATOM_AND` with `0x7fffffff`, if it has become negative. -/
def maskedId (id : ℤ) : ℤ := if id < 0 then id % 2 ^ 31 else id

/-- The loop of `reserve_id`, with the number of rounds left. `ATOM_AND` is `_InterlockedAnd`, which
returns what it has found, so a negative id stays negative. -/
def reserveFrom : ℕ → SocketServer → Option ℤ × SocketServer
  | 0, s => (none, s)
  | i + 1, s =>
    let id := toInt32 (s.allocId + 1)
    let s' := { s with allocId := maskedId id }
    let x := s'.slot (hashId id)
    if x.type = .invalid then
      (some id, s'.setSlot (hashId id) { x with type := .reserve, id := id, fd := -1 })
    else reserveFrom i s'

/-- `reserve_id`; none for -1. -/
def reserveId (s : SocketServer) : Option ℤ × SocketServer := reserveFrom maxSocket s

/-- `new_fd`; none if its assertion fails. -/
def newFd (s : SocketServer) (id fd : ℤ) (owner : ℕ) : Option SocketServer :=
  let x := s.slot (hashId id)
  if x.type = .reserve then
    some (s.setSlot (hashId id) { x with id := id, fd := fd, owner := owner })
  else none

/-- The test for an id that has been closed or is used for another socket. -/
def stale (s : SocketServer) (id : ℤ) : Bool :=
  decide ((s.slot (hashId id)).type = .invalid ∨ (s.slot (hashId id)).id ≠ id)

/-! ## Requests that the loop posts -/

/-- Post a receive. -/
def postRecv (s : SocketServer) (ns : ℕ) (fails : Bool) : IoStep :=
  let buf := s.blocks
  ({ s with blocks := s.blocks + 1 },
    .wsaRecv (s.slot ns).fd :: if fails then [.free (some buf)] else [.post (.recv ns buf)])

/-- Post a receive for a datagram. -/
def postRecvFrom (s : SocketServer) (fd : ℤ) (owner : ℕ) (fails : Bool) : IoStep :=
  let buf := s.blocks
  ({ s with blocks := s.blocks + 1 },
    .wsaRecvFrom fd :: if fails then [.free (some buf)] else [.post (.recvfrom fd owner buf)])

/-- `post_acceptex`. `AcceptEx` returns a BOOL that the source compares with SOCKET_ERROR, so the
branch that frees the request is never taken: a call that fails at once frees nothing. -/
def postAcceptex (s : SocketServer) (ns : ℕ) (fails : Bool) : IoStep :=
  let buf := s.blocks
  let cfd := s.handles + 1
  ({ s with blocks := s.blocks + 1, handles := cfd },
    .acceptEx (s.slot ns).fd :: if fails then [] else [.post (.acceptex ns cfd buf)])

/-- The loop that posts the first accepts, from the nth one on. -/
def postAcceptexes (s : SocketServer) (ns : ℕ) (fails : ℕ → Bool) : ℕ → ℕ → IoStep
  | _, 0 => (s, [])
  | n, k + 1 =>
    let p := s.postAcceptex ns (fails n)
    let q := postAcceptexes p.1 ns fails (n + 1) k
    (q.1, p.2 ++ q.2)

end SocketServer

/-! ## The loop -/

/-- The variables `handle`, `type` and `session`, and the message. A message is sent if `handle` is
not 0, and then `type` is set. -/
structure IoAnswer where
  handle : ℕ
  type : PushType
  session : ℤ
  message : IoMessage
deriving DecidableEq, Repr

namespace IoMessage

/-- As `memset` leaves it. -/
def empty : IoMessage := ⟨.none, 0, 0, none⟩

def error (id : ℤ) : IoMessage := ⟨.error, id, 0, none⟩

end IoMessage

namespace IoAnswer

/-- `handle` is 0. -/
def silent (message : IoMessage) : IoAnswer := ⟨0, .socket, 0, message⟩

/-- Handles are 32 bits wide. -/
def response (owner : ℕ) (session : ℤ) (message : IoMessage) : IoAnswer :=
  ⟨owner % 2 ^ 32, .response, session, message⟩

def socket (owner : ℕ) (message : IoMessage) : IoAnswer := ⟨owner % 2 ^ 32, .socket, 0, message⟩

end IoAnswer

namespace SocketServer

/-- The switch for requests that have failed; none where the function returns. -/
def failed (s : SocketServer) : IoRequest → Option (IoAnswer × List IoEffect)
  | .connect _ session ns =>
    let x := s.slot ns
    some (.response x.owner session (.error x.id), [.closesocket x.fd])
  | .recv ns buf =>
    let x := s.slot ns
    some (.socket x.owner (.error x.id), [.closesocket x.fd, .free (some buf)])
  | .send id buf =>
    let x := s.slot (hashId id)
    if s.stale id then some (.silent .empty, [])
    else
      -- there is no `break`: the request is read as one of type `t`, whose buffer is null
      some (.socket x.owner (.error id),
        [.closesocket x.fd, .free (some buf), .closesocket id, .free none])
  | .sendto fd buf => some (.silent (.error fd), [.closesocket fd, .free (some buf)])
  | .recvfrom fd owner buf =>
    some (.socket owner (.error fd), [.closesocket fd, .free (some buf)])
  | .acceptex _ cfd buf => some (.silent .empty, [.free (some buf), .closesocket cfd])
  | .accept owner id session =>
    some (.response owner session (.error id),
      if s.stale id then [] else [.closesocket (s.slot (hashId id)).fd])
  | .listen owner session ns =>
    let x := s.slot ns
    some (.response owner session (.error x.id), [.closesocket x.fd])
  | .start _ _ _ | .close _ => none

/-- The switch for requests that have been successful. -/
def completed (s : SocketServer) (bytes : ℕ) (replies : IoReplies) :
    IoRequest → IoAnswer × IoStep
  | .connect _ session ns =>
    let x := s.slot ns
    (.response x.owner session ⟨.connect, x.id, 0, none⟩, s, [])
  | .start owner id session =>
    if s.stale id then (.silent (.error id), s, [])
    else
      let i := hashId id
      let x := { s.slot i with owner := owner }
      let answer := IoAnswer.response owner session ⟨.start, id, 0, none⟩
      if x.start then (answer, s.setSlot i x, [])
      else (answer, (s.setSlot i { x with start := true }).postRecv i replies.recvFails)
  | .recv ns buf =>
    let x := s.slot ns
    if bytes = 0 then (.socket x.owner (.error x.id), s, [.free (some buf), .closesocket x.fd])
    else
      let p := s.postRecv ns replies.recvFails
      if replies.recvFails then
        -- the buffer is set to null before it is freed
        (.socket x.owner (.error x.fd), p.1, p.2 ++ [.free none])
      else (.socket x.owner ⟨.data, x.id, bytes, some buf⟩, p)
  | .send _ buf => (.silent .empty, s, [.free (some buf)])
  | .sendto _ buf => (.silent .empty, s, [.free (some buf)])
  | .recvfrom fd owner buf =>
    let p := s.postRecvFrom fd (owner % 2 ^ 32) replies.recvFails
    if replies.recvFails then (.socket owner (.error fd), p.1, p.2 ++ [.free none])
    else (.socket owner ⟨.udp, fd, bytes, some buf⟩, p)
  | .acceptex ns cfd buf =>
    let freed : List IoEffect := [.free (some buf)]
    match s.reserveId with
    | (none, s') => (.silent .empty, s', freed)
    | (some nid, s') =>
      if nid < 0 then (.silent .empty, s', freed)
      else
        match s'.newFd nid cfd (s'.slot ns).owner with
        -- `reserve_id` has just set what `new_fd` asserts
        | none => (.silent .empty, s', freed)
        | some s'' =>
          let x := s''.slot ns
          let p := s''.postAcceptex ns (replies.acceptFails 0)
          (.socket x.owner ⟨.accept, x.id, nid, none⟩, p.1, freed ++ p.2)
  | .accept owner id session =>
    if s.stale id then (.silent ⟨.error, 0, 0, none⟩, s, [])
    else
      (.response owner session ⟨.start, id, 0, none⟩,
        s.postAcceptexes (hashId id) replies.acceptFails 0 10)
  | .listen _ session ns =>
    let x := s.slot ns
    (.response x.owner session ⟨.connect, x.id, 0, none⟩, s, [])
  | .close id =>
    let x := s.slot (hashId id)
    if x.id ≠ id then (.silent .empty, s, [])
    else (.silent .empty, s.setSlot (hashId id) { x with type := .invalid }, [.closesocket x.fd])

/-- What follows `_ret`. -/
def deliver (answer : IoAnswer) (delivered : Bool) : List IoEffect :=
  if answer.handle ≠ 0 then
    .push answer.handle answer.type answer.session answer.message delivered ::
      if delivered then [] else [.free answer.message.buffer]
  else []

/-- `ztask_socket_poll`, when a request has been completed. -/
def poll (s : SocketServer) (packet : IoPacket) (replies : IoReplies) : IoStep :=
  if packet.ok = false then
    match s.failed packet.request with
    | none => (s, [])
    | some (answer, effects) => (s, effects ++ deliver answer replies.delivered)
  else
    let p := s.completed packet.bytes replies packet.request
    (p.2.1, p.2.2 ++ deliver p.1 replies.delivered)

/-- What the loop gets from `reserve_id`. -/
def reserved (s : SocketServer) (packet : IoPacket) : List ℤ :=
  match packet.ok, packet.request with
  | true, .acceptex _ _ _ => s.reserveId.1.toList
  | _, _ => []

end SocketServer

end ZTask
