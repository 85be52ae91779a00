import ZTask.Harbor.Names
import ZTask.Lib.Machine

/-!
# The harbor service

`service_harbor.c`: one service of every node holds the connections to the other nodes. It is told
of connections by commands (`S` and `A`), of names by `N`; it is handed what the services of the
node send to other nodes and what the connections deliver.

The service is a machine that takes one message at a time. A message from a connection comes with
what `ztask_send` answers for the messages in it. The outputs are the calls to the outside.
-/

namespace ZTask

open Lib

/-- `STATUS_WAIT` to `STATUS_DOWN`. -/
inductive Status
  | wait
  | handshake
  | header
  | content
  | down
deriving DecidableEq, Repr

/-- `struct slave`. A `recv_buffer` that is `NULL` has no bytes. -/
structure Slave where
  fd : ℤ
  queue : Option HarborMsgQueue
  status : Status
  length : ℕ
  read : ℕ
  size : List UInt8
  recvBuffer : List UInt8
  size_length : size.length = 4

/-- `struct harbor`. -/
structure Harbor where
  id : ℕ
  slave : UInt32
  map : HarborMap
  s : ℕ → Slave

inductive HarborFault
  /-- An assertion fails. -/
  | assertion
  /-- A read or a write outside of a block. -/
  | outOfBounds
  /-- The loop over a chunk has not ended. -/
  | endless
deriving DecidableEq, Repr

namespace Harbor

/-- Overwrite the record of a slave. -/
def setSlave (h : Harbor) (id : ℕ) (s : Slave) : Harbor := { h with s := Function.update h.s id s }

@[simp] theorem setSlave_id (h : Harbor) (id : ℕ) (s : Slave) : (h.setSlave id s).id = h.id := rfl

@[simp] theorem setSlave_slave (h : Harbor) (id : ℕ) (s : Slave) :
    (h.setSlave id s).slave = h.slave := rfl

@[simp] theorem setSlave_map (h : Harbor) (id : ℕ) (s : Slave) : (h.setSlave id s).map = h.map :=
  rfl

@[simp] theorem setSlave_self (h : Harbor) (id : ℕ) (s : Slave) : (h.setSlave id s).s id = s :=
  Function.update_self _ _ _

theorem setSlave_of_ne (h : Harbor) {id k : ℕ} (s : Slave) (hk : k ≠ id) :
    (h.setSlave id s).s k = h.s k := Function.update_of_ne hk _ _

@[simp] theorem setSlave_eta (h : Harbor) (id : ℕ) : h.setSlave id (h.s id) = h := by
  rw [setSlave, Function.update_eq_self]

@[simp] theorem setSlave_setSlave (h : Harbor) (id : ℕ) (s s' : Slave) :
    (h.setSlave id s).setSlave id s' = h.setSlave id s' := by
  simp [setSlave]

end Harbor

/-- What a call does: its effects, and the harbor after it. -/
abbrev HarborStep := List HarborEffect × Harbor

/-! ## Connections -/

def closeHarbor (h : Harbor) (id : ℕ) : HarborStep :=
  let s := h.s id
  (if s.fd ≠ 0 then [.socketClose s.fd] else [],
    h.setSlave id { s with status := .down, queue := none })

/-- The digits of `%d`. -/
def decimal (n : ℕ) : List UInt8 := (Nat.toDigits 10 n).map fun c ↦ UInt8.ofNat c.toNat

/-- `report_harbor_down`: the message `D id`. -/
def reportHarborDown (h : Harbor) (id : ℕ) : HarborStep :=
  ([.send 0 h.slave ptypeText 0 (68 :: 32 :: decimal id)], h.setSlave id { h.s id with fd := -1 })

/-- The search for the slave of a socket. -/
def slaveOf (h : Harbor) (fd : ℤ) : Option ℕ :=
  (List.range' 1 (remoteMax - 1)).find? fun i ↦ (h.s i).fd = fd

def harborId (h : Harbor) (fd : ℤ) : ℕ := (slaveOf h fd).getD 0

theorem slaveOf_setSlave {h : Harbor} {id : ℕ} {s : Slave} (hs : s.fd = (h.s id).fd) (fd : ℤ) :
    slaveOf (h.setSlave id s) fd = slaveOf h fd := by
  have hfds : ∀ i, ((h.setSlave id s).s i).fd = (h.s i).fd := by
    intro i
    by_cases hi : i = id
    · rw [hi, Harbor.setSlave_self, hs]
    · rw [Harbor.setSlave_of_ne _ _ hi]
  simp only [slaveOf, hfds]

theorem slaveOf_fd {h : Harbor} {fd : ℤ} {id : ℕ} (hid : slaveOf h fd = some id) :
    (h.s id).fd = fd ∧ 0 < id ∧ id < remoteMax := by
  have hmem := List.mem_of_find?_eq_some hid
  have hfd := List.find?_some hid
  rw [List.mem_range'_1] at hmem
  refine ⟨of_decide_eq_true hfd, hmem.1, ?_⟩
  have := hmem.2
  rw [remoteMax] at this ⊢
  omega

def dispatchQueue (h : Harbor) (id : ℕ) : Except HarborFault HarborStep :=
  let s := h.s id
  if s.fd = 0 then .error .assertion
  else match s.queue with
    | none => .ok ([], h)
    | some queue =>
      .ok ((popAll queue).1.flatMap fun m ↦ sendRemote s.fd m.buffer m.header,
        h.setSlave id { s with queue := none })

/-! ## Data from a connection -/

/-- `memcpy` of `count` bytes of `src` to the offset `off` of the block `dst`. -/
def memcpy (dst : List UInt8) (off : ℕ) (src : List UInt8) (count : ℤ) :
    Except HarborFault { block : List UInt8 // block.length = dst.length } :=
  if h : 0 ≤ count ∧ count.toNat ≤ src.length ∧ off + count.toNat ≤ dst.length then
    .ok ⟨dst.take off ++ (src.take count.toNat ++ dst.drop (off + count.toNat)), by
      simp only [List.length_append, List.length_take, List.length_drop]
      omega⟩
  else .error .outOfBounds

/-- `forward_local_messsage`. `delivered` says whether `ztask_send` takes the message with this
header. -/
def forwardLocalMesssage (h : Harbor) (delivered : RemoteMessageHeader → Bool) (msg : List UInt8) :
    Except HarborFault (List HarborEffect) :=
  if msg.length < headerCookieLength then .error .outOfBounds
  else match messageToHeader (msg.drop (msg.length - headerCookieLength)) with
    | none => .error .outOfBounds
    | some header =>
      let type := header.destination >>> handleRemoteShift32
      let destination :=
        (header.destination &&& handleMask32) ||| (UInt32.ofNat h.id <<< handleRemoteShift32)
      let sent : HarborEffect := .send header.source destination (type ||| ptypeTagDontcopy)
        header.session (msg.take (msg.length - headerCookieLength))
      if delivered header then .ok [sent]
      else if type ≠ ptypeError then
        .ok [sent, .send destination header.source ptypeError header.session [],
          .error (.unknownDestination destination header.source type)]
      else .ok [sent, .error (.unknownDestination destination header.source type)]

/-- What a pass through the `switch` leaves: the rest of the chunk if the loop goes on. -/
abbrev HarborPass := List HarborEffect × Harbor × Option (List UInt8)

/-- `case STATUS_CONTENT`. -/
def contentPass (delivered : RemoteMessageHeader → Bool) (h : Harbor) (id : ℕ)
    (buffer : List UInt8) : Except HarborFault HarborPass := do
  let s := h.s id
  let need : ℤ := s.length - s.read
  if buffer.length < need then
    let recvBuffer ← memcpy s.recvBuffer s.read buffer buffer.length
    return ([],
      h.setSlave id { s with recvBuffer := recvBuffer, read := s.read + buffer.length }, none)
  else
    let recvBuffer ← memcpy s.recvBuffer s.read buffer need
    let effects ← forwardLocalMesssage h delivered (recvBuffer.val.take s.length)
    let rest := buffer.drop need.toNat
    return (effects,
      h.setSlave id { s with length := 0, read := 0, recvBuffer := [], status := .header },
      if rest = [] then none else some rest)

/-- `case STATUS_HEADER`, which falls through to the next case. -/
def headerPass (delivered : RemoteMessageHeader → Bool) (h : Harbor) (id : ℕ)
    (buffer : List UInt8) : Except HarborFault HarborPass := do
  let s := h.s id
  let need : ℤ := 4 - s.read
  if buffer.length < need then
    let size ← memcpy s.size s.read buffer buffer.length
    return ([], h.setSlave id
      { s with
        size := size
        read := s.read + buffer.length
        size_length := size.2.trans s.size_length }, none)
  else
    let size ← memcpy s.size s.read buffer need
    let rest := buffer.drop need.toNat
    let s := { s with size := size.val, size_length := size.2.trans s.size_length }
    if s.size.getD 0 0 ≠ 0 then
      let p := closeHarbor (h.setSlave id s) id
      return (.error (.tooLong id) :: p.1, p.2, none)
    else
      let length := (s.size.getD 1 0).toNat <<< 16 ||| (s.size.getD 2 0).toNat <<< 8 |||
        (s.size.getD 3 0).toNat
      -- the bytes of a fresh block are never read before they are written
      let h' := h.setSlave id
        { s with length, read := 0, recvBuffer := List.replicate length 0, status := .content }
      if rest = [] then return ([], h', none) else contentPass delivered h' id rest

/-- `case STATUS_HANDSHAKE`, which falls through to the next case. -/
def handshakePass (delivered : RemoteMessageHeader → Bool) (h : Harbor) (id : ℕ) :
    List UInt8 → Except HarborFault HarborPass
  | [] => .error .outOfBounds
  | remoteId :: rest => do
    let s := h.s id
    if remoteId.toNat ≠ id then
      let p := closeHarbor h id
      return (.error (.invalidShakehand id s.fd remoteId) :: p.1, p.2, none)
    else
      let p ← dispatchQueue (h.setSlave id { s with status := .header }) id
      if rest = [] then return (p.1, p.2, some [])
      else
        let q ← headerPass delivered p.2 id rest
        return (p.1 ++ q.1, q.2)

/-- One pass through the `switch`. -/
def socketPass (delivered : RemoteMessageHeader → Bool) (h : Harbor) (id : ℕ)
    (buffer : List UInt8) : Except HarborFault HarborPass :=
  match (h.s id).status with
  | .handshake => handshakePass delivered h id buffer
  | .header => headerPass delivered h id buffer
  | .content => contentPass delivered h id buffer
  | .wait | .down => .ok ([], h, none)

/-- `for (;;)`, with a bound on the number of passes. -/
def socketLoop (delivered : RemoteMessageHeader → Bool) (id : ℕ) :
    ℕ → Harbor → List UInt8 → Except HarborFault HarborStep
  | 0, _, _ => .error .endless
  | fuel + 1, h, buffer => do
    let p ← socketPass delivered h id buffer
    match p.2.2 with
    | none => return (p.1, p.2.1)
    | some rest =>
      let q ← socketLoop delivered id fuel p.2.1 rest
      return (p.1 ++ q.1, q.2)

/-- `push_socket_data`. The loop goes round at most once for every byte, and once more when none is
left. -/
def pushSocketData (h : Harbor) (fd : ℤ) (buffer : List UInt8)
    (delivered : RemoteMessageHeader → Bool) : Except HarborFault HarborStep :=
  match slaveOf h fd with
  | none => .ok ([.error (.invalidSocket fd)], h)
  | some id => socketLoop delivered id (buffer.length + 2) h buffer

/-! ## Messages to other nodes -/

/-- The queue of a slave when the queue of a name is moved to it: the queue itself if there is none
yet, or all messages pushed to the one there is. -/
def movedQueue (waiting : Option HarborMsgQueue) (queue : HarborMsgQueue) : HarborMsgQueue :=
  match waiting with
  | none => queue
  | some waiting => (popAll queue).1.foldl pushQueueMsg waiting

/-- `dispatch_name_queue`, where `queue` is the queue of the node. What is left of it is released by
`update_name`. -/
def dispatchNameQueue (h : Harbor) (node : KeyValue) (queue : HarborMsgQueue) : HarborStep :=
  let handle := node.value
  let id := harborOf handle
  let s := h.s id
  if s.fd = 0 then
    if s.status = .down then ([.error (.dropToName node.key.text id)], h)
    else
      let moved := movedQueue s.queue queue
      if id = harborOf h.slave then
        ((popAll moved).1.map fun m ↦ .send m.header.source handle
            ((m.header.destination >>> handleRemoteShift32) ||| ptypeTagDontcopy) m.header.session
            m.buffer,
          h.setSlave id { s with queue := none })
      else ([], h.setSlave id { s with queue := some moved })
  else
    ((popAll queue).1.flatMap fun m ↦ sendRemote s.fd m.buffer
        { m.header with destination := m.header.destination ||| (handle &&& handleMask32) },
      h)

def updateName (h : Harbor) (name : GlobalName) (handle : UInt32) : HarborStep :=
  let p := searchOrInsert h.map name
  let node := { p.1 with value := handle }
  match p.1.queue with
  | none => ([], { h with map := names.replace p.2 node })
  | some queue =>
    let q := dispatchNameQueue h node queue
    (q.1, { q.2 with map := names.replace p.2 { node with queue := none } })

def remoteSendHandle (h : Harbor) (source destination type session : UInt32) (msg : List UInt8) :
    HarborStep :=
  let id := harborOf destination
  if id = h.id then
    ([.send source destination (type ||| ptypeTagDontcopy) session msg], h)
  else
    let s := h.s id
    if s.fd = 0 ∨ s.status = .handshake then
      if s.status = .down then
        ([.send destination source ptypeError 0 [],
          .error (.drop id source destination session msg.length)], h)
      else
        let header : RemoteMessageHeader :=
          ⟨source, (type <<< handleRemoteShift32) ||| (destination &&& handleMask32), session⟩
        ([], h.setSlave id
          { s with queue := some (pushQueue (s.queue.getD newQueue) msg header) })
    else
      (sendRemote s.fd msg
        ⟨source, (destination &&& handleMask32) ||| (type <<< handleRemoteShift32), session⟩, h)

def remoteSendName (h : Harbor) (source : UInt32) (name : GlobalName) (type session : UInt32)
    (msg : List UInt8) : HarborStep :=
  let p := searchOrInsert h.map name
  if p.1.value = 0 then
    let header : RemoteMessageHeader := ⟨source, type <<< handleRemoteShift32, session⟩
    let node := { p.1 with queue := some (pushQueue (p.1.queue.getD newQueue) msg header) }
    -- the query is `Q name`, up to the first zero byte
    ([.send 0 h.slave ptypeText 0 (81 :: 32 :: name.text)],
      { h with map := names.replace p.2 node })
  else remoteSendHandle { h with map := p.2 } source p.1.value type session msg

/-! ## Commands -/

/-- `handshake`. -/
def harborHandshake (h : Harbor) (id : ℕ) : List HarborEffect :=
  [.socketSend (h.s id).fd [UInt8.ofNat h.id]]

def isSpace (b : UInt8) : Bool := b == 32 || (9 ≤ b && b ≤ 13)

def isDigit (b : UInt8) : Bool := 48 ≤ b && b ≤ 57

/-- `%d` of `sscanf`: the number and what follows it. -/
def scanInt (text : List UInt8) : Option (ℤ × List UInt8) :=
  let text := text.dropWhile isSpace
  let signed := match text with
    | b :: rest => if b = 45 then (-1, rest) else if b = 43 then (1, rest) else (1, text)
    | [] => ((1 : ℤ), text)
  let digits := signed.2.takeWhile isDigit
  if digits = [] then none
  else
    let value := digits.foldl (fun n b ↦ 10 * n + (b.toNat - 48)) 0
    some (signed.1 * (value : ℕ), signed.2.dropWhile isDigit)

/-- `sscanf(buffer, "%d %d", &fd, &id)`, both 0 before. -/
def scanConnect (buffer : List UInt8) : ℤ × ℤ :=
  match scanInt buffer with
  | none => (0, 0)
  | some (fd, rest) =>
    match scanInt rest with
    | none => (fd, 0)
    | some (id, _) => (fd, id)

/-- The name of an `N` command, if it has an acceptable length. -/
def commandName (msg : List UInt8) : Option GlobalName :=
  let text := msg.drop 2
  if h : 0 < text.length ∧ text.length < globalnameLength then
    some (GlobalName.pad text (Nat.le_of_lt h.2))
  else none

/-- The part of an `S` or `A` command that connects the slave `id` to the socket `fd`. -/
def connectSlave (h : Harbor) (command : UInt8) (fd : ℤ) (id : ℕ) :
    Except HarborFault HarborStep := do
  let h := h.setSlave id { h.s id with fd }
  let effects := .socketStart fd :: harborHandshake h id
  if command = 83 then return (effects, h.setSlave id { h.s id with status := .handshake })
  else
    let p ← dispatchQueue (h.setSlave id { h.s id with status := .header }) id
    return (effects ++ p.1, p.2)

/-- The socket and the slave of an `S` or `A` command that is carried out. -/
def acceptedConnect (h : Harbor) (msg : List UInt8) : Option (ℤ × ℕ) :=
  let p := scanConnect (msg.drop 2)
  if p.1 = 0 ∨ p.2 ≤ 0 ∨ (remoteMax : ℤ) ≤ p.2 then none
  else if 0 < (h.s p.2.toNat).fd then none
  else some (p.1, p.2.toNat)

/-- What is logged if it is not. -/
def refusedConnect (h : Harbor) (command : UInt8) (msg : List UInt8) : HarborStep :=
  let p := scanConnect (msg.drop 2)
  if p.1 = 0 ∨ p.2 ≤ 0 ∨ (remoteMax : ℤ) ≤ p.2 then
    ([.error (.invalidCommand command (msg.drop 2))], h)
  else ([.error (.connected p.2.toNat)], h)

/-- `case 'S'` and `case 'A'`. -/
def connectCommand (h : Harbor) (command : UInt8) (msg : List UInt8) :
    Except HarborFault HarborStep :=
  -- a command of one byte has a negative length, which `memcpy` takes for a huge one
  if msg.length < 2 then .error .outOfBounds
  else match acceptedConnect h msg with
    | some (fd, id) => connectSlave h command fd id
    | none => .ok (refusedConnect h command msg)

def harborCommand (h : Harbor) (msg : List UInt8) (source : UInt32) :
    Except HarborFault HarborStep :=
  match msg.head? with
  | none => .error .outOfBounds
  | some command =>
    if command = 78 then
      match commandName msg with
      | none => .ok ([.error (.invalidName (msg.drop 2))], h)
      | some name => .ok (updateName h name source)
    else if command = 83 ∨ command = 65 then connectCommand h command msg
    else .ok ([.error (.unknownCommand msg)], h)

/-! ## The service -/

/-- The types of socket messages that the service tells apart. -/
inductive SocketType
  | data
  | connect
  | close
  | error
  | warning
  | other
deriving DecidableEq, Repr

/-- `struct ztask_socket_message`; for data, `ud` is the length of the buffer. -/
structure SocketMessage where
  type : SocketType
  id : ℤ
  ud : ℤ
  buffer : List UInt8

/-- `struct remote_message`: its destination is `name` if `handle` is 0. -/
structure RemoteMessage where
  name : GlobalName
  handle : UInt32
  message : List UInt8
  type : UInt32

/-- A message to the service, by its type. -/
inductive HarborInput
  | socket (message : SocketMessage) (delivered : RemoteMessageHeader → Bool)
  | harbor (msg : List UInt8) (source : UInt32)
  | system (rmsg : RemoteMessage) (session source : UInt32)
  | response
  | other (type session source : UInt32)

/-- `case PTYPE_SOCKET`. -/
def socketMessage (h : Harbor) (message : SocketMessage) (delivered : RemoteMessageHeader → Bool) :
    Except HarborFault HarborStep :=
  match message.type with
  | .data => pushSocketData h message.id message.buffer delivered
  | .error | .close =>
    let id := harborId h message.id
    if id ≠ 0 then .ok (reportHarborDown h id) else .ok ([.error (.unknownFd message.id)], h)
  | .connect => .ok ([], h)
  | .warning =>
    let id := harborId h message.id
    if id ≠ 0 then .ok ([.error (.backlog id message.ud)], h) else .ok ([], h)
  -- what is logged is the type of the message, `PTYPE_SOCKET`
  | .other => .ok ([.error (.invalidSocketMessage 6)], h)

/-- `case PTYPE_SYSTEM`. -/
def systemMessage (h : Harbor) (rmsg : RemoteMessage) (session source : UInt32) : HarborStep :=
  if rmsg.handle = 0 then remoteSendName h source rmsg.name rmsg.type session rmsg.message
  else remoteSendHandle h source rmsg.handle rmsg.type session rmsg.message

/-- `default`. -/
def otherMessage (h : Harbor) (type session source : UInt32) : HarborStep :=
  (.error (.invalidMessage source type) ::
    (if session ≠ 0 ∧ type ≠ ptypeError then [.send 0 source ptypeError session []] else []), h)

def mainloop (h : Harbor) : HarborInput → Except HarborFault HarborStep
  | .socket message delivered => socketMessage h message delivered
  | .harbor msg source => harborCommand h msg source
  | .system rmsg session source => .ok (systemMessage h rmsg session source)
  | .response => .ok ([], h)
  | .other type session source => .ok (otherMessage h type session source)

/-- The service as a machine. -/
def harbor : Machine Harbor HarborInput (List HarborEffect) HarborFault
  | h, i => (mainloop h i).map fun p ↦ (p.2, p.1)

/-- `harbor_create` and `harbor_init`: everything is zero but the id of the node and the handle of
the service that is told of the connections. -/
def harborInit (id : ℕ) (slave : UInt32) : Harbor where
  id := id
  slave := slave
  map := hashNew
  s := fun _ ↦ ⟨0, none, .wait, 0, 0, [0, 0, 0, 0], [], rfl⟩

end ZTask
