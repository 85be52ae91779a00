import ZTask.Handle.Storage
import ZTask.Harbor.Names
import ZTask.Server.MessageQueue

/-!
# Sending

`ztask_send` and `ztask_sendname` of `ztask_server.c`, with what they call of `ztask_handle.c` and
`ztask_harbor.c`. A message goes to the queue of a service of the node, or wrapped in a
`remote_message` to the queue of the harbor service, or it is refused.

The heap hands out a fresh address for every block, so an address stands for one allocation. How
often each has been freed is counted, and so are the copies that `_filter_args` makes.
-/

namespace ZTask

open Lib

/-- `MESSAGE_TYPE_MASK`. -/
def messageTypeMask : ℕ := 2 ^ 56 - 1

def messageTypeShift : ℕ := 56

def ptypeSystem : ℕ := 4

def ptypeHarbor : ℕ := 5

def ptypeTagAllocsession : UInt32 := 0x20000

/-- `struct remote_message`, with the address of the payload. -/
structure RemoteLetter where
  name : GlobalName
  handle : UInt32
  message : Option ℕ
  sz : ℕ
  type : ℕ

/-- `sizeof(struct remote_message)`. -/
def remoteLetterSize : ℕ := 48

inductive Block
  | payload (bytes : List UInt8)
  | remote (rmsg : RemoteLetter)

/-- What sending reads and writes. -/
structure Post where
  storage : HandleStorage
  /-- The field `handle` of a context. -/
  handleOf : ℕ → ℕ
  /-- The messages in the queue of a context. -/
  mail : ℕ → RingBuffer ZtaskMessage
  /-- The field `session_id` of a context. -/
  sessionId : ℕ → ℤ
  /-- `REMOTE`. -/
  remote : Option ℕ
  /-- `HARBOR`; `none` is `~0`. -/
  harbor : Option UInt32
  heap : ℕ → Option Block
  /-- The next fresh address. -/
  next : ℕ
  /-- How often an address has been freed. -/
  frees : ℕ → ℕ
  /-- The addresses of the copies that were made. -/
  copied : List ℕ

inductive SendFault
  /-- An assertion fails. -/
  | assertion
  /-- A read outside of a block. -/
  | outOfBounds
deriving DecidableEq, Repr

namespace Post

/-- `ztask_malloc`, and what is written into the block. -/
def malloc (s : Post) (b : Block) : ℕ × Post :=
  (s.next, { s with heap := Function.update s.heap s.next (some b), next := s.next + 1 })

/-- `ztask_free`. -/
def free (s : Post) : Option ℕ → Post
  | none => s
  | some p => { s with
      heap := Function.update s.heap p none
      frees := Function.update s.frees p (s.frees p + 1) }

/-- `ztask_mq_push` to the queue of a context, and what it does to the queue. -/
def push (s : Post) (c : ℕ) (message : ZtaskMessage) : Post :=
  { s with mail := Function.update s.mail c (pushRing (s.mail c) message) }

end Post

/-! ## Names -/

/-- The loop of `ztask_handle_findname`, from `begin` up to `stop`, which is `end + 1`. -/
def findnameLoop (names : List (String × ℕ)) (name : String) : ℕ → ℕ → ℕ → ℕ
  | 0, _, _ => 0
  | fuel + 1, begin, stop =>
    if begin < stop then
      let mid := (begin + (stop - 1)) / 2
      match names[mid]? with
      | none => 0
      | some n =>
        if n.1 = name then n.2
        else if n.1 < name then findnameLoop names name fuel (mid + 1) stop
        else findnameLoop names name fuel begin mid
    else 0

/-- `ztask_handle_findname`. The interval shrinks in every round. -/
def findname (s : HandleStorage) (name : String) : ℕ :=
  findnameLoop s.name name (s.name.length + 1) 0 s.name.length

/-- The value of a hexadecimal digit. -/
def hexDigit (c : Char) : Option ℕ :=
  if '0' ≤ c ∧ c ≤ '9' then some (c.toNat - 48)
  else if 'a' ≤ c ∧ c ≤ 'f' then some (c.toNat - 87)
  else if 'A' ≤ c ∧ c ≤ 'F' then some (c.toNat - 55)
  else none

/-- The digits at the start of a text, as a number. -/
def hexNumber : List Char → ℕ → ℕ
  | [], n => n
  | c :: cs, n =>
    match hexDigit c with
    | none => n
    | some d => hexNumber cs (16 * n + d)

/-- `0x` is skipped if a digit follows. -/
def skipHexPrefix : List Char → List Char
  | '0' :: x :: c :: cs =>
    if (x = 'x' ∨ x = 'X') ∧ (hexDigit c).isSome then c :: cs else '0' :: x :: c :: cs
  | cs => cs

/-- `isspace`. -/
def isBlank (c : Char) : Bool := c = ' ' ∨ ('\t' ≤ c ∧ c ≤ '\r')

/-- `strtoul(text, NULL, 16)`, for 64 bits. -/
def strtoulHex (text : List Char) : ℕ :=
  let text := text.dropWhile isBlank
  let signed := match text with
    | '-' :: rest => (true, rest)
    | '+' :: rest => (false, rest)
    | _ => (false, text)
  let n := hexNumber (skipHexPrefix signed.2) 0
  if 2 ^ 64 ≤ n then 2 ^ 64 - 1
  else if signed.1 then (2 ^ 64 - n) % 2 ^ 64
  else n

/-- `copy_name`. -/
def copyName (addr : List Char) : GlobalName :=
  GlobalName.pad ((addr.take globalnameLength).map fun c ↦ UInt8.ofNat c.toNat) (by
    rw [List.length_map, List.length_take]
    exact Nat.min_le_left _ _)

/-! ## Sending -/

/-- `ztask_context_newsession`. -/
def contextNewsession (s : Post) (context : ℕ) : ℤ × Post :=
  let session := s.sessionId context + 1
  -- past `INT_MAX` the number is negative
  let session := if 0 < session ∧ session < 2 ^ 31 then session else 1
  (session, { s with sessionId := Function.update s.sessionId context session })

/-- The copy of `_filter_args`: the bytes and a zero. -/
def copyPayload (s : Post) (data sz : ℕ) : Except SendFault (ℕ × Post) :=
  match s.heap data with
  | some (.payload bytes) =>
    if sz ≤ bytes.length then
      let p := s.malloc (.payload (bytes.take sz ++ [0]))
      .ok (p.1, { p.2 with copied := p.1 :: p.2.copied })
    else .error .outOfBounds
  | _ => .error .outOfBounds

/-- What `_filter_args` leaves in its arguments. -/
structure SendArgs where
  session : ℤ
  data : Option ℕ
  sz : ℕ

/-- The session of `_filter_args`. -/
def filterSession (s : Post) (context : ℕ) (type : UInt32) (session : ℤ) :
    Except SendFault (ℤ × Post) :=
  if type &&& ptypeTagAllocsession ≠ 0 then
    if session = 0 then .ok (contextNewsession s context) else .error .assertion
  else .ok (session, s)

/-- The payload of `_filter_args`. -/
def filterData (s : Post) (type : UInt32) (data : Option ℕ) (sz : ℕ) :
    Except SendFault (Option ℕ × Post) :=
  match data with
  | none => .ok (none, s)
  | some p =>
    if type &&& ptypeTagDontcopy ≠ 0 then .ok (some p, s)
    else (copyPayload s p sz).map fun q ↦ (some q.1, q.2)

/-- `_filter_args`. -/
def filterArgs (s : Post) (context : ℕ) (type : UInt32) (session : ℤ) (data : Option ℕ) (sz : ℕ) :
    Except SendFault (SendArgs × Post) := do
  let p ← filterSession s context type session
  let q ← filterData p.2 type data sz
  return (⟨p.1, q.1, sz ||| (type &&& 0xff).toNat <<< messageTypeShift⟩, q.2)

/-- `ztask_context_push`. -/
def contextPush (s : Post) (handle : UInt32) (message : ZtaskMessage) : ℤ × Post :=
  match s.storage.grab s.handleOf handle.toNat with
  | none => (-1, s)
  | some c => (0, s.push c message)

/-- `ztask_harbor_message_isremote`. -/
def messageIsremote (s : Post) (handle : UInt32) : Except SendFault Bool :=
  match s.harbor with
  | none => .error .assertion
  | some harbor =>
    let h := handle &&& ~~~handleMask32
    .ok (decide (h ≠ harbor ∧ h ≠ 0))

/-- `ztask_harbor_send`, with the `remote_message` at the address `rmsg`. -/
def harborSend (s : Post) (rmsg type : ℕ) (source : UInt32) (session : ℤ) : Except SendFault Post :=
  if type = ptypeSystem ∨ type = ptypeHarbor then .error .assertion
  else match s.remote with
    | none => .error .assertion
    | some c => .ok (s.push c ⟨source.toNat, session, some rmsg,
        remoteLetterSize ||| ptypeSystem <<< messageTypeShift⟩)

/-- The allocation of a `remote_message` and `ztask_harbor_send`. -/
def sendLetter (s : Post) (name : GlobalName) (handle source : UInt32) (args : SendArgs) :
    Except SendFault (ℤ × Post) :=
  let type := args.sz >>> messageTypeShift
  let p := s.malloc (.remote ⟨name, handle, args.data, args.sz &&& messageTypeMask, type⟩)
  (harborSend p.2 p.1 type source args.session).map fun s ↦ (args.session, s)

/-- The source of a message that names none is its sender. -/
def sourceOf (s : Post) (context : ℕ) (source : UInt32) : UInt32 :=
  if source = 0 then UInt32.ofNat (s.handleOf context) else source

/-- What `ztask_send` does once the arguments are filtered. -/
def sendArgs (s : Post) (source destination : UInt32) (args : SendArgs) :
    Except SendFault (ℤ × Post) :=
  if destination = 0 then .ok (args.session, s)
  else do
    let remote ← messageIsremote s destination
    -- the name of a `remote_message` to a handle is not initialised
    if remote then sendLetter s (copyName []) destination source args
    else
      let p := contextPush s destination ⟨source.toNat, args.session, args.data, args.sz⟩
      if p.1 ≠ 0 then .ok (-1, p.2.free args.data) else .ok (args.session, p.2)

/-- `ztask_send`. -/
def ztaskSend (s : Post) (context : ℕ) (source destination type : UInt32) (session : ℤ)
    (data : Option ℕ) (sz : ℕ) : Except SendFault (ℤ × Post) :=
  if sz &&& messageTypeMask ≠ sz then
    .ok (-1, if type &&& ptypeTagDontcopy ≠ 0 then s.free data else s)
  else do
    let p ← filterArgs s context type session data sz
    sendArgs p.2 (sourceOf s context source) destination p.1

/-- `ztask_sendname`. -/
def ztaskSendname (s : Post) (context : ℕ) (source : UInt32) (addr : List Char) (type : UInt32)
    (session : ℤ) (data : Option ℕ) (sz : ℕ) : Except SendFault (ℤ × Post) :=
  let source := sourceOf s context source
  match addr with
  | ':' :: number =>
    ztaskSend s context source (UInt32.ofNat (strtoulHex number)) type session data sz
  | '.' :: name =>
    let des := findname s.storage (String.ofList name)
    if des = 0 then .ok (-1, if type &&& ptypeTagDontcopy ≠ 0 then s.free data else s)
    else ztaskSend s context source (UInt32.ofNat des) type session data sz
  | _ => do
    let p ← filterArgs s context type session data sz
    sendLetter p.2 (copyName addr) 0 source p.1

end ZTask
