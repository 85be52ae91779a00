import ZTask.Lib.Mask
import Mathlib.Data.Int.Notation
import Mathlib.Data.List.Basic

/-!
# What goes over a connection between harbors

`service_harbor.c`: a message to another node is sent as four bytes of length, most significant
first, the payload, and a cookie of twelve bytes that holds the header. The message type stands in
the high byte of the header's destination, where the harbor id of a handle is.

What the service does to the outside is recorded as a list of effects, in the order of the calls.
-/

namespace ZTask

open Lib

/-- `HANDLE_MASK`, as a `uint32_t`. -/
def handleMask32 : UInt32 := 0xffffff

/-- `HANDLE_REMOTE_SHIFT`, as a `uint32_t`. -/
def handleRemoteShift32 : UInt32 := 24

def globalnameLength : ℕ := 16

def remoteMax : ℕ := 256

/-- `HEADER_COOKIE_LENGTH`, the size of `struct remote_message_header`. -/
def headerCookieLength : ℕ := 12

def ptypeText : UInt32 := 0

def ptypeError : UInt32 := 7

def ptypeTagDontcopy : UInt32 := 0x10000

/-- The harbor id in a handle. -/
def harborOf (handle : UInt32) : ℕ := (handle >>> handleRemoteShift32).toNat

/-- `struct remote_message_header`. -/
structure RemoteMessageHeader where
  source : UInt32
  destination : UInt32
  session : UInt32
deriving DecidableEq, Repr, Inhabited

/-- `struct harbor_msg`; the size is the length of the buffer. -/
structure HarborMsg where
  header : RemoteMessageHeader
  buffer : List UInt8
deriving DecidableEq, Repr, Inhabited

/-- What is passed to `ztask_error`. -/
inductive HarborError
  /-- `Unknown destination :%x from :%x type(%d)` -/
  | unknownDestination (destination source type : UInt32)
  /-- `remote message from :%08x to :%08x is too large.` -/
  | tooLarge (source destination : UInt32)
  /-- `Drop message to %s (in harbor %d)` -/
  | dropToName (name : List UInt8) (harbor : ℕ)
  /-- `Invalid socket fd (%d) data` -/
  | invalidSocket (fd : ℤ)
  /-- `Invalid shakehand id (%d) from fd = %d , harbor = %d` -/
  | invalidShakehand (id : ℕ) (fd : ℤ) (remote : UInt8)
  /-- `Message is too long from harbor %d` -/
  | tooLong (id : ℕ)
  /-- `Drop message to harbor %d from %x to %x (session = %d, msgsz = %d)` -/
  | drop (harbor : ℕ) (source destination session : UInt32) (sz : ℕ)
  /-- `Invalid global name %s` -/
  | invalidName (name : List UInt8)
  /-- `Invalid command %c %s` -/
  | invalidCommand (command : UInt8) (buffer : List UInt8)
  /-- the node `%d` is connected already -/
  | connected (id : ℕ)
  /-- `Unknown command %s` -/
  | unknownCommand (msg : List UInt8)
  /-- `Unkown fd (%d) closed` -/
  | unknownFd (fd : ℤ)
  /-- `message havn't send to Harbor (%d) reach %d K` -/
  | backlog (id : ℕ) (ud : ℤ)
  /-- `recv invalid socket message type %d` -/
  | invalidSocketMessage (type : UInt32)
  /-- `recv invalid message from %x,  type = %d` -/
  | invalidMessage (source type : UInt32)
deriving DecidableEq, Repr

/-- A call of the service to the outside. -/
inductive HarborEffect
  /-- `ztask_send`. -/
  | send (source destination type session : UInt32) (msg : List UInt8)
  /-- `ztask_socket_send`. -/
  | socketSend (fd : ℤ) (buffer : List UInt8)
  /-- `ztask_socket_start`. -/
  | socketStart (fd : ℤ)
  /-- `ztask_socket_close`. -/
  | socketClose (fd : ℤ)
  /-- `ztask_error`. -/
  | error (e : HarborError)
deriving DecidableEq, Repr

/-! ## Numbers -/

def toBigendian (n : UInt32) : List UInt8 :=
  [(n >>> 24 &&& 0xff).toUInt8, (n >>> 16 &&& 0xff).toUInt8, (n >>> 8 &&& 0xff).toUInt8,
    (n &&& 0xff).toUInt8]

def fromBigendian (b₀ b₁ b₂ b₃ : UInt8) : UInt32 :=
  b₀.toUInt32 <<< 24 ||| b₁.toUInt32 <<< 16 ||| b₂.toUInt32 <<< 8 ||| b₃.toUInt32

def headerToMessage (header : RemoteMessageHeader) : List UInt8 :=
  toBigendian header.source ++ (toBigendian header.destination ++ toBigendian header.session)

/-- `message_to_header`; nothing if there are not twelve bytes to read. -/
def messageToHeader : List UInt8 → Option RemoteMessageHeader
  | [a₀, a₁, a₂, a₃, b₀, b₁, b₂, b₃, c₀, c₁, c₂, c₃] =>
    some ⟨fromBigendian a₀ a₁ a₂ a₃, fromBigendian b₀ b₁ b₂ b₃, fromBigendian c₀ c₁ c₂ c₃⟩
  | _ => none

@[simp] theorem length_toBigendian (n : UInt32) : (toBigendian n).length = 4 := rfl

@[simp] theorem length_headerToMessage (header : RemoteMessageHeader) :
    (headerToMessage header).length = headerCookieLength := rfl

private theorem toNat_fromBigendian (a b c d : UInt8) : (fromBigendian a b c d).toNat =
    ((a.toNat * 2 ^ 8 + b.toNat) * 2 ^ 8 + c.toNat) * 2 ^ 8 + d.toNat := by
  have ha := a.toNat_lt
  have hb := b.toNat_lt
  have hc := c.toNat_lt
  have hd := d.toNat_lt
  have hmod : ∀ (x : UInt8) (k : ℕ), k ≤ 24 → x.toNat <<< k % 2 ^ 32 = x.toNat <<< k := by
    intro x k hk
    have hx := x.toNat_lt
    have hpow : (2 : ℕ) ^ k ≤ 2 ^ 24 := Nat.pow_le_pow_right (by decide) hk
    have hle := Nat.mul_le_mul (Nat.le_of_lt_succ hx) hpow
    rw [Nat.shiftLeft_eq, Nat.mod_eq_of_lt (by omega)]
  rw [← or_bytes hb hc hd]
  simp only [fromBigendian, UInt32.toNat_or, UInt32.toNat_shiftLeft, UInt8.toNat_toUInt32]
  rw [show (24 : UInt32).toNat % 32 = 24 from rfl, show (16 : UInt32).toNat % 32 = 16 from rfl,
    show (8 : UInt32).toNat % 32 = 8 from rfl, hmod a 24 (by decide), hmod b 16 (by decide),
    hmod c 8 (by decide)]

theorem toNat_byte (n : UInt32) {k : UInt32} (hk : k.toNat < 32) :
    (n >>> k &&& 0xff).toUInt8.toNat = n.toNat / 2 ^ k.toNat % 2 ^ 8 := by
  rw [toUInt8_byte n hk, UInt8.toNat_ofNat']

theorem toNat_low_byte (n : UInt32) : (n &&& 0xff).toUInt8.toNat = n.toNat % 2 ^ 8 := by
  rw [toUInt8_low_byte, UInt8.toNat_ofNat']

private theorem fromBigendian_bytes (n : UInt32) :
    fromBigendian (n >>> 24 &&& 0xff).toUInt8 (n >>> 16 &&& 0xff).toUInt8
      (n >>> 8 &&& 0xff).toUInt8 (n &&& 0xff).toUInt8 = n := by
  have hn := n.toNat_lt
  rw [← UInt32.toNat_inj, toNat_fromBigendian, toNat_byte n (by decide), toNat_byte n (by decide),
    toNat_byte n (by decide), toNat_low_byte]
  simp only [show (24 : UInt32).toNat = 24 from rfl, show (16 : UInt32).toNat = 16 from rfl,
    show (8 : UInt32).toNat = 8 from rfl]
  omega

@[simp] theorem messageToHeader_headerToMessage (header : RemoteMessageHeader) :
    messageToHeader (headerToMessage header) = some header := by
  simp only [headerToMessage, toBigendian, List.cons_append, List.nil_append, messageToHeader,
    fromBigendian_bytes]

theorem messageToHeader_isSome {bytes : List UInt8} (h : bytes.length = headerCookieLength) :
    ∃ header, messageToHeader bytes = some header := by
  match bytes, h with
  | [_, _, _, _, _, _, _, _, _, _, _, _], _ => exact ⟨_, rfl⟩

/-! ## Sending -/

/-- `send_remote`. -/
def sendRemote (fd : ℤ) (buffer : List UInt8) (cookie : RemoteMessageHeader) : List HarborEffect :=
  let szHeader := buffer.length + headerCookieLength
  if szHeader > 2 ^ 32 - 1 then [.error (.tooLarge cookie.source cookie.destination)]
  else [.socketSend fd (toBigendian (UInt32.ofNat szHeader) ++ buffer ++ headerToMessage cookie)]

namespace HarborMsg

/-- The messages `send_remote` does not refuse. -/
def Fits (m : HarborMsg) : Prop := m.buffer.length + headerCookieLength < 2 ^ 32

instance (m : HarborMsg) : Decidable m.Fits :=
  inferInstanceAs (Decidable (m.buffer.length + headerCookieLength < 2 ^ 32))

/-- The bytes of a message on the wire: the length, and what it is the length of. -/
def lengthBytes (m : HarborMsg) : List UInt8 :=
  toBigendian (UInt32.ofNat (m.buffer.length + headerCookieLength))

def bodyBytes (m : HarborMsg) : List UInt8 := m.buffer ++ headerToMessage m.header

def encode (m : HarborMsg) : List UInt8 := m.lengthBytes ++ m.bodyBytes

@[simp] theorem length_bodyBytes (m : HarborMsg) :
    m.bodyBytes.length = m.buffer.length + headerCookieLength := by
  rw [bodyBytes, List.length_append, length_headerToMessage]

theorem one_lt_length_encode (m : HarborMsg) : 1 < m.encode.length := by
  rw [encode, List.length_append, lengthBytes, length_toBigendian]
  omega

end HarborMsg

/-- **`send_remote` sends the frame of the message**, unless it is too large. -/
theorem sendRemote_eq (fd : ℤ) (m : HarborMsg) : sendRemote fd m.buffer m.header =
    if m.Fits then [.socketSend fd m.encode]
    else [.error (.tooLarge m.header.source m.header.destination)] := by
  have hiff : m.buffer.length + headerCookieLength > 2 ^ 32 - 1 ↔ ¬m.Fits := by
    rw [HarborMsg.Fits]
    omega
  simp only [sendRemote, hiff, ite_not, HarborMsg.encode, HarborMsg.lengthBytes,
    HarborMsg.bodyBytes, List.append_assoc]

end ZTask
