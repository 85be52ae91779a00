import ZTask.Cluster.Wire
import ZTask.Lib.Mask

/-!
# What the encoders make

`Written` says what stands at the front of the buffer; each function that writes has a rule that
adds a piece to it (`put_bind` and those derived from it). So each encoder is followed write by
write, and with it that no write leaves the buffer and that no assertion fails.

## Following the writes

The encoders write at offsets that they compute, not always in order. `put_bind_keep` is for a write
that goes ahead of what is there, and `put_bind` for one that follows it. In the end the front of
the buffer is the frame, and its header is the length of the rest, as it is below `0x10000`
(`headerBytes`).
-/

namespace ZTask

open Lib

namespace Cluster

/-! ## Numbers -/

private theorem uint32Bytes_eq (n : ℕ) : uint32Bytes n = toLittle 4 n := by
  simp only [uint32Bytes, toLittle, ofNat_low_byte, Nat.shiftRight_eq_div_pow,
    Nat.div_div_eq_div_mul]

@[simp] theorem length_uint32Bytes (n : ℕ) : (uint32Bytes n).length = 4 := rfl

private theorem unpackUint32_eq (a b c d : UInt8) (rest : List UInt8) :
    unpackUint32 (a :: b :: c :: d :: rest) = .ok (ofLittle [a, b, c, d]) := by
  have ha := a.toNat_lt
  have hb := b.toNat_lt
  have hc := c.toNat_lt
  have hor : ∀ {x y i : ℕ}, x < 2 ^ i → x ||| y <<< i = x + y * 2 ^ i := by
    intro x y i hx
    rw [Nat.or_comm, ← Nat.shiftLeft_add_eq_or_of_lt hx, Nat.shiftLeft_eq, Nat.add_comm]
  have h₁ : a.toNat ||| b.toNat <<< 8 = a.toNat + b.toNat * 2 ^ 8 := hor ha
  have h₂ : a.toNat + b.toNat * 2 ^ 8 ||| c.toNat <<< 16 =
      a.toNat + b.toNat * 2 ^ 8 + c.toNat * 2 ^ 16 := hor (by omega)
  have h₃ : a.toNat + b.toNat * 2 ^ 8 + c.toNat * 2 ^ 16 ||| d.toNat <<< 24 =
      a.toNat + b.toNat * 2 ^ 8 + c.toNat * 2 ^ 16 + d.toNat * 2 ^ 24 := hor (by omega)
  rw [unpackUint32, h₁, h₂, h₃]
  simp only [ofLittle]
  congr 1
  omega

theorem unpackUint32_bytes {n : ℕ} (h : n < 2 ^ 32) (rest : List UInt8) :
    unpackUint32 (uint32Bytes n ++ rest) = .ok n := by
  have hread : unpackUint32 (uint32Bytes n ++ rest) = .ok (ofLittle (uint32Bytes n)) :=
    unpackUint32_eq _ _ _ _ _
  rw [hread, uint32Bytes_eq, ofLittle_toLittle_of_lt h]

/-! ## The buffer -/

/-- The buffer starts with `front`. -/
structure Written (buf : Block UInt8) (front : List UInt8) : Prop where
  length : buf.length = tempLength
  at_front : buf.At 0 front

private theorem written_tempBuffer : Written tempBuffer [] :=
  ⟨Block.length_alloc _, Block.at_nil _ _⟩

variable {β : Type} {buf : Block UInt8} {front src ys : List UInt8} {off o n : ℕ}
  {k : Block UInt8 → Except ClusterError β} {r : Except ClusterError β}

theorem ok_bind {α : Type} (a : α) (f : α → Except ClusterError β) :
    ((.ok a : Except ClusterError α) >>= f) = f a := rfl

/-- A write behind the front, and away from what else stands in the buffer. -/
theorem put_bind_keep (hbuf : Written buf front) (hoff : off = front.length)
    (hfits : off + src.length ≤ tempLength) (hat : buf.At o ys)
    (hother : o + ys.length ≤ off ∨ off + src.length ≤ o)
    (hk : ∀ buf', Written buf' (front ++ src) → buf'.At o ys → k buf' = r) :
    (put buf off src >>= k) = r := by
  obtain ⟨buf', hwrite⟩ := Block.write?_eq_some (show off + src.length ≤ buf.length by
    rw [hbuf.length]
    exact hfits)
  have hfront : buf'.At 0 (front ++ src) := by
    refine (hbuf.at_front.write? hwrite (.inl ?_)).append ?_
    · exact Nat.le_of_eq (by rw [hoff, Nat.zero_add])
    · rw [Nat.zero_add, ← hoff]
      exact Block.At.of_write? hwrite
  rw [put, hwrite]
  exact hk buf' ⟨(Block.length_of_write? hwrite).trans hbuf.length, hfront⟩
    (hat.write? hwrite hother)

private theorem put_bind (hbuf : Written buf front) (hoff : off = front.length)
    (hfits : off + src.length ≤ tempLength)
    (hk : ∀ buf', Written buf' (front ++ src) → k buf' = r) : (put buf off src >>= k) = r :=
  put_bind_keep hbuf hoff hfits (Block.at_nil buf 0) (.inl (Nat.zero_le off)) fun buf' h _ ↦
    hk buf' h

private theorem putByte_bind {b : UInt8} (hbuf : Written buf front) (hoff : off = front.length)
    (hfits : off + 1 ≤ tempLength)
    (hk : ∀ buf', Written buf' (front ++ [b]) → k buf' = r) : (put buf off [b] >>= k) = r :=
  put_bind hbuf hoff hfits hk

private theorem fillUint32_bind (hbuf : Written buf front) (hoff : off = front.length)
    (hfits : off + 4 ≤ tempLength)
    (hk : ∀ buf', Written buf' (front ++ uint32Bytes n) → k buf' = r) :
    (fillUint32 buf off n >>= k) = r :=
  put_bind hbuf hoff hfits hk

theorem copyPart_bind (hbuf : Written buf front) (hoff : off = front.length) (hn : n ≤ src.length)
    (hfits : off + n ≤ tempLength)
    (hk : ∀ buf', Written buf' (front ++ src.take n) → k buf' = r) :
    (copy buf off src n >>= k) = r := by
  have hlen : (src.take n).length = n := by rw [List.length_take, Nat.min_eq_left hn]
  rw [copy, if_pos hn]
  exact put_bind hbuf hoff (by rwa [hlen]) hk

theorem copy_bind (hbuf : Written buf front) (hoff : off = front.length) (hn : n = src.length)
    (hfits : off + src.length ≤ tempLength)
    (hk : ∀ buf', Written buf' (front ++ src) → k buf' = r) : (copy buf off src n >>= k) = r := by
  subst hn
  refine copyPart_bind hbuf hoff (Nat.le_refl _) hfits fun buf' h ↦ ?_
  rw [List.take_length] at h
  exact hk buf' h

/-- The header of a frame. -/
def headerBytes (sz : ℕ) : List UInt8 :=
  [UInt8.ofNat (sz >>> 8 &&& 0xff), UInt8.ofNat (sz &&& 0xff)]

private theorem fillHeader_bind_keep (hlen : buf.length = tempLength) (hn : n < 0x10000)
    (hat : buf.At o ys) (ho : 2 ≤ o)
    (hk : ∀ buf', Written buf' (headerBytes n) → buf'.At o ys → k buf' = r) :
    (fillHeader buf n >>= k) = r := by
  have hfits : 0 + (headerBytes n).length ≤ tempLength := by
    rw [headerBytes, List.length_cons, List.length_singleton, tempLength]
    decide
  rw [fillHeader, if_pos hn]
  exact put_bind_keep ⟨hlen, Block.at_nil buf 0⟩ rfl hfits hat (.inr ho) hk

private theorem fillHeader_bind (hlen : buf.length = tempLength) (hn : n < 0x10000)
    (hk : ∀ buf', Written buf' (headerBytes n) → k buf' = r) : (fillHeader buf n >>= k) = r :=
  fillHeader_bind_keep hlen hn (Block.at_nil buf 2) (Nat.le_refl 2) fun buf' h _ ↦ hk buf' h

theorem putAhead_bind {b : UInt8} (hlen : buf.length = tempLength) (hfits : off + 1 ≤ tempLength)
    (hk : ∀ buf', buf'.length = tempLength → buf'.At off [b] → k buf' = r) :
    (put buf off [b] >>= k) = r := by
  have hfits' : off + [b].length ≤ buf.length := by rwa [hlen]
  obtain ⟨buf', hwrite⟩ := Block.write?_eq_some hfits'
  rw [put, hwrite]
  exact hk buf' ((Block.length_of_write? hwrite).trans hlen) (Block.At.of_write? hwrite)

theorem Written.join (hbuf : Written buf front) (hat : buf.At o ys) (ho : o = front.length) :
    Written buf (front ++ ys) := by
  refine ⟨hbuf.length, hbuf.at_front.append ?_⟩
  rwa [Nat.zero_add, ← ho]

/-! ## Frames -/

/-- A frame: the length of the payload, and the payload. -/
def frameOf (payload : List UInt8) : List UInt8 := headerBytes payload.length ++ payload

private theorem pushlstring_bind {k : List UInt8 → Except ClusterError β} {payload : List UInt8}
    (hbuf : Written buf front) (hfront : front = frameOf payload) (hn : n = payload.length + 2) :
    (pushlstring buf n >>= k) = k (frameOf payload) := by
  subst hfront hn
  have hlen : payload.length + 2 = (frameOf payload).length := by
    rw [frameOf, List.length_append, headerBytes, List.length_cons, List.length_singleton,
      Nat.add_comm]
  rw [pushlstring, hlen, hbuf.at_front.read?]
  rfl

theorem headerBytes_spec {sz : ℕ} (h : sz < 0x10000) :
    ∃ high low : UInt8, headerBytes sz = [high, low] ∧ high.toNat * 256 + low.toNat = sz := by
  refine ⟨_, _, rfl, ?_⟩
  rw [ofNat_low_byte, ofNat_low_byte, UInt8.toNat_ofNat', UInt8.toNat_ofNat',
    Nat.shiftRight_eq_div_pow]
  omega

variable {msg name : List UInt8} {session : ℕ} {isPush : Bool}

/-- The payload of a request that goes in one frame. -/
def numberPayload (addr session : ℕ) (msg : List UInt8) : List UInt8 :=
  [0] ++ uint32Bytes addr ++ uint32Bytes session ++ msg

@[simp] theorem length_numberPayload (addr session : ℕ) (msg : List UInt8) :
    (numberPayload addr session msg).length = msg.length + 9 := by
  simp [numberPayload]
  omega

private theorem packreqNumber_single {addr : ℤ} (hsz : msg.length < multiPart) :
    packreqNumber addr session msg msg.length isPush =
      .ok (frameOf (numberPayload (addr % 2 ^ 32).toNat (if isPush then 0 else session) msg),
        0) := by
  have hsz' := hsz
  rw [multiPart] at hsz'
  simp only [packreqNumber, if_pos hsz]
  refine fillHeader_bind (Block.length_alloc _) (by omega) fun buf h ↦ ?_
  refine putByte_bind h rfl (by decide) fun buf h ↦ ?_
  refine fillUint32_bind h rfl (by decide) fun buf h ↦ ?_
  refine fillUint32_bind h rfl (by decide) fun buf h ↦ ?_
  refine copy_bind h rfl rfl (by rw [tempLength]; omega) fun buf h ↦ ?_
  refine (pushlstring_bind h ?_ (by rw [length_numberPayload])).trans rfl
  rw [frameOf, length_numberPayload]
  simp only [numberPayload, List.append_assoc]

/-- The payload that announces a message in parts. -/
def multiNumberPayload (addr session sz : ℕ) (isPush : Bool) : List UInt8 :=
  [if isPush then 0x41 else 1] ++ uint32Bytes addr ++ uint32Bytes session ++ uint32Bytes sz

@[simp] theorem length_multiNumberPayload (addr session sz : ℕ) (isPush : Bool) :
    (multiNumberPayload addr session sz isPush).length = 13 := rfl

private theorem packreqNumber_multi {addr : ℤ} (hsz : ¬n < multiPart) :
    packreqNumber addr session msg n isPush =
      .ok (frameOf (multiNumberPayload (addr % 2 ^ 32).toNat session n isPush), partCount n) := by
  simp only [packreqNumber, if_neg hsz]
  refine fillHeader_bind (Block.length_alloc _) (by decide) fun buf h ↦ ?_
  refine putByte_bind h rfl (by decide) fun buf h ↦ ?_
  refine fillUint32_bind h rfl (by decide) fun buf h ↦ ?_
  refine fillUint32_bind h rfl (by decide) fun buf h ↦ ?_
  refine fillUint32_bind h rfl (by decide) fun buf h ↦ ?_
  refine (pushlstring_bind h ?_ (by rw [length_multiNumberPayload])).trans rfl
  rw [frameOf, length_multiNumberPayload]
  simp only [multiNumberPayload, List.append_assoc]

/-- The same with a name. -/
def stringPayload (name : List UInt8) (session : ℕ) (msg : List UInt8) : List UInt8 :=
  [0x80, UInt8.ofNat name.length] ++ name ++ uint32Bytes session ++ msg

@[simp] theorem length_stringPayload (name : List UInt8) (session : ℕ) (msg : List UInt8) :
    (stringPayload name session msg).length = msg.length + 6 + name.length := by
  simp [stringPayload]
  omega

private theorem packreqString_single (hname : 1 ≤ name.length) (hname' : name.length ≤ 255)
    (hsz : msg.length < multiPart) :
    packreqString (some name) session msg msg.length isPush =
      .ok (frameOf (stringPayload name (if isPush then 0 else session) msg), 0) := by
  have hsz' := hsz
  rw [multiPart] at hsz'
  have hok : ¬(name.length < 1 ∨ 255 < name.length) := by omega
  simp only [packreqString, if_pos hsz, if_neg hok]
  refine fillHeader_bind (Block.length_alloc _) (by omega) fun buf h ↦ ?_
  refine putByte_bind h rfl (by decide) fun buf h ↦ ?_
  refine putByte_bind h rfl (by decide) fun buf h ↦ ?_
  refine copy_bind h rfl rfl (by rw [tempLength]; omega) fun buf h ↦ ?_
  refine fillUint32_bind h ?_ (by rw [tempLength]; omega) fun buf h ↦ ?_
  · simp [headerBytes]
    omega
  refine copy_bind h ?_ rfl (by rw [tempLength]; omega) fun buf h ↦ ?_
  · simp [headerBytes]
    omega
  refine (pushlstring_bind h ?_ (by rw [length_stringPayload]; omega)).trans rfl
  rw [frameOf, length_stringPayload]
  simp only [stringPayload, List.append_assoc, List.cons_append, List.nil_append]

def multiStringPayload (name : List UInt8) (session sz : ℕ) (isPush : Bool) : List UInt8 :=
  [if isPush then 0xc1 else 0x81, UInt8.ofNat name.length] ++ name ++ uint32Bytes session ++
    uint32Bytes sz

@[simp] theorem length_multiStringPayload (name : List UInt8) (session sz : ℕ) (isPush : Bool) :
    (multiStringPayload name session sz isPush).length = 10 + name.length := by
  simp [multiStringPayload]
  omega

private theorem packreqString_multi (hname : 1 ≤ name.length) (hname' : name.length ≤ 255)
    (hsz : ¬n < multiPart) :
    packreqString (some name) session msg n isPush =
      .ok (frameOf (multiStringPayload name session n isPush), partCount n) := by
  have hok : ¬(name.length < 1 ∨ 255 < name.length) := by omega
  simp only [packreqString, if_neg hsz, if_neg hok]
  refine fillHeader_bind (Block.length_alloc _) (by omega) fun buf h ↦ ?_
  refine putByte_bind h rfl (by decide) fun buf h ↦ ?_
  refine putByte_bind h rfl (by decide) fun buf h ↦ ?_
  refine copy_bind h rfl rfl (by rw [tempLength]; omega) fun buf h ↦ ?_
  refine fillUint32_bind h ?_ (by rw [tempLength]; omega) fun buf h ↦ ?_
  · simp [headerBytes]
    omega
  refine fillUint32_bind h ?_ (by rw [tempLength]; omega) fun buf h ↦ ?_
  · simp [headerBytes]
    omega
  refine (pushlstring_bind h ?_ (by rw [length_multiStringPayload]; omega)).trans rfl
  rw [frameOf, length_multiStringPayload]
  simp only [multiStringPayload, List.append_assoc, List.cons_append, List.nil_append]

/-! ## Parts -/

/-- The frames of the first `part` parts of a message: all but the last part are of `MULTI_PART`
bytes, and the payload tells whether it is of the last one. -/
def partFrames (payload : Bool → List UInt8 → List UInt8) : ℕ → List UInt8 → List (List UInt8)
  | 0, _ => []
  | part + 1, msg =>
    frameOf (payload (decide (msg.length ≤ multiPart)) (msg.take multiPart)) ::
      partFrames payload part (msg.drop multiPart)

/-- The loops count the parts right: a message of `MULTI_PART` bytes or less is one part, and the
others are one more than what is left. -/
theorem partCount_eq (sz : ℕ) :
    partCount sz = if multiPart < sz then partCount (sz - multiPart) + 1 else 1 := by
  rw [partCount, partCount, multiPart]
  by_cases h : 0x8000 < sz
  · rw [if_pos h]
    omega
  · rw [if_neg h]
    omega

/-- The payload of a part of a request. -/
def partPayload (session : ℕ) (last : Bool) (part : List UInt8) : List UInt8 :=
  [if last then 3 else 2] ++ uint32Bytes session ++ part

@[simp] theorem length_partPayload (session : ℕ) (last : Bool) (part : List UInt8) :
    (partPayload session last part).length = part.length + 5 := by
  simp [partPayload]
  omega

/-- The payload of a part of a response. -/
def responsePayload (session : ℕ) (type : UInt8) (part : List UInt8) : List UInt8 :=
  uint32Bytes session ++ [type] ++ part

@[simp] theorem length_responsePayload (session : ℕ) (type : UInt8) (part : List UInt8) :
    (responsePayload session type part).length = part.length + 5 := by
  simp [responsePayload]
  omega

/-- One round of `packreq_multi`. The type is written ahead of the header. -/
theorem packreqMulti_round {last : Bool} {k : Block UInt8 → List UInt8 → Except ClusterError β}
    (hlen : buf.length = tempLength) (hn : n ≤ msg.length) (hpart : n ≤ multiPart)
    (hk : ∀ buf', buf'.length = tempLength →
      k buf' (frameOf (partPayload session last (msg.take n))) = r) :
    (do
      let buf ← put buf 2 [if last then 3 else 2]
      let buf ← fillHeader buf (n + 5)
      let buf ← fillUint32 buf 3 session
      let buf ← copy buf 7 msg n
      let frame ← pushlstring buf (n + 7)
      k buf frame) = r := by
  have htake : (msg.take n).length = n := by rw [List.length_take, Nat.min_eq_left hn]
  rw [multiPart] at hpart
  refine putAhead_bind hlen (by decide) fun buf hlen hat ↦ ?_
  refine fillHeader_bind_keep hlen (by omega) hat (Nat.le_refl 2) fun buf h hat ↦ ?_
  refine fillUint32_bind (h.join hat rfl) rfl (by decide) fun buf h ↦ ?_
  refine copyPart_bind h rfl hn (by rw [tempLength]; omega) fun buf h ↦ ?_
  refine (pushlstring_bind h ?_ (by rw [length_partPayload, htake])).trans (hk buf h.length)
  rw [frameOf, length_partPayload, htake]
  simp only [partPayload, List.append_assoc]

/-- One round of the loop in `lpackresponse`. -/
theorem packresponseMulti_round {type : UInt8}
    {k : Block UInt8 → List UInt8 → Except ClusterError β}
    (hlen : buf.length = tempLength) (hn : n ≤ msg.length) (hpart : n ≤ multiPart)
    (hk : ∀ buf', buf'.length = tempLength →
      k buf' (frameOf (responsePayload session type (msg.take n))) = r) :
    (do
      let buf ← put buf 6 [type]
      let buf ← fillHeader buf (n + 5)
      let buf ← fillUint32 buf 2 session
      let buf ← copy buf 7 msg n
      let frame ← pushlstring buf (n + 7)
      k buf frame) = r := by
  have htake : (msg.take n).length = n := by rw [List.length_take, Nat.min_eq_left hn]
  rw [multiPart] at hpart
  refine putAhead_bind hlen (by decide) fun buf hlen hat ↦ ?_
  refine fillHeader_bind_keep hlen (by omega) hat (by decide) fun buf h hat ↦ ?_
  refine put_bind_keep h rfl (by rw [length_uint32Bytes]; decide) hat (.inr ?_) fun buf h hat ↦ ?_
  · exact Nat.le_of_eq (by rw [length_uint32Bytes])
  refine copyPart_bind (h.join hat rfl) rfl hn (by rw [tempLength]; omega) fun buf h ↦ ?_
  refine (pushlstring_bind h ?_ (by rw [length_responsePayload, htake])).trans (hk buf h.length)
  rw [frameOf, length_responsePayload, htake]
  simp only [responsePayload, List.append_assoc]

/-- The number of bytes that a round takes. -/
def roundSize (msg : List UInt8) : ℕ := if multiPart < msg.length then multiPart else msg.length

private theorem ite_roundSize (msg : List UInt8) :
    (if multiPart < msg.length then multiPart else msg.length) = roundSize msg := rfl

private theorem roundSize_le (msg : List UInt8) :
    roundSize msg ≤ msg.length ∧ roundSize msg ≤ multiPart := by
  rw [roundSize]
  split <;> omega

private theorem take_roundSize (msg : List UInt8) :
    msg.take (roundSize msg) = msg.take multiPart ∧
      msg.drop (roundSize msg) = msg.drop multiPart := by
  rw [roundSize]
  by_cases h : multiPart < msg.length
  · rw [if_pos h]
    exact ⟨rfl, rfl⟩
  · have hle := Nat.not_lt.mp h
    rw [if_neg h, List.take_length, List.drop_length, List.take_of_length_le hle,
      List.drop_eq_nil_of_le hle]
    exact ⟨rfl, rfl⟩

private theorem ite_multiPart_lt (msg : List UInt8) (more last : UInt8) :
    (if multiPart < msg.length then more else last) =
      if decide (msg.length ≤ multiPart) then last else more := by
  by_cases h : multiPart < msg.length
  · rw [if_pos h, decide_eq_false (Nat.not_le.mpr h)]
    rfl
  · rw [if_neg h, decide_eq_true (Nat.not_lt.mp h)]
    rfl

private theorem packreqMulti_eq (part : ℕ) (hlen : buf.length = tempLength) :
    packreqMulti session part buf msg msg.length =
      .ok (partFrames (partPayload session) part msg) := by
  induction part generalizing buf msg with
  | zero => rfl
  | succ part ih =>
    obtain ⟨htake, hdrop⟩ := take_roundSize msg
    obtain ⟨hle, hpart⟩ := roundSize_le msg
    simp only [packreqMulti, ite_multiPart_lt, ite_roundSize]
    refine packreqMulti_round hlen hle hpart fun buf hlen ↦ ?_
    rw [htake, ← List.length_drop, hdrop, ih hlen]
    rfl

private theorem packresponseMulti_eq (part : ℕ) (hlen : buf.length = tempLength) :
    packresponseMulti session part buf msg msg.length =
      .ok (partFrames (fun last ↦ responsePayload session (if last then 4 else 3)) part msg) := by
  induction part generalizing buf msg with
  | zero => rfl
  | succ part ih =>
    obtain ⟨htake, hdrop⟩ := take_roundSize msg
    obtain ⟨hle, hpart⟩ := roundSize_le msg
    simp only [packresponseMulti, ite_multiPart_lt, ite_roundSize]
    refine packresponseMulti_round hlen hle hpart fun buf hlen ↦ ?_
    rw [htake, ← List.length_drop, hdrop, ih hlen]
    rfl

/-! ## Whole messages -/

/-- An address that a request can have: a handle or a name. -/
def ValidAddress : ClusterValue → Prop
  | .integer n => 0 ≤ n ∧ n < 2 ^ 32
  | .string name => 1 ≤ name.length ∧ name.length ≤ 255
  | _ => False

def singlePayload (addr : ClusterValue) (session : ℕ) (msg : List UInt8) : List UInt8 :=
  match addr with
  | .string name => stringPayload name session msg
  | .integer n => numberPayload n.toNat session msg
  | _ => []

def multiPayload (addr : ClusterValue) (session sz : ℕ) (isPush : Bool) : List UInt8 :=
  match addr with
  | .string name => multiStringPayload name session sz isPush
  | .integer n => multiNumberPayload n.toNat session sz isPush
  | _ => []

/-- What `packrequest` makes of a message. -/
def packedRequest (addr : ClusterValue) (session : ℕ) (msg : List UInt8) (isPush : Bool) :
    PackedRequest where
  request := frameOf <| if msg.length < multiPart
    then singlePayload addr (if isPush then 0 else session) msg
    else multiPayload addr session msg.length isPush
  nextSession := if session + 1 = 2 ^ 31 then 1 else session + 1
  parts := if msg.length < multiPart then none
    else some (partFrames (partPayload session) (partCount msg.length) msg)

private theorem packreq_single {addr : ClusterValue} (haddr : ValidAddress addr)
    (hsz : msg.length < multiPart) :
    packreq addr session msg msg.length isPush =
      .ok (frameOf (singlePayload addr (if isPush then 0 else session) msg), 0) := by
  cases addr with
  | nil => exact haddr.elim
  | boolean b => exact haddr.elim
  | integer n =>
    have hn : n % 2 ^ 32 = n := Int.emod_eq_of_lt haddr.1 haddr.2
    rw [packreq, packreqNumber_single hsz, hn, singlePayload]
  | string name => rw [packreq, packreqString_single haddr.1 haddr.2 hsz, singlePayload]

theorem packreq_multi {addr : ClusterValue} (haddr : ValidAddress addr) (hsz : ¬n < multiPart) :
    packreq addr session msg n isPush =
      .ok (frameOf (multiPayload addr session n isPush), partCount n) := by
  cases addr with
  | nil => exact haddr.elim
  | boolean b => exact haddr.elim
  | integer n =>
    have hn : n % 2 ^ 32 = n := Int.emod_eq_of_lt haddr.1 haddr.2
    rw [packreq, packreqNumber_multi hsz, hn, multiPayload]
  | string name => rw [packreq, packreqString_multi haddr.1 haddr.2 hsz, multiPayload]

private theorem nextSession_eq (hsession : session < 2 ^ 31) :
    (if toInt32 ((session : ℤ) + 1) < 0 then 1 else toInt32 ((session : ℤ) + 1)) =
      if session + 1 = 2 ^ 31 then 1 else (session : ℤ) + 1 := by
  by_cases hlast : session + 1 = 2 ^ 31
  · rw [if_pos (toInt32_neg (by omega) (by omega)), if_pos hlast]
  · rw [toInt32_of_lt (by omega) (by omega), if_neg (by omega), if_neg hlast]

theorem packrequest_eq {addr : ClusterValue} (haddr : ValidAddress addr) (hsession : 1 ≤ session)
    (hsession' : session < 2 ^ 31) (hmsg : msg.length < 2 ^ 32) :
    packrequest addr session (some msg) msg.length isPush =
      .ok (packedRequest addr session msg isPush) := by
  have hint : toInt32 session = session := toInt32_of_lt (by omega) (by omega)
  have hsz : ((msg.length : ℤ) % 2 ^ 32).toNat = msg.length := by omega
  have hpos : ¬(session : ℤ) ≤ 0 := by omega
  rw [packrequest]
  dsimp only
  rw [hint, hsz, if_neg hpos, Int.toNat_natCast, nextSession_eq hsession']
  by_cases hsingle : msg.length < multiPart
  · rw [packreq_single haddr hsingle, packedRequest, if_pos hsingle, if_pos hsingle]
    rfl
  · have hpart : partCount msg.length ≠ 0 := Nat.succ_ne_zero _
    rw [packreq_multi haddr hsingle, packedRequest, if_neg hsingle, if_neg hsingle]
    rw [ok_bind]
    dsimp only
    rw [if_pos hpart, packreqMulti_eq _ written_tempBuffer.length]
    rfl

/-- What `lpackresponse` makes of a message. -/
def packedResponse (session : ℕ) (ok : Bool) (msg : List UInt8) : PackedResponse :=
  if ok = true ∧ multiPart < msg.length then
    .multi (frameOf (responsePayload session 2 (uint32Bytes msg.length)) ::
      partFrames (fun last ↦ responsePayload session (if last then 4 else 3))
        (partCount msg.length) msg)
  else .single (frameOf (responsePayload session (if ok then 1 else 0)
    (if ok then msg else msg.take multiPart)))

theorem lpackresponse_eq {ok : Bool} {message : ResponseMessage}
    (hmessage : message = .string msg ∨ message = .pointer msg msg.length)
    (hsession : session < 2 ^ 32) (hmsg : msg.length < 2 ^ 32) :
    lpackresponse session ok message = .ok (packedResponse session ok msg) := by
  have hs : ((session : ℤ) % 2 ^ 32).toNat = session := by omega
  have hpair : message.arguments = (msg, msg.length) := by
    rcases hmessage with rfl | rfl
    · rfl
    · have hsz : ((msg.length : ℤ) % 2 ^ 64).toNat = msg.length := by omega
      rw [ResponseMessage.arguments, hsz]
  simp only [lpackresponse, hs, hpair]
  by_cases hmulti : ok = true ∧ multiPart < msg.length
  · have hsz : msg.length % 2 ^ 32 = msg.length := Nat.mod_eq_of_lt hmsg
    rw [if_pos hmulti, packedResponse, if_pos hmulti, hsz]
    refine fillHeader_bind (Block.length_alloc _) (by decide) fun buf h ↦ ?_
    refine fillUint32_bind h rfl (by decide) fun buf h ↦ ?_
    refine putByte_bind h rfl (by decide) fun buf h ↦ ?_
    refine fillUint32_bind h rfl (by decide) fun buf h ↦ ?_
    have hfront : headerBytes 9 ++ uint32Bytes session ++ [2] ++ uint32Bytes msg.length =
        frameOf (responsePayload session 2 (uint32Bytes msg.length)) := by
      rw [frameOf, length_responsePayload, length_uint32Bytes]
      simp only [responsePayload, List.append_assoc]
    refine (pushlstring_bind h hfront (by rw [length_responsePayload, length_uint32Bytes])).trans ?_
    rw [packresponseMulti_eq _ h.length]
    rfl
  · have hsingle : ok = true → ¬multiPart < msg.length := fun hok h ↦ hmulti ⟨hok, h⟩
    have hn : (if ok = false ∧ multiPart < msg.length then multiPart else msg.length) =
        if ok then msg.length else roundSize msg := by
      cases ok with
      | false => simp only [roundSize, true_and, Bool.false_eq_true, if_false]
      | true => rfl
    have hsz : (if ok then msg.length else roundSize msg) ≤ msg.length ∧
        (if ok then msg.length else roundSize msg) ≤ multiPart := by
      cases ok with
      | false => exact roundSize_le msg
      | true => exact ⟨Nat.le_refl _, Nat.not_lt.mp (hsingle rfl)⟩
    have htake : msg.take (if ok then msg.length else roundSize msg) =
        if ok then msg else msg.take multiPart := by
      cases ok with
      | false => exact (take_roundSize msg).1
      | true => exact List.take_length
    rw [if_neg hmulti, packedResponse, if_neg hmulti, hn, ← htake]
    generalize (if ok then msg.length else roundSize msg) = n at hsz
    have hlen : (msg.take n).length = n := by rw [List.length_take, Nat.min_eq_left hsz.1]
    have hn : n ≤ 0x8000 := hsz.2
    refine fillHeader_bind (Block.length_alloc _) (by omega) fun buf h ↦ ?_
    refine fillUint32_bind h rfl (by decide) fun buf h ↦ ?_
    refine putByte_bind h rfl (by decide) fun buf h ↦ ?_
    refine copyPart_bind h rfl hsz.1 (by rw [tempLength]; omega) fun buf h ↦ ?_
    refine (pushlstring_bind h ?_ (by rw [length_responsePayload, hlen])).trans rfl
    rw [frameOf, length_responsePayload, hlen]
    simp only [responsePayload, List.append_assoc]

end Cluster

end ZTask
