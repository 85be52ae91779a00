import ZTask.Cluster.Frames

/-!
# Round trips of the cluster wire format

A receiver takes the header off each frame, unpacks what follows, and has `concat` join the parts of
a message that comes in several frames. What it gets from the frames of a request or a response is
what was packed (`cluster_roundtrip`): the address, the session (a push in one frame has none),
whether it is a push, and the message.

## One frame and several

A short message goes in one frame. Any other is announced with its size and follows in parts of
`0x8000` bytes and a last one. `requestParts_eq` and `responseParts_eq` say what the receiver gets
of the parts: they carry the session of the announcement, and the last one says that it is the last.
`joinParts_eq` is `concat`, which checks the announced size against what it has copied.

## Headers

The header of a frame is its length in two bytes, and every frame that is packed is as long as its
header says (`WellFramed`); this is what a receiver needs to find the frames in a stream.
-/

namespace ZTask

open Lib

namespace Cluster

/-! ## The receiver -/

/-- A frame without its header. -/
def payloadOf (frame : List UInt8) : List UInt8 := frame.drop 2

/-- What is known of a request. -/
structure ClusterRequest where
  addr : ClusterValue
  session : ℤ
  isPush : Bool
  msg : List UInt8
deriving DecidableEq, Repr

/-- The parts of the request, up to the last one. -/
def requestParts (session : ℤ) : List (List UInt8) → Option (List ClusterValue)
  | [] => none
  | frame :: frames =>
    match lunpackrequest (payloadOf frame) with
    | .ok [.boolean false, .integer s, part, .boolean padding] =>
      if s ≠ session then none
      else if padding then (requestParts session frames).map (part :: ·)
      else if frames = [] then some [part]
      else none
    | _ => none

/-- The parts, joined. -/
def joinParts (size : ℤ) (parts : List ClusterValue) : Option (List UInt8) :=
  match lconcat (.integer size :: parts) with
  | .ok msg => msg
  | .error _ => none

def receiveRequest : List (List UInt8) → Option ClusterRequest
  | [] => none
  | frame :: frames =>
    match lunpackrequest (payloadOf frame) with
    | .ok [addr, .integer session, .string msg] =>
      if frames = [] then some ⟨addr, session, false, msg⟩ else none
    | .ok [addr, .integer session, .string msg, .nil, .boolean isPush] =>
      if frames = [] then some ⟨addr, session, isPush, msg⟩ else none
    | .ok [addr, .integer session, .integer size, .boolean true, .boolean isPush] =>
      match requestParts session frames with
      | none => none
      | some parts => (joinParts size parts).map fun msg ↦ ⟨addr, session, isPush, msg⟩
    | _ => none

/-- The parts of the response, up to the last one. -/
def responseParts (session : ℤ) : List (List UInt8) → Option (List ClusterValue)
  | [] => none
  | frame :: frames =>
    match lunpackresponse (payloadOf frame) with
    | .ok [.integer s, .boolean true, part] =>
      if s = session ∧ frames = [] then some [part] else none
    | .ok [.integer s, .boolean true, part, .boolean true] =>
      if s = session then (responseParts session frames).map (part :: ·) else none
    | _ => none

/-- The session, whether the request succeeded, and the message. -/
def receiveResponse : List (List UInt8) → Option (ℤ × Bool × List UInt8)
  | [] => none
  | frame :: frames =>
    match lunpackresponse (payloadOf frame) with
    | .ok [.integer session, .boolean ok, .string msg] =>
      if frames = [] then some (session, ok, msg) else none
    | .ok [.integer session, .boolean true, .integer size, .boolean true] =>
      match responseParts session frames with
      | none => none
      | some parts => (joinParts size parts).map fun msg ↦ (session, true, msg)
    | _ => none

/-- The frames of a packed request. -/
def PackedRequest.frames (packed : PackedRequest) : List (List UInt8) :=
  packed.request :: packed.parts.getD []

/-- The frames of a packed response. -/
def PackedResponse.frames : PackedResponse → List (List UInt8)
  | .single frame => [frame]
  | .multi frames => frames

/-- The header of the frame is the length of what follows. -/
def WellFramed (frame : List UInt8) : Prop :=
  ∃ high low payload, frame = high :: low :: payload ∧
    high.toNat * 256 + low.toNat = payload.length

/-! ## Joining -/

variable {msg name : List UInt8} {session sz n : ℕ} {isPush : Bool}

@[simp] theorem payloadOf_frameOf (payload : List UInt8) :
    payloadOf (frameOf payload) = payload := rfl

private theorem wellFramed_frameOf {payload : List UInt8} (h : payload.length < 0x10000) :
    WellFramed (frameOf payload) := by
  obtain ⟨high, low, hheader, hsum⟩ := headerBytes_spec h
  refine ⟨high, low, payload, ?_, hsum⟩
  rw [frameOf, hheader]
  rfl

/-- The parts of a message. -/
def partsOf : ℕ → List UInt8 → List (List UInt8)
  | 0, _ => []
  | part + 1, msg => msg.take multiPart :: partsOf part (msg.drop multiPart)

private theorem flatten_partsOf {part : ℕ} (h : part = partCount msg.length) :
    (partsOf part msg).flatten = msg := by
  induction part generalizing msg with
  | zero => exact absurd h.symm (Nat.succ_ne_zero _)
  | succ part ih =>
    rw [partCount_eq] at h
    rw [partsOf, List.flatten_cons]
    by_cases hmore : multiPart < msg.length
    · rw [if_pos hmore, ← List.length_drop] at h
      rw [ih (Nat.succ.inj h), List.take_append_drop]
    · rw [if_neg hmore] at h
      cases Nat.succ.inj h
      rw [partsOf, List.flatten_nil, List.append_nil, List.take_of_length_le (Nat.not_lt.mp hmore)]

/-- The loop of `lconcat` copies the strings one behind the other. -/
theorem concatLoop_eq {parts : List (List UInt8)} {buff : Block UInt8} {front : List UInt8}
    (hlen : buff.length = sz) (hat : buff.At 0 front)
    (hsz : front.length + parts.flatten.length ≤ sz) :
    ∃ buff', concatLoop sz (parts.map .string) buff front.length =
        .ok (some (buff', front.length + parts.flatten.length)) ∧
      buff'.At 0 (front ++ parts.flatten) := by
  induction parts generalizing buff front with
  | nil =>
    refine ⟨buff, rfl, ?_⟩
    rw [List.flatten_nil, List.append_nil]
    exact hat
  | cons part parts ih =>
    rw [List.flatten_cons, List.length_append] at hsz
    have hfits : front.length + part.length ≤ buff.length := by omega
    obtain ⟨buff₁, hwrite⟩ := Block.write?_eq_some hfits
    have hat₁ : buff₁.At 0 (front ++ part) := by
      refine (hat.write? hwrite (.inl ?_)).append ?_
      · exact Nat.le_of_eq (Nat.zero_add _)
      · rw [Nat.zero_add]
        exact Block.At.of_write? hwrite
    have hsz₁ : (front ++ part).length + parts.flatten.length ≤ sz := by
      rw [List.length_append]
      omega
    obtain ⟨buff', hloop, hat'⟩ := ih ((Block.length_of_write? hwrite).trans hlen) hat₁ hsz₁
    refine ⟨buff', ?_, ?_⟩
    · have hin : ¬sz < part.length + front.length := by omega
      rw [List.map_cons, concatLoop, if_neg hin, put, hwrite, ok_bind, ← List.length_append, hloop,
        List.flatten_cons, List.length_append, List.length_append, Nat.add_assoc]
    · rwa [List.flatten_cons, ← List.append_assoc]

/-- **Joining** strings of the announced size. -/
theorem joinParts_eq {parts : List (List UInt8)} (hparts : parts.flatten = msg)
    (hmsg : msg.length < 2 ^ 31) : joinParts msg.length (parts.map .string) = some msg := by
  have hint : toInt32 msg.length = msg.length := toInt32_of_lt (by omega) (by omega)
  have hsz : ([] : List UInt8).length + parts.flatten.length ≤ msg.length := by
    exact Nat.le_of_eq (by rw [hparts, List.length_nil, Nat.zero_add])
  obtain ⟨buff, hloop, hat⟩ := concatLoop_eq (Block.length_alloc _) (Block.at_nil _ 0) hsz
  rw [hparts, List.nil_append] at hat
  rw [hparts, List.length_nil, Nat.zero_add] at hloop
  have hneg : ¬(msg.length : ℤ) < 0 := by omega
  rw [joinParts, lconcat, hint, if_neg hneg, Int.toNat_natCast, hloop, ok_bind]
  dsimp only
  rw [if_neg (not_not_intro rfl), pushlstring, hat.read?]
  rfl

/-! ## Unpacking what was packed -/

private theorem toInt32_length {payload : List UInt8} (h : payload.length < 0x10000) :
    toInt32 payload.length = payload.length := toInt32_of_lt (by omega) (by omega)

theorem lunpackrequest_eq {payload : List UInt8} {type : UInt8} (h : payload.head? = some type) :
    lunpackrequest payload =
      if type = 0 then unpackreqNumber payload (toInt32 payload.length)
      else if type = 1 then unpackmreqNumber payload (toInt32 payload.length) false
      else if type = 0x41 then unpackmreqNumber payload (toInt32 payload.length) true
      else if type = 2 ∨ type = 3 then unpackmreqPart payload (toInt32 payload.length)
      else if type = 0x80 then unpackreqString payload (toInt32 payload.length)
      else if type = 0x81 then unpackmreqString payload (toInt32 payload.length) false
      else if type = 0xc1 then unpackmreqString payload (toInt32 payload.length) true
      else .error (.invalidType type) := by
  rw [lunpackrequest, h, Option.getD_some]

/-- Session 0 stands for a push in one frame. -/
def singleResult (addr : ClusterValue) (session : ℕ) (msg : List UInt8) : List ClusterValue :=
  if session = 0 then [addr, .integer session, .string msg, .nil, .boolean true]
  else [addr, .integer session, .string msg]

theorem lunpackrequest_number {addr : ℕ} (haddr : addr < 2 ^ 32) (hsession : session < 2 ^ 32)
    (hmsg : msg.length < multiPart) :
    lunpackrequest (numberPayload addr session msg) =
      .ok (singleResult (.integer addr) session msg) := by
  rw [multiPart] at hmsg
  have hlen : toInt32 (numberPayload addr session msg).length = (msg.length + 9 : ℕ) := by
    rw [toInt32_length (by rw [length_numberPayload]; omega), length_numberPayload]
  have haddr' : unpackUint32 ((numberPayload addr session msg).drop 1) = .ok addr :=
    unpackUint32_bytes haddr (uint32Bytes session ++ msg)
  have hsession' : unpackUint32 ((numberPayload addr session msg).drop 5) = .ok session :=
    unpackUint32_bytes hsession msg
  have hmsg' : ((numberPayload addr session msg).drop 9).take
      (((msg.length + 9 : ℕ) : ℤ) - 9).toNat =
      msg := by
    have hall : (((msg.length + 9 : ℕ) : ℤ) - 9).toNat = msg.length := by omega
    rw [hall]
    exact List.take_length
  have hsz : ¬((msg.length + 9 : ℕ) : ℤ) < 9 := by omega
  rw [@lunpackrequest_eq _ 0 rfl, if_pos rfl, hlen, unpackreqNumber, if_neg hsz, haddr', hsession',
    ok_bind, ok_bind, hmsg', singleResult]
  split <;> rfl

theorem lunpackrequest_multiNumber {addr : ℕ} (haddr : addr < 2 ^ 32) (hsession : session < 2 ^ 32)
    (hsz : sz < 2 ^ 32) :
    lunpackrequest (multiNumberPayload addr session sz isPush) =
      .ok [.integer addr, .integer session, .integer sz, .boolean true, .boolean isPush] := by
  have haddr' : unpackUint32 ((multiNumberPayload addr session sz isPush).drop 1) = .ok addr :=
    unpackUint32_bytes haddr (uint32Bytes session ++ uint32Bytes sz)
  have hsession' : unpackUint32 ((multiNumberPayload addr session sz isPush).drop 5) =
      .ok session :=
    unpackUint32_bytes hsession (uint32Bytes sz)
  have hsz' : unpackUint32 ((multiNumberPayload addr session sz isPush).drop 9) = .ok sz :=
    unpackUint32_bytes hsz []
  have htype : lunpackrequest (multiNumberPayload addr session sz isPush) =
      unpackmreqNumber (multiNumberPayload addr session sz isPush) 13 isPush := by
    have hlen : toInt32 (multiNumberPayload addr session sz isPush).length = 13 :=
      toInt32_length (by rw [length_multiNumberPayload]; decide)
    cases isPush with
    | false => rw [@lunpackrequest_eq _ 1 rfl, if_neg (by decide), if_pos rfl, hlen]
    | true =>
      rw [@lunpackrequest_eq _ 0x41 rfl, if_neg (by decide), if_neg (by decide), if_pos rfl, hlen]
  rw [htype, unpackmreqNumber, if_neg (not_not_intro rfl), haddr', hsession', hsz',
    ok_bind, ok_bind, ok_bind]
  rfl

/-- The name in a payload, and what stands behind it. -/
theorem drop_name {type : UInt8} {rest : List UInt8} (hname : name.length ≤ 255) :
    nameSize ([type, UInt8.ofNat name.length] ++ name ++ rest) = .ok name.length ∧
      (([type, UInt8.ofNat name.length] ++ name ++ rest).drop 2).take name.length = name ∧
      ∀ k, ([type, UInt8.ofNat name.length] ++ name ++ rest).drop (name.length + 2 + k) =
        rest.drop k := by
  have hbyte : (UInt8.ofNat name.length).toNat = name.length := by
    rw [UInt8.toNat_ofNat']
    omega
  refine ⟨?_, ?_, fun k ↦ ?_⟩
  · show (.ok (UInt8.ofNat name.length).toNat : Except ClusterError ℕ) = .ok name.length
    rw [hbyte]
  · show (name ++ rest).take name.length = name
    exact List.take_left' rfl
  · have hsum : name.length + 2 + k = ([type, UInt8.ofNat name.length] ++ name).length + k := by
      rw [List.length_append, List.length_cons, List.length_singleton]
      omega
    rw [hsum, ← List.drop_drop, List.drop_left' rfl]

private theorem lunpackrequest_string (hname : name.length ≤ 255) (hsession : session < 2 ^ 32)
    (hmsg : msg.length < multiPart) :
    lunpackrequest (stringPayload name session msg) =
      .ok (singleResult (.string name) session msg) := by
  rw [multiPart] at hmsg
  have hlen : toInt32 (stringPayload name session msg).length =
      (msg.length + 6 + name.length : ℕ) := by
    rw [toInt32_length (by rw [length_stringPayload]; omega), length_stringPayload]
  have htype : lunpackrequest (stringPayload name session msg) =
      unpackreqString (stringPayload name session msg) (msg.length + 6 + name.length : ℕ) := by
    rw [@lunpackrequest_eq _ 0x80 rfl, if_neg (by decide), if_neg (by decide), if_neg (by decide),
      if_neg (by decide), if_pos rfl, hlen]
  have hpayload : stringPayload name session msg =
      [0x80, UInt8.ofNat name.length] ++ name ++ (uint32Bytes session ++ msg) := by
    simp only [stringPayload, List.append_assoc]
  obtain ⟨hnamesz, htake, hdrop⟩ := @drop_name name 0x80 (uint32Bytes session ++ msg) hname
  have hsession' : unpackUint32 ((stringPayload name session msg).drop (name.length + 2)) =
      .ok session := by
    rw [hpayload, ← Nat.add_zero (name.length + 2), hdrop 0]
    exact unpackUint32_bytes hsession msg
  have hmsg' : ((stringPayload name session msg).drop (2 + name.length + 4)).take
      (((msg.length + 6 + name.length : ℕ) : ℤ) - name.length - 6).toNat = msg := by
    have hall : (((msg.length + 6 + name.length : ℕ) : ℤ) - name.length - 6).toNat =
        msg.length := by
      omega
    rw [hpayload, hall, Nat.add_comm 2, hdrop 4]
    exact List.take_length
  rw [← hpayload] at hnamesz htake
  rw [htype, unpackreqString, if_neg (by omega), hnamesz, ok_bind, if_neg (by omega), htake,
    hsession', ok_bind, hmsg', singleResult]
  split <;> rfl

private theorem lunpackrequest_multiString (hname : name.length ≤ 255) (hsession : session < 2 ^ 32)
    (hsz : sz < 2 ^ 32) :
    lunpackrequest (multiStringPayload name session sz isPush) =
      .ok [.string name, .integer session, .integer sz, .boolean true, .boolean isPush] := by
  have hlen : toInt32 (multiStringPayload name session sz isPush).length =
      (10 + name.length : ℕ) := by
    rw [toInt32_length (by rw [length_multiStringPayload]; omega), length_multiStringPayload]
  have htype : lunpackrequest (multiStringPayload name session sz isPush) =
      unpackmreqString (multiStringPayload name session sz isPush) (10 + name.length :
        ℕ) isPush := by
    cases isPush with
    | false =>
      rw [@lunpackrequest_eq _ 0x81 rfl, if_neg (by decide), if_neg (by decide), if_neg (by decide),
        if_neg (by decide), if_neg (by decide), if_pos rfl, hlen]
    | true =>
      rw [@lunpackrequest_eq _ 0xc1 rfl, if_neg (by decide), if_neg (by decide), if_neg (by decide),
        if_neg (by decide), if_neg (by decide), if_neg (by decide), if_pos rfl, hlen]
  have hpayload : multiStringPayload name session sz isPush =
      [if isPush then 0xc1 else 0x81, UInt8.ofNat name.length] ++ name ++
        (uint32Bytes session ++ uint32Bytes sz) := by
    simp only [multiStringPayload, List.append_assoc]
  obtain ⟨hnamesz, htake, hdrop⟩ := @drop_name name (if isPush then 0xc1 else 0x81)
    (uint32Bytes session ++ uint32Bytes sz) hname
  have hsession' :
      unpackUint32 ((multiStringPayload name session sz isPush).drop (name.length + 2)) =
        .ok session := by
    rw [hpayload, ← Nat.add_zero (name.length + 2), hdrop 0]
    exact unpackUint32_bytes hsession (uint32Bytes sz)
  have hsz' : unpackUint32 ((multiStringPayload name session sz isPush).drop (name.length + 6)) =
      .ok sz := by
    rw [hpayload, show name.length + 6 = name.length + 2 + 4 from rfl, hdrop 4]
    exact unpackUint32_bytes hsz []
  rw [← hpayload] at hnamesz htake
  rw [htype, unpackmreqString, if_neg (by omega), hnamesz, ok_bind, if_neg (by omega), htake,
    hsession', ok_bind, hsz', ok_bind]
  rfl

private theorem lunpackrequest_part {last : Bool} {part : List UInt8} (hsession : session < 2 ^ 32)
    (hpart : part.length ≤ multiPart) :
    lunpackrequest (partPayload session last part) =
      .ok [.boolean false, .integer session, .string part, .boolean (!last)] := by
  rw [multiPart] at hpart
  have hlen : toInt32 (partPayload session last part).length = (part.length + 5 : ℕ) := by
    rw [toInt32_length (by rw [length_partPayload]; omega), length_partPayload]
  have htype : lunpackrequest (partPayload session last part) =
      unpackmreqPart (partPayload session last part) (part.length + 5 : ℕ) := by
    cases last with
    | false =>
      rw [@lunpackrequest_eq _ 2 rfl, if_neg (by decide), if_neg (by decide), if_neg (by decide),
        if_pos (by decide), hlen]
    | true =>
      rw [@lunpackrequest_eq _ 3 rfl, if_neg (by decide), if_neg (by decide), if_neg (by decide),
        if_pos (by decide), hlen]
  have hsession' : unpackUint32 ((partPayload session last part).drop 1) = .ok session :=
    unpackUint32_bytes hsession part
  have hpart' : ((partPayload session last part).drop 5).take
      (((part.length + 5 : ℕ) : ℤ) - 5).toNat = part := by
    have hall : (((part.length + 5 : ℕ) : ℤ) - 5).toNat = part.length := by omega
    rw [hall]
    exact List.take_length
  have hpadding : decide ((partPayload session last part).head? = some 2) = !last := by
    cases last <;> rfl
  rw [htype, unpackmreqPart, if_neg (by omega), hsession', ok_bind, hpart', hpadding]
  rfl

/-- What `unpackresponse` makes of a type. -/
theorem lunpackresponse_eq {type : UInt8} {part : List UInt8} (hsession : session < 2 ^ 32) :
    lunpackresponse (responsePayload session type part) =
      if type = 0 then .ok [.integer session, .boolean false, .string part]
      else if type = 1 ∨ type = 4 then .ok [.integer session, .boolean true, .string part]
      else if type = 2 then
        if part.length + 5 ≠ 9 then .ok []
        else unpackUint32 part >>= fun size ↦
          .ok [.integer session, .boolean true, .integer size, .boolean true]
      else if type = 3 then
        .ok [.integer session, .boolean true, .string part, .boolean true]
      else .ok [] := by
  have hsz : ¬part.length + 5 < 5 := by omega
  have hsession' : unpackUint32 (responsePayload session type part) = .ok session := by
    rw [responsePayload, List.append_assoc]
    exact unpackUint32_bytes hsession ([type] ++ part)
  have htype : ((responsePayload session type part).drop 4).head? = some type := rfl
  have hpart : (responsePayload session type part).drop 5 = part := rfl
  rw [lunpackresponse, length_responsePayload, if_neg hsz, hsession', ok_bind, hpart, htype]
  simp only [Option.some.injEq]
  rfl

/-! ## Receiving what was packed -/

variable {addr : ClusterValue}

private theorem lunpackrequest_single (haddr : ValidAddress addr) (hsession : session < 2 ^ 32)
    (hmsg : msg.length < multiPart) :
    lunpackrequest (singlePayload addr session msg) = .ok (singleResult addr session msg) := by
  cases addr with
  | nil => exact haddr.elim
  | boolean b => exact haddr.elim
  | integer n =>
    have hn : (n.toNat : ℤ) = n := Int.toNat_of_nonneg haddr.1
    have hlt : n.toNat < 2 ^ 32 := by
      have := haddr.2
      omega
    rw [singlePayload, lunpackrequest_number hlt hsession hmsg, hn]
  | string name => exact lunpackrequest_string haddr.2 hsession hmsg

private theorem lunpackrequest_multi (haddr : ValidAddress addr) (hsession : session < 2 ^ 32)
    (hsz : sz < 2 ^ 32) :
    lunpackrequest (multiPayload addr session sz isPush) =
      .ok [addr, .integer session, .integer sz, .boolean true, .boolean isPush] := by
  cases addr with
  | nil => exact haddr.elim
  | boolean b => exact haddr.elim
  | integer n =>
    have hn : (n.toNat : ℤ) = n := Int.toNat_of_nonneg haddr.1
    have hlt : n.toNat < 2 ^ 32 := by
      have := haddr.2
      omega
    rw [multiPayload, lunpackrequest_multiNumber hlt hsession hsz, hn]
  | string name => exact lunpackrequest_multiString haddr.2 hsession hsz

/-- The parts of a request are received. -/
theorem requestParts_eq {part : ℕ} (hsession : session < 2 ^ 32)
    (hpart : part = partCount msg.length) :
    requestParts session (partFrames (partPayload session) part msg) =
      some ((partsOf part msg).map .string) := by
  induction part generalizing msg with
  | zero => exact absurd hpart.symm (Nat.succ_ne_zero _)
  | succ part ih =>
    rw [partCount_eq] at hpart
    have htake : (msg.take multiPart).length ≤ multiPart := List.length_take_le _ _
    rw [partFrames, requestParts, payloadOf_frameOf, lunpackrequest_part hsession htake]
    dsimp only
    rw [if_neg (not_not_intro rfl)]
    by_cases hmore : multiPart < msg.length
    · rw [if_pos hmore, ← List.length_drop] at hpart
      rw [decide_eq_false (Nat.not_le.mpr hmore), if_pos (by decide), ih (Nat.succ.inj hpart)]
      rfl
    · rw [if_neg hmore] at hpart
      cases Nat.succ.inj hpart
      rw [decide_eq_true (Nat.not_lt.mp hmore), if_neg (by decide)]
      rfl

/-- The parts of a response are received. -/
theorem responseParts_eq {part : ℕ} (hsession : session < 2 ^ 32)
    (hpart : part = partCount msg.length) :
    responseParts session
        (partFrames (fun last ↦ responsePayload session (if last then 4 else 3)) part msg) =
      some ((partsOf part msg).map .string) := by
  induction part generalizing msg with
  | zero => exact absurd hpart.symm (Nat.succ_ne_zero _)
  | succ part ih =>
    rw [partCount_eq] at hpart
    rw [partFrames, responseParts, payloadOf_frameOf, lunpackresponse_eq hsession]
    by_cases hmore : multiPart < msg.length
    · rw [if_pos hmore, ← List.length_drop] at hpart
      rw [decide_eq_false (Nat.not_le.mpr hmore), if_neg Bool.false_ne_true, if_neg (by decide),
        if_neg (by decide), if_neg (by decide), if_pos rfl]
      dsimp only
      rw [if_pos rfl, ih (Nat.succ.inj hpart)]
      rfl
    · rw [if_neg hmore] at hpart
      cases Nat.succ.inj hpart
      rw [decide_eq_true (Nat.not_lt.mp hmore), if_pos rfl, if_neg (by decide), if_pos (by decide)]
      exact if_pos ⟨rfl, rfl⟩

private theorem receiveRequest_packed (haddr : ValidAddress addr) (hsession : 1 ≤ session)
    (hsession' : session < 2 ^ 31) (hmsg : msg.length < 2 ^ 31) :
    receiveRequest (packedRequest addr session msg isPush).frames =
      some ⟨addr, if isPush = true ∧ msg.length < multiPart then 0 else session, isPush, msg⟩ := by
  rw [PackedRequest.frames, packedRequest]
  by_cases hsingle : msg.length < multiPart
  · have hboth : (isPush = true ∧ msg.length < multiPart) = (isPush = true) :=
      propext ⟨fun h ↦ h.1, fun h ↦ ⟨h, hsingle⟩⟩
    simp only [if_pos hsingle, hboth]
    rw [receiveRequest, payloadOf_frameOf]
    cases isPush with
    | false =>
      have hne : ¬session = 0 := by omega
      rw [if_neg Bool.false_ne_true, if_neg Bool.false_ne_true,
        lunpackrequest_single haddr (by omega) hsingle, singleResult, if_neg hne]
      rfl
    | true =>
      rw [if_pos rfl, if_pos rfl, lunpackrequest_single haddr (by decide) hsingle, singleResult,
        if_pos rfl]
      rfl
  · have hboth : ¬(isPush = true ∧ msg.length < multiPart) := fun h ↦ hsingle h.2
    rw [if_neg hboth]
    simp only [if_neg hsingle]
    rw [receiveRequest, payloadOf_frameOf, lunpackrequest_multi haddr (by omega) (by omega),
      Option.getD_some]
    dsimp only
    rw [requestParts_eq (by omega) rfl]
    dsimp only
    rw [joinParts_eq (flatten_partsOf rfl) hmsg]
    rfl

private theorem receiveResponse_packed {ok : Bool} (hsession : session < 2 ^ 32)
    (hmsg : msg.length < 2 ^ 31) :
    receiveResponse (packedResponse session ok msg).frames =
      some ((session : ℤ), ok, if ok then msg else msg.take multiPart) := by
  rw [packedResponse]
  by_cases hmulti : ok = true ∧ multiPart < msg.length
  · obtain ⟨rfl, -⟩ := id hmulti
    have hsz : unpackUint32 (uint32Bytes msg.length) = .ok msg.length := by
      have h := @unpackUint32_bytes msg.length (by omega) []
      rwa [List.append_nil] at h
    rw [if_pos hmulti, PackedResponse.frames, receiveResponse, payloadOf_frameOf,
      lunpackresponse_eq hsession, if_neg (by decide), if_neg (by decide), if_pos rfl,
      length_uint32Bytes, if_neg (by decide), hsz, ok_bind]
    dsimp only
    rw [responseParts_eq hsession rfl]
    dsimp only
    rw [joinParts_eq (flatten_partsOf rfl) hmsg]
    rfl
  · rw [if_neg hmulti, PackedResponse.frames, receiveResponse, payloadOf_frameOf,
      lunpackresponse_eq hsession]
    cases ok with
    | false => rfl
    | true => rfl

/-! ## Well-formed frames -/

private theorem wellFramed_partFrames {payload : Bool → List UInt8 → List UInt8} {part : ℕ}
    (h : ∀ last p, (payload last p).length = p.length + 5) :
    ∀ frame ∈ partFrames payload part msg, WellFramed frame := by
  induction part generalizing msg with
  | zero => exact fun frame hframe ↦ (nomatch hframe)
  | succ part ih =>
    intro frame hframe
    rw [partFrames] at hframe
    rcases List.mem_cons.mp hframe with rfl | hframe
    · have htake : (msg.take multiPart).length ≤ 0x8000 := List.length_take_le _ _
      refine wellFramed_frameOf ?_
      rw [h]
      omega
    · exact ih frame hframe

private theorem wellFramed_packedRequest (haddr : ValidAddress addr) :
    ∀ frame ∈ (packedRequest addr session msg isPush).frames, WellFramed frame := by
  intro frame hframe
  rw [PackedRequest.frames, packedRequest] at hframe
  rcases List.mem_cons.mp hframe with rfl | hframe
  · refine wellFramed_frameOf ?_
    by_cases hsingle : msg.length < multiPart
    · have hlt : msg.length < 0x8000 := hsingle
      rw [if_pos hsingle]
      cases addr with
      | nil | boolean b => exact haddr.elim
      | integer n =>
        rw [singlePayload, length_numberPayload]
        omega
      | string name =>
        have hname := haddr.2
        rw [singlePayload, length_stringPayload]
        omega
    · rw [if_neg hsingle]
      cases addr with
      | nil | boolean b => exact haddr.elim
      | integer n =>
        rw [multiPayload, length_multiNumberPayload]
        decide
      | string name =>
        have hname := haddr.2
        rw [multiPayload, length_multiStringPayload]
        omega
  · dsimp only at hframe
    split at hframe
    · cases hframe
    · exact wellFramed_partFrames (length_partPayload session) frame hframe

private theorem wellFramed_packedResponse {ok : Bool} :
    ∀ frame ∈ (packedResponse session ok msg).frames, WellFramed frame := by
  intro frame hframe
  rw [packedResponse] at hframe
  split at hframe
  next =>
    rcases List.mem_cons.mp hframe with rfl | hframe
    · refine wellFramed_frameOf ?_
      rw [length_responsePayload, length_uint32Bytes]
      decide
    · exact wellFramed_partFrames (fun last ↦ length_responsePayload session _) frame hframe
  next hsingle =>
    cases List.mem_singleton.mp hframe
    refine wellFramed_frameOf ?_
    rw [length_responsePayload]
    cases ok with
    | false =>
      have htake : (msg.take multiPart).length ≤ 0x8000 := List.length_take_le _ _
      rw [if_neg Bool.false_ne_true]
      omega
    | true =>
      have hle : ¬0x8000 < msg.length := fun h ↦ hsingle ⟨rfl, h⟩
      rw [if_pos rfl]
      omega

/-- **Round trips.** What is received from the frames of a request or a response is what was packed,
and every frame is as long as its header says. -/
theorem cluster_roundtrip :
    (∀ (addr : ClusterValue) (session : ℕ) (msg : List UInt8) (isPush : Bool),
      ValidAddress addr → 1 ≤ session → session < 2 ^ 31 → msg.length < 2 ^ 31 →
        ∃ packed, packrequest addr session (some msg) msg.length isPush = .ok packed ∧
          receiveRequest packed.frames =
            some ⟨addr, if isPush = true ∧ packed.parts = none then 0 else session, isPush, msg⟩ ∧
          ∀ frame ∈ packed.frames, WellFramed frame) ∧
      ∀ (session : ℕ) (ok : Bool) (message : ResponseMessage) (msg : List UInt8),
        session < 2 ^ 32 → msg.length < 2 ^ 31 →
          message = .string msg ∨ message = .pointer msg msg.length →
            ∃ packed, lpackresponse session ok message = .ok packed ∧
              receiveResponse packed.frames =
                some ((session : ℤ), ok, if ok then msg else msg.take 0x8000) ∧
              ∀ frame ∈ packed.frames, WellFramed frame := by
  constructor
  · intro addr session msg isPush haddr hsession hsession' hmsg
    refine ⟨packedRequest addr session msg isPush,
      packrequest_eq haddr hsession hsession' (by omega), ?_, wellFramed_packedRequest haddr⟩
    -- one frame exactly if the message is short, and in a push of one frame the session is sent as
    -- 0
    have hparts : (packedRequest addr session msg isPush).parts = none ↔
        msg.length < multiPart := by
      rw [packedRequest]
      dsimp only
      split <;> simp [*]
    simp only [hparts]
    exact receiveRequest_packed haddr hsession hsession' hmsg
  · intro session ok message msg hsession hmsg hmessage
    exact ⟨packedResponse session ok msg, lpackresponse_eq hmessage hsession (by omega),
      receiveResponse_packed hsession hmsg, wellFramed_packedResponse⟩

/-- A message that needs two parts. -/
def longMessage : List UInt8 := List.replicate 0x8001 42

/-- A push to a name and a response, in parts, and a response that is an error. -/
theorem cluster_roundtrip_parts :
    (∃ packed, packrequest (.string [97]) 7 (some longMessage) longMessage.length
    true = .ok packed ∧
      packed.parts ≠ none ∧
      receiveRequest packed.frames = some ⟨.string [97], 7, true, longMessage⟩ ∧
      ∀ frame ∈ packed.frames, WellFramed frame) ∧
    (∃ packed, lpackresponse 7 true (.string longMessage) = .ok packed ∧
      receiveResponse packed.frames = some (7, true, longMessage) ∧
      ∀ frame ∈ packed.frames, WellFramed frame) ∧
    ∃ packed, lpackresponse 8 false (.string [98, 97, 100]) = .ok packed ∧
      receiveResponse packed.frames = some (8, false, [98, 97, 100]) ∧
      ∀ frame ∈ packed.frames, WellFramed frame := by
  have hlen : longMessage.length = 0x8001 := List.length_replicate
  have haddr : ValidAddress (.string [97]) := ⟨by decide, by decide⟩
  refine ⟨?_, ?_, ?_⟩
  · obtain ⟨packed, hpacked, hreceived, hframed⟩ :=
      cluster_roundtrip.1 (.string [97]) 7 longMessage true
      haddr (by decide) (by decide) (by omega)
    have hparts : packed.parts ≠ none := by
      rw [packrequest_eq haddr (by decide) (by decide) (by omega)] at hpacked
      cases hpacked
      rw [packedRequest]
      dsimp only
      rw [if_neg (show ¬longMessage.length < multiPart by rw [hlen]; decide)]
      exact Option.some_ne_none _
    refine ⟨packed, hpacked, hparts, ?_, hframed⟩
    rwa [if_neg fun h ↦ hparts h.2] at hreceived
  · exact cluster_roundtrip.2 7 true (.string longMessage) longMessage (by decide)
      (by omega) (.inl rfl)
  · exact cluster_roundtrip.2 8 false (.string [98, 97, 100]) [98, 97, 100] (by decide) (by decide)
      (.inl rfl)

end Cluster

end ZTask
