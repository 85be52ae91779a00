import ZTask.Harbor.Parser

/-!
# What one harbor sends, the other forwards

The bytes that `send_remote` hands to the socket are frames of the other side's receiver. So however
they are cut on the way, `push_socket_data` forwards the messages that were sent, each once and in
order, to the same services of its own node.

## Sender and receiver

`send_remote` writes a length of four bytes, the payload and a cookie of twelve. The receiver of
`Harbor.Parser` reads the same from a stream, and `feed_messages` says that the frames of some
messages are read as these messages. `pushChunks_parsed` carries this over to `push_socket_data`,
which gets the stream in chunks and keeps what is incomplete in the record of the slave.

## Chunks

Nothing is asked of the chunks but that they are the bytes in order. A chunk may end inside the
first byte's greeting, a length, a payload or a cookie, and may be empty. The receiver state that
stands in the slave after some chunks is the one after their concatenation.
-/

namespace ZTask

open Lib

/-! ## Frames -/

/-- The three low bytes of a length below `2 ^ 24` are that length, and the high byte is 0. -/
theorem bodyLength_toBigendian {id n : ℕ} (hn : n < 2 ^ 24) :
    (linkFormat id).bodyLength (toBigendian (UInt32.ofNat n)) = some n := by
  have hval : (UInt32.ofNat n).toNat = n := by
    rw [UInt32.toNat_ofNat', Nat.mod_eq_of_lt (by omega)]
  have hbyte : ∀ {k : UInt32}, k.toNat < 32 →
      (UInt32.ofNat n >>> k &&& 0xff).toUInt8.toNat = n / 2 ^ k.toNat % 2 ^ 8 := by
    intro k hk
    rw [toNat_byte _ hk, hval]
  have h0 : (UInt32.ofNat n >>> 24 &&& 0xff).toUInt8 = 0 := by
    rw [← UInt8.toNat_inj, hbyte (by decide)]
    simp only [show (24 : UInt32).toNat = 24 from rfl, show (0 : UInt8).toNat = 0 from rfl]
    omega
  have hor := or_bytes (a := 0) (b := n / 2 ^ 16 % 2 ^ 8) (c := n / 2 ^ 8 % 2 ^ 8)
    (d := n % 2 ^ 8) (by omega) (by omega) (by omega)
  rw [Nat.zero_shiftLeft, Nat.zero_or] at hor
  have h1 : ((toBigendian (UInt32.ofNat n)).getD 1 0).toNat = n / 2 ^ 16 % 2 ^ 8 :=
    hbyte (by decide)
  have h2 : ((toBigendian (UInt32.ofNat n)).getD 2 0).toNat = n / 2 ^ 8 % 2 ^ 8 :=
    hbyte (by decide)
  have h3 : ((toBigendian (UInt32.ofNat n)).getD 3 0).toNat = n % 2 ^ 8 := by
    have hlow := toNat_low_byte (UInt32.ofNat n)
    rwa [hval] at hlow
  have hfirst : (toBigendian (UInt32.ofNat n)).getD 0 0 = 0 := h0
  simp only [linkFormat, hfirst, ne_eq, not_true, if_false, h1, h2, h3, hor, Option.some.injEq]
  omega

theorem isFrame_of_lt {m : HarborMsg} {id : ℕ}
    (hm : m.buffer.length + headerCookieLength < 2 ^ 24) :
    (linkFormat id).IsFrame (m.lengthBytes, m.bodyBytes) := by
  refine ⟨rfl, Nat.succ_pos 3, ?_, ?_⟩
  · rw [HarborMsg.length_bodyBytes]
    exact bodyLength_toBigendian hm
  · rw [HarborMsg.length_bodyBytes]
    exact Nat.add_pos_right _ (by decide)

/-! ## Forwarded messages -/

/-- A message handed on to a service of the node; the tag tells it from an error reply. -/
def HarborEffect.isForward : HarborEffect → Bool
  | .send _ _ type _ _ => type &&& ptypeTagDontcopy ≠ 0
  | _ => false

/-- What a message becomes on the node `id`: the same payload, source, session and type, to the same
service there. -/
def HarborMsg.forwarded (id : ℕ) (m : HarborMsg) : HarborEffect :=
  .send m.header.source
    ((m.header.destination &&& handleMask32) ||| (UInt32.ofNat id <<< handleRemoteShift32))
    ((m.header.destination >>> handleRemoteShift32) ||| ptypeTagDontcopy) m.header.session m.buffer

/-- The messages handed on because of a notice. -/
def forwards (id : ℕ) : Notice UInt8 → List HarborEffect
  | .frame body =>
    match messageToHeader (body.drop (body.length - headerCookieLength)) with
    | none => []
    | some header =>
      [HarborMsg.forwarded id ⟨header, body.take (body.length - headerCookieLength)⟩]
  | _ => []

theorem isForward_forwarded (id : ℕ) (m : HarborMsg) : (m.forwarded id).isForward = true := by
  have htag : ∀ t : UInt32, (t ||| ptypeTagDontcopy) &&& ptypeTagDontcopy = ptypeTagDontcopy := by
    intro t
    rw [← UInt32.toNat_inj, UInt32.toNat_and, UInt32.toNat_or]
    apply Nat.eq_of_testBit_eq
    intro i
    rw [Nat.testBit_and, Nat.testBit_or]
    cases t.toNat.testBit i <;> cases ptypeTagDontcopy.toNat.testBit i <;> rfl
  simp only [HarborEffect.isForward, HarborMsg.forwarded, htag]
  decide

private theorem filter_sendRemote (fd : ℤ) (ms : List HarborMsg) :
    (ms.flatMap fun m ↦ sendRemote fd m.buffer m.header).filter HarborEffect.isForward = [] := by
  rw [List.filter_eq_nil_iff]
  intro e he
  obtain ⟨m, -, hm⟩ := List.mem_flatMap.mp he
  rw [sendRemote_eq] at hm
  split at hm <;> rw [List.mem_singleton.mp hm] <;> exact Bool.false_ne_true

variable {delivered : RemoteMessageHeader → Bool} {h : Harbor} {id : ℕ}

theorem filter_respond (notice : Notice UInt8) (hlen : ¬Short [notice]) :
    (respond h delivered id notice).filter HarborEffect.isForward = forwards h.id notice := by
  have hclose : ∀ e, (HarborEffect.error e :: (closeHarbor h id).1).filter
      HarborEffect.isForward = [] := by
    intro e
    rw [closeHarbor]
    split <;> rfl
  cases notice with
  | greeted => exact filter_sendRemote _ _
  | refused b => exact hclose _
  | unacceptable => exact hclose _
  | frame body =>
    have hlong : ¬body.length < headerCookieLength :=
      fun hlt ↦ hlen ⟨body, List.mem_cons_self, hlt⟩
    have hfwd := isForward_forwarded h.id
    simp only [respond, forwardLocalMesssage, if_neg hlong, forwards]
    cases messageToHeader (body.drop (body.length - headerCookieLength)) with
    | none => rfl
    | some header =>
      have hthis := hfwd ⟨header, body.take (body.length - headerCookieLength)⟩
      simp only [HarborMsg.forwarded] at hthis ⊢
      cases delivered header
      · -- an error reply carries no tag
        have hreply : ∀ d s n, (HarborEffect.send d s ptypeError n []).isForward = false :=
          fun _ _ _ ↦ rfl
        by_cases htype : header.destination >>> handleRemoteShift32 = ptypeError
        · simp only [Bool.false_eq_true, if_false, htype, ne_eq, not_true] at hthis ⊢
          rw [List.filter_cons_of_pos hthis]
          rfl
        · simp only [Bool.false_eq_true, if_false, htype, ne_eq, not_false_eq_true, if_true]
          rw [List.filter_cons_of_pos hthis]
          rfl
      · simp only [if_true]
        rw [List.filter_cons_of_pos hthis]
        rfl

private theorem forwards_bodyBytes (m : HarborMsg) :
    forwards id (.frame m.bodyBytes) = [m.forwarded id] := by
  have hlen : m.bodyBytes.length - headerCookieLength = m.buffer.length := by
    rw [HarborMsg.length_bodyBytes, Nat.add_sub_cancel]
  have hcookie : m.bodyBytes.drop m.buffer.length = headerToMessage m.header := List.drop_left
  have hpayload : m.bodyBytes.take m.buffer.length = m.buffer := List.take_left
  simp only [forwards, hlen, hcookie, hpayload, messageToHeader_headerToMessage]

/-! ## Chunks -/

/-- `push_socket_data` for one chunk after the other. -/
def pushChunks (fd : ℤ) (h : Harbor) :
    List (List UInt8 × (RemoteMessageHeader → Bool)) → Except HarborFault HarborStep
  | [] => .ok ([], h)
  | c :: cs => do
    let p ← pushSocketData h fd c.1 c.2
    let q ← pushChunks fd p.2 cs
    return (p.1 ++ q.1, q.2)

/-- **Chunks are read as what they are chunks of.** -/
theorem pushChunks_parsed {fd : ℤ} {r : Receiver UInt8}
    {cs : List (List UInt8 × (RemoteMessageHeader → Bool))} (hid : slaveOf h fd = some id)
    (hfd : fd ≠ 0) (ht : (h.s id).Tracks r) (hne : ∀ c ∈ cs, c.1 ≠ [])
    (hlong : ¬Short ((linkFormat id).feed r (cs.map Prod.fst).flatten).2) :
    ∃ effects h', pushChunks fd h cs = .ok (effects, h') ∧
      effects.filter HarborEffect.isForward =
        ((linkFormat id).feed r (cs.map Prod.fst).flatten).2.flatMap (forwards h.id) ∧
      (h'.s id).Tracks ((linkFormat id).feed r (cs.map Prod.fst).flatten).1 := by
  induction cs generalizing h r with
  | nil => exact ⟨[], h, rfl, rfl, ht⟩
  | cons c cs ih =>
    rw [List.map_cons, List.flatten_cons, FrameFormat.feed_append] at hlong ⊢
    rw [short_append, not_or] at hlong
    have hparsed := pushSocketData_parsed c.2 hid ht
      (by rw [(slaveOf_fd hid).1]; exact hfd) (hne c List.mem_cons_self)
    generalize hres : pushSocketData h fd c.1 c.2 = res at hparsed
    cases hparsed with
    | short hshort => exact absurd hshort hlong.1
    | empty _ hempty => exact absurd hempty (hne c List.mem_cons_self)
    | @read s hlong' htracks hfd' hqueue =>
      obtain ⟨effects, h', hpush, hfilter, ht'⟩ := ih (h := h.setSlave id s)
        (by rw [slaveOf_setSlave hfd']; exact hid)
        (by rw [Harbor.setSlave_self]; exact htracks)
        (fun c' hc' ↦ hne c' (List.mem_cons_of_mem c hc')) hlong.2
      refine ⟨_, h', by simp only [pushChunks, hres, bind, Except.bind, hpush]; rfl, ?_, ht'⟩
      rw [List.filter_append, List.flatMap_append, hfilter, List.filter_flatMap]
      congr 1
      refine List.flatMap_congr fun notice hmem ↦ filter_respond notice ?_
      rintro ⟨body, hbody, hlen⟩
      rw [List.mem_singleton] at hbody
      exact hlong' ⟨body, by rw [hbody]; exact hmem, hlen⟩

/-! ## Round trip -/

/-- The bytes handed to sockets. -/
def socketBytes (effects : List HarborEffect) : List UInt8 :=
  effects.flatMap fun
    | .socketSend _ buffer => buffer
    | _ => []

private theorem socketBytes_sendRemote {fd : ℤ} {ms : List HarborMsg}
    (hms : ∀ m ∈ ms, m.buffer.length + headerCookieLength < 2 ^ 24) :
    socketBytes (ms.flatMap fun m ↦ sendRemote fd m.buffer m.header) =
      (ms.map fun m ↦ (m.lengthBytes, m.bodyBytes)).flatMap fun p ↦ p.1 ++ p.2 := by
  rw [socketBytes, List.flatMap_assoc, List.flatMap_map]
  refine List.flatMap_congr fun m hm ↦ ?_
  have hfits : m.Fits := by
    have := hms m hm
    rw [HarborMsg.Fits]
    omega
  rw [sendRemote_eq, if_pos hfits, List.flatMap_singleton]
  rfl

private theorem feed_messages (id : ℕ) {ms : List HarborMsg}
    (hms : ∀ m ∈ ms, m.buffer.length + headerCookieLength < 2 ^ 24) (fd : ℤ) :
    (linkFormat id).feed (.header [])
        (socketBytes (ms.flatMap fun m ↦ sendRemote fd m.buffer m.header)) =
      (.header [], ms.map fun m ↦ .frame m.bodyBytes) := by
  rw [socketBytes_sendRemote hms, FrameFormat.feed_stream, List.map_map]
  · rfl
  · intro p hp
    obtain ⟨m, hm, rfl⟩ := List.mem_map.mp hp
    exact isFrame_of_lt (hms m hm)

private theorem not_short_messages (ms : List HarborMsg) :
    ¬Short (ms.map fun m ↦ .frame m.bodyBytes) := by
  rintro ⟨body, hmem, hlen⟩
  obtain ⟨m, -, hm⟩ := List.mem_map.mp hmem
  rw [Notice.frame.injEq] at hm
  rw [← hm, HarborMsg.length_bodyBytes] at hlen
  omega

/-- **Round trip.** Let the slave `id` of a harbor be at the start of a connection: waiting for the
first byte, or past it. What the harbor `id` sends, first the handshake byte if it is waited for and
then the messages `ms`, comes over the socket in any chunks. Then the messages are forwarded, each
once and in order, and the slave is at the start of a frame again. -/
theorem push_socket_data_round_trip (h sender : Harbor) (fd' : ℤ) (j : ℕ) {fd : ℤ} {id : ℕ}
    (hid : slaveOf h fd = some id) (hfd : fd ≠ 0) (hread : (h.s id).read = 0)
    (hsender : sender.id = id) (ms : List HarborMsg)
    (hms : ∀ m ∈ ms, m.buffer.length + headerCookieLength < 2 ^ 24)
    (cs : List (List UInt8 × (RemoteMessageHeader → Bool))) (hne : ∀ c ∈ cs, c.1 ≠ [])
    (hcs : (h.s id).status = .handshake ∧ (cs.map Prod.fst).flatten =
          socketBytes (harborHandshake sender j ++
            ms.flatMap fun m ↦ sendRemote fd' m.buffer m.header) ∨
        (h.s id).status = .header ∧ (cs.map Prod.fst).flatten =
          socketBytes (ms.flatMap fun m ↦ sendRemote fd' m.buffer m.header)) :
    ∃ effects h', pushChunks fd h cs = .ok (effects, h') ∧
      effects.filter HarborEffect.isForward = ms.map (HarborMsg.forwarded h.id) ∧
      (h'.s id).status = .header ∧ (h'.s id).read = 0 := by
  have hmessages := feed_messages id hms fd'
  have hforwards : (ms.map fun m ↦ Notice.frame m.bodyBytes).flatMap (forwards h.id) =
      ms.map (HarborMsg.forwarded h.id) := by
    rw [List.flatMap_map]
    simp only [forwards_bodyBytes]
    exact List.flatMap_pure_eq_map _ _
  -- a link that still owes its handshake reads the id byte before the first header
  rcases hcs with ⟨hstatus, hbytes⟩ | ⟨hstatus, hbytes⟩
  · have hgreets : (linkFormat id).greets (UInt8.ofNat sender.id) = true := by
      have hlt := (slaveOf_fd hid).2.2
      rw [remoteMax] at hlt
      simp only [linkFormat, hsender, UInt8.toNat_ofNat', decide_eq_true_eq]
      exact Nat.mod_eq_of_lt hlt
    have hfeed : (linkFormat id).feed .greeting (cs.map Prod.fst).flatten =
        (.header [], .greeted :: ms.map fun m ↦ .frame m.bodyBytes) := by
      have hfirst : socketBytes (harborHandshake sender j) = [UInt8.ofNat sender.id] := rfl
      rw [hbytes, socketBytes, List.flatMap_append, FrameFormat.feed_append]
      rw [socketBytes] at hfirst hmessages
      rw [hfirst, FrameFormat.feed_greeting hgreets, hmessages]
      rfl
    obtain ⟨effects, h', hpush, hfilter, ht⟩ := pushChunks_parsed hid hfd
      (r := .greeting) ⟨hstatus, hread⟩ hne (by
        rw [hfeed]
        rintro ⟨body, hmem, hlen⟩
        rcases List.mem_cons.mp hmem with heq | hmem
        · cases heq
        · exact not_short_messages ms ⟨body, hmem, hlen⟩)
    rw [hfeed] at hfilter ht
    refine ⟨effects, h', hpush, ?_, ht.1, ht.2.1⟩
    rw [hfilter, List.flatMap_cons, hforwards]
    rfl
  · have hfeed : (linkFormat id).feed (.header []) (cs.map Prod.fst).flatten =
        (.header [], ms.map fun m ↦ .frame m.bodyBytes) := by rw [hbytes, hmessages]
    obtain ⟨effects, h', hpush, hfilter, ht⟩ := pushChunks_parsed hid hfd
      (r := .header []) ⟨hstatus, hread, by decide, rfl⟩ hne (by
        rw [hfeed]
        exact not_short_messages ms)
    rw [hfeed] at hfilter ht
    exact ⟨effects, h', hpush, hfilter.trans hforwards, ht.1, ht.2.1⟩

/-- Harbor 1, waiting for the first byte from harbor 2. -/
def greetingHarbor : Harbor :=
  (harborInit 1 0x01000005).setSlave 2
    { (harborInit 1 0x01000005).s 2 with fd := 5, status := .handshake }

/-- Two messages, cut inside the length of the first, inside its cookie, and at its end. -/
theorem push_socket_data_round_trip_cut :
    let ms := [⟨⟨0x02000003, 0x0a000007, 4⟩, [42]⟩, ⟨⟨0x02000003, 0x00000008, 0⟩, []⟩]
    let cs := [([2, 0, 0], fun _ ↦ true), ([0, 13, 42, 2, 0, 0, 3, 10, 0], fun _ ↦ true),
      ([0, 7, 0, 0, 0, 4], fun _ ↦ false), ([0, 0, 0, 12, 2, 0, 0, 3, 0, 0, 0, 8, 0, 0, 0, 0],
        fun _ ↦ true)]
    ∃ effects h', pushChunks 5 greetingHarbor cs = .ok (effects, h') ∧
      effects.filter HarborEffect.isForward = ms.map (HarborMsg.forwarded greetingHarbor.id) ∧
      (h'.s 2).status = .header ∧ (h'.s 2).read = 0 := by
  intro ms cs
  exact push_socket_data_round_trip greetingHarbor (harborInit 2 0x02000005) 3 1
    (by decide +kernel) (by decide) rfl rfl ms (by decide) cs (by decide)
    (Or.inl ⟨rfl, by decide +kernel⟩)

end ZTask
