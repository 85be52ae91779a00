import ZTask.Harbor.RoundTrip

/-!
# Lengths that a connection can carry

The sender writes the length of a frame, cookie included, in four bytes, and refuses what does not
go into four bytes. The receiver takes three bytes of length: it looks at the first of the four, and
closes the connection if that is not zero. So the two ends disagree about the frames from `2 ^ 24`
bytes on, which the one sends and the other takes for an error (`frame_accepted_iff`). Nothing tells
the service that sent the message; the connection is lost, and what is queued for it.
-/

namespace ZTask

open Lib

/-! ## Long frames -/

private theorem bodyLength_toBigendian_of_le {id n : ℕ} (hn : 2 ^ 24 ≤ n) (hlt : n < 2 ^ 32) :
    (linkFormat id).bodyLength (toBigendian (UInt32.ofNat n)) = none := by
  have hfirst : (toBigendian (UInt32.ofNat n)).getD 0 0 ≠ 0 := by
    have hbyte : ((UInt32.ofNat n >>> 24 &&& 0xff).toUInt8).toNat =
        (UInt32.ofNat n).toNat / 2 ^ (24 : UInt32).toNat % 2 ^ 8 := toNat_byte _ (by decide)
    rw [UInt32.toNat_ofNat', Nat.mod_eq_of_lt hlt, show (24 : UInt32).toNat = 24 from rfl] at hbyte
    intro hzero
    have hzero' : ((UInt32.ofNat n >>> 24 &&& 0xff).toUInt8).toNat = 0 :=
      congrArg UInt8.toNat hzero
    omega
  exact if_pos hfirst

private theorem feed_encode (id : ℕ) {m : HarborMsg} (hm : m.Fits) :
    (linkFormat id).feed (.header []) m.encode =
      if m.buffer.length + headerCookieLength < 2 ^ 24 then (.header [], [.frame m.bodyBytes])
      else (.closed, [.unacceptable]) := by
  split
  next hlt => exact FrameFormat.feed_frame (isFrame_of_lt hlt)
  next hlong =>
    have hpos : ([] : List UInt8).length < (linkFormat id).headerLength := Nat.succ_pos 3
    have hlength : (linkFormat id).feed (.header []) m.lengthBytes =
        (.closed, [.unacceptable]) := by
      rw [FrameFormat.feed_header_end hpos rfl, List.nil_append, HarborMsg.lengthBytes,
        bodyLength_toBigendian_of_le (Nat.le_of_not_lt hlong) hm]
    rw [HarborMsg.encode, FrameFormat.feed_append, hlength, FrameFormat.feed_closed]
    rfl

variable {h : Harbor} {fd : ℤ} {id : ℕ} {cs : List (List UInt8 × (RemoteMessageHeader → Bool))}

/-- What a slave at the start of a frame makes of a frame. -/
theorem pushChunks_encode (hid : slaveOf h fd = some id) (hfd : fd ≠ 0)
    (hstatus : (h.s id).status = .header) (hread : (h.s id).read = 0) {m : HarborMsg}
    (hm : m.Fits) (hne : ∀ c ∈ cs, c.1 ≠ []) (hcs : (cs.map Prod.fst).flatten = m.encode) :
    ∃ effects h', pushChunks fd h cs = .ok (effects, h') ∧ (h'.s id).Tracks
      (if m.buffer.length + headerCookieLength < 2 ^ 24 then .header [] else .closed) := by
  have hfeed := feed_encode id hm
  rw [← hcs] at hfeed
  obtain ⟨effects, h', hpush, -, htracks⟩ := pushChunks_parsed hid hfd
    (r := .header []) ⟨hstatus, hread, by decide, rfl⟩ hne (by
      rw [hfeed]
      rintro ⟨body, hmem, hlen⟩
      split at hmem
      · cases List.mem_singleton.mp hmem
        rw [HarborMsg.length_bodyBytes] at hlen
        omega
      · cases List.mem_singleton.mp hmem)
  refine ⟨effects, h', hpush, ?_⟩
  rw [hfeed] at htracks
  split at htracks
  next hlt => rwa [if_pos hlt]
  next hlong => rwa [if_neg hlong]

private theorem eq_encode_of_mem {fd' : ℤ} {m : HarborMsg} {bytes : List UInt8}
    (hsent : .socketSend fd' bytes ∈ sendRemote fd' m.buffer m.header) :
    m.Fits ∧ bytes = m.encode := by
  rw [sendRemote_eq] at hsent
  split at hsent
  next hm =>
    rw [List.mem_singleton, HarborEffect.socketSend.injEq] at hsent
    exact ⟨hm, hsent.2⟩
  next => cases List.mem_singleton.mp hsent

/-- **What the sender does not refuse, and the receiver does.** A slave at the start of a frame is
given the frame that `send_remote` has made of a message, in any chunks: the connection stays if and
only if the message and its cookie are shorter than `2 ^ 24` bytes. -/
theorem frame_accepted_iff (hid : slaveOf h fd = some id) (hfd : fd ≠ 0)
    (hstatus : (h.s id).status = .header) (hread : (h.s id).read = 0) (m : HarborMsg) {fd' : ℤ}
    {bytes : List UInt8} (hsent : .socketSend fd' bytes ∈ sendRemote fd' m.buffer m.header)
    (hne : ∀ c ∈ cs, c.1 ≠ []) (hcs : (cs.map Prod.fst).flatten = bytes) :
    (∃ effects h', pushChunks fd h cs = .ok (effects, h') ∧ (h'.s id).status ≠ .down) ↔
      m.buffer.length + headerCookieLength < 2 ^ 24 := by
  obtain ⟨hm, rfl⟩ := eq_encode_of_mem hsent
  obtain ⟨effects, h', hpush, htracks⟩ := pushChunks_encode hid hfd hstatus hread hm hne hcs
  constructor
  · rintro ⟨effects', h'', hpush', hup⟩
    rw [hpush] at hpush'
    cases hpush'
    -- from `2 ^ 24` on the first byte of the length is not zero, and the header pass closes the
    -- link
    by_contra hlong
    rw [if_neg hlong] at htracks
    exact hup htracks
  · intro hlt
    rw [if_pos hlt] at htracks
    refine ⟨effects, h', hpush, ?_⟩
    rw [htracks.1]
    decide

/-- Harbor 1, at the start of a frame from harbor 2. -/
def readingHarbor : Harbor :=
  (harborInit 1 0x01000005).setSlave 2
    { (harborInit 1 0x01000005).s 2 with fd := 5, status := .header }

theorem frame_accepted_byte : ∃ effects h',
    pushChunks 5 readingHarbor [([0, 0, 0, 13, 42, 2, 0, 0, 3], fun _ ↦ true),
      ([10, 0, 0, 7, 0, 0, 0, 4], fun _ ↦ true)] = .ok (effects, h') ∧ (h'.s 2).status ≠ .down := by
  have hsent : .socketSend 3 [0, 0, 0, 13, 42, 2, 0, 0, 3, 10, 0, 0, 7, 0, 0, 0, 4] ∈
      sendRemote 3 [42] ⟨0x02000003, 0x0a000007, 4⟩ := by decide
  exact (frame_accepted_iff (by decide +kernel) (by decide) rfl rfl
    ⟨⟨0x02000003, 0x0a000007, 4⟩, [42]⟩ hsent (by decide) rfl).mpr (by decide)

/-- The shortest message that the receiver does not take. -/
theorem frame_not_accepted : ¬∀ (h : Harbor) (fd : ℤ) (id : ℕ)
    (cs : List (List UInt8 × (RemoteMessageHeader → Bool))) (m : HarborMsg) (fd' : ℤ)
    (bytes : List UInt8), slaveOf h fd = some id → fd ≠ 0 → (h.s id).status = .header →
    (h.s id).read = 0 → .socketSend fd' bytes ∈ sendRemote fd' m.buffer m.header →
    (∀ c ∈ cs, c.1 ≠ []) → (cs.map Prod.fst).flatten = bytes →
    ∃ effects h', pushChunks fd h cs = .ok (effects, h') ∧ (h'.s id).status ≠ .down := by
  intro hall
  obtain ⟨m, hm⟩ : ∃ m : HarborMsg, m.buffer.length = 2 ^ 24 - headerCookieLength :=
    ⟨⟨default, List.replicate (2 ^ 24 - headerCookieLength) 0⟩, List.length_replicate⟩
  have hcookie : headerCookieLength = 12 := rfl
  have hfits : m.Fits := by
    rw [HarborMsg.Fits]
    omega
  have hsent : .socketSend 3 m.encode ∈ sendRemote 3 m.buffer m.header := by
    rw [sendRemote_eq, if_pos hfits]
    exact List.mem_cons_self
  have hne : ∀ c ∈ [(m.encode, fun _ : RemoteMessageHeader ↦ true)], c.1 ≠ [] := by
    intro c hc
    rw [List.mem_singleton.mp hc]
    exact List.ne_nil_of_length_pos (Nat.lt_of_succ_lt m.one_lt_length_encode)
  have hcs : (([(m.encode, fun _ : RemoteMessageHeader ↦ true)]).map Prod.fst).flatten = m.encode :=
    List.append_nil _
  have hid : slaveOf readingHarbor 5 = some 2 := by decide +kernel
  obtain ⟨effects, h', hpush, hup⟩ := hall readingHarbor 5 2 _ m 3 _ hid (by decide) rfl rfl hsent
    hne hcs
  obtain ⟨effects', h'', hpush', htracks⟩ := pushChunks_encode hid (by decide) rfl rfl hfits hne hcs
  rw [hpush] at hpush'
  cases hpush'
  rw [if_neg (by omega)] at htracks
  exact hup htracks

end ZTask
