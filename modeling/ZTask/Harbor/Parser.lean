import ZTask.Harbor.Service
import ZTask.Lib.Framing

/-!
# What a connection is read as

`push_socket_data` takes up a chunk where the last one has left off, with `status`, `read`,
`length`, `size` and `recv_buffer` to remember it by. It reads the connection as a receiver of
length-prefixed frames would, symbol by symbol (`pushSocketData_parsed`), unless it runs into a
frame too short for a cookie. So what the frames of a sender are read as does not depend on how the
bytes are cut into chunks (`push_socket_data_round_trip`).
-/

namespace ZTask

open Lib

/-- The frames that the slave `id` sends: a first byte that must be 0, and a length in three. -/
def linkFormat (id : ℕ) : FrameFormat UInt8 where
  greets b := b.toNat = id
  headerLength := 4
  bodyLength size :=
    if size.getD 0 0 ≠ 0 then none
    else some ((size.getD 1 0).toNat <<< 16 ||| (size.getD 2 0).toNat <<< 8 |||
      (size.getD 3 0).toNat)

/-- The record of a slave remembers what the receiver is in the middle of. -/
def Slave.Tracks (s : Slave) : Receiver UInt8 → Prop
  | .greeting => s.status = .handshake ∧ s.read = 0
  | .header got => s.status = .header ∧ s.read = got.length ∧ got.length < 4 ∧
      s.size.take got.length = got
  | .body n got => s.status = .content ∧ s.length = n ∧ s.read = got.length ∧
      (got.length < n ∨ n = 0 ∧ got = []) ∧ s.recvBuffer.length = n ∧
      s.recvBuffer.take got.length = got
  | .closed => s.status = .down

/-- What the service does about what a receiver notices. -/
def respond (h : Harbor) (delivered : RemoteMessageHeader → Bool) (id : ℕ) :
    Notice UInt8 → List HarborEffect
  | .greeted => (queued (h.s id).queue).flatMap fun m ↦ sendRemote (h.s id).fd m.buffer m.header
  | .refused b => .error (.invalidShakehand id (h.s id).fd b) :: (closeHarbor h id).1
  | .frame body =>
    match forwardLocalMesssage h delivered body with
    | .ok effects => effects
    | .error _ => []
  | .unacceptable => .error (.tooLong id) :: (closeHarbor h id).1

/-- What makes the service give up the queue of the slave. -/
def releases : Notice UInt8 → Bool
  | .frame _ => false
  | _ => true

/-- One of the frames is too short for a cookie. -/
def Short (notices : List (Notice UInt8)) : Prop :=
  ∃ body, .frame body ∈ notices ∧ body.length < headerCookieLength

theorem short_append {ns ns' : List (Notice UInt8)} : Short (ns ++ ns') ↔ Short ns ∨ Short ns' := by
  simp only [Short, List.mem_append, or_and_right, exists_or]

/-! ## Copying -/

theorem memcpy_eq (dst src : List UInt8) (off n : ℕ) (hsrc : n ≤ src.length)
    (hdst : off + n ≤ dst.length) :
    ∃ block, memcpy dst off src n = .ok block ∧
      block.val.take (off + n) = dst.take off ++ src.take n := by
  have hbounds : (0 : ℤ) ≤ n ∧ (n : ℤ).toNat ≤ src.length ∧ off + (n : ℤ).toNat ≤ dst.length := by
    rw [Int.toNat_natCast]
    omega
  refine ⟨_, by rw [memcpy, dif_pos hbounds], ?_⟩
  simp only [Int.toNat_natCast]
  rw [← List.append_assoc, List.take_append_of_le_length (by simp; omega), List.take_of_length_le]
  simp
  omega

/-! ## Forwarding -/

variable {delivered : RemoteMessageHeader → Bool} {h : Harbor} {id : ℕ}

private theorem forwardLocalMesssage_ok (id : ℕ) {body : List UInt8}
    (hlen : ¬body.length < headerCookieLength) :
    forwardLocalMesssage h delivered body = .ok (respond h delivered id (.frame body)) := by
  have hcookie : (body.drop (body.length - headerCookieLength)).length = headerCookieLength := by
    rw [List.length_drop]
    omega
  obtain ⟨header, hheader⟩ := messageToHeader_isSome hcookie
  simp only [respond, forwardLocalMesssage, if_neg hlen, hheader]
  cases delivered header
  · by_cases htype : header.destination >>> handleRemoteShift32 = ptypeError
    · simp [htype]
    · simp [htype]
  · rfl

theorem forwardLocalMesssage_short {body : List UInt8} (hlen : body.length < headerCookieLength) :
    forwardLocalMesssage h delivered body = .error .outOfBounds := by
  rw [forwardLocalMesssage, if_pos hlen]

/-! ## The loop -/

/-- What reading `buffer` may come to for a receiver in the middle of `r`: all of it is read, as the
receiver reads it, or there is a fault over a frame that is too short. -/
inductive Parsed (delivered : RemoteMessageHeader → Bool) (h : Harbor) (id : ℕ)
    (r : Receiver UInt8) (buffer : List UInt8) : Except HarborFault HarborStep → Prop
  | read {s : Slave} :
      ¬Short ((linkFormat id).feed r buffer).2 →
      s.Tracks ((linkFormat id).feed r buffer).1 →
      s.fd = (h.s id).fd →
      s.queue = (if ((linkFormat id).feed r buffer).2.any releases then none
        else (h.s id).queue) →
      Parsed delivered h id r buffer
        (.ok (((linkFormat id).feed r buffer).2.flatMap (respond h delivered id),
          h.setSlave id s))
  | short {e : HarborFault} : Short ((linkFormat id).feed r buffer).2 →
      Parsed delivered h id r buffer (.error e)
  /-- An empty chunk, where a body of length 0 was announced. -/
  | empty {e : HarborFault} {n : ℕ} {got : List UInt8} : r = .body n got → buffer = [] →
      Parsed delivered h id r buffer (.error e)

private theorem respond_setSlave {s : Slave} (hfd : s.fd = (h.s id).fd)
    (hqueue : s.queue = (h.s id).queue) :
    respond (h.setSlave id s) delivered id = respond h delivered id := by
  funext notice
  cases notice with
  | greeted => simp only [respond, Harbor.setSlave_self, hfd, hqueue]
  | refused b => simp only [respond, closeHarbor, Harbor.setSlave_self, hfd]
  | frame body => rfl
  | unacceptable => simp only [respond, closeHarbor, Harbor.setSlave_self, hfd]

/-- Some of a chunk has been read, and then the rest of it. -/
theorem Parsed.append {r r' : Receiver UInt8} {as bs : List UInt8} {ns : List (Notice UInt8)}
    {s : Slave} {res : Except HarborFault HarborStep}
    (hfeed : (linkFormat id).feed r as = (r', ns)) (hshort : ¬Short ns)
    (hns : ns.any releases = false) (hfd : s.fd = (h.s id).fd)
    (hqueue : s.queue = (h.s id).queue) (hbs : bs ≠ [])
    (hres : Parsed delivered (h.setSlave id s) id r' bs res) :
    Parsed delivered h id r (as ++ bs)
      (res.map fun q ↦ (ns.flatMap (respond h delivered id) ++ q.1, q.2)) := by
  have hall : (linkFormat id).feed r (as ++ bs) =
      (((linkFormat id).feed r' bs).1, ns ++ ((linkFormat id).feed r' bs).2) := by
    rw [FrameFormat.feed_append, hfeed]
  cases hres with
  | @read s' hshort' htracks hfd' hqueue' =>
    rw [Harbor.setSlave_self] at hfd' hqueue'
    rw [respond_setSlave hfd hqueue, Harbor.setSlave_setSlave]
    have hread : Parsed delivered h id r (as ++ bs) (.ok
        (((linkFormat id).feed r (as ++ bs)).2.flatMap (respond h delivered id),
          h.setSlave id s')) := by
      apply Parsed.read
      · rw [hall, short_append]
        exact not_or.mpr ⟨hshort, hshort'⟩
      · rw [hall]
        exact htracks
      · exact hfd'.trans hfd
      · rw [hqueue', hqueue, hall]
        simp only [List.any_append, hns, Bool.false_or]
    rw [hall, List.flatMap_append] at hread
    exact hread
  | short hshort' =>
    apply Parsed.short
    rw [hall, short_append]
    exact Or.inr hshort'
  | empty _ hempty => exact absurd hempty hbs

/-! ### One pass -/

theorem contentPass_more (delivered : RemoteMessageHeader → Bool) {n : ℕ} {got buffer : List UInt8}
    (ht : (h.s id).Tracks (.body n got))
    (hmore : got.length + buffer.length < n) :
    ∃ s : Slave, contentPass delivered h id buffer = .ok ([], h.setSlave id s, none) ∧
      s.Tracks (.body n (got ++ buffer)) ∧ s.fd = (h.s id).fd ∧ s.queue = (h.s id).queue := by
  obtain ⟨hstatus, hlength, hread, -, hblock, hgot⟩ := ht
  have hneed : (buffer.length : ℤ) < (h.s id).length - (h.s id).read := by omega
  obtain ⟨block, hcopy, htake⟩ := memcpy_eq (h.s id).recvBuffer buffer
    (h.s id).read buffer.length (Nat.le_refl _) (by omega)
  refine ⟨{ h.s id with recvBuffer := block.val, read := (h.s id).read + buffer.length }, ?_, ?_,
    rfl, rfl⟩
  · simp only [contentPass, if_pos hneed, hcopy]
    rfl
  refine ⟨hstatus, hlength, ?_, Or.inl ?_, ?_, ?_⟩
  · simp only [hread, List.length_append]
  · rwa [List.length_append]
  · rw [block.2, hblock]
  · rw [List.length_append, ← hread, htake, hread, hgot, List.take_length]

theorem contentPass_end (delivered : RemoteMessageHeader → Bool) {n : ℕ} {got buffer : List UInt8}
    (ht : (h.s id).Tracks (.body n got))
    (hend : n ≤ got.length + buffer.length) :
    (n < headerCookieLength → ∃ e, contentPass delivered h id buffer = .error e) ∧
      (¬n < headerCookieLength → ∃ s : Slave, contentPass delivered h id buffer =
          .ok (respond h delivered id (.frame (got ++ buffer.take (n - got.length))),
            h.setSlave id s, if buffer.drop (n - got.length) = [] then none
              else some (buffer.drop (n - got.length))) ∧
        s.Tracks (.header []) ∧ s.fd = (h.s id).fd ∧ s.queue = (h.s id).queue) := by
  obtain ⟨hstatus, hlength, hread, hgot_le, hblock, hgot⟩ := ht
  have hgot_len : got.length ≤ n := by
    rcases hgot_le with hlt | ⟨-, rfl⟩
    · exact Nat.le_of_lt hlt
    · exact Nat.zero_le n
  have hneed : ((h.s id).length : ℤ) - (h.s id).read = (n - got.length : ℕ) := by omega
  have hnot : ¬(buffer.length : ℤ) < (n - got.length : ℕ) := by omega
  obtain ⟨block, hcopy, htake⟩ := memcpy_eq (h.s id).recvBuffer buffer
    (h.s id).read (n - got.length) (by omega) (by omega)
  have hbody : block.val.take (h.s id).length = got ++ buffer.take (n - got.length) := by
    have hsum : (h.s id).length = (h.s id).read + (n - got.length) := by omega
    rw [hsum, htake, hread, hgot]
  have hbody_len : (got ++ buffer.take (n - got.length)).length = n := by
    rw [List.length_append, List.length_take]
    omega
  have hpass : contentPass delivered h id buffer =
      (forwardLocalMesssage h delivered (got ++ buffer.take (n - got.length))).bind fun effects ↦
        .ok (effects, h.setSlave id { h.s id with
            length := 0
            read := 0
            recvBuffer := []
            status := .header },
          if buffer.drop (n - got.length) = [] then none
            else some (buffer.drop (n - got.length))) := by
    simp only [contentPass, hneed, if_neg hnot, hcopy, Int.toNat_natCast]
    rw [← hbody]
    rfl
  constructor
  · intro hshort
    rw [hpass, forwardLocalMesssage_short (by rwa [hbody_len])]
    exact ⟨_, rfl⟩
  · intro hshort
    rw [hpass, forwardLocalMesssage_ok id (by rwa [hbody_len])]
    exact ⟨_, rfl, ⟨rfl, rfl, by decide, rfl⟩, rfl, rfl⟩

private theorem headerPass_more (delivered : RemoteMessageHeader → Bool) {got buffer : List UInt8}
    (ht : (h.s id).Tracks (.header got))
    (hmore : got.length + buffer.length < 4) :
    ∃ s : Slave, headerPass delivered h id buffer = .ok ([], h.setSlave id s, none) ∧
      s.Tracks (.header (got ++ buffer)) ∧ s.fd = (h.s id).fd ∧ s.queue = (h.s id).queue := by
  obtain ⟨hstatus, hread, -, hgot⟩ := ht
  have hsize := (h.s id).size_length
  have hneed : (buffer.length : ℤ) < 4 - (h.s id).read := by omega
  obtain ⟨block, hcopy, htake⟩ := memcpy_eq (h.s id).size buffer
    (h.s id).read buffer.length (Nat.le_refl _) (by omega)
  refine ⟨{ h.s id with
      size := block.val
      read := (h.s id).read + buffer.length
      size_length := block.2.trans hsize }, ?_, ?_, rfl, rfl⟩
  · simp only [headerPass, if_pos hneed, hcopy]
    rfl
  refine ⟨hstatus, ?_, ?_, ?_⟩
  · simp only [hread, List.length_append]
  · rwa [List.length_append]
  · rw [List.length_append, ← hread, htake, hread, hgot, List.take_length]

/-- The block of a length is whole: its first byte decides whether the slave is closed. -/
theorem headerPass_whole (delivered : RemoteMessageHeader → Bool) {need : ℕ} {buffer : List UInt8}
    {block : { block : List UInt8 // block.length = (h.s id).size.length }}
    (hneed : (4 : ℤ) - (h.s id).read = need) (hlen : need ≤ buffer.length)
    (hcopy : memcpy (h.s id).size (h.s id).read buffer need = .ok block) :
    ((linkFormat id).bodyLength block.val = none →
      ∃ s : Slave, headerPass delivered h id buffer =
          .ok (respond h delivered id .unacceptable, h.setSlave id s, none) ∧
        s.Tracks .closed ∧ s.fd = (h.s id).fd ∧ s.queue = none) ∧
      ∀ n, (linkFormat id).bodyLength block.val = some n →
        ∃ s : Slave, headerPass delivered h id buffer =
          (if buffer.drop need = [] then .ok ([], h.setSlave id s, none)
            else contentPass delivered (h.setSlave id s) id (buffer.drop need)) ∧
        s.Tracks (.body n []) ∧ s.fd = (h.s id).fd ∧ s.queue = (h.s id).queue := by
  have hsize := block.2.trans (h.s id).size_length
  have hnot : ¬(buffer.length : ℤ) < need := by omega
  constructor
  · intro hnone
    have hfirst : block.val.getD 0 0 ≠ 0 := by
      intro hzero
      simp only [linkFormat, hzero, ne_eq, not_true, if_false] at hnone
      cases hnone
    refine ⟨{ h.s id with
        size := block.val
        size_length := hsize
        status := .down
        queue := none }, ?_, rfl, rfl, rfl⟩
    simp only [headerPass, hneed, if_neg hnot, hcopy, Int.toNat_natCast]
    refine (if_pos hfirst).trans ?_
    simp only [respond, closeHarbor, Harbor.setSlave_self, Harbor.setSlave_setSlave]
    rfl
  · intro n hn
    have hfirst : ¬block.val.getD 0 0 ≠ 0 := by
      intro hne
      simp only [linkFormat, if_pos hne] at hn
      cases hn
    simp only [linkFormat, if_neg hfirst, Option.some.injEq] at hn
    refine ⟨{ h.s id with
        size := block.val
        size_length := hsize
        length := n
        read := 0
        recvBuffer := List.replicate n 0
        status := .content }, ?_, ?_, rfl, rfl⟩
    · simp only [headerPass, hneed, if_neg hnot, hcopy, Int.toNat_natCast, ← hn]
      exact if_neg hfirst
    refine ⟨rfl, rfl, rfl, ?_, ?_, rfl⟩
    · by_cases hzero : n = 0
      · exact Or.inr ⟨hzero, rfl⟩
      · exact Or.inl (Nat.pos_of_ne_zero hzero)
    · exact List.length_replicate

/-- The rest of a length has come. -/
private theorem headerPass_end (delivered : RemoteMessageHeader → Bool) {got buffer : List UInt8}
    (ht : (h.s id).Tracks (.header got))
    (hend : 4 ≤ got.length + buffer.length) :
    ((linkFormat id).bodyLength (got ++ buffer.take (4 - got.length)) = none →
      ∃ s : Slave, headerPass delivered h id buffer =
          .ok (respond h delivered id .unacceptable, h.setSlave id s, none) ∧
        s.Tracks .closed ∧ s.fd = (h.s id).fd ∧ s.queue = none) ∧
      ∀ n, (linkFormat id).bodyLength (got ++ buffer.take (4 - got.length)) = some n →
        ∃ s : Slave, headerPass delivered h id buffer =
          (if buffer.drop (4 - got.length) = [] then .ok ([], h.setSlave id s, none)
            else contentPass delivered (h.setSlave id s) id (buffer.drop (4 - got.length))) ∧
        s.Tracks (.body n []) ∧ s.fd = (h.s id).fd ∧ s.queue = (h.s id).queue := by
  obtain ⟨hstatus, hread, hgot_len, hgot⟩ := ht
  have hsize := (h.s id).size_length
  have hneed : (4 : ℤ) - (h.s id).read = (4 - got.length : ℕ) := by omega
  obtain ⟨block, hcopy, htake⟩ := memcpy_eq (h.s id).size buffer
    (h.s id).read (4 - got.length) (by omega) (by omega)
  have hblock : block.val = got ++ buffer.take (4 - got.length) := by
    have hlen : (h.s id).read + (4 - got.length) = block.val.length := by
      rw [block.2, hsize]
      omega
    rw [← List.take_length (l := block.val), ← hlen, htake, hread, hgot]
  rw [← hblock]
  exact headerPass_whole delivered hneed (by omega) hcopy

/-! ### All passes -/

/-- What the loop makes of a pass. -/
def goOn (delivered : RemoteMessageHeader → Bool) (id fuel : ℕ) (p : HarborPass) :
    Except HarborFault HarborStep :=
  match p.2.2 with
  | none => .ok (p.1, p.2.1)
  | some rest => (socketLoop delivered id fuel p.2.1 rest).map fun q ↦ (p.1 ++ q.1, q.2)

theorem socketLoop_succ (fuel : ℕ) (buffer : List UInt8) :
    socketLoop delivered id (fuel + 1) h buffer =
      (socketPass delivered h id buffer).bind (goOn delivered id fuel) := by
  rw [socketLoop]
  cases socketPass delivered h id buffer with
  | error e => rfl
  | ok p =>
    obtain ⟨effects, h', rest⟩ := p
    cases rest with
    | none => rfl
    | some rest =>
      simp only [bind, Except.bind, goOn]
      cases socketLoop delivered id fuel h' rest <;> rfl

theorem goOn_append (effects : List HarborEffect) (fuel : ℕ) (p : HarborPass) :
    goOn delivered id fuel (effects ++ p.1, p.2) =
      (goOn delivered id fuel p).map fun q ↦ (effects ++ q.1, q.2) := by
  obtain ⟨effects', h', rest⟩ := p
  cases rest with
  | none => rfl
  | some rest =>
    simp only [goOn]
    cases socketLoop delivered id fuel h' rest with
    | error e => rfl
    | ok q => simp only [Except.map, List.append_assoc]

theorem Parsed.of_feed (delivered : RemoteMessageHeader → Bool) {r r' : Receiver UInt8}
    {buffer : List UInt8} {ns : List (Notice UInt8)} {s : Slave}
    (hfeed : (linkFormat id).feed r buffer = (r', ns)) (hshort : ¬Short ns)
    (ht : s.Tracks r') (hfd : s.fd = (h.s id).fd)
    (hqueue : s.queue = if ns.any releases then none else (h.s id).queue) :
    Parsed delivered h id r buffer
      (.ok (ns.flatMap (respond h delivered id), h.setSlave id s)) := by
  have hns : ns = ((linkFormat id).feed r buffer).2 := by rw [hfeed]
  rw [hns]
  apply Parsed.read
  · rwa [← hns]
  · rwa [hfeed]
  · exact hfd
  · rwa [← hns]

theorem not_short_nil : ¬Short [] := by
  rintro ⟨_, hmem, -⟩
  cases hmem

/-- A chunk for which the loop is known to read what it should. -/
def LoopParses (delivered : RemoteMessageHeader → Bool) (id fuel : ℕ) : Prop :=
  ∀ (h : Harbor) (r : Receiver UInt8) (buffer : List UInt8), (h.s id).Tracks r → r ≠ .greeting →
    buffer.length < fuel → Parsed delivered h id r buffer (socketLoop delivered id fuel h buffer)

theorem contentPass_parsed {fuel n : ℕ} {got buffer : List UInt8}
    (ih : LoopParses delivered id fuel) (ht : (h.s id).Tracks (.body n got))
    (hlen : buffer.length ≤ fuel) :
    Parsed delivered h id (.body n got) buffer
      ((contentPass delivered h id buffer).bind (goOn delivered id fuel)) := by
  by_cases hmore : got.length + buffer.length < n
  · obtain ⟨s, hpass, hs, hfd, hqueue⟩ := contentPass_more delivered ht hmore
    rw [hpass]
    exact Parsed.of_feed delivered (FrameFormat.feed_body hmore) not_short_nil hs hfd hqueue
  obtain ⟨hshort, hlong⟩ := contentPass_end delivered ht (Nat.not_lt.mp hmore)
  rcases ht.2.2.2.1 with hgot | ⟨rfl, rfl⟩
  · have hsplit := List.take_append_drop (n - got.length) buffer
    have hfeed : (linkFormat id).feed (.body n got) (buffer.take (n - got.length)) =
        (.header [], [.frame (got ++ buffer.take (n - got.length))]) := by
      refine FrameFormat.feed_body_end hgot ?_
      rw [List.length_take]
      omega
    have hbody : (got ++ buffer.take (n - got.length)).length = n := by
      rw [List.length_append, List.length_take]
      omega
    -- a body shorter than its cookie is cut before its start
    by_cases h12 : n < headerCookieLength
    · obtain ⟨e, he⟩ := hshort h12
      rw [he]
      apply Parsed.short
      rw [← hsplit, FrameFormat.feed_append, hfeed]
      exact ⟨_, List.mem_cons_self, by rwa [hbody]⟩
    · obtain ⟨s, hpass, hs, hfd, hqueue⟩ := hlong h12
      have hframe : ¬Short [.frame (got ++ buffer.take (n - got.length))] := by
        rintro ⟨body, hmem, hbody_short⟩
        rw [List.mem_singleton, Notice.frame.injEq] at hmem
        rw [hmem, hbody] at hbody_short
        exact h12 hbody_short
      rw [hpass]
      -- the frame ends the chunk, or the loop goes on with what stands behind it
      by_cases hrest : buffer.drop (n - got.length) = []
      · rw [hrest, List.append_nil] at hsplit
        rw [if_pos hrest]
        rw [hsplit] at hfeed hframe ⊢
        have hread := Parsed.of_feed delivered (h := h) hfeed hframe hs hfd
          hqueue
        rwa [List.flatMap_singleton] at hread
      · rw [if_neg hrest]
        have hdrop : (buffer.drop (n - got.length)).length < fuel := by
          rw [List.length_drop]
          omega
        have hres := ih (h.setSlave id s) _ _ (by rw [Harbor.setSlave_self]; exact hs)
          (by simp) hdrop
        have hread := hres.append hfeed hframe rfl hfd hqueue hrest
        rw [hsplit, List.flatMap_singleton] at hread
        exact hread
  · -- a body of length 0 has no byte to be read, and no cookie either
    obtain ⟨e, he⟩ := hshort (by decide)
    rw [he]
    cases buffer with
    | nil => exact Parsed.empty rfl rfl
    | cons b rest =>
      refine Parsed.short ⟨[b], List.mem_cons_self, ?_⟩
      rw [List.length_singleton]
      decide

theorem headerPass_parsed {fuel : ℕ} {got : List UInt8} (buffer : List UInt8)
    (ih : LoopParses delivered id fuel)
    (ht : (h.s id).Tracks (.header got)) (hlen : buffer.length ≤ fuel) :
    Parsed delivered h id (.header got) buffer
      ((headerPass delivered h id buffer).bind (goOn delivered id fuel)) := by
  by_cases hmore : got.length + buffer.length < 4
  · obtain ⟨s, hpass, hs, hfd, hqueue⟩ := headerPass_more delivered ht hmore
    rw [hpass]
    exact Parsed.of_feed delivered (FrameFormat.feed_header hmore) not_short_nil hs hfd hqueue
  obtain ⟨hnone, hsome⟩ := headerPass_end delivered ht (Nat.not_lt.mp hmore)
  have hgot : got.length < (linkFormat id).headerLength := ht.2.2.1
  have hsplit := List.take_append_drop (4 - got.length) buffer
  have hlen_take : got.length + (buffer.take (4 - got.length)).length =
      (linkFormat id).headerLength := by
    rw [List.length_take]
    simp only [linkFormat] at hgot ⊢
    omega
  have hfeed := FrameFormat.feed_header_end hgot hlen_take
  cases hbody : (linkFormat id).bodyLength (got ++ buffer.take (4 - got.length)) with
  | none =>
    obtain ⟨s, hpass, hs, hfd, hqueue⟩ := hnone hbody
    rw [hbody] at hfeed
    have hall : (linkFormat id).feed (.header got) buffer = (.closed, [.unacceptable]) := by
      calc (linkFormat id).feed (.header got) buffer
          = (linkFormat id).feed (.header got)
              (buffer.take (4 - got.length) ++ buffer.drop (4 - got.length)) := by rw [hsplit]
        _ = (.closed, [.unacceptable]) := by
            rw [FrameFormat.feed_append, hfeed, FrameFormat.feed_closed]
            rfl
    have hread := Parsed.of_feed delivered hall
      (by rintro ⟨_, hmem, -⟩; simp at hmem) hs hfd hqueue
    rw [hpass]
    rwa [List.flatMap_singleton] at hread
  | some n =>
    obtain ⟨s, hpass, hs, hfd, hqueue⟩ := hsome n hbody
    rw [hbody] at hfeed
    rw [hpass]
    by_cases hrest : buffer.drop (4 - got.length) = []
    · rw [hrest, List.append_nil] at hsplit
      rw [if_pos hrest]
      rw [hsplit] at hfeed
      exact Parsed.of_feed delivered hfeed not_short_nil hs hfd hqueue
    · rw [if_neg hrest]
      have hdrop : (buffer.drop (4 - got.length)).length ≤ fuel := by
        rw [List.length_drop]
        omega
      have hres := contentPass_parsed (h := h.setSlave id s) ih
        (by rw [Harbor.setSlave_self]; exact hs) hdrop
      have hread := hres.append hfeed not_short_nil rfl hfd hqueue hrest
      rw [hsplit] at hread
      cases hcontent : (contentPass delivered (h.setSlave id s) id
          (buffer.drop (4 - got.length))).bind (goOn delivered id fuel) <;>
        rw [hcontent] at hread <;> exact hread

/-- **The loop reads as the receiver does**, from wherever the last chunk has left off. -/
theorem socketLoop_parses (fuel : ℕ) : LoopParses delivered id fuel := by
  induction fuel with
  | zero => exact fun _ _ _ _ _ hlen ↦ absurd hlen (Nat.not_lt_zero _)
  | succ fuel ih =>
    intro h r buffer ht hr hlen
    rw [socketLoop_succ, socketPass]
    cases r with
    | greeting => exact absurd rfl hr
    | header got =>
      rw [ht.1]
      exact headerPass_parsed _ ih ht (Nat.le_of_lt_succ hlen)
    | body n got =>
      rw [ht.1]
      exact contentPass_parsed ih ht (Nat.le_of_lt_succ hlen)
    | closed =>
      have hstatus : (h.s id).status = .down := ht
      rw [hstatus]
      have hread := Parsed.of_feed delivered (h := h)
        (FrameFormat.feed_closed (F := linkFormat id) buffer) not_short_nil ht rfl rfl
      rwa [Harbor.setSlave_eta] at hread

/-! ### The first byte -/

theorem dispatchQueue_ok (id : ℕ) (hfd : (h.s id).fd ≠ 0) :
    dispatchQueue h id = .ok ((queued (h.s id).queue).flatMap fun m ↦
        sendRemote (h.s id).fd m.buffer m.header,
      h.setSlave id { h.s id with queue := none }) := by
  rw [dispatchQueue, if_neg hfd]
  cases hqueue : (h.s id).queue with
  | none =>
    have heta : { h.s id with queue := none } = h.s id := by rw [← hqueue]
    simp only [queued_none, List.flatMap_nil]
    rw [heta, Harbor.setSlave_eta]
  | some queue => simp only [queued_some, popAll_fst]

/-- A greeting, and then the rest of the chunk. -/
theorem Parsed.greet {b : UInt8} {rest : List UInt8} {s : Slave}
    {res : Except HarborFault HarborStep} (hb : b.toNat = id) (hfd : s.fd = (h.s id).fd)
    (hqueue : s.queue = none)
    (hres : Parsed delivered (h.setSlave id s) id (.header []) rest res) :
    Parsed delivered h id .greeting (b :: rest)
      (res.map fun q ↦ (respond h delivered id .greeted ++ q.1, q.2)) := by
  have hall : (linkFormat id).feed .greeting (b :: rest) =
      (((linkFormat id).feed (.header []) rest).1,
        .greeted :: ((linkFormat id).feed (.header []) rest).2) := by
    have hgreets : (linkFormat id).greets b = true := by simpa [linkFormat] using hb
    rw [← List.singleton_append, FrameFormat.feed_append, FrameFormat.feed_greeting hgreets]
    rfl
  cases hres with
  | @read s' hshort htracks hfd' hqueue' =>
    rw [Harbor.setSlave_self] at hfd' hqueue'
    have hrespond : ((linkFormat id).feed (.header []) rest).2.flatMap
        (respond (h.setSlave id s) delivered id) =
          ((linkFormat id).feed (.header []) rest).2.flatMap (respond h delivered id) := by
      refine List.flatMap_congr fun notice hmem ↦ ?_
      cases notice with
      | greeted => exact absurd hmem (FrameFormat.not_greeted_mem_feed (by simp) rest)
      | refused b => simp only [respond, closeHarbor, Harbor.setSlave_self, hfd]
      | frame body => rfl
      | unacceptable => simp only [respond, closeHarbor, Harbor.setSlave_self, hfd]
    have hread : Parsed delivered h id .greeting (b :: rest) (.ok
        (((linkFormat id).feed .greeting (b :: rest)).2.flatMap (respond h delivered id),
          h.setSlave id s')) := by
      apply Parsed.read
      · rw [hall]
        rintro ⟨body, hmem, hlen⟩
        rcases List.mem_cons.mp hmem with heq | hmem
        · cases heq
        · exact hshort ⟨body, hmem, hlen⟩
      · rw [hall]
        exact htracks
      · exact hfd'.trans hfd
      · rw [hqueue', hqueue, hall]
        simp only [List.any_cons, releases, Bool.true_or, if_true, ite_self]
    rw [hall, List.flatMap_cons] at hread
    rw [hrespond, Harbor.setSlave_setSlave]
    exact hread
  | short hshort =>
    apply Parsed.short
    rw [hall]
    obtain ⟨body, hmem, hlen⟩ := hshort
    exact ⟨body, List.mem_cons_of_mem _ hmem, hlen⟩
  | empty hbody _ => cases hbody

private theorem handshake_parsed {fuel : ℕ} {b : UInt8} {rest : List UInt8}
    (ht : (h.s id).Tracks .greeting) (hfd : (h.s id).fd ≠ 0) (hlen : rest.length + 1 < fuel) :
    Parsed delivered h id .greeting (b :: rest)
      (socketLoop delivered id fuel h (b :: rest)) := by
  obtain ⟨hstatus, hread⟩ := ht
  cases fuel with
  | zero => exact absurd hlen (Nat.not_lt_zero _)
  | succ fuel =>
    rw [socketLoop_succ, socketPass, hstatus]
    simp only [handshakePass]
    by_cases hb : b.toNat = id
    · -- the queue is flushed, and the rest is read from the start of a header
      have hdispatch := dispatchQueue_ok
        (h := h.setSlave id { h.s id with status := .header }) id (by
          rw [Harbor.setSlave_self]
          exact hfd)
      rw [Harbor.setSlave_self, Harbor.setSlave_setSlave] at hdispatch
      rw [if_neg (not_not_intro hb), hdispatch]
      have hparses : LoopParses delivered id fuel := socketLoop_parses fuel
      have hs : Slave.Tracks { h.s id with status := .header, queue := none } (.header []) :=
        ⟨rfl, hread, by decide, rfl⟩
      by_cases hrest : rest = []
      · subst hrest
        have hres := hparses (h.setSlave id { h.s id with status := .header, queue := none })
          (.header []) [] (by rw [Harbor.setSlave_self]; exact hs) (by simp)
          (by simp only [List.length_nil] at hlen ⊢; omega)
        exact hres.greet (s := { h.s id with status := .header, queue := none }) hb rfl rfl
      · have hres := headerPass_parsed rest hparses
          (h := h.setSlave id { h.s id with status := .header, queue := none })
          (by rw [Harbor.setSlave_self]; exact hs) (by omega)
        have hgreet :=
          hres.greet (s := { h.s id with status := .header, queue := none }) hb rfl rfl
        simp only [if_neg hrest]
        cases hpass : headerPass delivered
            (h.setSlave id { h.s id with status := .header, queue := none }) id rest with
        | error e =>
          rw [hpass] at hgreet
          simp only [bind, Except.bind, hpass]
          exact hgreet
        | ok p =>
          rw [hpass] at hgreet
          simp only [bind, Except.bind, hpass, pure, Except.pure]
          rw [goOn_append]
          exact hgreet
    · rw [if_pos hb]
      have hgreets : (linkFormat id).greets b = false := by simpa [linkFormat] using hb
      have hread := Parsed.of_feed delivered (h := h)
        (s := { h.s id with status := .down, queue := none })
        (FrameFormat.feed_greeting_refused hgreets rest)
        (by rintro ⟨_, hmem, -⟩; simp at hmem) rfl rfl rfl
      rw [List.flatMap_singleton] at hread
      exact hread

/-- **A chunk is read as the receiver reads it.** -/
theorem pushSocketData_parsed (delivered : RemoteMessageHeader → Bool) {fd : ℤ}
    {r : Receiver UInt8} {buffer : List UInt8}
    (hid : slaveOf h fd = some id) (ht : (h.s id).Tracks r) (hfd : (h.s id).fd ≠ 0)
    (hne : buffer ≠ []) :
    Parsed delivered h id r buffer (pushSocketData h fd buffer delivered) := by
  simp only [pushSocketData, hid]
  by_cases hr : r = .greeting
  · subst hr
    cases buffer with
    | nil => exact absurd rfl hne
    | cons b rest => exact handshake_parsed ht hfd (by rw [List.length_cons]; omega)
  · exact socketLoop_parses _ h r buffer ht hr (by omega)

end ZTask
