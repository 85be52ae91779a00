import ZTask.Harbor.Reconnect

/-!
# What any peer can make the service read

`forward_local_messsage` looks for a cookie of twelve bytes at the end of a block, and nothing on
the way there asks for twelve bytes: `push_socket_data` tests one byte of a length, which keeps it
below `2 ^ 24`. So a peer that announces a short body makes the service read in front of the block.

What the service reads is not a matter of the bytes of the connection only. The record of a slave
outlives its connections, and `read` with it: a connection that breaks in the middle of a length
leaves some of its bytes in `size`, and the next one completes them; one that breaks in the middle
of a body leaves a count, which the next connection takes for the count of the bytes of a length.
With four bytes the length that stands in `size` is taken again; beyond four the copy of the length
has a negative size, and the service faults before it forwards anything.

The parser is therefore described from every state that a run of the service can leave a slave in.
Only the middle of a body needs an invariant of the runs (`Slave.Sound`): a block of the announced
length, and fewer bytes than that. In every other state the next chunk is read by cases on `read`
(`Slave.atLength`), and what comes behind it as a receiver of frames reads it. That gives the
condition of `push_socket_data_safe_iff`: no frame is completed that is too short for a cookie.
-/

namespace ZTask

open Lib

variable {h h' : Harbor} {id k : ℕ} {fd : ℤ} {delivered : RemoteMessageHeader → Bool}

/-! ## The middle of a body -/

/-- In the middle of a body there is a block of its length, which is not full. -/
def Slave.Sound (s : Slave) : Prop :=
  s.status = .content →
    s.recvBuffer.length = s.length ∧ (s.read < s.length ∨ s.length = 0 ∧ s.read = 0)

theorem Slave.Sound.tracks {s : Slave} (hs : s.Sound) (hstatus : s.status = .content) :
    s.Tracks (.body s.length (s.recvBuffer.take s.read)) := by
  obtain ⟨hblock, hread⟩ := hs hstatus
  have hlen : (s.recvBuffer.take s.read).length = s.read := by
    rw [List.length_take, hblock]
    omega
  refine ⟨hstatus, rfl, hlen.symm, ?_, hblock, by rw [hlen]⟩
  rcases hread with hlt | ⟨hzero, hnone⟩
  · rw [hlen]
    exact .inl hlt
  · exact .inr ⟨hzero, by rw [hnone, List.take_zero]⟩

theorem Slave.Tracks.sound {s : Slave} {r : Receiver UInt8} (ht : s.Tracks r) : s.Sound := by
  intro hstatus
  cases r with
  | greeting => exact absurd (ht.1.symm.trans hstatus) (by decide)
  | header got => exact absurd (ht.1.symm.trans hstatus) (by decide)
  | closed => exact absurd (Eq.trans (Eq.symm ht) hstatus) (by decide)
  | body n got =>
    obtain ⟨-, hlength, hread, hgot, hblock, -⟩ := ht
    refine ⟨hblock.trans hlength.symm, ?_⟩
    rw [hlength, hread]
    exact hgot.imp_right fun hnone ↦ ⟨hnone.1, by rw [hnone.2, List.length_nil]⟩

theorem Slave.SameReading.sound {s s' : Slave} (hsame : s.SameReading s') (hs : s.Sound) :
    s'.Sound := by
  intro hstatus
  rw [hsame.recvBuffer, hsame.length, hsame.read]
  exact hs (hsame.status.symm.trans hstatus)

/-! ## A length that is continued -/

/-- What a slave at a length is in the middle of, and what it notices before it reads a byte: up to
three bytes of the length are there, or all four. Beyond that the copy has a negative size. -/
def Slave.atLength (s : Slave) (id : ℕ) : Option (Receiver UInt8 × List (Notice UInt8)) :=
  if s.read < 4 then some (.header (s.size.take s.read), [])
  else if s.read = 4 then
    match (linkFormat id).bodyLength s.size with
    | none => some (.closed, [.unacceptable])
    | some n => some (.body n [], [])
  else none

/-- What a slave notices of the bytes of a connection, from the state it is in. There is nothing to
say (`none`) if it comes to a length with more than four bytes counted. -/
def Slave.notices (s : Slave) (id : ℕ) : List UInt8 → Option (List (Notice UInt8))
  | [] => some []
  | b :: rest =>
    match s.status with
    | .wait | .down => some []
    | .content => some ((linkFormat id).feed (.body s.length (s.recvBuffer.take s.read))
        (b :: rest)).2
    | .header => (s.atLength id).map fun p ↦ p.2 ++ ((linkFormat id).feed p.1 (b :: rest)).2
    | .handshake =>
      if b.toNat = id then
        (s.atLength id).map fun p ↦ .greeted :: (p.2 ++ ((linkFormat id).feed p.1 rest).2)
      else some [.refused b]

/-- What a chunk comes to: it is read, and the slave is in the middle of `r`, if no frame among the
notices is too short. -/
inductive Came (h : Harbor) (id : ℕ) (r : Receiver UInt8) (ns : List (Notice UInt8)) :
    Except HarborFault HarborStep → Prop
  | read {effects : List HarborEffect} {s : Slave} : ¬Short ns → s.Tracks r →
      s.fd = (h.s id).fd → Came h id r ns (.ok (effects, h.setSlave id s))
  | short {e : HarborFault} : Short ns → Came h id r ns (.error e)

theorem Parsed.came {r : Receiver UInt8} {buffer : List UInt8}
    {res : Except HarborFault HarborStep} (hres : Parsed delivered h id r buffer res)
    (hne : ∀ n got, r = .body n got → buffer ≠ []) :
    Came h id ((linkFormat id).feed r buffer).1 ((linkFormat id).feed r buffer).2 res := by
  cases hres with
  | read hshort ht hfd _ => exact .read hshort ht hfd
  | short hshort => exact .short hshort
  | empty hr hempty => exact absurd hempty (hne _ _ hr)

theorem short_cons {n : Notice UInt8} {ns : List (Notice UInt8)} (hn : ∀ body, n ≠ .frame body) :
    Short (n :: ns) ↔ Short ns := by
  constructor
  · rintro ⟨body, hmem, hlen⟩
    rcases List.mem_cons.mp hmem with heq | hmem
    · exact absurd heq.symm (hn body)
    · exact ⟨body, hmem, hlen⟩
  · rintro ⟨body, hmem, hlen⟩
    exact ⟨body, List.mem_cons_of_mem n hmem, hlen⟩

theorem Came.cons {s : Slave} {r : Receiver UInt8} {n : Notice UInt8} {ns : List (Notice UInt8)}
    {res : Except HarborFault HarborStep} (before : List HarborEffect)
    (hn : ∀ body, n ≠ .frame body) (hfd : s.fd = (h.s id).fd)
    (hres : Came (h.setSlave id s) id r ns res) :
    Came h id r (n :: ns) (res.map fun q ↦ (before ++ q.1, q.2)) := by
  cases hres with
  | short hshort => exact .short ((short_cons hn).mpr hshort)
  | @read effects s' hshort ht hfd' =>
    rw [Harbor.setSlave_self] at hfd'
    rw [Harbor.setSlave_setSlave]
    exact .read (mt (short_cons hn).mp hshort) ht (hfd'.trans hfd)

/-- A length of which all bytes are there already. -/
private theorem headerPass_full (delivered : RemoteMessageHeader → Bool)
    (hread : (h.s id).read = 4) (buffer : List UInt8) :
    ((linkFormat id).bodyLength (h.s id).size = none →
      ∃ s, headerPass delivered h id buffer =
          .ok (respond h delivered id .unacceptable, h.setSlave id s, none) ∧
        s.Tracks .closed ∧ s.fd = (h.s id).fd) ∧
    ∀ n, (linkFormat id).bodyLength (h.s id).size = some n →
      ∃ s, headerPass delivered h id buffer =
          (if buffer = [] then .ok ([], h.setSlave id s, none)
            else contentPass delivered (h.setSlave id s) id buffer) ∧
        s.Tracks (.body n []) ∧ s.fd = (h.s id).fd := by
  -- nothing is copied: the slave reads as one that has come to the end of the length
  have hsize := (h.s id).size_length
  have hneed : (4 : ℤ) - (h.s id).read = (0 : ℕ) := by omega
  obtain ⟨block, hcopy, htake⟩ := memcpy_eq (h.s id).size buffer (h.s id).read 0
    (Nat.zero_le _) (by omega)
  have hblock : block.val = (h.s id).size := by
    rw [Nat.add_zero, List.take_zero, List.append_nil] at htake
    rwa [List.take_of_length_le (by rw [block.2]; omega), List.take_of_length_le (by omega)]
      at htake
  obtain ⟨hclosed, hbody⟩ := headerPass_whole delivered hneed (Nat.zero_le _) hcopy
  rw [hblock] at hclosed hbody
  constructor
  · intro hnone
    obtain ⟨s, hpass, htracks, hfd, -⟩ := hclosed hnone
    exact ⟨s, hpass, htracks, hfd⟩
  · intro n hn
    obtain ⟨s, hpass, htracks, hfd, -⟩ := hbody n hn
    exact ⟨s, hpass, htracks, hfd⟩

/-- **A chunk for a slave at a length**, whatever `read` is. -/
theorem headerPass_came (delivered : RemoteMessageHeader → Bool) (fuel : ℕ)
    (hstatus : (h.s id).status = .header) (buffer : List UInt8) (hfuel : buffer.length ≤ fuel) :
    ((h.s id).atLength id = none →
      ∃ e, (headerPass delivered h id buffer).bind (goOn delivered id fuel) = .error e) ∧
    ∀ p ∈ (h.s id).atLength id, Came h id ((linkFormat id).feed p.1 buffer).1
      (p.2 ++ ((linkFormat id).feed p.1 buffer).2)
      ((headerPass delivered h id buffer).bind (goOn delivered id fuel)) := by
  have hsize := (h.s id).size_length
  have hparses : LoopParses delivered id fuel := socketLoop_parses fuel
  rw [Slave.atLength]
  -- a header that is incomplete, one that was read to its end before, or a counter beyond it
  by_cases hlt : (h.s id).read < 4
  · rw [if_pos hlt]
    refine ⟨fun hnone ↦ absurd hnone (Option.some_ne_none _), ?_⟩
    rintro p ⟨⟩
    have hgot : ((h.s id).size.take (h.s id).read).length = (h.s id).read := by
      rw [List.length_take]
      omega
    have ht : (h.s id).Tracks (.header ((h.s id).size.take (h.s id).read)) :=
      ⟨hstatus, hgot.symm, by omega, by rw [hgot]⟩
    refine (headerPass_parsed buffer hparses ht hfuel).came fun n got hr ↦ ?_
    cases hr
  rw [if_neg hlt]
  by_cases hfour : (h.s id).read = 4
  · rw [if_pos hfour]
    obtain ⟨hclosed, hbody⟩ := headerPass_full delivered hfour buffer
    cases hlength : (linkFormat id).bodyLength (h.s id).size with
    | none =>
      refine ⟨fun hnone ↦ absurd hnone (Option.some_ne_none _), ?_⟩
      rintro p ⟨⟩
      obtain ⟨s, hpass, ht, hfd⟩ := hclosed hlength
      rw [hpass, FrameFormat.feed_closed, List.append_nil]
      refine .read (mt (short_cons ?_).mp not_short_nil) ht hfd
      intro _ heq
      cases heq
    | some n =>
      refine ⟨fun hnone ↦ absurd hnone (Option.some_ne_none _), ?_⟩
      rintro p ⟨⟩
      obtain ⟨s, hpass, ht, hfd⟩ := hbody n hlength
      rw [hpass, List.nil_append]
      by_cases hempty : buffer = []
      · rw [if_pos hempty, hempty]
        exact .read not_short_nil ht hfd
      · rw [if_neg hempty]
        have hcame := (contentPass_parsed (h := h.setSlave id s) hparses
          (by rwa [Harbor.setSlave_self]) hfuel).came fun _ _ _ ↦ hempty
        generalize (contentPass _ _ _ _).bind _ = res at hcame ⊢
        cases hcame with
        | short hshort => exact .short hshort
        | read hshort ht' hfd' =>
          rw [Harbor.setSlave_self] at hfd'
          rw [Harbor.setSlave_setSlave]
          exact .read hshort ht' (hfd'.trans hfd)
  · rw [if_neg hfour]
    refine ⟨fun _ ↦ ⟨.outOfBounds, ?_⟩, fun p hp ↦ absurd hp (Option.not_mem_none p)⟩
    have hnot : ¬(buffer.length : ℤ) < 4 - (h.s id).read := by omega
    -- the number of bytes to copy is negative, and `memcpy` takes it for a huge one
    have hnegative : ¬(0 ≤ 4 - ((h.s id).read : ℤ) ∧
        (4 - ((h.s id).read : ℤ)).toNat ≤ buffer.length ∧
        (h.s id).read + (4 - ((h.s id).read : ℤ)).toNat ≤ (h.s id).size.length) := by omega
    simp only [headerPass, if_neg hnot, memcpy, dif_neg hnegative]
    rfl

/-- The first byte, for a slave that comes to a length behind it. -/
theorem handshakePass_came (delivered : RemoteMessageHeader → Bool) (fuel : ℕ) {b : UInt8}
    {rest : List UInt8} (hb : b.toNat = id) (hfd : (h.s id).fd ≠ 0) (hfuel : rest.length < fuel) :
    ((h.s id).atLength id = none →
      ∃ e, (handshakePass delivered h id (b :: rest)).bind (goOn delivered id fuel) = .error e) ∧
    ∀ p ∈ (h.s id).atLength id, Came h id ((linkFormat id).feed p.1 rest).1
      (.greeted :: (p.2 ++ ((linkFormat id).feed p.1 rest).2))
      ((handshakePass delivered h id (b :: rest)).bind (goOn delivered id fuel)) := by
  obtain ⟨fuel, rfl⟩ : ∃ n, fuel = n + 1 := ⟨fuel - 1, by omega⟩
  let s : Slave := { h.s id with status := .header, queue := none }
  have hdispatch := dispatchQueue_ok (h := h.setSlave id { h.s id with status := .header }) id (by
    rw [Harbor.setSlave_self]
    exact hfd)
  rw [Harbor.setSlave_self, Harbor.setSlave_setSlave] at hdispatch
  have hself : ((h.setSlave id s).s id) = s := Harbor.setSlave_self h id s
  have hstatus : ((h.setSlave id s).s id).status = .header := by rw [hself]
  have hlength : ((h.setSlave id s).s id).atLength id = (h.s id).atLength id := by
    rw [hself]
    rfl
  -- behind the first byte it is the pass of a slave at a length, in this pass or in the next one
  obtain ⟨fuel', hfuel', hpass⟩ : ∃ fuel', rest.length ≤ fuel' ∧
      (handshakePass delivered h id (b :: rest)).bind (goOn delivered id (fuel + 1)) =
        ((headerPass delivered (h.setSlave id s) id rest).bind (goOn delivered id fuel')).map
          fun q ↦ (respond h delivered id .greeted ++ q.1, q.2) := by
    simp only [handshakePass, if_neg (not_not_intro hb), hdispatch, bind, Except.bind]
    by_cases hrest : rest = []
    · refine ⟨fuel, by omega, ?_⟩
      rw [if_pos hrest, hrest]
      simp only [goOn, pure, Except.pure]
      rw [socketLoop_succ, socketPass, hstatus]
      rfl
    · refine ⟨fuel + 1, by omega, ?_⟩
      rw [if_neg hrest]
      cases headerPass delivered (h.setSlave id s) id rest with
      | error e => rfl
      | ok q =>
        simp only [pure, Except.pure]
        exact goOn_append _ _ q
  obtain ⟨hnone, hsome⟩ := headerPass_came delivered fuel' hstatus rest hfuel'
  rw [hlength] at hnone hsome
  rw [hpass]
  refine ⟨fun hp ↦ ?_, fun p hp ↦ ?_⟩
  · obtain ⟨e, he⟩ := hnone hp
    exact ⟨e, by rw [he, Except.map]⟩
  · refine (hsome p hp).cons (s := s) (respond h delivered id .greeted) ?_ rfl
    intro _ heq
    cases heq

/-- **A chunk, from any state that a slave can be in.** -/
theorem pushSocketData_came (delivered : RemoteMessageHeader → Bool) (hid : slaveOf h fd = some id)
    (hfd : fd ≠ 0) (hsound : (h.s id).Sound) (hwait : (h.s id).status ≠ .wait) (b : UInt8)
    (rest : List UInt8) :
    (∀ more, (h.s id).notices id (b :: rest ++ more) = none) ∧
        (∃ e, pushSocketData h fd (b :: rest) delivered = .error e) ∨
      ∃ r ns, Came h id r ns (pushSocketData h fd (b :: rest) delivered) ∧
        ∀ more, (h.s id).notices id (b :: rest ++ more) =
          some (ns ++ ((linkFormat id).feed r more).2) := by
  have hfd' : (h.s id).fd ≠ 0 := by
    rw [(slaveOf_fd hid).1]
    exact hfd
  -- from a state that a receiver describes, the chunk is read as it reads it
  have htracked : ∀ r, (h.s id).Tracks r →
      Came h id ((linkFormat id).feed r (b :: rest)).1 ((linkFormat id).feed r (b :: rest)).2
        (pushSocketData h fd (b :: rest) delivered) := fun r ht ↦
    (pushSocketData_parsed delivered hid ht hfd' (List.cons_ne_nil b rest)).came
      fun _ _ _ ↦ List.cons_ne_nil b rest
  have hloop : pushSocketData h fd (b :: rest) delivered =
      (socketPass delivered h id (b :: rest)).bind (goOn delivered id (rest.length + 2)) := by
    rw [← socketLoop_succ]
    simp only [pushSocketData, hid, List.length_cons]
  simp only [List.cons_append, Slave.notices]
  cases hstatus : (h.s id).status with
  | wait => exact absurd hstatus hwait
  | down =>
    refine .inr ⟨_, _, htracked .closed hstatus, fun more ↦ ?_⟩
    simp only [FrameFormat.feed_closed, List.append_nil]
  | content =>
    refine .inr ⟨_, _, htracked _ (hsound.tracks hstatus), fun more ↦ ?_⟩
    simp only [← List.cons_append, FrameFormat.feed_append]
  | header =>
    have hcame := headerPass_came delivered (rest.length + 2) hstatus
        (b :: rest) (by rw [List.length_cons]; omega)
    rw [hloop, socketPass, hstatus]
    cases hlength : (h.s id).atLength id with
    | none => exact .inl ⟨fun more ↦ rfl, hcame.1 hlength⟩
    | some p =>
      refine .inr ⟨_, _, hcame.2 p hlength, fun more ↦ ?_⟩
      simp only [Option.map_some, ← List.cons_append, FrameFormat.feed_append, List.append_assoc]
  | handshake =>
    by_cases hb : b.toNat = id
    · have hcame := handshakePass_came delivered (rest.length + 2) hb hfd'
        (Nat.lt_add_of_pos_right Nat.two_pos : rest.length < rest.length + 2)
      rw [hloop, socketPass, hstatus]
      simp only [if_pos hb]
      cases hlength : (h.s id).atLength id with
      | none => exact .inl ⟨fun more ↦ rfl, hcame.1 hlength⟩
      | some p =>
        refine .inr ⟨_, _, hcame.2 p hlength, fun more ↦ ?_⟩
        simp only [Option.map_some, FrameFormat.feed_append, List.append_assoc, List.cons_append]
    · simp only [if_neg hb]
      refine .inr ⟨.closed, [.refused b], ?_, fun more ↦ ?_⟩
      · rw [hloop, socketPass, hstatus]
        simp only [handshakePass, if_pos hb]
        refine .read (mt (short_cons ?_).mp not_short_nil) ?_ rfl
        · intro _ heq
          cases heq
        · rfl
      · rw [FrameFormat.feed_closed, List.append_nil]

/-! ## What a run leaves -/

theorem Came.sound {r : Receiver UInt8} {ns : List (Notice UInt8)} {effects : List HarborEffect}
    (hres : Came h id r ns (.ok (effects, h'))) : ∃ s, h' = h.setSlave id s ∧ s.Sound := by
  cases hres with
  | read _ ht _ => exact ⟨_, rfl, ht.sound⟩

/-- Data changes one slave, and leaves it sound. -/
theorem socketLoop_sound {fuel : ℕ} {buffer : List UInt8} {effects : List HarborEffect}
    (hsound : (h.s id).Sound) (hfuel : buffer.length < fuel)
    (hok : socketLoop delivered id (fuel + 1) h buffer = .ok (effects, h')) :
    ∃ s, h' = h.setSlave id s ∧ s.Sound := by
  have hsame : ∃ s, h = h.setSlave id s ∧ s.Sound :=
    ⟨h.s id, (Harbor.setSlave_eta h id).symm, hsound⟩
  have hpass := hok
  rw [socketLoop_succ, socketPass] at hpass
  -- one case for each state of the reader; only a header can be found with a counter out of range
  cases hstatus : (h.s id).status with
  | wait =>
    rw [hstatus] at hpass
    cases hpass
    exact hsame
  | down =>
    rw [hstatus] at hpass
    cases hpass
    exact hsame
  | content =>
    have hparses : LoopParses delivered id (fuel + 1) := socketLoop_parses (fuel + 1)
    have hparsed := hparses h _ buffer (hsound.tracks hstatus) (fun hr ↦ by cases hr) (by omega)
    rw [hok] at hparsed
    cases hparsed with
    | read _ ht _ _ => exact ⟨_, rfl, ht.sound⟩
  | header =>
    have hcame := headerPass_came delivered fuel hstatus buffer (Nat.le_of_lt hfuel)
    rw [hstatus] at hpass
    rw [hpass] at hcame
    cases hlength : (h.s id).atLength id with
    | none =>
      obtain ⟨e, he⟩ := hcame.1 hlength
      cases he
    | some p => exact (hcame.2 p hlength).sound
  | handshake =>
    rw [hstatus] at hpass
    cases buffer with
    | nil => cases hpass
    | cons b rest =>
      by_cases hb : b.toNat = id
      · by_cases hfd : (h.s id).fd = 0
        · -- the assertion of `dispatch_queue` fails
          simp [handshakePass, hb, dispatchQueue, hfd, bind, Except.bind] at hpass
        have hcame := handshakePass_came delivered fuel hb hfd (Nat.lt_of_succ_lt hfuel)
        rw [hpass] at hcame
        cases hlength : (h.s id).atLength id with
        | none =>
          obtain ⟨e, he⟩ := hcame.1 hlength
          cases he
        | some p => exact (hcame.2 p hlength).sound
      · simp only [handshakePass, if_pos hb] at hpass
        cases hpass
        exact ⟨_, rfl, fun hcontent ↦ Status.noConfusion hcontent⟩

/-- **Every step leaves the slaves sound.** -/
theorem sound_step {i : HarborInput} {effects : List HarborEffect} (hs : ∀ k, (h.s k).Sound)
    (hok : harbor h i = .ok (h', effects)) (k : ℕ) : (h'.s k).Sound := by
  have hm := harbor_move hok
  have hkeep := fun hsame : (h.s k).SameReading (h'.s k) ↦ hsame.sound (hs k)
  by_cases hdata : ∃ message delivered, i = .socket message delivered ∧ message.type = .data ∧
      slaveOf h message.id = some k
  · obtain ⟨message, delivered, rfl, htype, hid⟩ := hdata
    have hpush := pushSocketData_of_harbor htype hok
    simp only [pushSocketData, hid] at hpush
    obtain ⟨s, rfl, hsound⟩ := socketLoop_sound (hs k) (Nat.lt_succ_self _) hpush
    rwa [Harbor.setSlave_self]
  by_cases hconnect : ∃ msg source, i = .harbor msg source ∧ ∃ p ∈ connects h msg, p.2.2 = k
  · -- a slave that is connected is not in the middle of a body
    obtain ⟨msg, source, rfl, p, hp, rfl⟩ := hconnect
    generalize sends effects = out at hm
    cases hm with
    | idle hplain => exact absurd (hplain.2.symm.trans hp) (Option.some_ne_none p).symm
    | connectS hc _ hstatus _ _ =>
      cases hp.symm.trans hc
      rw [Harbor.setSlave_self]
      exact fun hcontent ↦ Status.noConfusion (hstatus.symm.trans hcontent)
    | connectA hc _ hstatus _ _ _ =>
      cases hp.symm.trans hc
      rw [Harbor.setSlave_self]
      exact fun hcontent ↦ Status.noConfusion (hstatus.symm.trans hcontent)
    | update hname _ _ _ _ =>
      rw [nameUpdate_of_connects hp] at hname
      cases hname
  · refine hkeep (hm.sameReading ?_ ?_)
    · intro message delivered hi htype hid
      exact hdata ⟨message, delivered, hi, htype, hid⟩
    · intro msg source hi p hp hk
      exact hconnect ⟨msg, source, hi, p, hp, hk⟩

private theorem run_sound {me : ℕ} {slave : UInt32} {tr : List HarborEvent}
    (hrun : Run harbor (harborInit me slave) tr h) (k : ℕ) : (h.s k).Sound := by
  have hinit : ∀ k, ((harborInit me slave).s k).Sound :=
    fun _ hcontent ↦ Status.noConfusion hcontent
  exact hrun.invariant (C := fun _ _ ↦ True) (fun h ↦ ∀ k, (h.s k).Sound) hinit
    (fun hs _ hok ↦ sound_step hs hok) (fun _ _ ↦ trivial) k

/-! ## Frames that are too short -/

variable {cs : List (List UInt8 × (RemoteMessageHeader → Bool))}

/-- What the chunks of a connection come to for a slave that a receiver describes. -/
theorem pushChunks_ok_iff {r : Receiver UInt8} (hid : slaveOf h fd = some id) (hfd : fd ≠ 0)
    (ht : (h.s id).Tracks r) (hne : ∀ c ∈ cs, c.1 ≠ []) :
    (∃ effects h', pushChunks fd h cs = .ok (effects, h')) ↔
      ¬Short ((linkFormat id).feed r (cs.map Prod.fst).flatten).2 := by
  constructor
  · induction cs generalizing h r with
    | nil =>
      intro _
      exact not_short_nil
    | cons c cs ih =>
      rintro ⟨effects, h', hpush⟩
      rw [List.map_cons, List.flatten_cons, FrameFormat.feed_append, short_append, not_or]
      have hparsed := pushSocketData_parsed c.2 hid ht (by rw [(slaveOf_fd hid).1]; exact hfd)
        (hne c List.mem_cons_self)
      simp only [pushChunks] at hpush
      generalize pushSocketData h fd c.1 c.2 = res at hparsed hpush
      cases hparsed with
      | short _ | empty _ _ => cases hpush
      | @read s hlong htracks hfd' hqueue =>
        refine ⟨hlong, ih (h := h.setSlave id s) ?_ ?_
          (fun c' hc' ↦ hne c' (List.mem_cons_of_mem c hc')) ?_⟩
        · rw [slaveOf_setSlave hfd']
          exact hid
        · rw [Harbor.setSlave_self]
          exact htracks
        · cases hrest : pushChunks fd (h.setSlave id s) cs with
          | error e =>
            simp only [bind, Except.bind, hrest] at hpush
            cases hpush
          | ok q => exact ⟨q.1, q.2, rfl⟩
  · intro hlong
    obtain ⟨effects, h', hpush, -, -⟩ := pushChunks_parsed hid hfd ht hne hlong
    exact ⟨effects, h', hpush⟩

private theorem pushChunks_wait (hid : slaveOf h fd = some id) (hwait : (h.s id).status = .wait)
    (cs : List (List UInt8 × (RemoteMessageHeader → Bool))) :
    ∃ effects h', pushChunks fd h cs = .ok (effects, h') := by
  induction cs with
  | nil => exact ⟨[], h, rfl⟩
  | cons c cs ih =>
    obtain ⟨effects, h', hpush⟩ := ih
    have hfirst : pushSocketData h fd c.1 c.2 = .ok ([], h) := by
      simp only [pushSocketData, hid, socketLoop, socketPass, hwait]
      rfl
    exact ⟨effects, h', by simp only [pushChunks, hfirst, bind, Except.bind, hpush]; rfl⟩

/-- The same from any sound state: the first chunk, and then the rest from what it leaves. -/
theorem pushChunks_notices (hid : slaveOf h fd = some id) (hfd : fd ≠ 0)
    (hsound : (h.s id).Sound) (hne : ∀ c ∈ cs, c.1 ≠ []) :
    (∃ effects h', pushChunks fd h cs = .ok (effects, h')) ↔
      ∃ ns ∈ (h.s id).notices id (cs.map Prod.fst).flatten, ¬Short ns := by
  cases cs with
  | nil => exact ⟨fun _ ↦ ⟨[], rfl, not_short_nil⟩, fun _ ↦ ⟨[], h, rfl⟩⟩
  | cons c cs =>
    obtain ⟨chunk, delivered⟩ := c
    have htail := fun c' hc' ↦ hne c' (List.mem_cons_of_mem _ hc')
    rcases chunk with _ | ⟨b, rest⟩
    · exact absurd rfl (hne _ List.mem_cons_self)
    rw [List.map_cons, List.flatten_cons]
    by_cases hwait : (h.s id).status = .wait
    · refine ⟨fun _ ↦ ⟨[], ?_, not_short_nil⟩, fun _ ↦ pushChunks_wait hid hwait _⟩
      simp only [List.cons_append, Slave.notices, hwait]
      rfl
    rcases pushSocketData_came delivered hid hfd hsound hwait b rest with
      ⟨hnone, e, he⟩ | ⟨r, ns, hcame, hsome⟩
    · -- more than four bytes are counted where a length begins
      rw [hnone]
      constructor
      · rintro ⟨effects, h', hpush⟩
        simp only [pushChunks, he, bind, Except.bind] at hpush
        cases hpush
      · rintro ⟨ns, hns, -⟩
        exact absurd hns (Option.not_mem_none ns)
    rw [hsome]
    simp only [Option.mem_def, Option.some.injEq, exists_eq_left', short_append, not_or]
    simp only [pushChunks]
    generalize pushSocketData h fd (b :: rest) delivered = res at hcame
    cases hcame with
    | short hshort =>
      refine ⟨?_, fun hlong ↦ absurd hshort hlong.1⟩
      rintro ⟨effects, h', hpush⟩
      cases hpush
    | @read effects s hshort ht hfd' =>
      have hrest := pushChunks_ok_iff (h := h.setSlave id s) (r := r)
        (by rwa [slaveOf_setSlave hfd']) hfd (by rwa [Harbor.setSlave_self]) htail
      rw [← hrest]
      constructor
      · rintro ⟨effects', h', hpush⟩
        refine ⟨hshort, ?_⟩
        cases hq : pushChunks fd (h.setSlave id s) cs with
        | error e =>
          simp only [bind, Except.bind, hq] at hpush
          cases hpush
        | ok q => exact ⟨q.1, q.2, rfl⟩
      · rintro ⟨-, effects', h', hpush⟩
        exact ⟨effects ++ effects', h', by simp only [bind, Except.bind, hpush]; rfl⟩

/-- **When the service reads a cookie that is not there.** In every state that a run leads to, the
chunks of a connection are read without `forward_local_messsage` looking for a cookie outside of the
block if and only if the slave does not come to a length with more than four bytes counted, and
completes no frame that is shorter than a cookie. -/
theorem push_socket_data_safe_iff {me : ℕ} {slave : UInt32} {tr : List HarborEvent}
    (hrun : Run harbor (harborInit me slave) tr h) (hid : slaveOf h fd = some id) (hfd : fd ≠ 0)
    (hne : ∀ c ∈ cs, c.1 ≠ []) :
    (∃ effects h', pushChunks fd h cs = .ok (effects, h')) ↔
      ∃ ns ∈ (h.s id).notices id (cs.map Prod.fst).flatten, ¬Short ns :=
  pushChunks_notices hid hfd (run_sound hrun id) hne

/-- `S 6 2`. -/
def nodeConnectsAgain : HarborInput := .harbor [83, 32, 54, 32, 50] 0x01000005

/-- The first connection breaks after two bytes of a length. The next one brings the other two, and
a cookie. -/
theorem push_socket_data_safe_cookie : ∃ tr h, Run harbor (harborInit 1 0x01000005) tr h ∧
    (h.s 2).status = .handshake ∧ (h.s 2).read = 2 ∧
    ∃ effects h', pushChunks 6 h [([2, 0], fun _ ↦ true),
      ([12, 2, 0, 0, 3, 10, 0, 0, 7, 0, 0, 0, 4], fun _ ↦ true)] = .ok (effects, h') := by
  have hpasses : Passes harbor (harborInit 1 0x01000005)
      [nodeConnects, nodeSends [2, 0, 0], nodeBreaks, nodeConnectsAgain]
      fun tr h ↦ slaveOf h 6 = some 2 ∧ (h.s 2).status = .handshake ∧ (h.s 2).read = 2 ∧
        (h.s 2).notices 2 [2, 0, 12, 2, 0, 0, 3, 10, 0, 0, 7, 0, 0, 0, 4] =
          some [.greeted, .frame [2, 0, 0, 3, 10, 0, 0, 7, 0, 0, 0, 4]] := by decide +kernel
  obtain ⟨tr, h, hrun, hid, hstatus, hread, hnotices⟩ := Run.of_passes hpasses
  refine ⟨tr, h, hrun, hstatus, hread,
    (push_socket_data_safe_iff hrun hid (by decide) (by decide)).mpr ⟨_, hnotices, ?_⟩⟩
  rintro ⟨body, hmem, hlen⟩
  obtain rfl : body = [2, 0, 0, 3, 10, 0, 0, 7, 0, 0, 0, 4] := by
    rcases List.mem_cons.mp hmem with heq | hmem
    · cases heq
    · exact Notice.frame.inj (List.mem_singleton.mp hmem)
  exact absurd hlen (by decide)

/-- A frame of five bytes. -/
theorem push_socket_data_unsafe : ¬∀ tr h, Run harbor (harborInit 1 0x01000005) tr h →
    ∀ (fd : ℤ) (id : ℕ) (cs : List (List UInt8 × (RemoteMessageHeader → Bool))),
      slaveOf h fd = some id → fd ≠ 0 → (∀ c ∈ cs, c.1 ≠ []) →
      ∃ effects h', pushChunks fd h cs = .ok (effects, h') := by
  intro hall
  have hpasses : Passes harbor (harborInit 1 0x01000005) [nodeConnects, nodeGreets]
      fun tr h ↦ slaveOf h 5 = some 2 ∧
        (pushChunks 5 h [([0, 0, 0, 5, 1, 2, 3, 4, 5], fun _ ↦ true)]).isOk = false := by
    decide +kernel
  obtain ⟨tr, h, hrun, hid, hfault⟩ := Run.of_passes hpasses
  obtain ⟨effects, h', hpush⟩ := hall tr h hrun 5 2
    [([0, 0, 0, 5, 1, 2, 3, 4, 5], fun _ ↦ true)] hid (by decide) (by decide)
  rw [hpush] at hfault
  cases hfault

end ZTask
