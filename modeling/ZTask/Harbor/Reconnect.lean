import ZTask.Harbor.Guarantees
import ZTask.Harbor.RoundTrip

/-!
# Reconnection

The record of a slave outlives its connections, and with it what the slave was in the middle of. A
connection is read from its first byte on (`reconnect_parses`) if the one before has ended where a
frame does; otherwise it is read as if it went on where the other one broke off, as nothing in an
`S` or `A` command resets the count of the bytes read.

## What outlives a connection

`Session` is the history that matters for a slave: the receiver that a connection started as, its
bytes, and what has been handed on. `Session.Parsed` says that the record of the slave is what the
receiver has come to. A chunk carries it on (`Session.Parsed.data`), and a command that connects the
slave starts it anew, from the receiver that stands in the record (`Session.Parsed.start`).

## The condition

At the boundary of two frames that receiver is the one that waits for a length, of which nothing has
come. A break in the middle of a length or a body leaves the count of the bytes read, and the new
connection is read from there (`not_reconnect_parses`). The condition is about the state before the
command, for every connection of the run.
-/

namespace ZTask

open Lib

/-- The current connection of a slave: what a receiver starts as, the bytes that have come, and the
messages that have been handed on. -/
structure Session where
  start : Receiver UInt8
  bytes : List UInt8
  forwarded : List HarborEffect
deriving DecidableEq

/-- The bytes of a step. A command that connects the slave starts a new connection. -/
def Session.step (k : ℕ) (session : Option Session) (e : HarborEvent) : Option Session :=
  match e.input with
  | .harbor msg _ =>
    match connects e.pre msg with
    | none => session
    | some (command, _, id) =>
      if id = k then some ⟨if command = 83 then .greeting else .header [], [], []⟩ else session
  | .socket message _ =>
    if message.type = .data ∧ slaveOf e.pre message.id = some k then
      session.map fun s ↦ ⟨s.start, s.bytes ++ message.buffer,
        s.forwarded ++ e.output.filter HarborEffect.isForward⟩
    else session
  | _ => session

def sessionOf (k : ℕ) (tr : List HarborEvent) : Option Session := tr.foldl (Session.step k) none

/-- No command connects the slave while it is in the middle of a length or a body. -/
def HarborInput.Fresh (h : Harbor) (k : ℕ) : HarborInput → Prop
  | harbor msg _ => ∀ p ∈ connects h msg, p.2.2 = k → (h.s k).read = 0
  | _ => True

instance HarborInput.decidableFresh (h : Harbor) (k : ℕ) :
    ∀ i : HarborInput, Decidable (i.Fresh h k)
  | .harbor msg _ => inferInstanceAs (Decidable (∀ p ∈ connects h msg, p.2.2 = k →
      (h.s k).read = 0))
  | .system _ _ _ | .socket _ _ | .response | .other _ _ _ => .isTrue trivial

/-- What a receiver makes of the bytes of the connection. -/
def Session.feed (s : Session) (k : ℕ) : Receiver UInt8 × List (Notice UInt8) :=
  (linkFormat k).feed s.start s.bytes

theorem Session.feed_append (s : Session) (k : ℕ) (bytes : List UInt8)
    (forwarded : List HarborEffect) :
    Session.feed ⟨s.start, s.bytes ++ bytes, forwarded⟩ k =
      (((linkFormat k).feed (s.feed k).1 bytes).1,
        (s.feed k).2 ++ ((linkFormat k).feed (s.feed k).1 bytes).2) :=
  FrameFormat.feed_append _ _ _

/-- The connection is read from its own first byte on. -/
structure Session.Parsed (s : Session) (k : ℕ) (h : Harbor) : Prop where
  tracks : (h.s k).Tracks (s.feed k).1
  forwarded : s.forwarded = (s.feed k).2.flatMap (forwards h.id)

namespace Session.Parsed

variable {s : Session} {k : ℕ} {h h' : Harbor}

theorem header (hs : s.Parsed k h) (hstatus : (h.s k).status = .header) : (h.s k).read < 4 := by
  have htracks := hs.tracks
  generalize (s.feed k).1 = r at htracks
  cases r with
  | greeting => exact absurd (htracks.1.symm.trans hstatus) (by decide)
  | header got =>
    obtain ⟨-, hread, hlt, -⟩ := htracks
    rwa [hread]
  | body n got => exact absurd (htracks.1.symm.trans hstatus) (by decide)
  | closed => exact absurd (Eq.trans (Eq.symm htracks) hstatus) (by decide)

theorem content (hs : s.Parsed k h) (hstatus : (h.s k).status = .content) :
    (h.s k).read ≤ (h.s k).length := by
  have htracks := hs.tracks
  generalize (s.feed k).1 = r at htracks
  cases r with
  | greeting => exact absurd (htracks.1.symm.trans hstatus) (by decide)
  | header got => exact absurd (htracks.1.symm.trans hstatus) (by decide)
  | body n got =>
    obtain ⟨-, hlength, hread, hgot, -⟩ := htracks
    rw [hlength, hread]
    rcases hgot with hlt | ⟨-, rfl⟩
    · exact Nat.le_of_lt hlt
    · exact Nat.zero_le n
  | closed => exact absurd (Eq.trans (Eq.symm htracks) hstatus) (by decide)

end Session.Parsed

/-! ## Steps -/

theorem Slave.Tracks.congr {s s' : Slave} {r : Receiver UInt8} (ht : s.Tracks r)
    (h : s.SameReading s') : s'.Tracks r := by
  cases r with
  | greeting => exact ⟨h.status.trans ht.1, h.read.trans ht.2⟩
  | header got =>
    obtain ⟨hstatus, hread, hlt, hsize⟩ := ht
    exact ⟨h.status.trans hstatus, h.read.trans hread, hlt, by rw [h.size, hsize]⟩
  | body n got =>
    obtain ⟨hstatus, hlength, hread, hgot, hblock, htake⟩ := ht
    exact ⟨h.status.trans hstatus, h.length.trans hlength, h.read.trans hread, hgot,
      by rw [h.recvBuffer, hblock], by rw [h.recvBuffer, htake]⟩
  | closed => exact h.status.trans ht

variable {k j : ℕ} {h h' : Harbor} {i : HarborInput} {out : List (ℤ × List UInt8)}

private theorem sameReading_refl (s : Slave) : s.SameReading s := ⟨rfl, rfl, rfl, rfl, rfl⟩

private theorem sameReading_setSlave {s : Slave} (hs : (h.s j).SameReading s) :
    (h.s k).SameReading ((h.setSlave j s).s k) := by
  by_cases hk : k = j
  · subst hk
    rwa [Harbor.setSlave_self]
  · rw [Harbor.setSlave_of_ne h s hk]
    exact sameReading_refl _

theorem DataMove.of_ne {buffer : List UInt8} (hm : DataMove h j buffer out h') (hk : k ≠ j) :
    h'.s k = h.s k := by
  cases hm with
  | ignored _ => rfl
  | read _ _ | refused _ _ _ _ _ _ | greeted _ _ _ _ _ _ _ => exact Harbor.setSlave_of_ne h _ hk

/-- Only data and commands that connect a slave change what it is in the middle of. -/
theorem HarborMove.sameReading (hm : HarborMove h i out h')
    (hdata : ∀ message delivered, i = .socket message delivered → message.type = .data →
      slaveOf h message.id ≠ some k)
    (hconnect : ∀ msg source, i = .harbor msg source → ∀ p ∈ connects h msg, p.2.2 ≠ k) :
    (h.s k).SameReading (h'.s k) := by
  cases hm with
  | idle _ => exact sameReading_refl _
  | lost _ => exact sameReading_setSlave ⟨rfl, rfl, rfl, rfl, rfl⟩
  | data htype hid hmove =>
    have hk : k ≠ _ := fun hk ↦ hdata _ _ rfl htype (by rw [hid, hk])
    rw [hmove.of_ne hk]
    exact sameReading_refl _
  | connectS hc _ _ _ _ | connectA hc _ _ _ _ _ =>
    rw [Harbor.setSlave_of_ne h _ (Ne.symm (hconnect _ _ rfl _ hc))]
    exact sameReading_refl _
  | pending _ _ hh' _ _ =>
    rw [hh']
    exact sameReading_refl _
  | handle _ hmove =>
    cases hmove with
    | own _ | posted _ _ | refused _ _ => exact sameReading_refl _
    | stored _ _ _ hreading => exact sameReading_setSlave hreading
  | update _ hmove hh' _ _ =>
    rw [hh']
    cases hmove with
    | none _ | posted _ | refused _ _ => exact sameReading_refl _
    | own _ _ _ hreading | stored _ _ _ hreading => exact sameReading_setSlave hreading

variable {delivered : RemoteMessageHeader → Bool} {effects : List HarborEffect}

/-- A chunk that is read, even an empty one, is read as the receiver reads it. -/
theorem pushSocketData_ok {fd : ℤ} {r : Receiver UInt8} {buffer : List UInt8}
    (hid : slaveOf h fd = some k) (ht : (h.s k).Tracks r) (hfd : (h.s k).fd ≠ 0)
    (hok : pushSocketData h fd buffer delivered = .ok (effects, h')) :
    Parsed delivered h k r buffer (.ok (effects, h')) := by
  by_cases hne : buffer = []
  · subst hne
    have hloop := hok
    simp only [pushSocketData, hid] at hloop
    by_cases hr : r = .greeting
    · -- there is no first byte to be looked at
      subst hr
      rw [socketLoop_succ, socketPass, ht.1] at hloop
      cases hloop
    · have hparses : LoopParses delivered k 2 := socketLoop_parses 2
      have hparsed := hparses h r [] ht hr (by decide)
      rw [List.length_nil, Nat.zero_add] at hloop
      rwa [hloop] at hparsed
  · have hparsed := pushSocketData_parsed delivered hid ht hfd hne
    rwa [hok] at hparsed

theorem pushSocketData_of_harbor {message : SocketMessage} (htype : message.type = .data)
    (hok : harbor h (.socket message delivered) = .ok (h', effects)) :
    pushSocketData h message.id message.buffer delivered = .ok (effects, h') := by
  simp only [harbor, mainloop, socketMessage, htype] at hok
  cases hpush : pushSocketData h message.id message.buffer delivered with
  | error e => simp [hpush, Except.map] at hok
  | ok p =>
    simp only [hpush, Except.map, Except.ok.injEq, Prod.mk.injEq] at hok
    rw [← hok.1, ← hok.2]

theorem Session.Parsed.data {s : Session} {message : SocketMessage} (hs : s.Parsed k h)
    (htype : message.type = .data) (hid : slaveOf h message.id = some k) (hpos : 0 < message.id)
    (hok : harbor h (.socket message delivered) = .ok (h', effects)) :
    Session.Parsed ⟨s.start, s.bytes ++ message.buffer,
      s.forwarded ++ effects.filter HarborEffect.isForward⟩ k h' := by
  have hpush := pushSocketData_of_harbor htype hok
  have hfd : (h.s k).fd ≠ 0 := by
    have := (slaveOf_fd hid).1
    omega
  cases pushSocketData_ok hid hs.tracks hfd hpush with
  | read hlong htracks _ _ =>
    constructor
    · rw [Session.feed_append, Harbor.setSlave_self]
      exact htracks
    · rw [Session.feed_append, List.flatMap_append, hs.forwarded, List.filter_flatMap]
      refine congrArg _ (List.flatMap_congr fun notice hmem ↦ filter_respond notice ?_)
      rintro ⟨body, hbody, hlen⟩
      rw [List.mem_singleton] at hbody
      exact hlong ⟨body, by rw [hbody]; exact hmem, hlen⟩

theorem Session.Parsed.start {s : Slave} {command : UInt8} (hread : s.read = 0)
    (hS : command = 83 → s.status = .handshake) (hA : command ≠ 83 → s.status = .header) :
    Session.Parsed ⟨if command = 83 then .greeting else .header [], [], []⟩ k
      (h.setSlave k s) := by
  refine ⟨?_, ?_⟩
  · rw [Harbor.setSlave_self]
    by_cases hc : command = 83
    · simp only [Session.feed, if_pos hc, FrameFormat.feed_nil]
      exact ⟨hS hc, hread⟩
    · simp only [Session.feed, if_neg hc, FrameFormat.feed_nil]
      exact ⟨hA hc, hread, by decide, rfl⟩
  · simp only [Session.feed, FrameFormat.feed_nil, List.flatMap_nil]

theorem HarborMove.id_eq (hm : HarborMove h i out h') : h'.id = h.id := hm.id_slave.1

/-- **What a step does to the reading of a connection.** -/
theorem Session.Parsed.step {session : Option Session} (hsession : ∀ s ∈ session, s.Parsed k h)
    (hok : harbor h i = .ok (h', effects)) (hallowed : i.Allowed h) (hfresh : i.Fresh h k) :
    ∀ s ∈ Session.step k session ⟨h, i, effects, h'⟩, s.Parsed k h' := by
  have hm := harbor_move hok
  -- whatever does not read or connect for `k` leaves its reader as it is
  have hkeep : (h.s k).SameReading (h'.s k) → ∀ s ∈ session, s.Parsed k h' := by
    intro hsame s hs
    have hparsed := hsession s hs
    exact ⟨hparsed.tracks.congr hsame, by rw [hm.id_eq]; exact hparsed.forwarded⟩
  cases i with
  | socket message delivered =>
    simp only [Session.step]
    by_cases hdata : message.type = .data ∧ slaveOf h message.id = some k
    · rw [if_pos hdata]
      intro s hs
      obtain ⟨s₀, hs₀, rfl⟩ := Option.mem_map.mp hs
      exact (hsession s₀ hs₀).data hdata.1 hdata.2 hallowed hok
    · rw [if_neg hdata]
      refine hkeep (hm.sameReading ?_ ?_)
      · rintro _ _ heq htype hid
        cases heq
        exact hdata ⟨htype, hid⟩
      · intro _ _ heq
        cases heq
  | harbor msg source =>
    cases hconnects : connects h msg with
    | none =>
      simp only [Session.step, hconnects]
      refine hkeep (hm.sameReading (fun _ _ heq ↦ by cases heq) ?_)
      intro _ _ heq p hp
      cases heq
      rw [hconnects] at hp
      cases hp
    | some p =>
      obtain ⟨command, fd, j⟩ := p
      by_cases hj : j = k
      · subst hj
        simp only [Session.step, hconnects, if_true]
        -- a connection starts a session, with the counter where the last one left it
        have hread0 := hfresh _ hconnects rfl
        rintro s hs
        cases hs
        generalize sends effects = out at hm
        cases hm with
        | idle hplain => exact absurd (hconnects.symm.trans hplain.2) (by simp)
        | connectS hc _ hstatus _ hread =>
          cases hconnects.symm.trans hc
          exact Session.Parsed.start (hread.trans hread0) (fun _ ↦ hstatus)
            fun hne ↦ absurd rfl hne
        | connectA hc _ hstatus _ hne hread =>
          cases hconnects.symm.trans hc
          exact Session.Parsed.start (hread.trans hread0) (fun h83 ↦ absurd h83 hne)
            fun _ ↦ hstatus
        | update hname _ _ _ _ =>
          rw [nameUpdate_of_connects hconnects] at hname
          cases hname
      · simp only [Session.step, hconnects, if_neg hj]
        refine hkeep (hm.sameReading (fun _ _ heq ↦ by cases heq) ?_)
        intro _ _ heq p hp
        cases heq
        rw [hconnects] at hp
        cases hp
        exact hj
  | system _ _ _ | response | other _ _ _ =>
    exact hkeep (hm.sameReading (fun _ _ heq ↦ by cases heq) fun _ _ heq ↦ by cases heq)

/-! ## Runs -/

/-- The current connection of the slave is read from its first byte on, and the counts are those of
its own bytes. -/
def FromBoundary (k : ℕ) (tr : List HarborEvent) (h : Harbor) : Prop :=
  ∀ s ∈ sessionOf k tr, s.Parsed k h ∧ ((h.s k).status = .header → (h.s k).read < 4) ∧
    ((h.s k).status = .content → (h.s k).read ≤ (h.s k).length)

/-- **Connections are read on their own**, if none begins while the slave is in the middle of a
length or a body. -/
theorem reconnect_parses {id : ℕ} {slave : UInt32} {tr : List HarborEvent}
    (hrun : Run harbor (harborInit id slave) tr h)
    (hmeets : Meets (fun h i ↦ i.Allowed h ∧ i.Fresh h k) tr) : FromBoundary k tr h := by
  -- the session that is open for `k`, if one is, has parsed exactly what has come in it
  have hparsed : ∀ s ∈ sessionOf k tr, s.Parsed k h := by
    refine hrun.ledger (fun tr h ↦ ∀ s ∈ sessionOf k tr, s.Parsed k h) ?_ ?_ hmeets
    · intro s hs
      cases hs
    · intro tr h i h' effects _ ih hC hok
      rw [sessionOf, List.foldl_append]
      exact Session.Parsed.step ih hok hC.1 hC.2
  intro s hs
  exact ⟨hparsed s hs, (hparsed s hs).header, (hparsed s hs).content⟩

/-- A chunk from node 2. -/
def nodeSends (buffer : List UInt8) : HarborInput :=
  .socket ⟨.data, 5, buffer.length, buffer⟩ fun _ ↦ true

/-- `A 5 2`. -/
def nodeAccepted : HarborInput := .harbor [65, 32, 53, 32, 50] 0x01000005

/-- The connection breaks after a frame, and another one begins with part of a length. -/
theorem reconnect_parses_whole : ∃ tr h, Run harbor (harborInit 1 0x01000005) tr h ∧
    tr.length = 5 ∧ (h.s 2).read = 2 ∧ FromBoundary 2 tr h := by
  have hpasses : Passes harbor (harborInit 1 0x01000005)
      [nodeConnects, nodeSends [2, 0, 0, 0, 12, 2, 0, 0, 3, 10, 0, 0, 7, 0, 0, 0, 4], nodeBreaks,
        nodeAccepted, nodeSends [0, 0]]
      fun tr h ↦ tr.length = 5 ∧ (h.s 2).read = 2 ∧
        Meets (fun h i ↦ i.Allowed h ∧ i.Fresh h 2) tr := by decide +kernel
  obtain ⟨tr, h, hrun, hlen, hread, hmeets⟩ := Run.of_passes hpasses
  exact ⟨tr, h, hrun, hlen, hread, reconnect_parses hrun hmeets⟩

/-- The connection breaks after five bytes of a body. The slave waits for a length then, of which it
takes five bytes for read. -/
theorem not_reconnect_parses : ¬∀ tr h, Run harbor (harborInit 1 0x01000005) tr h →
    Meets HarborInput.Allowed tr → FromBoundary 2 tr h := by
  intro hall
  have hpasses : Passes harbor (harborInit 1 0x01000005)
      [nodeConnects, nodeSends [2, 0, 0, 0, 12, 2, 0, 0, 3, 10], nodeBreaks, nodeAccepted]
      fun tr h ↦ Meets HarborInput.Allowed tr ∧ (sessionOf 2 tr).isSome = true ∧
        (h.s 2).status = .header ∧ (h.s 2).read = 5 := by decide +kernel
  obtain ⟨tr, h, hrun, hmeets, hsession, hstatus, hread⟩ := Run.of_passes hpasses
  obtain ⟨s, hs⟩ := Option.isSome_iff_exists.mp hsession
  have hlt := (hall tr h hrun hmeets s hs).2.1 hstatus
  omega

end ZTask
