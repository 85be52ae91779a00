import ZTask.Harbor.Parser

/-!
# What the service hands to its sockets

For each function of the service: what it passes to `ztask_socket_send`, which slave it changes, and
how. Nothing is assumed of the state of a slave here, so data may be read as part of a frame that
another connection has begun; what is read never makes the service send, except for the first byte.

## Moves

Each function has its kind of move: `DataMove` for a chunk, `HandleMove` for a message to a handle,
`NameMove` for the messages that have waited for a name. A move says what was sent and what the
slave is like afterwards, so that the lemmas on runs go through the kinds of moves and never look at
the functions. `HarborMove` has the cases for all inputs of the service, and `harbor_move` says that
there are no others.
-/

namespace ZTask

open Lib

/-- What is handed to sockets. -/
def sends (effects : List HarborEffect) : List (ℤ × List UInt8) :=
  effects.filterMap fun
    | .socketSend fd buffer => some (fd, buffer)
    | _ => none

@[simp] theorem sends_append (as bs : List HarborEffect) :
    sends (as ++ bs) = sends as ++ sends bs := List.filterMap_append

private theorem sends_eq_nil {effects : List HarborEffect}
    (h : ∀ fd buffer, .socketSend fd buffer ∉ effects) : sends effects = [] := by
  rw [sends, List.filterMap_eq_nil_iff]
  intro e he
  cases e with
  | socketSend fd buffer => exact absurd he (h fd buffer)
  | _ => rfl

/-- The messages of a queue as they are sent over a socket; those that are too large are not. -/
def framesTo (fd : ℤ) (ms : List HarborMsg) : List (ℤ × List UInt8) :=
  (ms.filter fun m ↦ m.Fits).map fun m ↦ (fd, m.encode)

private theorem sends_sendRemote (fd : ℤ) (ms : List HarborMsg) :
    sends (ms.flatMap fun m ↦ sendRemote fd m.buffer m.header) = framesTo fd ms := by
  induction ms with
  | nil => rfl
  | cons m ms ih =>
    rw [List.flatMap_cons, sends_append, ih, sendRemote_eq, framesTo, framesTo]
    by_cases hm : m.Fits
    · rw [if_pos hm, List.filter_cons_of_pos (by simpa using hm)]
      rfl
    · rw [if_neg hm, List.filter_cons_of_neg (by simpa using hm)]
      rfl

private theorem sends_closeHarbor (h : Harbor) (id : ℕ) : sends (closeHarbor h id).1 = [] := by
  rw [closeHarbor]
  split <;> rfl

/-! ## Data -/

/-- The connection is past the first byte. -/
def Status.Settled (status : Status) : Prop :=
  status = .header ∨ status = .content ∨ status = .down

/-- A slave before and after data that does not concern its queue, unless it is given up. -/
structure Slave.Reads (s s' : Slave) : Prop where
  fd : s'.fd = s.fd
  queue : s'.queue = s.queue ∨ s'.queue = none
  settled : s'.status.Settled

/-- What a slave remembers of the bytes it has read. -/
structure Slave.SameReading (s s' : Slave) : Prop where
  status : s'.status = s.status
  read : s'.read = s.read
  length : s'.length = s.length
  size : s'.size = s.size
  recvBuffer : s'.recvBuffer = s.recvBuffer

variable {delivered : RemoteMessageHeader → Bool} {h h' : Harbor} {id : ℕ}
  {effects : List HarborEffect}

private theorem sends_forwardLocalMesssage {body : List UInt8}
    (hok : forwardLocalMesssage h delivered body = .ok effects) : sends effects = [] := by
  rw [forwardLocalMesssage] at hok
  split at hok
  · cases hok
  · split at hok
    · cases hok
    · simp only at hok
      split at hok
      · cases hok
        rfl
      · split at hok <;> cases hok <;> rfl

/-- What a pass that is not about the first byte does. -/
def PassReads (h : Harbor) (id : ℕ) (p : HarborPass) : Prop :=
  sends p.1 = [] ∧ ∃ s, p.2.1 = h.setSlave id s ∧ (h.s id).Reads s

private theorem contentPass_reads {buffer : List UInt8} {p : HarborPass}
    (hstatus : (h.s id).status.Settled) (hok : contentPass delivered h id buffer = .ok p) :
    PassReads h id p := by
  simp only [contentPass, bind, Except.bind, pure, Except.pure] at hok
  split at hok
  · cases hcopy : memcpy (h.s id).recvBuffer (h.s id).read buffer buffer.length with
    | error e => simp [hcopy] at hok
    | ok block =>
      simp only [hcopy, Except.ok.injEq] at hok
      subst hok
      exact ⟨rfl, _, rfl, rfl, Or.inl rfl, hstatus⟩
  · cases hcopy : memcpy (h.s id).recvBuffer (h.s id).read buffer
        ((h.s id).length - (h.s id).read) with
    | error e => simp [hcopy] at hok
    | ok block =>
      cases hforward : forwardLocalMesssage h delivered (block.val.take (h.s id).length) with
      | error e => simp [hcopy, hforward] at hok
      | ok effects =>
        simp only [hcopy, hforward, Except.ok.injEq] at hok
        subst hok
        exact ⟨sends_forwardLocalMesssage hforward, _, rfl, rfl, Or.inl rfl, Or.inl rfl⟩

private theorem headerPass_reads {buffer : List UInt8} {p : HarborPass}
    (hstatus : (h.s id).status.Settled) (hok : headerPass delivered h id buffer = .ok p) :
    PassReads h id p := by
  simp only [headerPass, bind, Except.bind, pure, Except.pure] at hok
  split at hok
  · cases hcopy : memcpy (h.s id).size (h.s id).read buffer buffer.length with
    | error e => simp [hcopy] at hok
    | ok block =>
      simp only [hcopy, Except.ok.injEq] at hok
      subst hok
      exact ⟨rfl, _, rfl, rfl, Or.inl rfl, hstatus⟩
  · cases hcopy : memcpy (h.s id).size (h.s id).read buffer (4 - (h.s id).read) with
    | error e => simp [hcopy] at hok
    | ok block =>
      simp only [hcopy] at hok
      split at hok
      · -- the length is too long, and the connection is closed
        simp only [Except.ok.injEq] at hok
        subst hok
        refine ⟨?_, _, Harbor.setSlave_setSlave _ _ _ _, ?_, Or.inr rfl, Or.inr (Or.inr rfl)⟩
        · exact sends_closeHarbor _ _
        · rw [Harbor.setSlave_self]
      · split at hok
        · simp only [Except.ok.injEq] at hok
          subst hok
          exact ⟨rfl, _, rfl, rfl, Or.inl rfl, Or.inr (Or.inl rfl)⟩
        · obtain ⟨hsends, s, hs, hreads⟩ := contentPass_reads
            (by rw [Harbor.setSlave_self]; exact Or.inr (Or.inl rfl)) hok
          rw [Harbor.setSlave_setSlave] at hs
          rw [Harbor.setSlave_self] at hreads
          exact ⟨hsends, s, hs, hreads.fd, hreads.queue, hreads.settled⟩

theorem Slave.Reads.trans {s s' s'' : Slave} (h₁ : s.Reads s') (h₂ : s'.Reads s'') :
    s.Reads s'' where
  fd := h₂.fd.trans h₁.fd
  queue := by
    rcases h₂.queue with heq | hnone
    · rw [heq]
      exact h₁.queue
    · exact Or.inr hnone
  settled := h₂.settled

/-- The loop goes on after a pass. -/
theorem goOn_reads {fuel : ℕ} {p : HarborPass} (hp : PassReads h id p)
    (ih : ∀ {h h' : Harbor} {effects : List HarborEffect} {buffer : List UInt8},
      (h.s id).status.Settled → socketLoop delivered id fuel h buffer = .ok (effects, h') →
      sends effects = [] ∧ ∃ s, h' = h.setSlave id s ∧ (h.s id).Reads s)
    (hok : goOn delivered id fuel p = .ok (effects, h')) :
    sends effects = [] ∧ ∃ s, h' = h.setSlave id s ∧ (h.s id).Reads s := by
  obtain ⟨effects₁, h₁, rest⟩ := p
  obtain ⟨hsends, s, hs, hreads⟩ := hp
  cases rest with
  | none =>
    cases hok
    exact ⟨hsends, s, hs, hreads⟩
  | some rest =>
    simp only [goOn] at hok
    simp only at hs hsends
    cases hloop : socketLoop delivered id fuel h₁ rest with
    | error e =>
      rw [hloop] at hok
      cases hok
    | ok q =>
      rw [hloop] at hok
      cases hok
      subst hs
      obtain ⟨hsends', s', hs', hreads'⟩ := ih (by
        rw [Harbor.setSlave_self]
        exact hreads.settled) hloop
      rw [Harbor.setSlave_setSlave] at hs'
      rw [Harbor.setSlave_self] at hreads'
      exact ⟨by rw [sends_append, hsends, hsends']; rfl, s', hs', hreads.trans hreads'⟩

theorem socketLoop_reads {fuel : ℕ} {buffer : List UInt8} (hstatus : (h.s id).status.Settled)
    (hok : socketLoop delivered id fuel h buffer = .ok (effects, h')) :
    sends effects = [] ∧ ∃ s, h' = h.setSlave id s ∧ (h.s id).Reads s := by
  induction fuel generalizing h h' buffer effects with
  | zero => cases hok
  | succ fuel ih =>
    rw [socketLoop_succ] at hok
    have hpass : ∀ p, socketPass delivered h id buffer = .ok p → PassReads h id p := by
      intro p hp
      rw [socketPass] at hp
      rcases hstatus with hs | hs | hs
      · rw [hs] at hp
        exact headerPass_reads (Or.inl hs) hp
      · rw [hs] at hp
        exact contentPass_reads (Or.inr (Or.inl hs)) hp
      · rw [hs] at hp
        cases hp
        exact ⟨rfl, h.s id, (Harbor.setSlave_eta h id).symm, rfl, Or.inl rfl, Or.inr (Or.inr hs)⟩
    cases hp : socketPass delivered h id buffer with
    | error e =>
      rw [hp] at hok
      cases hok
    | ok p =>
      rw [hp] at hok
      exact goOn_reads (hpass p hp) ih hok

/-- What a chunk for the slave `id` does. -/
inductive DataMove (h : Harbor) (id : ℕ) (buffer : List UInt8) :
    List (ℤ × List UInt8) → Harbor → Prop
  | ignored : (h.s id).status = .wait → DataMove h id buffer [] h
  | read {s : Slave} : (h.s id).status.Settled → (h.s id).Reads s →
      DataMove h id buffer [] (h.setSlave id s)
  | refused {b : UInt8} {s : Slave} : (h.s id).status = .handshake → buffer.head? = some b →
      b.toNat ≠ id → s.fd = (h.s id).fd → s.queue = none → s.status = .down →
      DataMove h id buffer [] (h.setSlave id s)
  | greeted {b : UInt8} {s : Slave} : (h.s id).status = .handshake → buffer.head? = some b →
      b.toNat = id → (h.s id).fd ≠ 0 → s.fd = (h.s id).fd → s.queue = none → s.status.Settled →
      DataMove h id buffer (framesTo (h.s id).fd (queued (h.s id).queue)) (h.setSlave id s)

/-- The first byte, and what may follow it in the chunk. -/
theorem handshakePass_move {fuel : ℕ} {b : UInt8} {rest : List UInt8}
    (hstatus : (h.s id).status = .handshake)
    (hok : (handshakePass delivered h id (b :: rest)).bind (goOn delivered id fuel) =
      .ok (effects, h')) :
    DataMove h id (b :: rest) (sends effects) h' := by
  simp only [handshakePass] at hok
  by_cases hb : b.toNat = id
  · rw [if_neg (not_not_intro hb)] at hok
    by_cases hfd : (h.s id).fd = 0
    · simp [dispatchQueue, hfd, bind, Except.bind] at hok
    have hdispatch := dispatchQueue_ok
      (h := h.setSlave id { h.s id with status := .header }) id (by
        rw [Harbor.setSlave_self]
        exact hfd)
    rw [Harbor.setSlave_self, Harbor.setSlave_setSlave] at hdispatch
    rw [hdispatch] at hok
    simp only [bind, Except.bind, pure, Except.pure] at hok
    -- the rest is read from a slave that is past the first byte, and sends nothing
    obtain ⟨h₁, hh₁⟩ : ∃ h₁, h₁ = h.setSlave id { h.s id with status := .header, queue := none } :=
      ⟨_, rfl⟩
    rw [← hh₁] at hok
    have hsettled : (h₁.s id).status.Settled := by
      rw [hh₁, Harbor.setSlave_self]
      exact Or.inl rfl
    have hrest : ∃ p, PassReads h₁ id p ∧ (goOn delivered id fuel p).map (fun q ↦
        ((queued (h.s id).queue).flatMap (fun m ↦ sendRemote (h.s id).fd m.buffer m.header) ++ q.1,
          q.2)) = .ok (effects, h') := by
      by_cases hnil : rest = []
      · refine ⟨([], h₁, some []), ?_, ?_⟩
        · exact ⟨rfl, h₁.s id, (Harbor.setSlave_eta h₁ id).symm, rfl, Or.inl rfl, hsettled⟩
        · rw [← goOn_append, List.append_nil]
          simpa only [if_pos hnil] using hok
      · simp only [if_neg hnil] at hok
        cases hpass : headerPass delivered h₁ id rest with
        | error e => simp [hpass] at hok
        | ok p =>
          simp only [hpass] at hok
          refine ⟨p, headerPass_reads hsettled hpass, ?_⟩
          rw [← goOn_append]
          exact hok
    obtain ⟨p, hreads, hp⟩ := hrest
    cases hgo : goOn delivered id fuel p with
    | error e =>
      rw [hgo] at hp
      cases hp
    | ok q =>
      rw [hgo] at hp
      cases hp
      obtain ⟨hsends, s, hs, hread⟩ := goOn_reads hreads socketLoop_reads hgo
      have hqueue : s.queue = none := by
        rcases hread.queue with heq | hnone
        · rw [heq, hh₁, Harbor.setSlave_self]
        · exact hnone
      have hfd' : s.fd = (h.s id).fd := by rw [hread.fd, hh₁, Harbor.setSlave_self]
      rw [sends_append, sends_sendRemote, hsends, List.append_nil, hs, hh₁,
        Harbor.setSlave_setSlave]
      exact DataMove.greeted hstatus rfl hb hfd hfd' hqueue hread.settled
  · rw [if_pos hb] at hok
    cases hok
    have hsends : sends (.error (.invalidShakehand id (h.s id).fd b) ::
        (closeHarbor h id).1) = [] :=
      sends_closeHarbor h id
    rw [hsends]
    exact DataMove.refused hstatus rfl hb rfl rfl rfl

theorem pushSocketData_move {fd : ℤ} {buffer : List UInt8} (hid : slaveOf h fd = some id)
    (hok : pushSocketData h fd buffer delivered = .ok (effects, h')) :
    DataMove h id buffer (sends effects) h' := by
  simp only [pushSocketData, hid] at hok
  have hsettled : (h.s id).status.Settled → DataMove h id buffer (sends effects) h' := by
    intro hs
    obtain ⟨hsends, s, rfl, hreads⟩ := socketLoop_reads hs hok
    rw [hsends]
    exact DataMove.read hs hreads
  cases hstatus : (h.s id).status with
  | wait =>
    rw [socketLoop_succ, socketPass, hstatus] at hok
    cases hok
    exact DataMove.ignored hstatus
  | handshake =>
    rw [socketLoop_succ, socketPass, hstatus] at hok
    cases buffer with
    | nil => cases hok
    | cons b rest => exact handshakePass_move hstatus hok
  | header => exact hsettled (Or.inl hstatus)
  | content => exact hsettled (Or.inr (Or.inl hstatus))
  | down => exact hsettled (Or.inr (Or.inr hstatus))

/-! ## Messages to other nodes -/

/-- A message as it is before its destination is known. -/
def rawMsg (source type session : UInt32) (msg : List UInt8) : HarborMsg :=
  ⟨⟨source, type <<< handleRemoteShift32, session⟩, msg⟩

/-- The service of a handle is written into the destination. -/
def HarborMsg.addressed (handle : UInt32) (m : HarborMsg) : HarborMsg :=
  { m with header.destination := m.header.destination ||| (handle &&& handleMask32) }

/-- What becomes of a message to a handle of the node `k`. -/
inductive HandleMove (h : Harbor) (k : ℕ) (m : HarborMsg) : List (ℤ × List UInt8) → Harbor → Prop
  | own : k = h.id → HandleMove h k m [] h
  | posted : (h.s k).fd ≠ 0 → (h.s k).status ≠ .handshake →
      HandleMove h k m (framesTo (h.s k).fd [m]) h
  | stored {s : Slave} : (h.s k).fd = 0 ∨ (h.s k).status = .handshake →
      queued s.queue = queued (h.s k).queue ++ [m] → s.fd = (h.s k).fd →
      (h.s k).SameReading s → HandleMove h k m [] (h.setSlave k s)
  | refused : (h.s k).fd = 0 ∨ (h.s k).status = .handshake → (h.s k).status = .down →
      HandleMove h k m [] h

private theorem remoteSendHandle_move (h : Harbor) (source destination type session : UInt32)
    (msg : List UInt8) :
    HandleMove h (harborOf destination) ((rawMsg source type session msg).addressed destination)
      (sends (remoteSendHandle h source destination type session msg).1)
      (remoteSendHandle h source destination type session msg).2 := by
  simp only [remoteSendHandle]
  split
  · exact HandleMove.own ‹_›
  · split
    next hwait =>
      split
      · exact HandleMove.refused hwait ‹_›
      · refine HandleMove.stored hwait ?_ rfl ⟨rfl, rfl, rfl, rfl, rfl⟩
        simp only [queued_some, toList_pushQueue]
        cases (h.s (harborOf destination)).queue with
        | none => rw [Option.getD_none, toList_newQueue]; rfl
        | some queue => rfl
    next hwait =>
      rw [not_or] at hwait
      -- the two halves of the destination are put together the other way round here
      have hm : ((rawMsg source type session msg).addressed destination) =
          ⟨⟨source, (destination &&& handleMask32) ||| (type <<< handleRemoteShift32), session⟩,
            msg⟩ := by
        simp only [HarborMsg.addressed, rawMsg, UInt32.or_comm]
      have hsends := sends_sendRemote (h.s (harborOf destination)).fd
        [(rawMsg source type session msg).addressed destination]
      rw [List.flatMap_singleton, hm] at hsends
      rw [hsends, ← hm]
      exact HandleMove.posted hwait.1 hwait.2

/-- What becomes of the messages `ms` to a name when its handle, on the node `k`, is known. -/
inductive NameMove (h : Harbor) (k : ℕ) (handle : UInt32) (ms : List HarborMsg) :
    List (ℤ × List UInt8) → Harbor → Prop
  | none : ms = [] → NameMove h k handle ms [] h
  | own {s : Slave} : k = harborOf h.slave → s.queue = .none → s.fd = (h.s k).fd →
      (h.s k).SameReading s → NameMove h k handle ms [] (h.setSlave k s)
  | posted : (h.s k).fd ≠ 0 →
      NameMove h k handle ms (framesTo (h.s k).fd (ms.map (HarborMsg.addressed handle))) h
  | stored {s : Slave} : (h.s k).fd = 0 → queued s.queue = queued (h.s k).queue ++ ms →
      s.fd = (h.s k).fd → (h.s k).SameReading s → NameMove h k handle ms [] (h.setSlave k s)
  | refused : (h.s k).fd = 0 → (h.s k).status = .down → NameMove h k handle ms [] h

private theorem toList_movedQueue (waiting : Option HarborMsgQueue) (queue : HarborMsgQueue) :
    queued (some (movedQueue waiting queue)) = queued waiting ++ queue.toList := by
  cases waiting with
  | none => rfl
  | some waiting =>
    rw [queued_some, movedQueue, toList_foldl_pushQueueMsg, popAll_fst, queued_some]

private theorem dispatchNameQueue_move (h : Harbor) (node : KeyValue) (queue : HarborMsgQueue) :
    NameMove h (harborOf node.value) node.value queue.toList
      (sends (dispatchNameQueue h node queue).1) (dispatchNameQueue h node queue).2 := by
  simp only [dispatchNameQueue]
  split
  next hfd =>
    split
    · exact NameMove.refused hfd ‹_›
    · split
      · have hsends : ∀ ms : List HarborMsg, sends (ms.map fun m ↦ .send m.header.source node.value
            ((m.header.destination >>> handleRemoteShift32) ||| ptypeTagDontcopy) m.header.session
            m.buffer) = [] := by
          intro ms
          apply sends_eq_nil
          intro fd buffer hmem
          obtain ⟨m, -, hm⟩ := List.mem_map.mp hmem
          cases hm
        simp only [hsends]
        exact NameMove.own ‹_› rfl rfl ⟨rfl, rfl, rfl, rfl, rfl⟩
      · exact NameMove.stored hfd (toList_movedQueue _ _) rfl ⟨rfl, rfl, rfl, rfl, rfl⟩
  next =>
    have hsends := sends_sendRemote (h.s (harborOf node.value)).fd
      (queue.toList.map (HarborMsg.addressed node.value))
    rw [List.flatMap_map] at hsends
    rw [popAll_fst]
    have heq : (sends (queue.toList.flatMap fun m ↦ sendRemote (h.s (harborOf node.value)).fd
        m.buffer { m.header with
          destination := m.header.destination ||| (node.value &&& handleMask32) })) =
        framesTo (h.s (harborOf node.value)).fd
          (queue.toList.map (HarborMsg.addressed node.value)) := hsends
    rw [heq]
    exact NameMove.posted ‹_›

/-- **An `N` command.** The messages that wait for the name are dealt with, and the handle of the
name is known from then on. -/
theorem updateName_move (h : Harbor) (name : GlobalName) (handle : UInt32) :
    ∃ h₁, NameMove h (harborOf handle) handle (pendingOf h.map name.id)
        (sends (updateName h name handle).1) h₁ ∧
      (updateName h name handle).2 = { h₁ with map := (updateName h name handle).2.map } ∧
      (∀ id, valueOf (updateName h name handle).2.map id =
        if name.id = id then handle else valueOf h.map id) ∧
      ∀ id, pendingOf (updateName h name handle).2.map id =
        if name.id = id then [] else pendingOf h.map id := by
  obtain ⟨hkey, -, hpending⟩ := searchOrInsert_fst h.map name
  cases hqueue : (searchOrInsert h.map name).1.queue with
  | none =>
    simp only [updateName, hqueue]
    rw [hqueue, queued_none] at hpending
    refine ⟨h, NameMove.none hpending.symm, rfl, fun id ↦ ?_, fun id ↦ ?_⟩
    · exact valueOf_replace ⟨(searchOrInsert h.map name).1.key, handle, none⟩ hkey id
    · exact pendingOf_replace ⟨(searchOrInsert h.map name).1.key, handle, none⟩ hkey id
  | some queue =>
    simp only [updateName, hqueue]
    rw [hqueue, queued_some] at hpending
    have hmove := dispatchNameQueue_move h
      { (searchOrInsert h.map name).1 with value := handle } queue
    rw [hpending] at hmove
    refine ⟨_, hmove, rfl, fun id ↦ ?_, fun id ↦ ?_⟩
    · exact valueOf_replace ⟨(searchOrInsert h.map name).1.key, handle, none⟩ hkey id
    · exact pendingOf_replace ⟨(searchOrInsert h.map name).1.key, handle, none⟩ hkey id

/-- A message to a name that is not known waits for it. -/
theorem remoteSendName_pending {h : Harbor} {name : GlobalName} (source type session : UInt32)
    (msg : List UInt8) (hvalue : valueOf h.map name.id = 0) :
    sends (remoteSendName h source name type session msg).1 = [] ∧
      (remoteSendName h source name type session msg).2 =
        { h with map := (remoteSendName h source name type session msg).2.map } ∧
      (∀ id, valueOf (remoteSendName h source name type session msg).2.map id =
        valueOf h.map id) ∧
      ∀ id, pendingOf (remoteSendName h source name type session msg).2.map id =
        if name.id = id then pendingOf h.map id ++ [rawMsg source type session msg]
        else pendingOf h.map id := by
  obtain ⟨hkey, hval, hpending⟩ := searchOrInsert_fst h.map name
  simp only [remoteSendName, if_pos (hval.trans hvalue)]
  refine ⟨rfl, trivial, fun id ↦ ?_, fun id ↦ ?_⟩
  · rw [valueOf_replace _ (by exact hkey)]
    by_cases hid : name.id = id
    · rw [if_pos hid, ← hid]
      exact hval
    · rw [if_neg hid]
  · rw [pendingOf_replace _ (by exact hkey)]
    by_cases hid : name.id = id
    · rw [if_pos hid, if_pos hid, ← hid, ← hpending]
      simp only [queued_some, toList_pushQueue]
      cases (searchOrInsert h.map name).1.queue with
      | none => rw [Option.getD_none, toList_newQueue]; rfl
      | some queue => rfl
    · rw [if_neg hid, if_neg hid]

theorem remoteSendName_known {h : Harbor} {name : GlobalName} (source type session : UInt32)
    (msg : List UInt8) (hvalue : valueOf h.map name.id ≠ 0) :
    remoteSendName h source name type session msg =
      remoteSendHandle h source (valueOf h.map name.id) type session msg := by
  obtain ⟨-, hval, -⟩ := searchOrInsert_fst h.map name
  have hmap : (searchOrInsert h.map name).2 = h.map := by
    rw [searchOrInsert, hashSearch]
    rw [valueOf] at hvalue
    cases hfind : names.find? h.map name.id with
    | none => simp [hfind] at hvalue
    | some node => rfl
  simp only [remoteSendName, hval, if_neg hvalue, hmap]

/-! ## Commands -/

/-- What an `S` or `A` command that is carried out does. -/
theorem connectSlave_move {h h' : Harbor} {command : UInt8} {fd : ℤ} {id : ℕ}
    {effects : List HarborEffect} (hok : connectSlave h command fd id = .ok (effects, h')) :
    ∃ s : Slave, h' = h.setSlave id s ∧ s.fd = fd ∧ s.read = (h.s id).read ∧
      (command = 83 ∧ s.status = .handshake ∧ s.queue = (h.s id).queue ∧
          sends effects = [(fd, [UInt8.ofNat h.id])] ∨
        command ≠ 83 ∧ s.status = .header ∧ s.queue = none ∧
          sends effects = (fd, [UInt8.ofNat h.id]) :: framesTo fd (queued (h.s id).queue)) := by
  simp only [connectSlave] at hok
  by_cases hcommand : command = 83
  · rw [if_pos hcommand] at hok
    cases hok
    refine ⟨_, Harbor.setSlave_setSlave _ _ _ _, ?_, ?_, Or.inl ⟨hcommand, rfl, ?_, ?_⟩⟩
    · rw [Harbor.setSlave_self]
    · rw [Harbor.setSlave_self]
    · rw [Harbor.setSlave_self]
    · simp [sends, harborHandshake]
  · rw [if_neg hcommand] at hok
    rw [Harbor.setSlave_self, Harbor.setSlave_setSlave] at hok
    by_cases hfd : fd = 0
    · simp [dispatchQueue, hfd, bind, Except.bind] at hok
    have hdispatch := dispatchQueue_ok
      (h := h.setSlave id { h.s id with fd := fd, status := .header }) id (by
        rw [Harbor.setSlave_self]
        exact hfd)
    rw [Harbor.setSlave_self, Harbor.setSlave_setSlave] at hdispatch
    rw [hdispatch] at hok
    cases hok
    refine ⟨_, rfl, rfl, rfl, Or.inr ⟨hcommand, rfl, rfl, ?_⟩⟩
    rw [sends_append, sends_sendRemote]
    simp [sends, harborHandshake]

/-! ## All messages -/

/-- The name of an `N` command that is carried out. -/
def nameUpdate (msg : List UInt8) : Option GlobalName :=
  if msg.head? = some 78 then commandName msg else none

/-- The command letter, the socket and the slave of an `S` or `A` command that is carried out. -/
def connects (h : Harbor) (msg : List UInt8) : Option (UInt8 × ℤ × ℕ) :=
  match msg.head? with
  | none => none
  | some command =>
    if command = 83 ∨ command = 65 then
      if msg.length < 2 then none else (acceptedConnect h msg).map fun p ↦ (command, p)
    else none

/-- Neither a message to another node nor a command that is carried out. -/
def HarborInput.Plain (h : Harbor) : HarborInput → Prop
  | .system _ _ _ => False
  | .harbor msg _ => nameUpdate msg = none ∧ connects h msg = none
  | _ => True

/-- The handle a message to another node goes to; 0 if it is to a name that is not known. -/
def RemoteMessage.target (h : Harbor) (rmsg : RemoteMessage) : UInt32 :=
  if rmsg.handle = 0 then valueOf h.map rmsg.name.id else rmsg.handle

/-- What the service does with a message, as far as its sockets and its slaves are concerned. -/
inductive HarborMove (h : Harbor) : HarborInput → List (ℤ × List UInt8) → Harbor → Prop
  | idle {i : HarborInput} : i.Plain h → HarborMove h i [] h
  | lost {message : SocketMessage} {delivered : RemoteMessageHeader → Bool} {id : ℕ} :
      slaveOf h message.id = some id →
      HarborMove h (.socket message delivered) [] (h.setSlave id { h.s id with fd := -1 })
  | data {message : SocketMessage} {delivered : RemoteMessageHeader → Bool} {id : ℕ}
      {out : List (ℤ × List UInt8)} {h' : Harbor} : message.type = .data →
      slaveOf h message.id = some id → DataMove h id message.buffer out h' →
      HarborMove h (.socket message delivered) out h'
  | connectS {msg : List UInt8} {source : UInt32} {fd : ℤ} {id : ℕ} {s : Slave} :
      connects h msg = some (83, fd, id) → s.fd = fd → s.status = .handshake →
      s.queue = (h.s id).queue → s.read = (h.s id).read →
      HarborMove h (.harbor msg source) [(fd, [UInt8.ofNat h.id])] (h.setSlave id s)
  | connectA {msg : List UInt8} {source : UInt32} {command : UInt8} {fd : ℤ} {id : ℕ} {s : Slave} :
      connects h msg = some (command, fd, id) → s.fd = fd → s.status = .header → s.queue = none →
      command ≠ 83 → s.read = (h.s id).read →
      HarborMove h (.harbor msg source)
        ((fd, [UInt8.ofNat h.id]) :: framesTo fd (queued (h.s id).queue)) (h.setSlave id s)
  | pending {rmsg : RemoteMessage} {session source : UInt32} {h' : Harbor} : rmsg.handle = 0 →
      valueOf h.map rmsg.name.id = 0 → h' = { h with map := h'.map } →
      (∀ id, valueOf h'.map id = valueOf h.map id) →
      (∀ id, pendingOf h'.map id = if rmsg.name.id = id then
        pendingOf h.map id ++ [rawMsg source rmsg.type session rmsg.message]
        else pendingOf h.map id) →
      HarborMove h (.system rmsg session source) [] h'
  | handle {rmsg : RemoteMessage} {session source : UInt32} {out : List (ℤ × List UInt8)}
      {h' : Harbor} : (rmsg.handle = 0 → valueOf h.map rmsg.name.id ≠ 0) →
      HandleMove h (harborOf (rmsg.target h))
        ((rawMsg source rmsg.type session rmsg.message).addressed (rmsg.target h)) out h' →
      HarborMove h (.system rmsg session source) out h'
  | update {msg : List UInt8} {source : UInt32} {name : GlobalName} {out : List (ℤ × List UInt8)}
      {h₁ h' : Harbor} : nameUpdate msg = some name →
      NameMove h (harborOf source) source (pendingOf h.map name.id) out h₁ →
      h' = { h₁ with map := h'.map } →
      (∀ id, valueOf h'.map id = if name.id = id then source else valueOf h.map id) →
      (∀ id, pendingOf h'.map id = if name.id = id then [] else pendingOf h.map id) →
      HarborMove h (.harbor msg source) out h'

private theorem socketMessage_move {h h' : Harbor} {message : SocketMessage}
    {delivered : RemoteMessageHeader → Bool} {effects : List HarborEffect}
    (hok : socketMessage h message delivered = .ok (effects, h')) :
    HarborMove h (.socket message delivered) (sends effects) h' := by
  have hlost : (if harborId h message.id ≠ 0 then
        Except.ok (reportHarborDown h (harborId h message.id))
      else Except.ok ([.error (.unknownFd message.id)], h) : Except HarborFault HarborStep) =
        .ok (effects, h') → HarborMove h (.socket message delivered) (sends effects) h' := by
    intro hclose
    rw [harborId] at hclose
    cases hid : slaveOf h message.id with
    | none =>
      rw [hid, Option.getD_none, if_neg (not_not_intro rfl)] at hclose
      cases hclose
      exact HarborMove.idle trivial
    | some id =>
      have hne : id ≠ 0 := by
        have hmem := List.mem_of_find?_eq_some hid
        rw [List.mem_range'_1] at hmem
        omega
      rw [hid, Option.getD_some, if_pos hne] at hclose
      cases hclose
      exact HarborMove.lost hid
  rw [socketMessage] at hok
  cases htype : message.type with
  | data =>
    rw [htype] at hok
    cases hid : slaveOf h message.id with
    | none =>
      simp only [pushSocketData, hid] at hok
      cases hok
      exact HarborMove.idle trivial
    | some id => exact HarborMove.data htype hid (pushSocketData_move hid hok)
  | close | error =>
    rw [htype] at hok
    exact hlost hok
  | connect | other =>
    rw [htype] at hok
    cases hok
    exact HarborMove.idle trivial
  | warning =>
    rw [htype] at hok
    simp only at hok
    split at hok <;> cases hok <;> exact HarborMove.idle trivial

private theorem systemMessage_move (h : Harbor) (rmsg : RemoteMessage) (session source : UInt32) :
    HarborMove h (.system rmsg session source) (sends (systemMessage h rmsg session source).1)
      (systemMessage h rmsg session source).2 := by
  rw [systemMessage]
  by_cases hhandle : rmsg.handle = 0
  · rw [if_pos hhandle]
    by_cases hvalue : valueOf h.map rmsg.name.id = 0
    · obtain ⟨hsends, hh', hvalues, hpendings⟩ :=
        remoteSendName_pending source rmsg.type session rmsg.message hvalue
      rw [hsends]
      exact HarborMove.pending hhandle hvalue hh' hvalues hpendings
    · rw [remoteSendName_known source rmsg.type session rmsg.message hvalue]
      refine HarborMove.handle (fun _ ↦ hvalue) ?_
      rw [RemoteMessage.target, if_pos hhandle]
      exact remoteSendHandle_move _ _ _ _ _ _
  · rw [if_neg hhandle]
    refine HarborMove.handle (fun h0 ↦ absurd h0 hhandle) ?_
    rw [RemoteMessage.target, if_neg hhandle]
    exact remoteSendHandle_move _ _ _ _ _ _

private theorem harborCommand_move {h h' : Harbor} {msg : List UInt8} {source : UInt32}
    {effects : List HarborEffect} (hok : harborCommand h msg source = .ok (effects, h')) :
    HarborMove h (.harbor msg source) (sends effects) h' := by
  rw [harborCommand] at hok
  cases hhead : msg.head? with
  | none =>
    rw [hhead] at hok
    cases hok
  | some command =>
    rw [hhead] at hok
    simp only at hok
    -- the three commands of the harbor: `N` for a name, `S` and `A` for a connection
    by_cases hN : command = 78
    · subst hN
      rw [if_pos rfl] at hok
      cases hname : commandName msg with
      | none =>
        rw [hname] at hok
        cases hok
        exact HarborMove.idle ⟨by simp [nameUpdate, hname], by simp [connects, hhead]⟩
      | some name =>
        rw [hname] at hok
        obtain ⟨h₁, hmove, hh', hvalues, hpendings⟩ := updateName_move h name source
        simp only [Except.ok.injEq] at hok
        rw [hok] at hmove hh' hvalues hpendings
        exact HarborMove.update (by simp [nameUpdate, hhead, hname]) hmove hh' hvalues hpendings
    · have hnot : nameUpdate msg = none := by simp [nameUpdate, hhead, hN]
      rw [if_neg hN] at hok
      by_cases hSA : command = 83 ∨ command = 65
      · rw [if_pos hSA, connectCommand] at hok
        split at hok
        next => cases hok
        next hlen =>
          cases haccept : acceptedConnect h msg with
          | none =>
            -- a connection for a harbor that has one, or for none, is refused and changes nothing
            have hrefused : sends (refusedConnect h command msg).1 = [] ∧
                (refusedConnect h command msg).2 = h := by
              rw [refusedConnect]
              split <;> exact ⟨rfl, rfl⟩
            rw [haccept] at hok
            simp only [Except.ok.injEq] at hok
            rw [hok] at hrefused
            obtain ⟨hsends, rfl⟩ := hrefused
            rw [hsends]
            exact HarborMove.idle ⟨hnot, by simp [connects, hhead, haccept]⟩
          | some p =>
            obtain ⟨fd, id⟩ := p
            rw [haccept] at hok
            obtain ⟨s, rfl, hfd, hread, hS | hA⟩ := connectSlave_move hok
            · obtain ⟨rfl, hstatus, hqueue, hsends⟩ := hS
              rw [hsends]
              have hconnects : connects h msg = some (83, fd, id) := by
                simp [connects, hhead, hlen, haccept]
              exact HarborMove.connectS hconnects hfd hstatus hqueue hread
            · obtain ⟨hne, hstatus, hqueue, hsends⟩ := hA
              rw [hsends]
              have hconnects : connects h msg = some (command, fd, id) := by
                simp [connects, hhead, hlen, haccept, hSA]
              exact HarborMove.connectA hconnects hfd hstatus hqueue hne hread
      · rw [if_neg hSA] at hok
        cases hok
        exact HarborMove.idle ⟨hnot, by simp [connects, hhead, hSA]⟩

/-- **Whatever the message, the service does one of these things.** -/
theorem harbor_move {h h' : Harbor} {i : HarborInput} {effects : List HarborEffect}
    (hok : harbor h i = .ok (h', effects)) : HarborMove h i (sends effects) h' := by
  have hmain : mainloop h i = .ok (effects, h') := by
    rw [harbor] at hok
    cases hm : mainloop h i with
    | error e => rw [hm] at hok; cases hok
    | ok p =>
      rw [hm] at hok
      simp only [Except.map, Except.ok.injEq, Prod.mk.injEq] at hok
      rw [← hok.1, ← hok.2]
  cases i with
  | socket message delivered => exact socketMessage_move hmain
  | harbor msg source => exact harborCommand_move hmain
  | system rmsg session source =>
    have hmove := systemMessage_move h rmsg session source
    simp only [mainloop, Except.ok.injEq] at hmain
    rwa [hmain] at hmove
  | response =>
    cases hmain
    exact HarborMove.idle trivial
  | other type session source =>
    cases hmain
    have hsends : sends (otherMessage h type session source).1 = [] := by
      rw [otherMessage]
      split <;> rfl
    change HarborMove h _ (sends (otherMessage h type session source).1) h
    rw [hsends]
    exact HarborMove.idle trivial

end ZTask
