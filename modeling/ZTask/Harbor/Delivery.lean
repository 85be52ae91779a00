import ZTask.Harbor.Ledger

/-!
# What reaches the other nodes

For each other node the service is an outgoing line: every step of it is a move of an outbox
(`HarborMove.accounted`), unless a message comes for a node whose connection is gone. So whatever
the order of names, connections and first bytes, what is accepted for a node is handed to its
connection or waits for it (`Line.step`, and `run_line` for whole runs).

Three things go wrong. A name that becomes known before its node is connected leaves its messages
without the service they are for; a name that becomes known before the first byte has come lets its
messages overtake those that wait for the node; and what comes for a node whose connection is gone
is handed to a socket that is not there.
-/

namespace ZTask

open Lib

/-! ## Lines -/

/-- The connection has failed, was closed by the other side, or has been given up. -/
def Slave.Gone (s : Slave) : Prop := s.fd < 0 ∨ s.status = .down

instance Slave.decidableGone (s : Slave) : Decidable s.Gone :=
  inferInstanceAs (Decidable (s.fd < 0 ∨ s.status = .down))

/-- Another node than the service's own. -/
structure Harbor.Remote (h : Harbor) (k : ℕ) : Prop where
  pos : 0 < k
  lt : k < remoteMax
  ne_id : k ≠ h.id
  ne_slave : k ≠ harborOf h.slave

/-- What is stored for a node, without what is too large to be sent. -/
def waitingFor (h : Harbor) (k : ℕ) : List HarborMsg :=
  (queued (h.s k).queue).filter fun m ↦ m.Fits

/-- A message that lacks the service it is for. -/
def HarborMsg.unaddressed (m : HarborMsg) : HarborMsg :=
  { m with header.destination := m.header.destination &&& ~~~handleMask32 }

/-- What may have become of the message `m` while it waited. -/
def HarborMsg.Carries (m' m : HarborMsg) : Prop := m' = m ∨ m' = m.unaddressed

instance : Std.Refl HarborMsg.Carries := ⟨fun _ ↦ Or.inl rfl⟩

/-- A step of the service, in the trace of a run. -/
abbrev HarborEvent := Event Harbor HarborInput (List HarborEffect)

/-- The frames handed to the connection of a node in a step; the first byte is not one. What is
handed to a connection that is gone, and stays so, reaches nobody. -/
def framesOn (k : ℕ) (h h' : Harbor) (out : List (ℤ × List UInt8)) : List (List UInt8) :=
  if (h.s k).Gone ∧ (h'.s k).Gone then []
  else (out.filter fun p ↦ p.1 = (h'.s k).fd ∧ 1 < p.2.length).map Prod.snd

/-- All frames handed to the connections of a node. -/
def transmitted (k : ℕ) (tr : List HarborEvent) : List (List UInt8) :=
  tr.flatMap fun e ↦ framesOn k e.pre e.post (sends e.output)

def ledger (tr : List HarborEvent) : HarborLedger := tr.foldl (fun l e ↦ l.step e.input) .empty

/-- What is accepted for a node, without what is too large to be sent. -/
def acceptedFor (tr : List HarborEvent) (k : ℕ) : List HarborMsg :=
  ((ledger tr).accepted k).filter fun m ↦ m.Fits

/-! ## Conditions on a step -/

/-- No message is lost over a connection that is gone: none comes for a node whose connection is
gone unless it is stored, and none is stored for a node whose first byte is wrong. -/
def HarborInput.Kept (h : Harbor) (k : ℕ) : HarborInput → Prop
  | system rmsg _ _ => harborOf (rmsg.target h) = k → (h.s k).Gone → (h.s k).status = .handshake
  | harbor msg source => harborOf source = k → (h.s k).Gone →
      ∀ name ∈ nameUpdate msg, pendingOf h.map name.id = []
  | socket message _ => slaveOf h message.id = some k → message.type = .data →
      (h.s k).status = .handshake →
      ∀ b ∈ message.buffer.head?, b.toNat ≠ k → queued (h.s k).queue = []
  | _ => True

/-- No name becomes known, for which messages wait, before its node is connected; or it is the name
of the service 0, which no service is. -/
def HarborInput.Exact (h : Harbor) (k : ℕ) : HarborInput → Prop
  | harbor msg source => harborOf source = k →
      ∀ name ∈ nameUpdate msg, pendingOf h.map name.id = [] ∨ (h.s k).fd ≠ 0 ∨
        source &&& handleMask32 = 0
  | _ => True

/-- No name becomes known, for which messages wait, between the connection of its node and the first
byte from there, while other messages wait for the node. -/
def HarborInput.InOrder (h : Harbor) (k : ℕ) : HarborInput → Prop
  | harbor msg source => harborOf source = k → (h.s k).status = .handshake →
      ∀ name ∈ nameUpdate msg, pendingOf h.map name.id = [] ∨ queued (h.s k).queue = []
  | _ => True

instance HarborInput.decidableKept (h : Harbor) (k : ℕ) :
    ∀ i : HarborInput, Decidable (i.Kept h k)
  | .system rmsg _ _ => inferInstanceAs (Decidable (harborOf (rmsg.target h) = k →
      (h.s k).Gone → (h.s k).status = .handshake))
  | .harbor msg source => inferInstanceAs (Decidable (harborOf source = k → (h.s k).Gone →
      ∀ name ∈ nameUpdate msg, pendingOf h.map name.id = []))
  | .socket message _ => inferInstanceAs (Decidable (slaveOf h message.id = some k →
      message.type = .data → (h.s k).status = .handshake →
      ∀ b ∈ message.buffer.head?, b.toNat ≠ k → queued (h.s k).queue = []))
  | .response | .other _ _ _ => .isTrue trivial

instance HarborInput.decidableExact (h : Harbor) (k : ℕ) :
    ∀ i : HarborInput, Decidable (i.Exact h k)
  | .harbor msg source => inferInstanceAs (Decidable (harborOf source = k →
      ∀ name ∈ nameUpdate msg, pendingOf h.map name.id = [] ∨ (h.s k).fd ≠ 0 ∨
        source &&& handleMask32 = 0))
  | .system _ _ _ | .socket _ _ | .response | .other _ _ _ => .isTrue trivial

instance HarborInput.decidableInOrder (h : Harbor) (k : ℕ) :
    ∀ i : HarborInput, Decidable (i.InOrder h k)
  | .harbor msg source => inferInstanceAs (Decidable (harborOf source = k →
      (h.s k).status = .handshake →
      ∀ name ∈ nameUpdate msg, pendingOf h.map name.id = [] ∨ queued (h.s k).queue = []))
  | .system _ _ _ | .socket _ _ | .response | .other _ _ _ => .isTrue trivial

/-! ## Steps -/

/-- A step that sends `out`, as a move of the line to the node `k` that accepts `ms`. -/
structure LineMove (h : Harbor) (k : ℕ) (out : List (ℤ × List UInt8)) (h' : Harbor)
    (ms : List HarborMsg) (mv : Outbox.Move HarborMsg) : Prop where
  sent : framesOn k h h' out = (mv.out (waitingFor h k)).map HarborMsg.encode
  left : waitingFor h' k = mv.left (waitingFor h k)
  taken : mv.taken = ms.filter fun m ↦ m.Fits

variable {h h' : Harbor} {i : HarborInput} {out : List (ℤ × List UInt8)}
    {l : HarborLedger} {k j : ℕ}

private theorem framesOn_eq_nil (hout : ∀ p ∈ out, p.1 = (h'.s k).fd → 1 < p.2.length →
    (h.s k).Gone ∧ (h'.s k).Gone) : framesOn k h h' out = [] := by
  rw [framesOn]
  split
  next => rfl
  next hgone =>
    rw [List.map_eq_nil_iff, List.filter_eq_nil_iff]
    intro p hp hon
    simp only [decide_eq_true_eq] at hon
    exact hgone (hout p hp hon.1 hon.2)

private theorem framesOn_framesTo (hgone : ¬((h.s k).Gone ∧ (h'.s k).Gone)) (ms : List HarborMsg) :
    framesOn k h h' (framesTo (h'.s k).fd ms) =
      (ms.filter fun m ↦ m.Fits).map HarborMsg.encode := by
  rw [framesOn, if_neg hgone, framesTo, List.filter_eq_self.mpr]
  · rw [List.map_map]
    rfl
  · intro p hp
    obtain ⟨m, -, rfl⟩ := List.mem_map.mp hp
    simp only [m.one_lt_length_encode, and_self, decide_true]

private theorem framesOn_framesTo_other {fd : ℤ}
    (hfd : fd = (h'.s k).fd → (h.s k).Gone ∧ (h'.s k).Gone) (ms : List HarborMsg) :
    framesOn k h h' (framesTo fd ms) = [] := by
  apply framesOn_eq_nil
  intro p hp heq _
  obtain ⟨m, -, rfl⟩ := List.mem_map.mp hp
  exact hfd heq

theorem Harbor.Ok.gone_of_fd_eq (ok : h.Ok) (hk : k < remoteMax) (hj : j < remoteMax)
    (hne : j ≠ k) (hfd : (h.s j).fd ≠ 0) (heq : (h.s j).fd = (h.s k).fd) : (h.s k).Gone := by
  rcases Int.lt_trichotomy (h.s k).fd 0 with hneg | hzero | hpos
  · exact Or.inl hneg
  · exact absurd (heq.trans hzero) hfd
  · exact absurd heq (ok.distinct hk hj hne.symm hpos)

theorem Harbor.Ok.settled_of_not_gone (ok : h.Ok) (hgone : ¬(h.s k).Gone) (hfd : (h.s k).fd ≠ 0)
    (hstatus : (h.s k).status ≠ .handshake) : (h.s k).status.Settled := by
  rw [Slave.Gone, not_or] at hgone
  cases hs : (h.s k).status with
  | wait =>
    have := ok.wait hs
    omega
  | handshake => exact absurd hs hstatus
  | header => exact Or.inl rfl
  | content => exact Or.inr (Or.inl rfl)
  | down => exact absurd hs hgone.2

theorem waitingFor_of_settled (ok : h.Ok) (hs : (h.s k).status.Settled) : waitingFor h k = [] := by
  rw [waitingFor, ok.settled hs]
  rfl

private theorem waitingFor_setSlave_of_ne {s : Slave} (hj : k ≠ j) :
    waitingFor (h.setSlave j s) k = waitingFor h k := by
  rw [waitingFor, Harbor.setSlave_of_ne h s hj, waitingFor]

theorem LineMove.none (hsent : framesOn k h h' out = [])
    (hleft : waitingFor h' k = waitingFor h k) : LineMove h k out h' [] (.post []) :=
  ⟨hsent, hleft, rfl⟩

theorem DataMove.line {fd : ℤ} {buffer : List UInt8} (hm : DataMove h j buffer out h')
    (ok : h.Ok) (hk : k < remoteMax) (hj : slaveOf h fd = some j) (hfd : 0 < fd)
    (hkept : j = k → ((h.s k).status = .handshake → ∀ b ∈ buffer.head?, b.toNat ≠ k →
      queued (h.s k).queue = []) ∨ ¬(h'.s k).Gone) :
    ∃ mv, LineMove h k out h' [] mv ∧ mv.Keeps Eq ∧ mv.InOrder (waitingFor h k) := by
  obtain ⟨hjfd, -, hjlt⟩ := slaveOf_fd hj
  have hnil : framesOn k h h' [] = [] := framesOn_eq_nil (by simp)
  by_cases hjk : j = k
  · subst hjk
    cases hm with
    | ignored _ => exact ⟨.post [], LineMove.none hnil rfl, trivial, Or.inr rfl⟩
    | read hsettled hreads =>
      refine ⟨.post [], LineMove.none hnil ?_, trivial, Or.inr rfl⟩
      rw [waitingFor_of_settled ok hsettled, waitingFor, Harbor.setSlave_self]
      rcases hreads.queue with heq | hnone
      · rw [heq, ok.settled hsettled]
        rfl
      · rw [hnone]
        rfl
    | refused hstatus hhead hb _ hqueue hdown =>
      refine ⟨.post [], LineMove.none hnil ?_, trivial, Or.inr rfl⟩
      rcases hkept rfl with hempty | hgone
      · rw [waitingFor, waitingFor, Harbor.setSlave_self, hqueue, hempty hstatus _ hhead hb]
        rfl
      · refine absurd (Or.inr ?_) hgone
        rw [Harbor.setSlave_self, hdown]
    | greeted hstatus _ _ _ hsfd hqueue _ =>
      refine ⟨.flush, ⟨?_, ?_, rfl⟩, trivial, trivial⟩
      · have hself : ((h.setSlave j ‹Slave›).s j).fd = (h.s j).fd := by
          rw [Harbor.setSlave_self, hsfd]
        rw [← hself, framesOn_framesTo]
        · rfl
        · rintro ⟨hneg | hdown, -⟩
          · omega
          · rw [hstatus] at hdown
            cases hdown
      · rw [waitingFor, Harbor.setSlave_self, hqueue]
        rfl
  · have hkj : k ≠ j := Ne.symm hjk
    cases hm with
    | ignored _ => exact ⟨.post [], LineMove.none hnil rfl, trivial, Or.inr rfl⟩
    | read _ _ | refused _ _ _ _ _ _ =>
      exact ⟨.post [], LineMove.none hnil (waitingFor_setSlave_of_ne hkj), trivial, Or.inr rfl⟩
    | greeted _ _ _ _ _ _ _ =>
      refine ⟨.post [], LineMove.none (framesOn_framesTo_other (fun heq ↦ ?_) _)
        (waitingFor_setSlave_of_ne hkj), trivial, Or.inr rfl⟩
      rw [Harbor.setSlave_of_ne h _ hkj] at heq
      exact absurd heq (ok.distinct hjlt hk hjk (by omega)).symm

theorem HandleMove.line {m : HarborMsg} (hm : HandleMove h j m out h') (ok : h.Ok)
    (hk : h.Remote k) (hj : j < remoteMax)
    (hkept : j = k → (h.s k).Gone → (h.s k).status = .handshake) :
    ∃ mv, LineMove h k out h' (if j = k then [m] else []) mv ∧ mv.Keeps Eq ∧
      mv.InOrder (waitingFor h k) := by
  have hnil : framesOn k h h' [] = [] := framesOn_eq_nil (by simp)
  by_cases hjk : j = k
  · subst hjk
    rw [if_pos rfl]
    cases hm with
    | own hid => exact absurd hid hk.ne_id
    | posted hfd hstatus =>
      have hgone : ¬(h.s j).Gone := fun hgone ↦ hstatus (hkept rfl hgone)
      refine ⟨.post ([m].filter fun m ↦ m.Fits), ⟨?_, rfl, rfl⟩, trivial, Or.inl ?_⟩
      · exact framesOn_framesTo (fun hboth ↦ hgone hboth.1) [m]
      · exact waitingFor_of_settled ok (ok.settled_of_not_gone hgone hfd hstatus)
    | stored _ hqueue _ _ =>
      refine ⟨.store ([m].filter fun m ↦ m.Fits) ([m].filter fun m ↦ m.Fits), ⟨hnil, ?_, rfl⟩,
        List.forall₂_refl _, trivial⟩
      rw [waitingFor, Harbor.setSlave_self, hqueue, List.filter_append]
      rfl
    | refused hwait hdown =>
      refine absurd (Or.inr (Or.inr hdown)) (ok.not_settled hwait)
  · have hkj : k ≠ j := Ne.symm hjk
    rw [if_neg hjk]
    cases hm with
    | own _ | refused _ _ => exact ⟨.post [], LineMove.none hnil rfl, trivial, Or.inr rfl⟩
    | posted hfd _ =>
      refine ⟨.post [], LineMove.none (framesOn_framesTo_other (fun heq ↦ ?_) _) rfl, trivial,
        Or.inr rfl⟩
      have hgone := ok.gone_of_fd_eq hk.lt hj hjk hfd heq
      exact ⟨hgone, hgone⟩
    | stored _ _ _ _ =>
      exact ⟨.post [], LineMove.none hnil (waitingFor_setSlave_of_ne hkj), trivial, Or.inr rfl⟩

/-! ### Messages that have waited for a name -/

/-- A message that no service has been written into. -/
def HarborMsg.Raw (m : HarborMsg) : Prop := m.header.destination &&& handleMask32 = 0

private theorem raw_rawMsg (source type session : UInt32) (msg : List UInt8) :
    (rawMsg source type session msg).Raw := by
  rw [HarborMsg.Raw, ← UInt32.toNat_inj]
  simp only [rawMsg, UInt32.toNat_and, UInt32.toNat_shiftLeft, Nat.shiftLeft_eq]
  rw [show handleMask32.toNat = 2 ^ 24 - 1 from rfl, Nat.and_two_pow_sub_one_eq_mod,
    show handleRemoteShift32.toNat % 32 = 24 from rfl, show (0 : UInt32).toNat = 0 from rfl]
  omega

theorem HarborMsg.Raw.unaddressed {m : HarborMsg} (hm : m.Raw) (handle : UInt32) :
    (m.addressed handle).unaddressed = m := by
  have hbits : ∀ d v w : UInt32, d &&& w = 0 → (d ||| (v &&& w)) &&& ~~~w = d := by
    intro d v w hd
    apply UInt32.eq_of_toBitVec_eq
    have hd' : d.toBitVec &&& w.toBitVec = 0#32 := congrArg UInt32.toBitVec hd
    apply BitVec.eq_of_getLsbD_eq
    intro b hb
    have hdb : (d.toBitVec &&& w.toBitVec).getLsbD b = (0#32).getLsbD b := by rw [hd']
    simp only [UInt32.toBitVec_and, UInt32.toBitVec_or, UInt32.toBitVec_not, BitVec.getLsbD_and,
      BitVec.getLsbD_or, BitVec.getLsbD_not, hb, decide_true, Bool.true_and,
      BitVec.getLsbD_zero] at hdb ⊢
    cases hdbit : d.toBitVec.getLsbD b <;> cases hwbit : w.toBitVec.getLsbD b <;>
      simp [hdbit, hwbit] at hdb ⊢
  rw [HarborMsg.unaddressed, HarborMsg.addressed, hbits _ _ _ hm]

theorem HarborMsg.addressed_of_zero {handle : UInt32} (h0 : handle &&& handleMask32 = 0)
    (m : HarborMsg) : m.addressed handle = m := by
  rw [HarborMsg.addressed, h0, UInt32.or_zero]

private theorem filter_fits_addressed (handle : UInt32) (ms : List HarborMsg) :
    (ms.map (HarborMsg.addressed handle)).filter (fun m ↦ m.Fits) =
      (ms.filter fun m ↦ m.Fits).map (HarborMsg.addressed handle) := by
  rw [List.filter_map]
  rfl

theorem NameMove.line {handle : UInt32} {ms : List HarborMsg} (hm : NameMove h j handle ms out h')
    (ok : h.Ok) (hk : h.Remote k) (hj : j < remoteMax) (hraw : ∀ m ∈ ms, m.Raw)
    (hkept : j = k → (h.s k).Gone → ms = []) :
    ∃ mv, LineMove h k out h' (if j = k then ms.map (HarborMsg.addressed handle) else []) mv ∧
      mv.Keeps HarborMsg.Carries ∧
      ((j = k → ms = [] ∨ (h.s k).fd ≠ 0 ∨ handle &&& handleMask32 = 0) → mv.Keeps Eq) ∧
      ((j = k → (h.s k).status = .handshake → ms = [] ∨ queued (h.s k).queue = []) →
        mv.InOrder (waitingFor h k)) := by
  have hnil : framesOn k h h' [] = [] := framesOn_eq_nil (by simp)
  -- messages to another harbor do not touch the line of `k`
  by_cases hjk : j = k
  · subst hjk
    rw [if_pos rfl]
    cases hm with
    | none hms =>
      subst hms
      exact ⟨.post [], LineMove.none hnil rfl, trivial, fun _ ↦ trivial, fun _ ↦ Or.inr rfl⟩
    | own hown _ _ _ => exact absurd hown hk.ne_slave
    | posted hfd =>
      refine ⟨.post ((ms.map (HarborMsg.addressed handle)).filter fun m ↦ m.Fits), ⟨?_, rfl, rfl⟩,
        trivial, fun _ ↦ trivial, fun hord ↦ ?_⟩
      · by_cases hgone : (h.s j).Gone
        · rw [hkept rfl hgone]
          exact hnil
        · exact framesOn_framesTo (fun hboth ↦ hgone hboth.1) _
      · by_cases hgone : (h.s j).Gone
        · rw [hkept rfl hgone]
          exact Or.inr rfl
        · by_cases hstatus : (h.s j).status = .handshake
          · rcases hord rfl hstatus with rfl | hqueue
            · exact Or.inr rfl
            · refine Or.inl ?_
              rw [waitingFor, hqueue]
              rfl
          · exact Or.inl (waitingFor_of_settled ok (ok.settled_of_not_gone hgone hfd hstatus))
    | stored hzero hqueue _ _ =>
      refine ⟨.store ((ms.map (HarborMsg.addressed handle)).filter fun m ↦ m.Fits)
        (ms.filter fun m ↦ m.Fits), ⟨hnil, ?_, rfl⟩, ?_, fun hexact ↦ ?_, fun _ ↦ trivial⟩
      · rw [waitingFor, Harbor.setSlave_self, hqueue, List.filter_append]
        rfl
      · -- the service is missing from what is stored
        rw [filter_fits_addressed, Outbox.Move.Keeps, List.forall₂_map_right_iff, List.forall₂_same]
        intro m hmem
        exact Or.inr ((hraw m (List.mem_of_mem_filter hmem)).unaddressed handle).symm
      · rw [filter_fits_addressed, Outbox.Move.Keeps, List.forall₂_map_right_iff, List.forall₂_same]
        intro m hmem
        rcases hexact rfl with rfl | hfd | hmask
        · cases hmem
        · exact absurd hzero hfd
        · exact (HarborMsg.addressed_of_zero hmask m).symm
    | refused hzero hdown =>
      exact absurd (Or.inr (Or.inr hdown)) (ok.not_settled (Or.inl hzero))
  · have hkj : k ≠ j := Ne.symm hjk
    rw [if_neg hjk]
    cases hm with
    | none _ | refused _ _ =>
      exact ⟨.post [], LineMove.none hnil rfl, trivial, fun _ ↦ trivial, fun _ ↦ Or.inr rfl⟩
    | own _ _ _ _ | stored _ _ _ _ =>
      exact ⟨.post [], LineMove.none hnil (waitingFor_setSlave_of_ne hkj), trivial,
        fun _ ↦ trivial, fun _ ↦ Or.inr rfl⟩
    | posted hfd =>
      refine ⟨.post [], LineMove.none (framesOn_framesTo_other (fun heq ↦ ?_) _) rfl, trivial,
        fun _ ↦ trivial, fun _ ↦ Or.inr rfl⟩
      have hgone := ok.gone_of_fd_eq hk.lt hj hjk hfd heq
      exact ⟨hgone, hgone⟩

/-! ### Connections -/

private theorem framesOn_cons_byte (fd : ℤ) (b : UInt8) (out : List (ℤ × List UInt8)) :
    framesOn k h h' ((fd, [b]) :: out) = framesOn k h h' out := by
  rw [framesOn, framesOn, List.filter_cons_of_neg]
  simp

private theorem connectS_line {b : UInt8} {fd : ℤ} {s : Slave} (hqueue : s.queue = (h.s j).queue) :
    LineMove h k [(fd, [b])] (h.setSlave j s) [] (.post []) := by
  refine LineMove.none ?_ ?_
  · rw [framesOn_cons_byte]
    exact framesOn_eq_nil (by simp)
  · by_cases hjk : k = j
    · rw [hjk, waitingFor, Harbor.setSlave_self, hqueue, waitingFor]
    · exact waitingFor_setSlave_of_ne hjk

private theorem connectA_line {msg : List UInt8} {c b : UInt8} {fd : ℤ} {s : Slave}
    (hc : connects h msg = some (c, fd, j)) (hallowed : (HarborInput.harbor msg 0).Allowed h)
    (hk : k < remoteMax) (hfd : s.fd = fd) (hstatus : s.status = .header)
    (hqueue : s.queue = none) :
    ∃ mv, LineMove h k ((fd, [b]) :: framesTo fd (queued (h.s j).queue)) (h.setSlave j s) [] mv ∧
      mv.Keeps Eq ∧ mv.InOrder (waitingFor h k) := by
  obtain ⟨hpos, hfresh⟩ := hallowed _ hc
  simp only at hpos hfresh
  by_cases hjk : k = j
  · subst hjk
    refine ⟨.flush, ⟨?_, ?_, rfl⟩, trivial, trivial⟩
    · have hself : fd = ((h.setSlave k s).s k).fd := by rw [Harbor.setSlave_self, hfd]
      rw [framesOn_cons_byte, congrArg framesTo hself, framesOn_framesTo]
      · rfl
      · rintro ⟨-, hneg | hdown⟩
        · omega
        · rw [Harbor.setSlave_self, hstatus] at hdown
          cases hdown
    · rw [waitingFor, Harbor.setSlave_self, hqueue]
      rfl
  · refine ⟨.post [], LineMove.none ?_ (waitingFor_setSlave_of_ne hjk), trivial, Or.inr rfl⟩
    rw [framesOn_cons_byte]
    refine framesOn_framesTo_other (fun heq ↦ ?_) _
    rw [Harbor.setSlave_of_ne h s hjk] at heq
    exact absurd heq.symm (hfresh k hk)

/-! ### All messages -/

/-- No service has been written into what waits for a name. -/
def HarborLedger.Raw (l : HarborLedger) : Prop := ∀ id, ∀ m ∈ l.pending id, m.Raw

theorem HarborLedger.Raw.step (hl : l.Raw) (i : HarborInput) : (l.step i).Raw := by
  cases i with
  | system rmsg session source =>
    rw [HarborLedger.step, HarborLedger.send]
    split
    · exact hl
    · split
      · exact hl
      · intro id m hm
        simp only at hm
        by_cases hid : id = rmsg.name.id
        · subst hid
          rw [Function.update_self, List.mem_append, List.mem_singleton] at hm
          rcases hm with hm | rfl
          · exact hl _ m hm
          · exact raw_rawMsg _ _ _ _
        · rw [Function.update_of_ne hid] at hm
          exact hl id m hm
  | harbor msg source =>
    rw [HarborLedger.step]
    split
    next => exact hl
    next name _ =>
      intro id m hm
      simp only [HarborLedger.resolve] at hm
      by_cases hid : id = name.id
      · subst hid
        rw [Function.update_self] at hm
        cases hm
      · rw [Function.update_of_ne hid] at hm
        exact hl id m hm
  | socket _ _ | response | other _ _ _ => exact hl

theorem HarborLedger.accept_filter {handle : UInt32} {ms : List HarborMsg} :
    (((l.accept handle ms).accepted k).filter fun m ↦ m.Fits) =
      ((l.accepted k).filter fun m ↦ m.Fits) ++ ((if harborOf handle = k then
        ms.map (HarborMsg.addressed handle) else []).filter fun m ↦ m.Fits) := by
  by_cases hk : harborOf handle = k
  · rw [if_pos hk, HarborLedger.accept_self hk, List.filter_append]
  · rw [if_neg hk, HarborLedger.accept_of_ne hk, List.filter_nil, List.append_nil]

/-- **Every step is a move of the line to the node `k`**, unless it loses a message over a
connection that is gone. -/
theorem HarborMove.line (hm : HarborMove h i out h') (ok : h.Ok) (hk : h.Remote k)
    (hallowed : i.Allowed h) (hagree : l.Agrees h) (hraw : l.Raw)
    (hkept : i.Kept h k ∨ ¬(h.s k).Gone ∧ ¬(h'.s k).Gone) :
    ∃ ms mv, LineMove h k out h' ms mv ∧
      (((l.step i).accepted k).filter fun m ↦ m.Fits) =
        ((l.accepted k).filter fun m ↦ m.Fits) ++ (ms.filter fun m ↦ m.Fits) ∧
      mv.Keeps HarborMsg.Carries ∧ (i.Exact h k → mv.Keeps Eq) ∧
      (i.InOrder h k → mv.InOrder (waitingFor h k)) := by
  have hnil : ∀ h', framesOn k h h' [] = [] := fun h' ↦ framesOn_eq_nil (by simp)
  have hkeeps : ∀ mv : Outbox.Move HarborMsg, mv.Keeps Eq → mv.Keeps HarborMsg.Carries :=
    fun mv hmv ↦ hmv.imp fun _ _ heq ↦ Or.inl heq
  -- each move takes some messages to `k`, and does one thing to its line
  cases hm with
  | idle hplain =>
    refine ⟨[], .post [], LineMove.none (hnil h) rfl, ?_, trivial, fun _ ↦ trivial,
      fun _ ↦ Or.inr rfl⟩
    rw [List.filter_nil, List.append_nil]
    cases i with
    | system rmsg session source => exact hplain.elim
    | harbor msg source => rw [HarborLedger.step, hplain.1]
    | socket _ _ | response | other _ _ _ => rfl
  | @lost message delivered id _ =>
    refine ⟨[], .post [], LineMove.none (hnil _) ?_, ?_, trivial, fun _ ↦ trivial,
      fun _ ↦ Or.inr rfl⟩
    · by_cases hid : k = id
      · rw [hid, waitingFor, Harbor.setSlave_self, waitingFor]
      · exact waitingFor_setSlave_of_ne hid
    · rw [List.filter_nil, List.append_nil]
      rfl
  | @data message delivered id out h' htype hid hdata =>
    obtain ⟨mv, hline, heq, hord⟩ := hdata.line ok hk.lt hid hallowed fun hidk ↦
      hkept.imp (fun hkept ↦ hkept (by rw [hid, hidk]) htype) And.right
    refine ⟨[], mv, hline, ?_, hkeeps mv heq, fun _ ↦ heq, fun _ ↦ hord⟩
    rw [List.filter_nil, List.append_nil]
    rfl
  | connectS hc _ _ hqueue _ =>
    refine ⟨[], .post [], connectS_line hqueue, ?_, trivial, fun _ ↦ trivial,
      fun _ ↦ Or.inr rfl⟩
    rw [List.filter_nil, List.append_nil, HarborLedger.step, nameUpdate_of_connects hc]
  | connectA hc hfd hstatus hqueue _ _ =>
    obtain ⟨mv, hline, heq, hord⟩ := connectA_line hc hallowed hk.lt hfd hstatus hqueue
    refine ⟨[], mv, hline, ?_, hkeeps mv heq, fun _ ↦ heq, fun _ ↦ hord⟩
    rw [List.filter_nil, List.append_nil, HarborLedger.step, nameUpdate_of_connects hc]
  | @pending rmsg session source _ hhandle hvalue hh' _ _ =>
    have hval : l.value rmsg.name.id = 0 := (hagree _).1.trans hvalue
    refine ⟨[], .post [], LineMove.none (hnil _) ?_, ?_, trivial, fun _ ↦ trivial,
      fun _ ↦ Or.inr rfl⟩
    · rw [hh', waitingFor, waitingFor]
    · rw [List.filter_nil, List.append_nil, HarborLedger.step, HarborLedger.send,
        if_neg (not_not_intro hhandle), if_neg (not_not_intro hval)]
  | handle hknown hhandle =>
    obtain ⟨mv, hline, heq, hord⟩ := hhandle.line ok hk (harborOf_lt _) fun htarget hgone ↦
      hkept.elim (fun hkept ↦ hkept htarget hgone) fun hthere ↦ absurd hgone hthere.1
    refine ⟨_, mv, hline, ?_, hkeeps mv heq, fun _ ↦ heq, fun _ ↦ hord⟩
    rw [HarborLedger.step, HarborLedger.send_eq hagree _ _ hknown, HarborLedger.accept_filter]
    rfl
  | @update msg source name _ h₁ _ hname hmove hh' _ _ =>
    have hpending : ∀ m ∈ pendingOf h.map name.id, m.Raw := by
      rw [← (hagree name.id).2]
      exact hraw name.id
    obtain ⟨mv, hline, hcarries, heq, hord⟩ := hmove.line ok hk (harborOf_lt _) hpending
      fun hsource hgone ↦ hkept.elim (fun hkept ↦ hkept hsource hgone name hname)
        fun hthere ↦ absurd hgone hthere.1
    have hs : h'.s = h₁.s := by rw [hh']
    refine ⟨_, mv, ⟨?_, ?_, hline.taken⟩, ?_, hcarries, fun hexact ↦ heq fun hsource ↦
      hexact hsource name hname, fun hin ↦ hord fun hsource hstatus ↦
      hin hsource hstatus name hname⟩
    · rw [← hline.sent, framesOn, framesOn, hs]
    · rw [← hline.left, waitingFor, waitingFor, hs]
    · rw [HarborLedger.step, hname]
      simp only [HarborLedger.resolve, HarborLedger.accept_filter]
      rw [(hagree name.id).2]

/-! ## Runs -/

/-- What holds of the service and of the line to the node `k` after a run. -/
structure Line (k : ℕ) (Good : Outbox HarborMsg → Prop) (tr : List HarborEvent) (h : Harbor) :
    Prop where
  ok : h.Ok
  remote : h.Remote k
  agrees : (ledger tr).Agrees h
  raw : (ledger tr).Raw
  good : ∃ sent, transmitted k tr = sent.map HarborMsg.encode ∧
    Good ⟨sent, waitingFor h k, acceptedFor tr k⟩

private theorem ledger_concat (tr : List HarborEvent) (e : HarborEvent) :
    ledger (tr ++ [e]) = (ledger tr).step e.input := by
  rw [ledger, List.foldl_append, List.foldl_cons, List.foldl_nil, ledger]

/-- The connection of the node is there before and after each step. -/
def Steady (k : ℕ) (tr : List HarborEvent) : Prop :=
  ∀ e ∈ tr, ¬(e.pre.s k).Gone ∧ ¬(e.post.s k).Gone

/-- The step loses no message over a connection that is gone, because it is one that may not, or
because the connection is there. -/
def StepKept (k : ℕ) (e : HarborEvent) : Prop :=
  e.input.Kept e.pre k ∨ ¬(e.pre.s k).Gone ∧ ¬(e.post.s k).Gone

variable {id : ℕ} {slave : UInt32} {tr : List HarborEvent} {Good : Outbox HarborMsg → Prop}

/-- The rule for moves that a step may come to keeps `Good`. -/
def KeepsGood (k : ℕ) (Good : Outbox HarborMsg → Prop) (e : HarborEvent) : Prop :=
  ∀ (o : Outbox HarborMsg) (mv : Outbox.Move HarborMsg), o.waiting = waitingFor e.pre k →
    mv.Keeps HarborMsg.Carries → (e.input.Exact e.pre k → mv.Keeps Eq) →
    (e.input.InOrder e.pre k → mv.InOrder o.waiting) → Good o → Good (o.apply mv)

theorem Line.step {effects : List HarborEffect} (hline : Line k Good tr h)
    (hok : harbor h i = .ok (h', effects)) (hallowed : i.Allowed h)
    (hkept : StepKept k ⟨h, i, effects, h'⟩) (hgood : KeepsGood k Good ⟨h, i, effects, h'⟩) :
    Line k Good (tr ++ [⟨h, i, effects, h'⟩]) h' := by
  have hm := harbor_move hok
  obtain ⟨ms, mv, hmv, haccepted, hcarries, hexact, hord⟩ :=
    hm.line hline.ok hline.remote hallowed hline.agrees hline.raw hkept
  obtain ⟨sent, hsent, ho⟩ := hline.good
  have hstep := ledger_concat tr ⟨h, i, effects, h'⟩
  constructor
  · exact hm.ok hline.ok hallowed
  · obtain ⟨hid, hslave⟩ := hm.id_slave
    exact ⟨hline.remote.pos, hline.remote.lt, by rw [hid]; exact hline.remote.ne_id,
      by rw [hslave]; exact hline.remote.ne_slave⟩
  · rw [hstep]
    exact hm.agrees hline.agrees
  · rw [hstep]
    exact hline.raw.step i
  · refine ⟨sent ++ mv.out (waitingFor h k), ?_, ?_⟩
    · rw [transmitted, List.flatMap_append, List.flatMap_singleton, List.map_append, ← hmv.sent,
        ← hsent, transmitted]
    · have hnext := hgood ⟨sent, waitingFor h k, acceptedFor tr k⟩ mv rfl hcarries hexact hord ho
      rw [Outbox.apply, hmv.taken] at hnext
      rw [hmv.left, acceptedFor, hstep, haccepted]
      exact hnext

/-- **The line to a node in a whole run.** -/
theorem run_line (hrun : Run harbor (harborInit id slave) tr h)
    (hremote : (harborInit id slave).Remote k) (hempty : Good ⟨[], [], []⟩)
    (hallowed : Meets (fun h i ↦ i.Allowed h) tr) (hkept : ∀ e ∈ tr, StepKept k e)
    (hgood : ∀ e ∈ tr, KeepsGood k Good e) : Line k Good tr h := by
  induction hrun with
  | nil => exact ⟨Harbor.ok_init id slave, hremote, HarborLedger.agrees_empty id slave,
      fun _ _ hm ↦ absurd hm List.not_mem_nil, [], rfl, hempty⟩
  | snoc _ hok ih =>
    rw [meets_concat] at hallowed
    have hpre := ih hallowed.1 (fun e he ↦ hkept e (List.mem_append_left _ he))
      fun e he ↦ hgood e (List.mem_append_left _ he)
    exact hpre.step hok hallowed.2 (hkept _ (by simp)) (hgood _ (by simp))

end ZTask
