import ZTask.Harbor.Traffic
import ZTask.Lib.Outbox

/-!
# What the service owes to the other nodes

A ledger of a run, kept from the messages to the service alone: the handle of each name, the
messages that wait for a name, and the messages accepted for each node, addressed to the service
they are for. A message to a name counts as accepted when the name is known.

The tables of the service say the same of names as the ledger (`HarborMove.agrees`). For each other
node the service is an outgoing line: every step of it is a move of an outbox
(`HarborMove.accounted`), unless a message comes for a node whose connection is gone.
-/

namespace ZTask

open Lib

structure HarborLedger where
  /-- The handle of a name; 0 if it is not known. -/
  value : UInt32 × List UInt8 → UInt32
  /-- The messages that wait for a name. -/
  pending : UInt32 × List UInt8 → List HarborMsg
  /-- The messages accepted for a node. -/
  accepted : ℕ → List HarborMsg

namespace HarborLedger

def empty : HarborLedger := ⟨fun _ ↦ 0, fun _ ↦ [], fun _ ↦ []⟩

/-- Messages to services of the node of `handle`. -/
def accept (l : HarborLedger) (handle : UInt32) (ms : List HarborMsg) : HarborLedger :=
  let k := harborOf handle
  let taken := ms.map (HarborMsg.addressed handle)
  { l with accepted := Function.update l.accepted k (l.accepted k ++ taken) }

/-- A message to a handle, or to a name. -/
def send (l : HarborLedger) (rmsg : RemoteMessage) (session source : UInt32) : HarborLedger :=
  let m := rawMsg source rmsg.type session rmsg.message
  if rmsg.handle ≠ 0 then l.accept rmsg.handle [m]
  else if l.value rmsg.name.id ≠ 0 then l.accept (l.value rmsg.name.id) [m]
  else { l with
    pending := Function.update l.pending rmsg.name.id (l.pending rmsg.name.id ++ [m]) }

/-- The handle of a name is told. -/
def resolve (l : HarborLedger) (name : GlobalName) (handle : UInt32) : HarborLedger :=
  { l.accept handle (l.pending name.id) with
    value := Function.update l.value name.id handle
    pending := Function.update l.pending name.id [] }

def step (l : HarborLedger) : HarborInput → HarborLedger
  | .system rmsg session source => l.send rmsg session source
  | .harbor msg source =>
    match nameUpdate msg with
    | none => l
    | some name => l.resolve name source
  | _ => l

/-- The tables of the service say what the ledger says. -/
def Agrees (l : HarborLedger) (h : Harbor) : Prop :=
  ∀ id, l.value id = valueOf h.map id ∧ l.pending id = pendingOf h.map id

theorem agrees_empty (id : ℕ) (slave : UInt32) : empty.Agrees (harborInit id slave) :=
  fun _ ↦ ⟨rfl, rfl⟩

theorem accept_of_ne {l : HarborLedger} {handle : UInt32} {ms : List HarborMsg} {k : ℕ}
    (hk : harborOf handle ≠ k) : (l.accept handle ms).accepted k = l.accepted k :=
  Function.update_of_ne hk.symm _ _

theorem accept_self {l : HarborLedger} {handle : UInt32} {ms : List HarborMsg} {k : ℕ}
    (hk : harborOf handle = k) :
    (l.accept handle ms).accepted k = l.accepted k ++ ms.map (HarborMsg.addressed handle) := by
  subst hk
  exact Function.update_self _ _ _

theorem send_eq {l : HarborLedger} {h : Harbor} (hagree : l.Agrees h) {rmsg : RemoteMessage}
    (session source : UInt32) (hknown : rmsg.handle = 0 → valueOf h.map rmsg.name.id ≠ 0) :
    l.send rmsg session source =
      l.accept (rmsg.target h) [rawMsg source rmsg.type session rmsg.message] := by
  rw [send, RemoteMessage.target]
  by_cases hhandle : rmsg.handle = 0
  · have hvalue := hknown hhandle
    rw [← (hagree _).1] at hvalue ⊢
    rw [if_neg (not_not_intro hhandle), if_pos hvalue, if_pos hhandle]
  · rw [if_pos hhandle, if_neg hhandle]

end HarborLedger

/-! ## Names -/

variable {h h' : Harbor} {i : HarborInput} {out : List (ℤ × List UInt8)} {l : HarborLedger}

theorem HandleMove.frame {k : ℕ} {m : HarborMsg} (hm : HandleMove h k m out h') :
    h'.map = h.map ∧ h'.id = h.id ∧ h'.slave = h.slave := by
  cases hm <;> exact ⟨rfl, rfl, rfl⟩

theorem NameMove.frame {k : ℕ} {handle : UInt32} {ms : List HarborMsg}
    (hm : NameMove h k handle ms out h') :
    h'.map = h.map ∧ h'.id = h.id ∧ h'.slave = h.slave := by
  cases hm <;> exact ⟨rfl, rfl, rfl⟩

theorem DataMove.frame {k : ℕ} {buffer : List UInt8} (hm : DataMove h k buffer out h') :
    h'.map = h.map ∧ h'.id = h.id ∧ h'.slave = h.slave := by
  cases hm <;> exact ⟨rfl, rfl, rfl⟩

theorem HarborMove.id_slave (hm : HarborMove h i out h') : h'.id = h.id ∧ h'.slave = h.slave := by
  cases hm with
  | idle _ | lost _ | connectS _ _ _ _ _ | connectA _ _ _ _ _ _ => exact ⟨rfl, rfl⟩
  | data _ _ hdata => exact hdata.frame.2
  | pending _ _ hh' _ _ => rw [hh']; exact ⟨rfl, rfl⟩
  | handle _ hhandle => exact hhandle.frame.2
  | update _ hname hh' _ _ => rw [hh']; exact hname.frame.2

theorem nameUpdate_of_connects {msg : List UInt8} {p : UInt8 × ℤ × ℕ}
    (hc : connects h msg = some p) : nameUpdate msg = none := by
  rw [connects] at hc
  rw [nameUpdate]
  cases hhead : msg.head? with
  | none => rfl
  | some command =>
    rw [hhead] at hc
    have hne : ¬command = 78 := by
      rintro rfl
      simp at hc
    rw [if_neg (by simpa using hne)]

/-- **Names are what the ledger says they are.** -/
theorem HarborMove.agrees (hm : HarborMove h i out h') (hagree : l.Agrees h) :
    (l.step i).Agrees h' := by
  cases hm with
  | idle hplain =>
    cases i with
    | system rmsg session source => exact hplain.elim
    | harbor msg source =>
      rw [HarborLedger.step, hplain.1]
      exact hagree
    | socket _ _ | response | other _ _ _ => exact hagree
  | lost _ => exact hagree
  | data _ _ hdata =>
    rw [HarborLedger.Agrees, hdata.frame.1]
    exact hagree
  | connectS hc _ _ _ _ | connectA hc _ _ _ _ _ =>
    rw [HarborLedger.step, nameUpdate_of_connects hc]
    exact hagree
  | @pending rmsg session source _ hhandle hvalue _ hvalues hpendings =>
    intro id
    have hval : l.value rmsg.name.id = 0 := (hagree _).1.trans hvalue
    rw [HarborLedger.step, HarborLedger.send, if_neg (not_not_intro hhandle),
      if_neg (not_not_intro hval), hvalues, hpendings, ← (hagree id).1, ← (hagree id).2]
    refine ⟨rfl, ?_⟩
    by_cases hid : rmsg.name.id = id
    · subst hid
      simp only [Function.update_self, if_true]
    · simp only [if_neg hid, Function.update_of_ne (Ne.symm hid)]
  | handle hknown hhandle =>
    intro id
    rw [HarborLedger.step, HarborLedger.send_eq hagree _ _ hknown, hhandle.frame.1]
    exact hagree id
  | @update msg source name _ h₁ _ hname hmove _ hvalues hpendings =>
    intro id
    rw [HarborLedger.step, hname, hvalues, hpendings, ← (hagree id).1, ← (hagree id).2]
    by_cases hid : name.id = id
    · subst hid
      simp only [HarborLedger.resolve, Function.update_self, if_true, and_self]
    · simp only [HarborLedger.resolve, if_neg hid, Function.update_of_ne (Ne.symm hid),
        HarborLedger.accept, and_self]

/-! ## Slaves -/

/-- What the environment keeps to: a message from a socket carries its positive id, and a connection
is handed over with the id of a socket that no slave has. -/
def HarborInput.Allowed (h : Harbor) : HarborInput → Prop
  | socket message _ => 0 < message.id
  | harbor msg _ => ∀ p ∈ connects h msg, 0 < p.2.1 ∧ ∀ j < remoteMax, (h.s j).fd ≠ p.2.1
  | _ => True

instance HarborInput.decidableAllowed (h : Harbor) : ∀ i : HarborInput, Decidable (i.Allowed h)
  | .socket message _ => inferInstanceAs (Decidable (0 < message.id))
  | .harbor msg _ => inferInstanceAs (Decidable (∀ p ∈ connects h msg, 0 < p.2.1 ∧
      ∀ j < remoteMax, (h.s j).fd ≠ p.2.1))
  | .system _ _ _ | .response | .other _ _ _ => .isTrue trivial

/-- What holds of the slaves between messages. -/
structure Harbor.Ok (h : Harbor) : Prop where
  settled : ∀ {j}, (h.s j).status.Settled → (h.s j).queue = none
  idle : ∀ {j}, (h.s j).fd = 0 → (h.s j).status = .wait
  wait : ∀ {j}, (h.s j).status = .wait → (h.s j).fd ≤ 0
  distinct : ∀ {i j}, i < remoteMax → j < remoteMax → i ≠ j → 0 < (h.s i).fd →
    (h.s j).fd ≠ (h.s i).fd

namespace Harbor

theorem ok_init (id : ℕ) (slave : UInt32) : (harborInit id slave).Ok where
  settled := fun _ ↦ rfl
  idle := fun _ ↦ rfl
  wait := fun _ ↦ Int.le_refl 0
  distinct := fun _ _ _ hpos ↦ absurd hpos (Int.lt_irrefl 0)

theorem Ok.setSlave (ok : h.Ok) {id : ℕ} {s : Slave} (hsettled : s.status.Settled → s.queue = none)
    (hidle : s.fd = 0 → s.status = .wait) (hwait : s.status = .wait → s.fd ≤ 0)
    (hfd : ∀ j < remoteMax, j ≠ id → 0 < s.fd ∨ 0 < (h.s j).fd → (h.s j).fd ≠ s.fd) :
    (h.setSlave id s).Ok := by
  have hcases : ∀ j, j = id ∧ (h.setSlave id s).s j = s ∨
      j ≠ id ∧ (h.setSlave id s).s j = h.s j := by
    intro j
    by_cases hj : j = id
    · exact Or.inl ⟨hj, by rw [hj, setSlave_self]⟩
    · exact Or.inr ⟨hj, setSlave_of_ne h s hj⟩
  constructor
  · intro j
    rcases hcases j with ⟨-, hj⟩ | ⟨-, hj⟩ <;> rw [hj]
    · exact hsettled
    · exact ok.settled
  · intro j
    rcases hcases j with ⟨-, hj⟩ | ⟨-, hj⟩ <;> rw [hj]
    · exact hidle
    · exact ok.idle
  · intro j
    rcases hcases j with ⟨-, hj⟩ | ⟨-, hj⟩ <;> rw [hj]
    · exact hwait
    · exact ok.wait
  · intro i j hi hj hij
    rcases hcases i with ⟨hi', hsi⟩ | ⟨hne, hsi⟩ <;>
      rcases hcases j with ⟨hj', hsj⟩ | ⟨hne', hsj⟩ <;> rw [hsi, hsj]
    · exact absurd (hi'.trans hj'.symm) hij
    · exact fun hpos ↦ hfd j hj hne' (Or.inl hpos)
    · exact fun hpos ↦ (hfd i hi hne (Or.inr hpos)).symm
    · exact ok.distinct hi hj hij

theorem Ok.setSlave_of_fd (ok : h.Ok) {id : ℕ} {s : Slave} (hid : id < remoteMax)
    (hfd : s.fd = (h.s id).fd) (hsettled : s.status.Settled → s.queue = none)
    (hwait : s.status = .wait ↔ (h.s id).status = .wait) : (h.setSlave id s).Ok := by
  refine ok.setSlave hsettled ?_ ?_ ?_
  · rw [hfd, hwait]
    exact ok.idle
  · rw [hfd, hwait]
    exact ok.wait
  · rw [hfd]
    rintro j hj hne (hpos | hpos)
    · exact ok.distinct hid hj hne.symm hpos
    · exact (ok.distinct hj hid hne hpos).symm

theorem Ok.congr (ok : h.Ok) (hs : h'.s = h.s) : h'.Ok where
  settled := by rw [hs]; exact ok.settled
  idle := by rw [hs]; exact ok.idle
  wait := by rw [hs]; exact ok.wait
  distinct := by rw [hs]; exact ok.distinct

theorem Ok.not_settled (ok : h.Ok) {k : ℕ} (hk : (h.s k).fd = 0 ∨ (h.s k).status = .handshake) :
    ¬(h.s k).status.Settled := by
  rcases hk with hfd | hstatus
  · rw [ok.idle hfd]
    rintro (hs | hs | hs) <;> cases hs
  · rw [hstatus]
    rintro (hs | hs | hs) <;> cases hs

end Harbor

theorem harborOf_lt (handle : UInt32) : harborOf handle < remoteMax := by
  have hlt := handle.toNat_lt
  rw [harborOf, UInt32.toNat_shiftRight, Nat.shiftRight_eq_div_pow, remoteMax,
    show handleRemoteShift32.toNat % 32 = 24 from rfl]
  omega

theorem HarborMove.ok (hm : HarborMove h i out h') (ok : h.Ok) (hallowed : i.Allowed h) :
    h'.Ok := by
  -- only a connection gives a slave a socket, and `Allowed` says that it is a new one
  cases hm with
  | idle _ => exact ok
  | lost hid =>
    refine ok.setSlave ok.settled ?_ ?_ ?_
    · intro hfd
      cases hfd
    · exact fun _ ↦ Int.neg_nonpos_of_nonneg (by decide)
    · rintro j - - (hpos | hpos) heq
      · cases hpos
      · rw [heq] at hpos
        cases hpos
  | data _ hid hdata =>
    have hlt := (slaveOf_fd hid).2.2
    cases hdata with
    | ignored _ => exact ok
    | read hsettled hreads =>
      refine ok.setSlave_of_fd hlt hreads.fd (fun _ ↦ ?_) ?_
      · rcases hreads.queue with heq | hnone
        · rw [heq]
          exact ok.settled hsettled
        · exact hnone
      · rcases hsettled with hs | hs | hs <;> rcases hreads.settled with hs' | hs' | hs' <;>
          rw [hs, hs'] <;> decide
    | refused hstatus _ _ hfd hqueue hdown =>
      exact ok.setSlave_of_fd hlt hfd (fun _ ↦ hqueue) (by rw [hstatus, hdown]; decide)
    | greeted hstatus _ _ _ hfd hqueue hsettled =>
      refine ok.setSlave_of_fd hlt hfd (fun _ ↦ hqueue) ?_
      rcases hsettled with hs | hs | hs <;> rw [hs, hstatus] <;> decide
  | connectS hc hfd hstatus hqueue _ | connectA hc hfd hstatus hqueue _ _ =>
    obtain ⟨hpos, hfresh⟩ := hallowed _ hc
    simp only at hpos hfresh
    refine ok.setSlave ?_ ?_ ?_ ?_
    · first
        | exact fun _ ↦ hqueue
        | (rw [hstatus]; rintro (hs | hs | hs) <;> cases hs)
    · intro h0
      omega
    · rw [hstatus]
      intro h0
      cases h0
    · intro j hj _ _
      rw [hfd]
      exact hfresh j hj
  | pending _ _ hh' _ _ => exact ok.congr (by rw [hh'])
  | handle _ hhandle =>
    cases hhandle with
    | own _ | posted _ _ | refused _ _ => exact ok
    | stored hwait _ hfd hreading =>
      refine ok.setSlave_of_fd (harborOf_lt _) hfd ?_ (by rw [hreading.status])
      rw [hreading.status]
      exact fun hs ↦ absurd hs (ok.not_settled hwait)
  | update _ hname hh' _ _ =>
    refine Harbor.Ok.congr ?_ (congrArg Harbor.s hh')
    cases hname with
    | none _ | posted _ | refused _ _ => exact ok.congr rfl
    | own _ hqueue hfd hreading =>
      exact (ok.setSlave_of_fd (harborOf_lt _) hfd (fun _ ↦ hqueue)
        (by rw [hreading.status])).congr rfl
    | stored hzero _ hfd hreading =>
      refine (ok.setSlave_of_fd (harborOf_lt _) hfd ?_ (by rw [hreading.status])).congr rfl
      rw [hreading.status]
      exact fun hs ↦ absurd hs (ok.not_settled (Or.inl hzero))

end ZTask
