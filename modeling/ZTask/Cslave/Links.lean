import ZTask.Cslave.Decimal
import ZTask.Harbor.Reports
import ZTask.Lib.Mirror

/-!
# Slave and harbor service

`cslave.lua` and the harbor service of its node, the messages on their way between them, and the
sockets that are open. The slave opens sockets to other slaves and accepts them; when a slave is
connected, it hands the socket over by a message and forgets it. The harbor service reports
connections that it loses.

Any socket may be closed at any time. Whoever has it learns of that later; that a socket is lost,
that it is closed or that it cannot be started is not said of an open one.
-/

namespace ZTask

open Lib

structure NodeLinks where
  cslave : Cslave
  harbor : Harbor
  /-- The messages of the slave that the harbor service has not taken, with their sources. -/
  toHarbor : List (Option ℤ × List UInt8)
  /-- The texts of the harbor service that the slave has not taken. -/
  toCslave : List (List UInt8)
  /-- The sockets that the slave has opened or accepted and that have not been closed. -/
  opened : ℕ → Bool

inductive LinksInput
  /-- Something happens to the slave. -/
  | act (input : CslaveInput)
  /-- The slave takes the next text of the harbor service. -/
  | text
  /-- The harbor service takes the next message of the slave. -/
  | command
  /-- The harbor service takes a message of someone else. -/
  | take (input : HarborInput)
  /-- A socket is closed. -/
  | close (fd : ℕ)

/-- What does not happen. -/
inductive LinksFault
  | cslave (fault : CslaveFault)
  | harbor (fault : HarborFault)
  /-- There is no such message. -/
  | nothing
deriving DecidableEq, Repr

/-- The messages to the harbor service, with their sources. -/
def harborMessages (effects : List CslaveEffect) : List (Option ℤ × List UInt8) :=
  effects.filterMap fun effect ↦
    match effect with
    | .harbor source msg => some (source, msg)
    | _ => none

namespace NodeLinks

def init (id : ℕ) (slave : UInt32) : NodeLinks :=
  ⟨.init, harborInit id slave, [], [], fun _ ↦ false⟩

/-- Nothing is said of an open socket that is only true of others. Texts come from the harbor
service. -/
def acts (w : NodeLinks) : CslaveInput → Bool
  | .text _ => false
  | .acceptStarted fd ok => ok || !w.opened fd
  | .closed fd | .lost fd => !w.opened fd
  | _ => true

/-- The same for the harbor service; its commands come from the slave. -/
def takes (w : NodeLinks) : HarborInput → Bool
  | .harbor _ _ => false
  | .socket message _ =>
    decide (message.type = .close ∨ message.type = .error →
      message.id < 0 ∨ w.opened message.id.toNat = false)
  | _ => true

/-- The sockets that are open after an input of the slave. -/
def opens (opened : ℕ → Bool) : CslaveInput → ℕ → Bool
  | .opened _ (some fd) | .accept fd => Function.update opened fd true
  | _ => opened

/-- The slave has gone on. -/
def acted (w : NodeLinks) (p : Cslave × List CslaveEffect) : NodeLinks :=
  { w with cslave := p.1, toHarbor := w.toHarbor ++ harborMessages p.2 }

/-- The harbor service has taken a message. -/
def taken (w : NodeLinks) (p : Harbor × List HarborEffect) : NodeLinks :=
  { w with harbor := p.1, toCslave := w.toCslave ++ reports w.harbor.slave p.2 }

end NodeLinks

/-- The slave and its harbor service. -/
def nodeLinks : Machine NodeLinks LinksInput Unit LinksFault := fun w input ↦
  match input with
  | .act input =>
    if w.acts input = true then
      match cslave w.cslave input with
      | .ok p => .ok ({ w.acted p with opened := NodeLinks.opens w.opened input }, ())
      | .error fault => .error (.cslave fault)
    else .error .nothing
  | .text =>
    match w.toCslave with
    | [] => .error .nothing
    | text :: texts =>
      match cslave w.cslave (.text text) with
      | .ok p => .ok ({ w with toCslave := texts }.acted p, ())
      | .error fault => .error (.cslave fault)
  | .command =>
    match w.toHarbor with
    | [] => .error .nothing
    | (source, msg) :: msgs =>
      match harbor w.harbor (.harbor msg (source.elim w.harbor.slave UInt32.ofInt)) with
      | .ok p => .ok ({ w with toHarbor := msgs }.taken p, ())
      | .error fault => .error (.harbor fault)
  | .take input =>
    if w.takes input = true then
      match harbor w.harbor input with
      | .ok p => .ok (w.taken p, ())
      | .error fault => .error (.harbor fault)
    else .error .nothing
  | .close fd => .ok ({ w with opened := Function.update w.opened fd false }, ())

/-! ## Agreement -/

/-- The slave and the socket that a message of the slave tells of. -/
def linkOf (msg : List UInt8) : Option (ℤ × ℕ) :=
  if msg.head? = some 83 ∨ msg.head? = some 65 then
    some ((scanConnect (msg.drop 2)).2, (scanConnect (msg.drop 2)).1.toNat)
  else none

/-- The slave that a text of the harbor service says is gone. -/
def downOf (text : List UInt8) : Option ℤ :=
  if text.head? = some 68 then tonumber (text.drop 2) else none

/-- The slave that is said to be gone, by the master or by the harbor service. -/
def CslaveInput.gone : CslaveInput → Option ℤ
  | package (.disconnect id) => some id
  | text msg => downOf msg
  | _ => none

/-- The socket of an entry of `slaves`. -/
def SlaveEntry.linkedTo : SlaveEntry → Option ℕ
  | socket fd => some fd
  | _ => none

namespace NodeLinks

/-- The socket the slave has for another one. -/
def table (m : Cslave) (id : ℤ) : Option ℕ := (m.slaves id).linkedTo

/-- The links on their way to the harbor service. -/
def line (w : NodeLinks) : List (ℤ × ℕ) := w.toHarbor.filterMap fun p ↦ linkOf p.2

/-- The socket the harbor service has for a slave. -/
def held (h : Harbor) (id : ℤ) : Option ℕ :=
  if 0 < id ∧ 0 < (h.s id.toNat).fd then some (h.s id.toNat).fd.toNat else none

/-- Its socket for the slave, unless it has closed it itself. -/
def live (h : Harbor) (id : ℤ) : Option ℕ :=
  if (h.s id.toNat).status = .down then none else held h id

/-- A report that the slave is gone is on its way. -/
def told (w : NodeLinks) (id : ℤ) : Prop := ∃ text ∈ w.toCslave, downOf text = some id

/-- The harbor service has closed the connection of the slave, and still has the socket. -/
def Closing (h : Harbor) (id : ℤ) : Prop := (h.s id.toNat).status = .down ∧ held h id ≠ none

/-- `connect_slave` waits for the socket to be started. -/
def Starting (m : Cslave) (fd : ℕ) : Prop := ∃ ready id, m.call ready = some (.starting id fd)

/-- A coroutine of the slave has the socket: it has opened or accepted it, and has not done yet. -/
def InHand (m : Cslave) (fd : ℕ) : Prop := Starting m fd ∨ m.accepting fd ≠ none

/-- Nothing is in flight between the two, and no coroutine is connecting or accepting. -/
structure Quiet (w : NodeLinks) : Prop where
  toHarbor : w.toHarbor = []
  toCslave : w.toCslave = []
  call : ∀ ready, w.cslave.call ready = none
  accepting : ∀ fd, w.cslave.accepting fd = none

/-- The harbor service has no socket for the slave, and gets none. -/
def Gone (w : NodeLinks) (id : ℤ) : Prop := held w.harbor id = none ∧ ∀ p ∈ w.line, p.1 ≠ id

/-- A socket that is opened or accepted is not one that a coroutine has; a `D` comes when the slave
is gone; a link that the harbor service is told of is not refused. -/
def Orderly (w : NodeLinks) : LinksInput → Prop
  | .act (.opened _ (some fd)) | .act (.accept fd) => ¬InHand w.cslave fd
  | .act (.package (.disconnect id)) => w.Gone id
  | .text => ∀ text ∈ w.toCslave.head?, ∀ id ∈ downOf text, w.Gone id
  | .command => ∀ p ∈ w.toHarbor.head?, linkOf p.2 ≠ none → acceptedConnect w.harbor p.2 ≠ none
  | _ => True

/-! ## The slave -/

variable {m m' : Cslave} {out : List CslaveEffect} {opened : ℕ → Bool} {id : ℤ} {fd : ℕ}

@[simp] theorem harborMessages_append (as bs : List CslaveEffect) :
    harborMessages (as ++ bs) = harborMessages as ++ harborMessages bs := List.filterMap_append

@[simp] theorem harborMessages_respond (rs : List CslaveRequest) (result : Option ℤ) :
    harborMessages (Cslave.respond rs result) = [] := by
  rw [harborMessages, Cslave.respond, List.filterMap_map]
  exact List.filterMap_eq_nil_iff.mpr fun _ _ ↦ rfl

private theorem linkOf_nameText (name : List UInt8) : linkOf (nameText name) = none := rfl

theorem linkOf_connectText {command : UInt8} (hcommand : command = 83 ∨ command = 65) :
    linkOf (connectText command fd id) = some (id, fd) := by
  have hhead : (connectText command fd id).head? = some 83 ∨
      (connectText command fd id).head? = some 65 :=
    hcommand.imp (congrArg some) (congrArg some)
  rw [linkOf, if_pos hhead, scanConnect_connectText]
  rfl

/-- What a step of the slave does to its table, and what it tells the harbor service. -/
inductive TableMove (m : Cslave) (input : CslaveInput) :
    Cslave → List (Option ℤ × List UInt8) → Prop
  | same {m' : Cslave} {msgs : List (Option ℤ × List UInt8)} : input.gone = none →
      table m' = table m → (∀ p ∈ msgs, linkOf p.2 = none) → TableMove m input m' msgs
  | linked {m' : Cslave} {command : UInt8} {id : ℤ} {fd : ℕ} : input.gone = none →
      command = 83 ∨ command = 65 → table m' = Function.update (table m) id (some fd) →
      TableMove m input m' [(none, connectText command fd id)]
  | gone {m' : Cslave} {id : ℤ} : input.gone = some id →
      table m' = Function.update (table m) id none → TableMove m input m' []

private theorem table_eq (h : m'.slaves = m.slaves) : table m' = table m := by
  funext id
  rw [table, table, h]

theorem table_update (entry : SlaveEntry) (h : m'.slaves = Function.update m.slaves id entry) :
    table m' = Function.update (table m) id entry.linkedTo := by
  funext j
  by_cases hj : j = id
  · rw [hj, Function.update_self, table, h, Function.update_self]
  · rw [Function.update_of_ne hj, table, table, h, Function.update_of_ne hj]

theorem TableMove.silent {input : CslaveInput} (hgone : input.gone = none)
    (h : m'.slaves = m.slaves)
    (hout : harborMessages out = []) : TableMove m input m' (harborMessages out) := by
  rw [hout]
  exact .same hgone (table_eq h) fun _ hp ↦ nomatch hp

theorem TableMove.named {input : CslaveInput} (hgone : input.gone = none)
    (h : m'.slaves = m.slaves) (hout : ∀ p ∈ harborMessages out, ∃ name, p.2 = nameText name) :
    TableMove m input m' (harborMessages out) := by
  refine .same hgone (table_eq h) fun p hp ↦ ?_
  obtain ⟨name, hname⟩ := hout p hp
  rw [hname, linkOf_nameText]

private theorem connected_table {input : CslaveInput} {command : UInt8} (hgone : input.gone = none)
    (hcommand : command = 83 ∨ command = 65) (hslaves : m'.slaves = m.slaves) :
    TableMove m input (m'.connected command id fd).1
      (harborMessages (m'.connected command id fd).2) := by
  have hout : harborMessages (m'.connected command id fd).2 =
      [(none, connectText command fd id)] := by
    simp only [Cslave.connected, Cslave.monitorClear, harborMessages_append,
      harborMessages_respond]
    rfl
  rw [hout]
  refine .linked hgone hcommand (table_update (.socket fd) ?_)
  rw [← hslaves]
  rfl

private theorem request_table (command : CslaveCommand) (localname : Option ℤ) :
    TableMove m (.request command localname) (m.request command localname).1
      (harborMessages (m.request command localname).2) := by
  cases command with
  | link id =>
    simp only [Cslave.request, Cslave.link]
    split <;> exact .silent rfl rfl rfl
  | connect id =>
    simp only [Cslave.request, Cslave.connect]
    split <;> exact .silent rfl rfl rfl
  | linkmaster => exact .silent rfl rfl rfl
  | queryname name =>
    simp only [Cslave.request, Cslave.queryName]
    split
    · exact .silent rfl rfl rfl
    · split
      · exact .silent rfl rfl rfl
      · split
        · split <;> exact .silent rfl rfl rfl
        · exact .silent rfl rfl rfl
  | register name handle =>
    simp only [Cslave.request, Cslave.register]
    split
    · exact .silent rfl rfl rfl
    · split
      · refine .named rfl rfl fun p hp ↦ ?_
        simp only [Cslave.responseName, harborMessages_append, harborMessages_respond,
          List.nil_append] at hp
        rw [List.mem_singleton.mp hp]
        exact ⟨name, rfl⟩
      · refine .silent rfl rfl ?_
        simp only [Cslave.responseName, harborMessages_append, harborMessages_respond]
        rfl

private theorem text_table (text : List UInt8) :
    TableMove m (.text text) (m.monitorHarbor text).1
      (harborMessages (m.monitorHarbor text).2) := by
  have hgone : (CslaveInput.text text).gone =
      if text.head? = some 68 then tonumber (text.drop 2) else none := rfl
  rw [Cslave.monitorHarbor]
  dsimp only
  split
  next hquery =>
    rw [if_neg (by rw [hquery]; decide)] at hgone
    split
    · refine .named hgone rfl fun p hp ↦ ?_
      rw [List.mem_singleton.mp hp]
      exact ⟨_, rfl⟩
    · refine .silent hgone rfl ?_
      dsimp only
      split <;> rfl
  next =>
    split
    next hdown =>
      rw [if_pos hdown] at hgone
      split
      next hnone => exact .silent (hgone.trans hnone) rfl rfl
      next id hid =>
        rw [hid] at hgone
        cases hentry : m.slaves id with
        | socket fd =>
          have hout : harborMessages (m.monitorClear id).2 = [] := harborMessages_respond _ _
          dsimp only
          rw [hout]
          exact .gone hgone (table_update .gone rfl)
        | unknown | gone => exact .gone hgone (table_update .gone rfl)
    next hdown =>
      rw [if_neg hdown] at hgone
      exact .silent hgone rfl rfl

private theorem package_table (package : MasterPackage) :
    TableMove m (.package package) (m.masterPackage package).1
      (harborMessages (m.masterPackage package).2) := by
  cases package with
  | wait n => exact .silent rfl rfl rfl
  | connect id address =>
    rw [Cslave.masterPackage]
    split <;> exact .silent rfl rfl rfl
  | name name address =>
    rw [Cslave.masterPackage]
    dsimp only [Cslave.responseName]
    refine .named rfl rfl fun p hp ↦ ?_
    rw [harborMessages_append, harborMessages_respond, List.nil_append] at hp
    split at hp
    · rw [List.mem_singleton.mp hp]
      exact ⟨name, rfl⟩
    · cases hp
  | disconnect id =>
    rw [Cslave.masterPackage]
    dsimp only
    have hgone : ∀ {m' : Cslave} {out : List CslaveEffect},
        m'.slaves = Function.update m.slaves id .gone → harborMessages out = [] →
        TableMove m (.package (.disconnect id)) m' (harborMessages out) := by
      intro m' out hslaves hout
      rw [hout]
      exact .gone rfl (table_update .gone hslaves)
    split
    · -- the socket is not in the pool, or is closed
      refine hgone ?_ ?_
      · rw [Cslave.socketClose]
        split
        · rfl
        · rfl
        · rfl
      · rw [Cslave.socketClose]
        split
        · rw [List.append_nil]
          exact harborMessages_respond _ _
        · rw [harborMessages_append, Cslave.monitorClear, harborMessages_respond]
          rfl
        · rw [List.append_nil]
          exact harborMessages_respond _ _
    · exact hgone rfl rfl

theorem resume_same (ready : Bool) (call : Option ConnectSlave) :
    (m.resume ready call).slaves = m.slaves ∧ (m.resume ready call).socketPool = m.socketPool ∧
      (m.resume ready call).accepting = m.accepting := by
  cases ready <;> exact ⟨rfl, rfl, rfl⟩

theorem started_slaves {ok : Bool} (h : m.started fd ok = some m') : m'.slaves = m.slaves := by
  rw [Cslave.started] at h
  split at h
  · cases h
    rfl
  · split at h
    · cases h
      rfl
    · cases h

private theorem socketClose_slaves (m : Cslave) (fd : ℕ) :
    (m.socketClose fd).1.slaves = m.slaves ∧ harborMessages (m.socketClose fd).2.1 = [] := by
  rw [Cslave.socketClose]
  split <;> exact ⟨rfl, rfl⟩

private theorem acceptRead_table (b : Option UInt8) :
    TableMove m (.acceptRead fd b) (m.acceptRead fd b).1
      (harborMessages (m.acceptRead fd b).2) := by
  obtain ⟨hslaves, hout⟩ := socketClose_slaves m fd
  rw [Cslave.acceptRead.eq_def]
  dsimp only
  split
  · exact .silent rfl hslaves hout
  · split
    · exact connected_table rfl (Or.inr rfl) rfl
    · exact .silent rfl hslaves hout

private theorem namesReady_table (m : Cslave) (id : ℤ) :
    TableMove m (.next id) m.namesReady.1 (harborMessages m.namesReady.2) := by
  refine .named rfl rfl fun p hp ↦ ?_
  rw [Cslave.namesReady, harborMessages, List.filterMap_map] at hp
  obtain ⟨q, -, hq⟩ := List.mem_filterMap.mp hp
  cases hq
  exact ⟨_, rfl⟩

private theorem started_table {ready ok : Bool} {slaveId : ℤ} :
    TableMove m (.started ready ok) ((m.resume ready none).connectStarted slaveId fd ok).1
      (harborMessages ((m.resume ready none).connectStarted slaveId fd ok).2) := by
  have hresume := (resume_same (m := m) ready none).1
  rw [Cslave.connectStarted]
  split
  · exact connected_table rfl (Or.inl rfl) ((started_slaves ‹_›).trans hresume)
  · exact .silent rfl hresume rfl

/-- **What a step of the slave does to its table.** -/
theorem cslave_table {input : CslaveInput} (hok : ZTask.cslave m input = .ok (m', out)) :
    TableMove m input m' (harborMessages out) := by
  cases Cslave.cslave_cases hok with
  | request command localname => exact request_table command localname
  | text text => exact text_table text
  | package package => exact package_table package
  | masterLost => exact .silent rfl rfl (harborMessages_respond _ _)
  | opened fd =>
    refine .silent rfl (resume_same _ _).1 ?_
    cases fd <;> rfl
  | started ok => exact started_table
  | namesReady => exact namesReady_table m _
  | acceptStarted _ hstarted =>
    have hslaves := started_slaves hstarted
    exact .silent rfl hslaves rfl
  | acceptRead b => exact acceptRead_table b
  | ready | next | accept | acceptEnded | closed | acceptClosed | lost | lostElsewhere =>
    exact .silent rfl rfl rfl

/-! ## Its coroutines -/

/-- A socket of the slave: its entry in the pool, the coroutine that accepts it, whether
`connect_slave` starts it, and whether it is open. -/
structure Fine (pool : Option Bool) (accepting : Option AcceptSlave) (starting : Prop)
    (isOpen : Bool) : Prop where
  starting : starting → pool = none ∧ accepting = none
  pooled : pool ≠ none → accepting = some .reading ∨ accepting = some .closing
  lost : pool = some false → isOpen = false
  reading : isOpen = true → accepting = some .reading → pool ≠ none

/-- All sockets are in order. -/
def Hands (m : Cslave) (opened : ℕ → Bool) : Prop :=
  ∀ fd, Fine (m.socketPool fd) (m.accepting fd) (Starting m fd) (opened fd)

/-- Sockets that are open are in the hands of a coroutine or handed over, unless they have been out
of hand before. -/
def Keeps (m m' : Cslave) (opened opened' : ℕ → Bool) (msgs : List (Option ℤ × List UInt8)) :
    Prop :=
  ∀ fd, opened' fd = true → InHand m' fd ∨ (∃ p ∈ msgs, ∃ id, linkOf p.2 = some (id, fd)) ∨
    opened fd = true ∧ ¬InHand m fd

/-- Nothing changes about a socket. -/
structure SameSocket (m m' : Cslave) (opened opened' : ℕ → Bool) (fd : ℕ) : Prop where
  pool : m'.socketPool fd = m.socketPool fd
  accepting : m'.accepting fd = m.accepting fd
  starting : Starting m' fd ↔ Starting m fd
  opened : opened' fd = opened fd

variable {opened' : ℕ → Bool} {msgs : List (Option ℤ × List UInt8)}

theorem SameSocket.inHand (h : SameSocket m m' opened opened' fd) : InHand m' fd ↔ InHand m fd := by
  rw [InHand, InHand, h.starting, h.accepting]

/-- A step that changes one socket. -/
theorem Hands.move (h : Hands m opened) (fd : ℕ)
    (hother : ∀ f, f ≠ fd → SameSocket m m' opened opened' f)
    (hfine : Fine (m'.socketPool fd) (m'.accepting fd) (Starting m' fd) (opened' fd))
    (hkeep : opened' fd = true → InHand m' fd ∨ ∃ p ∈ msgs, ∃ id, linkOf p.2 = some (id, fd)) :
    Hands m' opened' ∧ Keeps m m' opened opened' msgs := by
  refine ⟨fun f ↦ ?_, fun f hf ↦ ?_⟩
  · by_cases hne : f = fd
    · rw [hne]
      exact hfine
    · obtain ⟨hpool, haccepting, hstarting, hopened⟩ := hother f hne
      rw [hpool, haccepting, hstarting, hopened]
      exact h f
  · by_cases hne : f = fd
    · subst hne
      exact (hkeep hf).imp_right Or.inl
    · have hsame := hother f hne
      rw [hsame.inHand, ← hsame.opened]
      by_cases hhand : InHand m f
      · exact Or.inl hhand
      · exact Or.inr (Or.inr ⟨hf, hhand⟩)

theorem Hands.stay (h : Hands m opened) (hsame : ∀ f, SameSocket m m' opened opened f) :
    Hands m' opened ∧ Keeps m m' opened opened msgs := by
  refine ⟨fun f ↦ ?_, fun f hf ↦ ?_⟩
  · rw [(hsame f).pool, (hsame f).accepting, (hsame f).starting]
    exact h f
  · rw [(hsame f).inHand]
    by_cases hhand : InHand m f
    · exact Or.inl hhand
    · exact Or.inr (Or.inr ⟨hf, hhand⟩)

private theorem resume_call {ready : Bool} {call : ConnectSlave} (h : m.call ready = some call)
    (x : Option ConnectSlave) (r : Bool) :
    (m.resume ready x).call r = if r = ready then x else m.call r := by
  cases ready with
  | false =>
    cases r with
    | false => cases x <;> rfl
    | true => rfl
  | true =>
    cases r with
    | false => rfl
    | true =>
      simp only [Cslave.call, if_neg (show ¬(true = false) by decide)] at h
      split at h
      next hready =>
        simp only [Cslave.call, Cslave.resume, hready]
        cases x <;> rfl
      next => cases h

private theorem same_hands (h : Hands m opened) (hpool : m'.socketPool = m.socketPool)
    (haccepting : m'.accepting = m.accepting)
    (hcall : ∀ ready id fd, m'.call ready = some (.starting id fd) ↔
      m.call ready = some (.starting id fd)) :
    Hands m' opened ∧ Keeps m m' opened opened msgs := by
  refine h.stay fun f ↦ ⟨congrFun hpool f, congrFun haccepting f, ?_, rfl⟩
  simp only [Starting, hcall]

theorem request_hands (h : Hands m opened) (command : CslaveCommand) (localname : Option ℤ) :
    Hands (m.request command localname).1 opened ∧
      Keeps m (m.request command localname).1 opened opened msgs := by
  have hkeep : (m.request command localname).1.socketPool = m.socketPool ∧
      (m.request command localname).1.accepting = m.accepting ∧
      (m.request command localname).1.call = m.call := by
    cases command with
    | link id =>
      simp only [Cslave.request, Cslave.link]
      split <;> exact ⟨rfl, rfl, rfl⟩
    | connect id =>
      simp only [Cslave.request, Cslave.connect]
      split <;> exact ⟨rfl, rfl, rfl⟩
    | linkmaster => exact ⟨rfl, rfl, rfl⟩
    | queryname name =>
      simp only [Cslave.request, Cslave.queryName]
      split
      · exact ⟨rfl, rfl, rfl⟩
      · split
        · exact ⟨rfl, rfl, rfl⟩
        · split
          · split <;> exact ⟨rfl, rfl, rfl⟩
          · exact ⟨rfl, rfl, rfl⟩
    | register name handle =>
      simp only [Cslave.request, Cslave.register]
      split
      · exact ⟨rfl, rfl, rfl⟩
      · split <;> exact ⟨rfl, rfl, rfl⟩
  obtain ⟨hpool, haccepting, hcall⟩ := hkeep
  exact same_hands h hpool haccepting fun ready id fd ↦ by rw [hcall]

private theorem text_hands (h : Hands m opened) (text : List UInt8) :
    Hands (m.monitorHarbor text).1 opened ∧
      Keeps m (m.monitorHarbor text).1 opened opened msgs := by
  have hkeep : (m.monitorHarbor text).1.socketPool = m.socketPool ∧
      (m.monitorHarbor text).1.accepting = m.accepting ∧
      (m.monitorHarbor text).1.call = m.call := by
    rw [Cslave.monitorHarbor]
    dsimp only
    split
    · split <;> exact ⟨rfl, rfl, rfl⟩
    · split
      · split
        next => exact ⟨rfl, rfl, rfl⟩
        next id _ => cases m.slaves id <;> exact ⟨rfl, rfl, rfl⟩
      · exact ⟨rfl, rfl, rfl⟩
  obtain ⟨hpool, haccepting, hcall⟩ := hkeep
  exact same_hands h hpool haccepting fun ready id fd ↦ by rw [hcall]

/-- A socket that is not open leaves the pool. -/
theorem forget_hands (h : Hands m opened) (fd : ℕ)
    (hpool : m'.socketPool = Function.update m.socketPool fd none)
    (haccepting : ∀ f, f ≠ fd → m'.accepting f = m.accepting f)
    (hfd : m'.accepting fd = m.accepting fd ∨ m'.accepting fd = none)
    (hcall : ∀ ready id fd, m'.call ready = some (.starting id fd) ↔
      m.call ready = some (.starting id fd)) (hclosed : opened fd = false) :
    Hands m' opened ∧ Keeps m m' opened opened msgs := by
  have hstarting : ∀ f, Starting m' f ↔ Starting m f := fun f ↦ by simp only [Starting, hcall]
  refine h.move fd (fun f hf ↦ ?_) ?_ fun hopen ↦ ?_
  · exact ⟨by rw [hpool, Function.update_of_ne hf], haccepting f hf, hstarting f, rfl⟩
  · have hnone : m'.socketPool fd = none := by rw [hpool, Function.update_self]
    rw [hnone, hstarting, hclosed]
    constructor
    · intro hs
      refine ⟨rfl, hfd.elim (fun heq ↦ ?_) id⟩
      rw [heq]
      exact ((h fd).starting hs).2
    · exact fun hne ↦ (hne rfl).elim
    · exact fun _ ↦ rfl
    · exact fun heq ↦ nomatch heq
  · rw [hclosed] at hopen
    cases hopen

private theorem socketClose_cases (m : Cslave) (fd : ℕ) :
    m.socketPool fd = none ∧ m.socketClose fd = (m, [], false) ∨
    m.socketPool fd = some true ∧ m.socketClose fd = (m, [.close fd], true) ∨
    m.socketPool fd = some false ∧ m.socketClose fd = (m.socketClosed fd, [], false) := by
  rw [Cslave.socketClose]
  cases m.socketPool fd with
  | none => exact Or.inl ⟨rfl, rfl⟩
  | some connected =>
    cases connected with
    | true => exact Or.inr (Or.inl ⟨rfl, rfl⟩)
    | false => exact Or.inr (Or.inr ⟨rfl, rfl⟩)

private theorem package_hands (h : Hands m opened) (hreading : m.monitorMaster = .reading)
    (package : MasterPackage) :
    Hands (m.masterPackage package).1 opened ∧
      Keeps m (m.masterPackage package).1 opened opened msgs := by
  have hnone : m.call false = none := by
    rw [Cslave.call, if_pos rfl, hreading]
  have hwaits : ∀ {m' : Cslave}, m'.call true = m.call true →
      (∀ id fd, m'.call false ≠ some (.starting id fd)) → ∀ ready id fd,
      m'.call ready = some (.starting id fd) ↔ m.call ready = some (.starting id fd) := by
    intro m' htrue hfalse ready id fd
    cases ready with
    | true => rw [htrue]
    | false =>
      rw [hnone]
      exact ⟨fun heq ↦ (hfalse id fd heq).elim, fun heq ↦ nomatch heq⟩
  cases package with
  | wait n => exact same_hands h rfl rfl fun _ _ _ ↦ Iff.rfl
  | connect id address =>
    rw [Cslave.masterPackage]
    split
    · exact same_hands h rfl rfl fun _ _ _ ↦ Iff.rfl
    · exact same_hands h rfl rfl (hwaits rfl fun _ _ heq ↦ nomatch heq)
  | name name address => exact same_hands h rfl rfl fun _ _ _ ↦ Iff.rfl
  | disconnect id =>
    rw [Cslave.masterPackage]
    dsimp only
    split
    next fd _ =>
      rcases socketClose_cases ({ m with slaves := Function.update m.slaves id .gone }.monitorClear
        id).1 fd with ⟨-, hclose⟩ | ⟨-, hclose⟩ | ⟨hlost, hclose⟩
      · rw [hclose]
        exact same_hands h rfl rfl fun _ _ _ ↦ Iff.rfl
      · rw [hclose]
        exact same_hands h rfl rfl (hwaits rfl fun _ _ heq ↦ nomatch heq)
      · rw [hclose]
        exact forget_hands h fd rfl (fun _ _ ↦ rfl) (Or.inl rfl) (fun _ _ _ ↦ Iff.rfl)
          ((h fd).lost hlost)
    next => exact same_hands h rfl rfl fun _ _ _ ↦ Iff.rfl

/-- `socket.open` has returned. -/
theorem opened_hands (h : Hands m opened) {ready : Bool} {slaveId : ℤ} {x : Option ℕ}
    (hcall : m.call ready = some (.opening slaveId)) (hfree : ∀ fd ∈ x, ¬InHand m fd) :
    Hands (m.resume ready (Cslave.openReturned slaveId x).1) (opens opened (.opened ready x)) ∧
      Keeps m (m.resume ready (Cslave.openReturned slaveId x).1) opened
        (opens opened (.opened ready x)) msgs := by
  obtain ⟨-, hpool, haccepting⟩ := resume_same (m := m) ready (Cslave.openReturned slaveId x).1
  have hnext := resume_call hcall (Cslave.openReturned slaveId x).1
  cases x with
  | none =>
    refine same_hands h hpool haccepting fun r id fd ↦ ?_
    rw [hnext]
    split
    next hr =>
      rw [hr, hcall]
      exact ⟨(fun heq ↦ nomatch heq), fun heq ↦ nomatch heq⟩
    next => exact Iff.rfl
  | some fd =>
    have hout := hfree fd rfl
    rw [InHand, not_or, not_not] at hout
    have hnone : m.socketPool fd = none := by
      by_contra hne
      rcases (h fd).pooled hne with heq | heq
      · exact nomatch hout.2.symm.trans heq
      · exact nomatch hout.2.symm.trans heq
    have hstarts : Starting (m.resume ready (Cslave.openReturned slaveId (some fd)).1) fd :=
      ⟨ready, slaveId, by rw [hnext, if_pos rfl]; rfl⟩
    refine h.move fd (fun f hf ↦ ?_) ?_ fun _ ↦ Or.inl (Or.inl hstarts)
    · refine ⟨congrFun hpool f, congrFun haccepting f, ?_, Function.update_of_ne hf _ _⟩
      constructor
      · rintro ⟨r, id, hr⟩
        rw [hnext] at hr
        split at hr
        · cases hr
          exact (hf rfl).elim
        · exact ⟨r, id, hr⟩
      · rintro ⟨r, id, hr⟩
        refine ⟨r, id, ?_⟩
        rw [hnext, if_neg, hr]
        rintro rfl
        rw [hcall] at hr
        cases hr
    · rw [hpool, haccepting, hnone, hout.2]
      exact ⟨fun _ ↦ ⟨rfl, rfl⟩, fun hne ↦ (hne rfl).elim, (fun heq ↦ nomatch heq),
        fun _ heq ↦ nomatch heq⟩

/-- The socket of a slave that is connected is handed over. -/
theorem connected_hands (h : Hands m opened) {command : UInt8}
    (hcommand : command = 83 ∨ command = 65) {id : ℤ}
    (hpool : ∀ f, f ≠ fd → m'.socketPool f = m.socketPool f)
    (haccepting : ∀ f, f ≠ fd → m'.accepting f = m.accepting f) (hnone : m'.accepting fd = none)
    (hstarting : ∀ f, f ≠ fd → (Starting m' f ↔ Starting m f)) :
    Hands (m'.connected command id fd).1 opened ∧
      Keeps m (m'.connected command id fd).1 opened opened
        (harborMessages (m'.connected command id fd).2) := by
  have hpool' : (m'.connected command id fd).1.socketPool =
      Function.update m'.socketPool fd none := rfl
  refine h.move fd (fun f hf ↦ ?_) ?_ fun _ ↦ Or.inr ?_
  · refine ⟨?_, haccepting f hf, hstarting f hf, rfl⟩
    rw [hpool', Function.update_of_ne hf, hpool f hf]
  · have hpoolNone : (m'.connected command id fd).1.socketPool fd = none := by
      rw [hpool', Function.update_self]
    have hacceptingNone : (m'.connected command id fd).1.accepting fd = none := hnone
    rw [hpoolNone, hacceptingNone]
    exact ⟨fun _ ↦ ⟨rfl, rfl⟩, fun hne ↦ (hne rfl).elim, (fun heq ↦ nomatch heq),
      fun _ heq ↦ nomatch heq⟩
  · refine ⟨(none, connectText command fd id), ?_, id, linkOf_connectText hcommand⟩
    rw [Cslave.connected, harborMessages_append]
    exact List.mem_append_right _ (List.mem_singleton_self _)

/-- `socket.start` has returned to `connect_slave`. -/
theorem started_hands (h : Hands m opened) {ready : Bool} {slaveId : ℤ} (ok : Bool)
    (hcall : m.call ready = some (.starting slaveId fd)) :
    Hands ((m.resume ready none).connectStarted slaveId fd ok).1 opened ∧
      Keeps m ((m.resume ready none).connectStarted slaveId fd ok).1 opened opened
        (harborMessages ((m.resume ready none).connectStarted slaveId fd ok).2) := by
  obtain ⟨-, hpool, haccepting⟩ := resume_same (m := m) ready none
  have hnext := resume_call hcall none
  obtain ⟨hnone, hidle⟩ := (h fd).starting ⟨ready, slaveId, hcall⟩
  -- the assertion of `socket.start` holds
  have hstarted : ∃ m', (m.resume ready none).started fd ok = some m' ∧
      (∀ f, f ≠ fd → m'.socketPool f = m.socketPool f) ∧ m'.accepting = m.accepting ∧
        m'.call = (m.resume ready none).call := by
    rw [Cslave.started]
    cases ok with
    | false => exact ⟨_, rfl, fun f _ ↦ congrFun hpool f, haccepting, rfl⟩
    | true =>
      rw [if_neg (by decide), if_pos (by rw [hpool, hnone])]
      refine ⟨_, rfl, fun f hf ↦ ?_, haccepting, rfl⟩
      exact (Function.update_of_ne hf _ _).trans (congrFun hpool f)
  obtain ⟨m', hm', hother, hidle', hcall'⟩ := hstarted
  rw [Cslave.connectStarted, hm']
  refine connected_hands h (Or.inl rfl) hother (fun f _ ↦ congrFun hidle' f)
    (by rw [hidle', hidle]) fun f hf ↦ ?_
  simp only [Starting, hcall', hnext]
  constructor
  · rintro ⟨r, id, hr⟩
    split at hr
    · cases hr
    · exact ⟨r, id, hr⟩
  · rintro ⟨r, id, hr⟩
    refine ⟨r, id, ?_⟩
    rw [if_neg, hr]
    rintro rfl
    rw [hcall] at hr
    cases hr
    exact hf rfl

/-- A connection is accepted. -/
theorem accept_hands (h : Hands m opened) (hfree : ¬InHand m fd)
    (hpool : m'.socketPool = m.socketPool) (hcall : m'.call = m.call)
    (haccepting : m'.accepting = Function.update m.accepting fd (some .starting)) :
    Hands m' (opens opened (.accept fd)) ∧ Keeps m m' opened (opens opened (.accept fd)) msgs := by
  rw [InHand, not_or, not_not] at hfree
  have hstarting : ∀ f, Starting m' f ↔ Starting m f := fun f ↦ by simp only [Starting, hcall]
  have hnone : m.socketPool fd = none := by
    by_contra hne
    rcases (h fd).pooled hne with heq | heq
    · exact nomatch hfree.2.symm.trans heq
    · exact nomatch hfree.2.symm.trans heq
  have hhas : m'.accepting fd = some .starting := by rw [haccepting, Function.update_self]
  refine h.move fd (fun f hf ↦ ?_) ?_ fun _ ↦ Or.inl (Or.inr ?_)
  · exact ⟨congrFun hpool f, by rw [haccepting, Function.update_of_ne hf], hstarting f,
      Function.update_of_ne hf _ _⟩
  · rw [hpool, hnone, hhas, hstarting]
    exact ⟨fun hs ↦ (hfree.1 hs).elim, fun hne ↦ (hne rfl).elim, (fun heq ↦ nomatch heq),
      fun _ heq ↦ nomatch heq⟩
  · rw [hhas]
    exact Option.some_ne_none _

/-- `socket.start` has returned to `accept_slave`. -/
theorem acceptStarted_hands (h : Hands m opened) (hwaits : m.accepting fd = some .starting)
    (hpool : m'.socketPool = Function.update m.socketPool fd (some true))
    (haccepting : m'.accepting = Function.update m.accepting fd (some .reading))
    (hcall : m'.call = m.call) : Hands m' opened ∧ Keeps m m' opened opened msgs := by
  have hstarting : ∀ f, Starting m' f ↔ Starting m f := fun f ↦ by simp only [Starting, hcall]
  have hreads : m'.accepting fd = some .reading := by rw [haccepting, Function.update_self]
  have hnot : ¬Starting m fd := fun hs ↦ nomatch hwaits.symm.trans ((h fd).starting hs).2
  refine h.move fd (fun f hf ↦ ?_) ?_ fun _ ↦ Or.inl (Or.inr ?_)
  · exact ⟨by rw [hpool, Function.update_of_ne hf], by rw [haccepting, Function.update_of_ne hf],
      hstarting f, rfl⟩
  · rw [hreads, hpool, Function.update_self, hstarting]
    exact ⟨fun hs ↦ (hnot hs).elim, fun _ ↦ Or.inl rfl, (fun heq ↦ nomatch heq),
      fun _ _ heq ↦ nomatch heq⟩
  · rw [hreads]
    exact Option.some_ne_none _

/-- `accept_slave` ends, or waits for the socket to be closed. -/
theorem acceptClose_hands (h : Hands m opened) (hreads : m.accepting fd = some .reading)
    {waits : Bool} {effects : List CslaveEffect}
    (hclose : m.socketClose fd = (m', effects, waits)) :
    Hands { m' with
        accepting := Function.update m'.accepting fd
          (if waits then some .closing else none) } opened ∧
      Keeps m { m' with
        accepting := Function.update m'.accepting fd (if waits then some .closing else none) }
        opened opened msgs := by
  have hnot : ¬Starting m fd := fun hs ↦ nomatch hreads.symm.trans ((h fd).starting hs).2
  have hclosed : m.socketPool fd = none → opened fd = false := by
    intro hnone
    by_contra hopen
    exact (h fd).reading (Bool.of_not_eq_false hopen) hreads hnone
  rcases socketClose_cases m fd with ⟨hnone, hcase⟩ | ⟨hpool, hcase⟩ | ⟨hlost, hcase⟩
  · cases hcase.symm.trans hclose
    exact forget_hands h fd (by rw [← hnone, Function.update_eq_self])
      (fun f hf ↦ Function.update_of_ne hf _ _) (Or.inr (Function.update_self _ _ _))
      (fun _ _ _ ↦ Iff.rfl) (hclosed hnone)
  · cases hcase.symm.trans hclose
    have hwaits : (Function.update m.accepting fd (some AcceptSlave.closing)) fd = some .closing :=
      Function.update_self _ _ _
    refine h.move fd
      (fun f hf ↦ ⟨rfl, Function.update_of_ne hf _ _, Iff.rfl, rfl⟩) ?_ fun _ ↦ Or.inl (Or.inr ?_)
    · refine ⟨fun hs ↦ (hnot hs).elim, fun _ ↦ Or.inr hwaits, fun heq ↦ ?_, fun _ heq ↦ ?_⟩
      · exact nomatch hpool.symm.trans heq
      · exact nomatch hwaits.symm.trans heq
    · exact fun heq ↦ nomatch hwaits.symm.trans heq
  · cases hcase.symm.trans hclose
    exact forget_hands h fd rfl (fun f hf ↦ Function.update_of_ne hf _ _)
      (Or.inr (Function.update_self _ _ _)) (fun _ _ _ ↦ Iff.rfl) ((h fd).lost hlost)

private theorem acceptRead_hands (h : Hands m opened) (hreads : m.accepting fd = some .reading)
    (b : Option UInt8) :
    Hands (m.acceptRead fd b).1 opened ∧
      Keeps m (m.acceptRead fd b).1 opened opened (harborMessages (m.acceptRead fd b).2) := by
  rw [Cslave.acceptRead.eq_def]
  dsimp only
  split
  · exact acceptClose_hands h hreads rfl
  · split
    · exact connected_hands h (Or.inr rfl) (fun _ _ ↦ rfl)
        (fun f hf ↦ Function.update_of_ne hf _ _) (Function.update_self _ _ _) fun _ _ ↦ Iff.rfl
    · exact acceptClose_hands h hreads rfl

/-- A socket is lost. -/
theorem lost_hands (h : Hands m opened) (hpool : m.socketPool fd ≠ none)
    (hclosed : opened fd = false) :
    Hands { m with socketPool := Function.update m.socketPool fd (some false) } opened ∧
      Keeps m { m with socketPool := Function.update m.socketPool fd (some false) } opened opened
        msgs := by
  refine h.move fd (fun f hf ↦ ⟨Function.update_of_ne hf _ _, rfl, Iff.rfl, rfl⟩) ?_ ?_
  · refine ⟨fun hs ↦ ?_, fun _ ↦ (h fd).pooled hpool, fun _ ↦ hclosed, fun hopen ↦ ?_⟩
    · exact absurd ((h fd).starting hs).1 hpool
    · rw [hclosed] at hopen
      cases hopen
  · intro hopen
    rw [hclosed] at hopen
    cases hopen

/-- `monitor_master` is not in `connect_slave`, and is not after the step. -/
theorem monitor_hands (h : Hands m opened) (hpool : m'.socketPool = m.socketPool)
    (haccepting : m'.accepting = m.accepting) (htrue : m'.call true = m.call true)
    (hbefore : m.call false = none) (hafter : m'.call false = none) :
    Hands m' opened ∧ Keeps m m' opened opened msgs := by
  refine same_hands h hpool haccepting fun ready id fd ↦ ?_
  cases ready with
  | true => rw [htrue]
  | false => rw [hbefore, hafter]

/-- `ready` is not in `socket.start`, and is not after the step. -/
theorem ready_hands (h : Hands m opened) (hpool : m'.socketPool = m.socketPool)
    (haccepting : m'.accepting = m.accepting) (hfalse : m'.call false = m.call false)
    (hbefore : m.call true = none) (hafter : ∀ id fd, m'.call true ≠ some (.starting id fd)) :
    Hands m' opened ∧ Keeps m m' opened opened msgs := by
  refine same_hands h hpool haccepting fun ready id fd ↦ ?_
  cases ready with
  | true =>
    rw [hbefore]
    exact ⟨fun heq ↦ (hafter id fd heq).elim, fun heq ↦ nomatch heq⟩
  | false => rw [hfalse]

private theorem call_ready_next {queue : AList fun _ : ℤ ↦ List UInt8} (h : m.ready = .next queue) :
    m.call true = none := by
  simp [Cslave.call, h]

/-- A socket that `accept_slave` starts is not in the pool. -/
theorem Hands.unpooled (h : Hands m opened) (hwaits : m.accepting fd = some .starting) :
    m.socketPool fd = none := by
  by_contra hne
  rcases (h fd).pooled hne with heq | heq <;> exact nomatch hwaits.symm.trans heq

/-- **What a step of the slave does to the sockets it has.** -/
theorem cslave_hands {input : CslaveInput} (h : Hands m opened)
    (hok : ZTask.cslave m input = .ok (m', out))
    (hstarted : ∀ fd, input = .acceptStarted fd false → opened fd = false)
    (hclosed : ∀ fd, input = .closed fd ∨ input = .lost fd → opened fd = false)
    (hfree : ∀ fd, (∃ ready, input = .opened ready (some fd)) ∨ input = .accept fd →
      ¬InHand m fd) :
    Hands m' (opens opened input) ∧
      Keeps m m' opened (opens opened input) (harborMessages out) := by
  -- one case for each move of the slave; only opening, accepting and closing move a socket
  cases Cslave.cslave_cases hok with
  | request command localname => exact request_hands h command localname
  | text text => exact text_hands h text
  | package package hreading => exact package_hands h hreading package
  | masterLost hreading =>
    exact monitor_hands h rfl rfl rfl (by rw [Cslave.call, if_pos rfl, hreading]) rfl
  | @opened ready _ fd hcall =>
    refine opened_hands h hcall ?_
    rintro fd' rfl
    exact hfree fd' (Or.inl ⟨ready, rfl⟩)
  | started ok hcall => exact started_hands h ok hcall
  | ready hready =>
    exact ready_hands h rfl rfl rfl (by simp [Cslave.call, hready]) fun id fd heq ↦ nomatch heq
  | next hready =>
    exact ready_hands h rfl rfl rfl (call_ready_next hready) fun id fd heq ↦ nomatch heq
  | namesReady hready =>
    exact ready_hands h rfl rfl rfl (call_ready_next hready) fun id fd heq ↦ nomatch heq
  | @accept fd => exact accept_hands h (hfree fd (Or.inr rfl)) rfl rfl rfl
  | @acceptStarted fd _ hwaits hmade =>
    rw [Cslave.started, if_neg (by decide), if_pos (h.unpooled hwaits)] at hmade
    cases hmade
    exact acceptStarted_hands h hwaits rfl rfl rfl
  | @acceptEnded fd ok hwaits hfails =>
    have hnone := h.unpooled hwaits
    have hok : ok = false := by
      cases ok with
      | false => rfl
      | true =>
        have := hfails rfl
        rw [Cslave.started, if_neg (by decide), if_pos hnone] at this
        cases this
    subst hok
    refine forget_hands h fd ?_ (fun f hf ↦ Function.update_of_ne hf _ _)
      (Or.inr (Function.update_self _ _ _)) (fun _ _ _ ↦ Iff.rfl) (hstarted fd rfl)
    rw [← hnone, Function.update_eq_self]
  | acceptRead b hreads => exact acceptRead_hands h hreads b
  | @closed fd hcloses =>
    have hnone : m.call false = none := by rw [Cslave.call, if_pos rfl, hcloses]
    refine forget_hands h fd rfl (fun _ _ ↦ rfl) (Or.inl rfl) (fun ready id f ↦ ?_)
      (hclosed fd (Or.inl rfl))
    cases ready with
    | true => exact Iff.rfl
    | false =>
      rw [hnone]
      exact ⟨(fun heq ↦ nomatch heq), fun heq ↦ nomatch heq⟩
  | @acceptClosed fd =>
    exact forget_hands h fd rfl (fun f hf ↦ Function.update_of_ne hf _ _)
      (Or.inr (Function.update_self _ _ _)) (fun _ _ _ ↦ Iff.rfl) (hclosed fd (Or.inl rfl))
  | @lost fd hpool => exact lost_hands h hpool (hclosed fd (Or.inr rfl))
  | lostElsewhere fd => exact same_hands h rfl rfl fun _ _ _ ↦ Iff.rfl

end NodeLinks
end ZTask
