import ZTask.Cslave.Waiting
import ZTask.Master.Cmaster

/-!
# The master and its slaves

`cmaster.lua` and any number of nodes with `cslave.lua`, and the packages on their way between them.
A connection is a queue in either direction. A slave reports itself when it is connected, waits for
the `W` of the master, and reads the packages of the master one by one after that; services make
requests of it from the beginning.

A connection may be lost at any time. The two sides learn of it apart. What has been written and not
been read by then is not read any more.
-/

namespace ZTask

open Lib

/-- A node. -/
structure NetNode where
  /-- The socket of the master. -/
  fd : ℕ
  /-- The master reads from the connection. -/
  linked : Bool
  /-- The slave waits for `W`. -/
  waiting : Bool
  cslave : Cslave
  /-- What the master has not read of the packages written to it. -/
  up : List SlavePackage
  /-- What the slave has not read of the packages written to it. -/
  down : List MasterPackage
  /-- What has been written when the connection had been lost. -/
  unsent : List SlavePackage

namespace NetNode

/-- The packages that a slave writes to the master. -/
def slaveWrites (out : List CslaveEffect) : List SlavePackage :=
  out.filterMap fun effect ↦
    match effect with
    | .write package => some package
    | _ => none

/-- The packages that the master writes to a socket. -/
def writesTo (fd : ℕ) (writes : MasterWrites) : List MasterPackage :=
  writes.filterMap fun w ↦ if w.1 = fd then some w.2 else none

/-- The slave goes on. It does not write to a connection that it knows to be lost. -/
def run (n : NetNode) (p : Cslave × List CslaveEffect) : NetNode :=
  if n.cslave.monitorMaster = .ended then
    { n with cslave := p.1, unsent := n.unsent ++ slaveWrites p.2 }
  else { n with cslave := p.1, up := n.up ++ slaveWrites p.2 }

/-- What the master writes goes to the connections that are not lost. -/
def deliver (n : NetNode) (writes : MasterWrites) : NetNode :=
  if n.linked then { n with down := n.down ++ writesTo n.fd writes } else n

/-- What the slave has written and the master has not read. -/
def unread (n : NetNode) : List SlavePackage := n.up ++ n.unsent

end NetNode

structure Network where
  master : Master
  node : ℕ → Option NetNode

namespace Network

def init : Network := ⟨.init, fun _ ↦ none⟩

/-- A step of a slave. -/
def setNode (s : Network) (k : ℕ) (n : NetNode) : Network :=
  { s with node := Function.update s.node k (some n) }

/-- A step of the master, for the node `k`. -/
def settle (s : Network) (k : ℕ) (n : NetNode) (p : Master × MasterWrites) : Network where
  master := p.1
  node k' := (Function.update s.node k (some n) k').map fun n' ↦ n'.deliver p.2

end Network

/-- What happens in the network. -/
inductive NetworkInput
  /-- A node connects to the master, and reports itself. -/
  | connect (k fd : ℕ) (id : ℤ) (addr : List UInt8)
  /-- The master reads a package of the node. -/
  | arrive (k : ℕ)
  /-- The master learns that the connection of the node is lost. -/
  | lost (k : ℕ)
  /-- The slave reads a package of the master. -/
  | read (k : ℕ)
  /-- The slave learns that its connection is lost. -/
  | ended (k : ℕ)
  /-- Anything else that happens to a slave. -/
  | act (k : ℕ) (input : CslaveInput)
deriving DecidableEq, Repr

/-- What does not happen in the network. -/
inductive NetworkFault
  | master (fault : MasterFault)
  | cslave (fault : CslaveFault)
  /-- There is no such node, or nothing to read. -/
  | nothing
  /-- The slave waits for `W` and does not get it. -/
  | shakehand
deriving DecidableEq, Repr

namespace CslaveInput

/-- What is not about the connection to the master. -/
def isLocal : CslaveInput → Bool
  | .package _ | .masterLost => false
  | _ => true

/-- What may happen before the slave has been told how many slaves to wait for. -/
def isEarly : CslaveInput → Bool
  | .request _ _ | .text _ => true
  | _ => false

end CslaveInput

/-- The network. -/
def network : Machine Network NetworkInput MasterWrites NetworkFault := fun s input ↦
  match input with
  | .connect k fd id addr =>
    match s.node k, ZTask.master s.master (.accept fd) with
    | none, .ok (m, writes) =>
      .ok (s.settle k ⟨fd, true, true, .init, [.handshake id addr], [], []⟩ (m, writes), writes)
    | none, .error fault => .error (.master fault)
    | some _, _ => .error .nothing
  | .arrive k =>
    match s.node k with
    | some n =>
      match n.linked, n.up with
      | true, package :: up =>
        match ZTask.master s.master (.receive n.fd package) with
        | .ok (m, writes) =>
          .ok (s.settle k { n with
            up := up
            linked := decide (n.fd ∈ m.handshaking ∨ n.fd ∈ m.monitors) } (m, writes), writes)
        | .error fault => .error (.master fault)
      | _, _ => .error .nothing
    | none => .error .nothing
  | .lost k =>
    match s.node k with
    | some n =>
      if n.linked = true then
        match ZTask.master s.master (.lost n.fd) with
        | .ok (m, writes) => .ok (s.settle k { n with linked := false } (m, writes), writes)
        | .error fault => .error (.master fault)
      else .error .nothing
    | none => .error .nothing
  | .read k =>
    match s.node k with
    | some n =>
      match n.waiting, n.down with
      | true, .wait _ :: down =>
        .ok (s.setNode k { n with waiting := false, down := down }, [])
      | true, _ :: _ => .error .shakehand
      | false, package :: down =>
        match ZTask.cslave n.cslave (.package package) with
        | .ok p => .ok (s.setNode k ({ n with down := down }.run p), [])
        | .error fault => .error (.cslave fault)
      | _, [] => .error .nothing
    | none => .error .nothing
  | .ended k =>
    match s.node k with
    | some n =>
      if n.waiting = false then
        match ZTask.cslave n.cslave .masterLost with
        | .ok p => .ok (s.setNode k (n.run p), [])
        | .error fault => .error (.cslave fault)
      else .error .shakehand
    | none => .error .nothing
  | .act k input =>
    match s.node k with
    | some n =>
      if input.isLocal = true ∧ (n.waiting = true → input.isEarly = true) then
        match ZTask.cslave n.cslave input with
        | .ok p => .ok (s.setNode k (n.run p), [])
        | .error fault => .error (.cslave fault)
      else .error .nothing
    | none => .error .nothing

/-- What a step of the network comes to. -/
inductive NetworkStep (s : Network) : NetworkInput → Network → MasterWrites → Prop
  | connect {k fd : ℕ} {id : ℤ} {addr : List UInt8} {m : Master} {writes : MasterWrites} :
      s.node k = none → ZTask.master s.master (.accept fd) = .ok (m, writes) →
      NetworkStep s (.connect k fd id addr)
        (s.settle k ⟨fd, true, true, .init, [.handshake id addr], [], []⟩ (m, writes)) writes
  | arrive {k : ℕ} {n : NetNode} {package : SlavePackage} {up : List SlavePackage} {m : Master}
      {writes : MasterWrites} : s.node k = some n → n.linked = true → n.up = package :: up →
      ZTask.master s.master (.receive n.fd package) = .ok (m, writes) →
      NetworkStep s (.arrive k) (s.settle k { n with
        up := up
        linked := decide (n.fd ∈ m.handshaking ∨ n.fd ∈ m.monitors) } (m, writes)) writes
  | lost {k : ℕ} {n : NetNode} {m : Master} {writes : MasterWrites} :
      s.node k = some n → n.linked = true → ZTask.master s.master (.lost n.fd) = .ok (m, writes) →
      NetworkStep s (.lost k) (s.settle k { n with linked := false } (m, writes)) writes
  | greeted {k : ℕ} {n : NetNode} {package : MasterPackage} {down : List MasterPackage} :
      s.node k = some n → n.down = package :: down →
      NetworkStep s (.read k) (s.setNode k { n with waiting := false, down := down }) []
  | read {k : ℕ} {n : NetNode} {package : MasterPackage} {down : List MasterPackage}
      {p : Cslave × List CslaveEffect} : s.node k = some n → n.down = package :: down →
      ZTask.cslave n.cslave (.package package) = .ok p →
      NetworkStep s (.read k) (s.setNode k ({ n with waiting := false, down := down }.run p)) []
  | ended {k : ℕ} {n : NetNode} {p : Cslave × List CslaveEffect} : s.node k = some n →
      ZTask.cslave n.cslave .masterLost = .ok p →
      NetworkStep s (.ended k) (s.setNode k (n.run p)) []
  | act {k : ℕ} {input : CslaveInput} {n : NetNode} {p : Cslave × List CslaveEffect} :
      s.node k = some n → input.isLocal = true → ZTask.cslave n.cslave input = .ok p →
      NetworkStep s (.act k input) (s.setNode k (n.run p)) []

theorem network_cases {s s' : Network} {input : NetworkInput} {writes : MasterWrites}
    (hm : network s input = .ok (s', writes)) : NetworkStep s input s' writes := by
  cases input with
  | connect k fd id addr =>
    cases hnode : s.node k with
    | some n => simp [network, hnode] at hm
    | none =>
      cases haccept : ZTask.master s.master (.accept fd) with
      | error fault => simp [network, hnode, haccept] at hm
      | ok p =>
        simp only [network, hnode, haccept, Except.ok.injEq, Prod.mk.injEq] at hm
        obtain ⟨rfl, rfl⟩ := hm
        exact .connect hnode haccept
  | arrive k =>
    cases hnode : s.node k with
    | none => simp [network, hnode] at hm
    | some n =>
      cases hlinked : n.linked with
      | false => simp [network, hnode, hlinked] at hm
      | true =>
        cases hup : n.up with
        | nil => simp [network, hnode, hlinked, hup] at hm
        | cons package up =>
          cases hreceive : ZTask.master s.master (.receive n.fd package) with
          | error fault => simp [network, hnode, hlinked, hup, hreceive] at hm
          | ok p =>
            simp only [network, hnode, hlinked, hup, hreceive, Except.ok.injEq, Prod.mk.injEq] at hm
            obtain ⟨rfl, rfl⟩ := hm
            exact .arrive hnode hlinked hup hreceive
  | lost k =>
    cases hnode : s.node k with
    | none => simp [network, hnode] at hm
    | some n =>
      by_cases hlinked : n.linked = true
      · cases hlost : ZTask.master s.master (.lost n.fd) with
        | error fault => simp [network, hnode, hlinked, hlost] at hm
        | ok p =>
          simp only [network, hnode, if_pos hlinked, hlost, Except.ok.injEq, Prod.mk.injEq] at hm
          obtain ⟨rfl, rfl⟩ := hm
          exact .lost hnode hlinked hlost
      · simp [network, hnode, hlinked] at hm
  | read k =>
    cases hnode : s.node k with
    | none => simp [network, hnode] at hm
    | some n =>
      cases hdown : n.down with
      | nil => cases hwaiting : n.waiting <;> simp [network, hnode, hdown, hwaiting] at hm
      | cons package down =>
        cases hwaiting : n.waiting with
        | true =>
          cases package with
          | wait id =>
            simp only [network, hnode, hdown, hwaiting, Except.ok.injEq, Prod.mk.injEq] at hm
            obtain ⟨rfl, rfl⟩ := hm
            exact .greeted hnode hdown
          | _ => simp [network, hnode, hdown, hwaiting] at hm
        | false =>
          cases hcslave : ZTask.cslave n.cslave (.package package) with
          | error fault => simp [network, hnode, hdown, hwaiting, hcslave] at hm
          | ok p =>
            simp only [network, hnode, hdown, hwaiting, hcslave, Except.ok.injEq,
              Prod.mk.injEq] at hm
            obtain ⟨rfl, rfl⟩ := hm
            exact .read hnode hdown hcslave
  | ended k =>
    cases hnode : s.node k with
    | none => simp [network, hnode] at hm
    | some n =>
      by_cases hwaiting : n.waiting = false
      · cases hcslave : ZTask.cslave n.cslave .masterLost with
        | error fault => simp [network, hnode, hwaiting, hcslave] at hm
        | ok p =>
          simp only [network, hnode, if_pos hwaiting, hcslave, Except.ok.injEq, Prod.mk.injEq] at hm
          obtain ⟨rfl, rfl⟩ := hm
          exact .ended hnode hcslave
      · simp [network, hnode, hwaiting] at hm
  | act k input =>
    cases hnode : s.node k with
    | none => simp [network, hnode] at hm
    | some n =>
      by_cases hlocal : input.isLocal = true ∧ (n.waiting = true → input.isEarly = true)
      · cases hcslave : ZTask.cslave n.cslave input with
        | error fault =>
          simp only [network, hnode, if_pos hlocal, hcslave] at hm
          cases hm
        | ok p =>
          simp only [network, hnode, if_pos hlocal, hcslave, Except.ok.injEq, Prod.mk.injEq] at hm
          obtain ⟨rfl, rfl⟩ := hm
          exact .act hnode hlocal.1 hcslave
      · simp [network, hnode, if_neg hlocal] at hm

/-! ## Steps of the two sides -/

/-- What makes a slave know a name: a request to register it, or a package of the master. -/
inductive Learns (m : Cslave) : CslaveInput → Cslave → List CslaveEffect → Prop
  | same {input : CslaveInput} {m' : Cslave} {out : List CslaveEffect} :
    m'.globalname = m.globalname →
      Learns m input m' out
  | told {name : List UInt8} {address : ℤ} {m' : Cslave} {out : List CslaveEffect} :
      m'.globalname = m.globalname.insert name address →
      Learns m (.package (.name name address)) m' out
  | registered {name : List UInt8} {handle : ℤ} {localname : Option ℤ} {m' : Cslave}
      {out : List CslaveEffect} :
      m'.globalname = m.globalname.insert name handle →
      ((SlavePackage.register name (some handle)).fits = true →
        .write (.register name (some handle)) ∈ out) →
      Learns m (.request (.register name handle) localname) m' out

section Slave

variable {m m' : Cslave} {out : List CslaveEffect}

private theorem learns_request (m : Cslave) (command : CslaveCommand) (localname : Option ℤ) :
    Learns m (.request command localname) (m.request command localname).1
      (m.request command localname).2 := by
  cases command with
  | link id | connect id =>
    refine .same ?_
    rw [Cslave.request]
    first | rw [Cslave.link] | rw [Cslave.connect]
    dsimp only
    split <;> rfl
  | linkmaster => exact .same rfl
  | queryname name =>
    refine .same ?_
    simp only [Cslave.request, Cslave.queryName]
    cases m.globalname.lookup name with
    | some result => split <;> rfl
    | none => split_ifs <;> rfl
  | register name handle =>
    simp only [Cslave.request, Cslave.register]
    cases hlookup : m.globalname.lookup name with
    | some _ => exact .same rfl
    | none =>
      by_cases hfits : (SlavePackage.register name (some handle)).fits = true
      · simp only [if_pos hfits]
        exact .registered rfl fun _ ↦ by simp
      · simp only [if_neg hfits]
        exact .registered rfl fun h ↦ (hfits h).elim

private theorem learns_package (m : Cslave) (package : MasterPackage) :
    Learns m (.package package) (m.masterPackage package).1 (m.masterPackage package).2 := by
  cases package with
  | wait n => exact .same rfl
  | connect id address =>
    refine .same ?_
    rw [Cslave.masterPackage]
    split <;> rfl
  | name name address => exact .told rfl
  | disconnect id =>
    refine .same ?_
    rw [Cslave.masterPackage]
    dsimp only
    split
    next fd _ =>
      split
      · exact (Cslave.socketClose_same _ fd).1.globalname
      · exact (Cslave.socketClose_same _ fd).1.globalname
    next => rfl

private theorem learns_text (m : Cslave) (command : List UInt8) :
    Learns m (.text command) (m.monitorHarbor command).1 (m.monitorHarbor command).2 := by
  refine .same ?_
  simp only [Cslave.monitorHarbor]
  split
  · split <;> rfl
  · split
    · split
      · rfl
      · dsimp only
        split <;> rfl
    · rfl

private theorem learns_acceptRead (m : Cslave) (fd : ℕ) (id : Option UInt8) :
    Learns m (.acceptRead fd id) (m.acceptRead fd id).1 (m.acceptRead fd id).2 := by
  refine .same ?_
  cases id with
  | none => exact (Cslave.socketClose_same m fd).1.globalname
  | some id =>
    rw [Cslave.acceptRead]
    split
    · rfl
    · exact (Cslave.socketClose_same m fd).1.globalname

/-- **A step** of a slave makes nothing else known. -/
theorem cslave_learns {input : CslaveInput} (h : cslave m input = .ok (m', out)) :
    Learns m input m' out := by
  cases Cslave.cslave_cases h with
  | request command localname => exact learns_request m command localname
  | text command => exact learns_text m command
  | package package => exact learns_package m package
  | opened fd hcall => exact .same (Cslave.resume_same hcall).globalname
  | @started ready slaveId fd ok hcall =>
    have hresume := (@Cslave.resume_same m ready none _ hcall).globalname
    refine .same ?_
    rw [Cslave.connectStarted]
    cases hstarted : (m.resume ready none).started fd ok with
    | some m' => exact (Cslave.started_same hstarted).globalname.trans hresume
    | none => exact hresume
  | acceptStarted _ hstarted =>
    have hsame := (Cslave.started_same hstarted).globalname
    exact .same hsame
  | acceptRead id => exact learns_acceptRead m _ id
  | masterLost | ready | next | namesReady | accept | acceptEnded | closed | acceptClosed | lost
  | lostElsewhere => exact .same rfl

end Slave

section Master

variable {m m' : Master} {fd : ℕ} {package : SlavePackage} {writes : MasterWrites}

/-- What the master does with a package. -/
inductive Serves (m : Master) (fd : ℕ) (package : SlavePackage) : Master → MasterWrites → Prop
  | refused : fd ∈ m.handshaking → Serves m fd package (m.endHandshake fd) []
  | joined {slaveId : ℤ} {slaveAddr : List UInt8} : fd ∈ m.handshaking →
      Serves m fd package { m.endHandshake fd with
        slaveNode := m.slaveNode.insert slaveId ⟨fd, slaveId, slaveAddr⟩
        monitors := m.monitors.insert fd slaveId } (m.reportSlave fd slaveId slaveAddr)
  | dispatched {m' : Master} {writes : MasterWrites} : fd ∉ m.handshaking → fd ∈ m.monitors →
      m.dispatchSlave fd package = some (m', writes) → Serves m fd package m' writes
  | left {slaveId : ℤ} : fd ∉ m.handshaking → m.dispatchSlave fd package = none →
      Serves m fd package (m.endMonitor fd slaveId).1 (m.endMonitor fd slaveId).2

theorem master_serves (h : master m (.receive fd package) = .ok (m', writes)) :
    Serves m fd package m' writes := by
  rw [master] at h
  by_cases hhandshaking : fd ∈ m.handshaking
  · rw [if_pos hhandshaking] at h
    cases package with
    | handshake id addr =>
      by_cases hzero : id = 0
      · simp only [Master.handshake, if_pos hzero] at h
        cases h
        exact .refused hhandshaking
      · simp only [Master.handshake, if_neg hzero, Master.startMonitor, AList.lookup_insert,
          Option.map_some] at h
        cases h
        exact .joined hhandshaking
    | register _ _ | query _ | unknown | malformed =>
      cases h
      exact .refused hhandshaking
  · rw [if_neg hhandshaking] at h
    cases hlookup : m.monitors.lookup fd with
    | none =>
      rw [hlookup] at h
      cases h
    | some slaveId =>
      rw [hlookup] at h
      cases hdispatch : m.dispatchSlave fd package with
      | none =>
        simp only [hdispatch] at h
        cases h
        exact .left hhandshaking hdispatch
      | some p =>
        simp only [hdispatch] at h
        cases h
        exact .dispatched hhandshaking
          (AList.lookup_isSome.mp (by rw [hlookup]; rfl)) hdispatch

/-- The names the master writes are those it has, and those stay. -/
structure KeepsNames (m m' : Master) (writes : MasterWrites) : Prop where
  kept : ∀ {name address}, m.globalName name = some address → m'.globalName name = some address
  written : ∀ {fd name address}, (fd, .name name address) ∈ writes →
    m'.globalName name = some address

/-- Other connections stay as they are. -/
def KeepsOthers (m m' : Master) (fd : ℕ) : Prop :=
  ∀ x ≠ fd, (x ∈ m'.handshaking ↔ x ∈ m.handshaking) ∧ (x ∈ m'.monitors ↔ x ∈ m.monitors)

/-- A name that is registered once more is registered for the same address. -/
def Master.Agreed (m : Master) : SlavePackage → Prop
  | .register name (some address) =>
    m.globalName name = none ∨ m.globalName name = some address
  | _ => True

private theorem reportSlave_names {slaveId : ℤ} {slaveAddr : List UInt8} {x : ℕ} {name : List UInt8}
    {address : ℤ} : (x, .name name address) ∉ m.reportSlave fd slaveId slaveAddr := by
  intro hmem
  rcases List.mem_append.mp hmem with hmem | hmem
  · obtain ⟨_, -, heq⟩ := List.mem_map.mp hmem
    cases heq
  · cases List.mem_singleton.mp hmem

private theorem endMonitor_names {slaveId : ℤ} {x : ℕ} {name : List UInt8} {address : ℤ} :
    (x, .name name address) ∉ (m.endMonitor fd slaveId).2 := by
  intro hmem
  obtain ⟨_, -, heq⟩ := List.mem_map.mp hmem
  cases heq

private theorem dispatch_names (hagreed : m.Agreed package)
    (h : m.dispatchSlave fd package = some (m', writes)) : KeepsNames m m' writes := by
  cases package with
  | register name address =>
    cases address with
    | none => cases h
    | some address =>
      rw [Master.dispatchSlave] at h
      cases h
      rcases hagreed with hnone | hsome
      · simp only [if_pos hnone]
        refine ⟨fun {name' address'} hkept ↦ ?_, fun {x name' address'} hmem ↦ ?_⟩
        · have hne : name' ≠ name := by
            rintro rfl
            rw [hnone] at hkept
            cases hkept
          dsimp only
          rw [Function.update_of_ne hne]
          exact hkept
        · obtain ⟨_, -, heq⟩ := List.mem_map.mp hmem
          cases heq
          exact Function.update_self _ _ _
      · have hne : m.globalName name ≠ none := by
          rw [hsome]
          exact fun heq ↦ by cases heq
        simp only [if_neg hne]
        refine ⟨id, fun {x name' address'} hmem ↦ ?_⟩
        obtain ⟨_, -, heq⟩ := List.mem_map.mp hmem
        cases heq
        exact hsome
  | query name =>
    rw [Master.dispatchSlave] at h
    split at h
    next address haddress =>
      cases h
      refine ⟨id, fun {x name' address'} hmem ↦ ?_⟩
      cases List.mem_singleton.mp hmem
      exact haddress
    next =>
      cases h
      exact ⟨id, fun hmem ↦ by cases hmem⟩
  | handshake id addr | unknown =>
    cases h
    exact ⟨fun hkept ↦ hkept, fun hmem ↦ by cases hmem⟩
  | malformed => cases h

theorem Serves.names (h : Serves m fd package m' writes) (hagreed : m.Agreed package) :
    KeepsNames m m' writes := by
  cases h with
  | refused _ => exact ⟨id, fun hmem ↦ nomatch hmem⟩
  | joined _ => exact ⟨id, fun hmem ↦ (reportSlave_names hmem).elim⟩
  | dispatched _ _ hdispatch => exact dispatch_names hagreed hdispatch
  | left _ _ => exact ⟨id, fun hmem ↦ (endMonitor_names hmem).elim⟩

/-- What is registered is known. -/
theorem Serves.registered {name : List UInt8} {address : ℤ}
    (h : Serves m fd (.register name (some address)) m' writes)
    (hhandshaking : fd ∉ m.handshaking)
    (hagreed : m.Agreed (.register name (some address))) : m'.globalName name = some address := by
  cases h with
  | refused hmem => exact (hhandshaking hmem).elim
  | joined hmem => exact (hhandshaking hmem).elim
  | dispatched _ _ hdispatch =>
    cases hdispatch
    rcases hagreed with hnone | hsome
    · simp only [if_pos hnone]
      exact Function.update_self _ _ _
    · have hne : m.globalName name ≠ none := by
        rw [hsome]
        exact fun heq ↦ nomatch heq
      simp only [if_neg hne]
      exact hsome
  | left _ hnone => cases hnone

private theorem endHandshake_others : KeepsOthers m (m.endHandshake fd) fd := by
  intro x hx
  refine ⟨?_, Iff.rfl⟩
  rw [Master.endHandshake, List.mem_filter, decide_eq_true_iff]
  exact and_iff_left hx

private theorem endMonitor_others {slaveId : ℤ} : KeepsOthers m (m.endMonitor fd slaveId).1 fd := by
  intro x hx
  refine ⟨Iff.rfl, ?_⟩
  rw [Master.endMonitor, AList.mem_erase]
  exact and_iff_right hx

theorem Serves.others (h : Serves m fd package m' writes) : KeepsOthers m m' fd := by
  cases h with
  | refused _ => exact endHandshake_others
  | joined _ =>
    intro x hx
    refine ⟨(endHandshake_others x hx).1, ?_⟩
    rw [AList.mem_insert]
    exact or_iff_right hx
  | dispatched _ _ hdispatch =>
    obtain ⟨-, hhandshaking, hmonitors⟩ := dispatchSlave_frame hdispatch
    intro x _
    rw [hhandshaking, hmonitors]
    exact ⟨Iff.rfl, Iff.rfl⟩
  | left _ _ => exact endMonitor_others

theorem Serves.greeted (h : Serves m fd package m' writes) : fd ∉ m'.handshaking := by
  have hended : fd ∉ (m.endHandshake fd).handshaking := by
    rw [Master.endHandshake, List.mem_filter, decide_eq_true_iff]
    exact fun hmem ↦ hmem.2 rfl
  cases h with
  | refused _ => exact hended
  | joined _ => exact hended
  | dispatched hhandshaking _ hdispatch =>
    rw [(dispatchSlave_frame hdispatch).2.1]
    exact hhandshaking
  | left hhandshaking _ => exact hhandshaking

theorem master_accepts (h : master m (.accept fd) = .ok (m', writes)) :
    fd ∉ m.handshaking ∧ fd ∉ m.monitors ∧ writes = [] ∧
      m' = { m with handshaking := fd :: m.handshaking } := by
  rw [master] at h
  split at h
  next => cases h
  next hfree =>
    cases h
    exact ⟨fun hmem ↦ hfree (.inl hmem), fun hmem ↦ hfree (.inr hmem), rfl, rfl⟩

theorem master_loses (h : master m (.lost fd) = .ok (m', writes)) :
    KeepsNames m m' writes ∧ KeepsOthers m m' fd := by
  rw [master] at h
  split at h
  · cases h
    exact ⟨⟨id, fun hmem ↦ by cases hmem⟩, endHandshake_others⟩
  · split at h
    · cases h
    · cases h
      exact ⟨⟨id, fun hmem ↦ (endMonitor_names hmem).elim⟩, endMonitor_others⟩

end Master

end ZTask
