import Mathlib.Data.Int.Notation
import Mathlib.Data.List.AList
import ZTask.Lib.Machine

/-!
# The master of the harbor network

`cmaster.lua`. The slaves of a network connect to the master, report themselves, and register and
query global names. A connection is served by one coroutine, which waits in `handshake` for the
first package and then in `monitor_slave` for the others; between two packages it runs without a
break, so a package, or the loss of a connection, is one step. `monitor_slave` is forked when the
handshake is done, and forked coroutines run before the next message is dispatched: its start is
part of the handshake's step.

A package has at most 255 bytes, and what the master makes of a package it gets is packed into as
many bytes again, so that the assertion in `pack_package` holds.
-/

namespace ZTask

open Lib

/-- An entry of `slave_node`. -/
structure SlaveNode where
  fd : ℕ
  id : ℤ
  addr : List UInt8
deriving DecidableEq, Repr

/-- What slaves send, after `ztask.unpack`. -/
inductive SlavePackage
  /-- `H` -/
  | handshake (id : ℤ) (addr : List UInt8)
  /-- `R`; the address, if it is a number. -/
  | register (name : List UInt8) (address : Option ℤ)
  /-- `Q` -/
  | query (name : List UInt8)
  /-- A package of another type. -/
  | unknown
  /-- What cannot be unpacked, or raises an error when it is used. -/
  | malformed
deriving DecidableEq, Repr

/-- What the master sends. -/
inductive MasterPackage
  /-- `W` -/
  | wait (n : ℕ)
  /-- `C` -/
  | connect (id : ℤ) (addr : List UInt8)
  /-- `N` -/
  | name (name : List UInt8) (address : ℤ)
  /-- `D` -/
  | disconnect (id : ℤ)
deriving DecidableEq, Repr

/-- Calls of `socket.write`. -/
abbrev MasterWrites := List (ℕ × MasterPackage)

structure Master where
  slaveNode : AList fun _ : ℤ ↦ SlaveNode
  globalName : List UInt8 → Option ℤ
  /-- The connections whose coroutines wait in `handshake`. -/
  handshaking : List ℕ
  /-- The connections whose coroutines wait in `monitor_slave`, with its argument `slave_id`. -/
  monitors : AList fun _ : ℕ ↦ ℤ

namespace Master

def init : Master := ⟨∅, fun _ ↦ none, [], ∅⟩

/-- The loops that write a package to all slaves. -/
def writeAll (m : Master) (package : MasterPackage) : MasterWrites :=
  m.slaveNode.entries.map fun v ↦ (v.2.fd, package)

/-- The slaves that `report_slave` tells of a newcomer. -/
def told (m : Master) : List (Σ _ : ℤ, SlaveNode) := m.slaveNode.entries.filter fun v ↦ v.2.fd ≠ 0

def reportSlave (m : Master) (fd : ℕ) (slaveId : ℤ) (slaveAddr : List UInt8) : MasterWrites :=
  m.told.map (fun v ↦ (v.2.fd, .connect slaveId slaveAddr)) ++ [(fd, .wait m.told.length)]

/-- `handshake`, with the package that `read_package` returns; `none` when an assertion fails. -/
def handshake (m : Master) (fd : ℕ) : SlavePackage → Option (ℤ × Master × MasterWrites)
  | .handshake slaveId slaveAddr =>
    if slaveId = 0 then none
    else some (slaveId,
      { m with slaveNode := m.slaveNode.insert slaveId ⟨fd, slaveId, slaveAddr⟩ },
      m.reportSlave fd slaveId slaveAddr)
  | _ => none

/-- `dispatch_slave`, with the package that `read_package` returns; `none` when an error is raised.
-/
def dispatchSlave (m : Master) (fd : ℕ) : SlavePackage → Option (Master × MasterWrites)
  | .register name (some address) =>
    let m' := if m.globalName name = none
      then { m with globalName := Function.update m.globalName name (some address) } else m
    some (m', m'.writeAll (.name name address))
  | .register _ none => none
  | .query name =>
    match m.globalName name with
    | some address => some (m, [(fd, .name name address)])
    | none => some (m, [])
  | .handshake _ _ => some (m, [])
  | .unknown => some (m, [])
  | .malformed => none

/-- The first line of `monitor_slave`. -/
def startMonitor (m : Master) (slaveId : ℤ) : Option Master :=
  (m.slaveNode.lookup slaveId).map fun node ↦
    { m with monitors := m.monitors.insert node.fd slaveId }

/-- The rest of `monitor_slave` when the loop has ended. -/
def endMonitor (m : Master) (fd : ℕ) (slaveId : ℤ) : Master × MasterWrites :=
  let m' := { m with
    slaveNode := m.slaveNode.erase slaveId
    monitors := m.monitors.erase fd }
  (m', m'.writeAll (.disconnect slaveId))

/-- The socket has been closed: its coroutine is not in `handshake` any more. -/
def endHandshake (m : Master) (fd : ℕ) : Master :=
  { m with handshaking := m.handshaking.filter fun x ↦ x ≠ fd }

end Master

/-- What happens to the sockets of the master. -/
inductive MasterInput
  | accept (fd : ℕ)
  | receive (fd : ℕ) (package : SlavePackage)
  | lost (fd : ℕ)
deriving DecidableEq, Repr

/-- What the socket layer does not do. -/
inductive MasterFault
  /-- A new socket has the number of one that is open. -/
  | busy
  /-- Something arrives on a socket that is not open. -/
  | closed
  /-- `monitor_slave` finds no entry. -/
  | noEntry
deriving DecidableEq, Repr

/-- The master, one step at a time. -/
def master : Machine Master MasterInput MasterWrites MasterFault := fun m input ↦
  match input with
  | .accept fd =>
    if fd ∈ m.handshaking ∨ fd ∈ m.monitors then .error .busy
    else .ok ({ m with handshaking := fd :: m.handshaking }, [])
  | .receive fd package =>
    if fd ∈ m.handshaking then
      match (m.endHandshake fd).handshake fd package with
      | none => .ok (m.endHandshake fd, [])
      | some (slaveId, m', writes) =>
        match m'.startMonitor slaveId with
        | none => .error .noEntry
        | some m'' => .ok (m'', writes)
    else
      match m.monitors.lookup fd with
      | none => .error .closed
      | some slaveId =>
        match m.dispatchSlave fd package with
        | some (m', writes) => .ok (m', writes)
        | none => .ok (m.endMonitor fd slaveId)
  | .lost fd =>
    if fd ∈ m.handshaking then .ok (m.endHandshake fd, [])
    else
      match m.monitors.lookup fd with
      | none => .error .closed
      | some slaveId => .ok (m.endMonitor fd slaveId)

/-! ## What a step does -/

variable {m m' : Master} {input : MasterInput} {writes : MasterWrites}

/-- The cases of a step. -/
inductive MasterStep (m : Master) : MasterInput → Master → MasterWrites → Prop
  | accepted {fd : ℕ} : fd ∉ m.monitors →
      MasterStep m (.accept fd) { m with handshaking := fd :: m.handshaking } []
  /-- A connection ends before the handshake is done. -/
  | refused {input : MasterInput} {fd : ℕ} : fd ∈ m.handshaking →
      MasterStep m input (m.endHandshake fd) []
  | joined {fd : ℕ} {slaveId : ℤ} {slaveAddr : List UInt8} : fd ∈ m.handshaking → slaveId ≠ 0 →
      MasterStep m (.receive fd (.handshake slaveId slaveAddr))
        { m.endHandshake fd with
          slaveNode := m.slaveNode.insert slaveId ⟨fd, slaveId, slaveAddr⟩
          monitors := m.monitors.insert fd slaveId }
        (m.reportSlave fd slaveId slaveAddr)
  | dispatched {fd : ℕ} {package : SlavePackage} {slaveId : ℤ} {m' : Master}
      {writes : MasterWrites} : fd ∉ m.handshaking → m.monitors.lookup fd = some slaveId →
      m.dispatchSlave fd package = some (m', writes) →
      MasterStep m (.receive fd package) m' writes
  /-- A connection ends, since it is lost or since a package is not as it should be. -/
  | left {input : MasterInput} {fd : ℕ} {slaveId : ℤ} : fd ∉ m.handshaking →
      m.monitors.lookup fd = some slaveId →
      MasterStep m input (m.endMonitor fd slaveId).1 (m.endMonitor fd slaveId).2

theorem master_cases (h : master m input = .ok (m', writes)) : MasterStep m input m' writes := by
  cases input with
  | accept fd =>
    rw [master] at h
    split at h
    next => cases h
    next hfree =>
      cases h
      exact .accepted fun hmem ↦ hfree (.inr hmem)
  | receive fd package =>
    rw [master] at h
    by_cases hhandshaking : fd ∈ m.handshaking
    · rw [if_pos hhandshaking] at h
      cases hhandshake : (m.endHandshake fd).handshake fd package with
      | none =>
        rw [hhandshake] at h
        cases h
        exact .refused hhandshaking
      | some p =>
        obtain ⟨slaveId, m₁, w⟩ := p
        cases package with
        | handshake id addr =>
          rw [Master.handshake] at hhandshake
          by_cases hzero : id = 0
          · rw [if_pos hzero] at hhandshake
            cases hhandshake
          · rw [if_neg hzero] at hhandshake
            cases hhandshake
            simp only [Master.handshake, if_neg hzero, Master.startMonitor, AList.lookup_insert,
              Option.map_some] at h
            cases h
            exact .joined hhandshaking hzero
        | _ => cases hhandshake
    · rw [if_neg hhandshaking] at h
      cases hlookup : m.monitors.lookup fd with
      | none =>
        rw [hlookup] at h
        cases h
      | some slaveId =>
        rw [hlookup] at h
        dsimp only at h
        cases hdispatch : m.dispatchSlave fd package with
        | none =>
          rw [hdispatch] at h
          cases h
          exact .left hhandshaking hlookup
        | some p =>
          rw [hdispatch] at h
          cases h
          exact .dispatched hhandshaking hlookup hdispatch
  | lost fd =>
    rw [master] at h
    by_cases hhandshaking : fd ∈ m.handshaking
    · rw [if_pos hhandshaking] at h
      cases h
      exact .refused hhandshaking
    · rw [if_neg hhandshaking] at h
      cases hlookup : m.monitors.lookup fd with
      | none =>
        rw [hlookup] at h
        cases h
      | some slaveId =>
        rw [hlookup] at h
        cases h
        exact .left hhandshaking hlookup

/-- A package of a registered slave does not change who is registered. -/
theorem dispatchSlave_frame {fd : ℕ} {package : SlavePackage}
    (h : m.dispatchSlave fd package = some (m', writes)) :
    m'.slaveNode = m.slaveNode ∧ m'.handshaking = m.handshaking ∧ m'.monitors = m.monitors := by
  cases package with
  | register name address =>
    cases address with
    | none => cases h
    | some address =>
      rw [Master.dispatchSlave] at h
      cases h
      split <;> exact ⟨rfl, rfl, rfl⟩
  | query name =>
    rw [Master.dispatchSlave] at h
    split at h <;> cases h <;> exact ⟨rfl, rfl, rfl⟩
  | handshake id addr | unknown =>
    cases h
    exact ⟨rfl, rfl, rfl⟩
  | malformed => cases h

/-- What is written for such a package are names. -/
theorem dispatchSlave_writes {fd : ℕ} {package : SlavePackage}
    (h : m.dispatchSlave fd package = some (m', writes)) :
    ∀ w ∈ writes, ∃ name address, w.2 = .name name address := by
  cases package with
  | register name address =>
    cases address with
    | none => cases h
    | some address =>
      cases h
      intro w hw
      obtain ⟨v, -, rfl⟩ := List.mem_map.mp hw
      exact ⟨name, address, rfl⟩
  | query name =>
    rw [Master.dispatchSlave] at h
    cases haddress : m.globalName name with
    | some address =>
      rw [haddress] at h
      cases h
      intro w hw
      cases List.mem_singleton.mp hw
      exact ⟨name, address, rfl⟩
    | none =>
      rw [haddress] at h
      cases h
      exact fun w hw ↦ (nomatch hw)
  | handshake id addr | unknown =>
    cases h
    exact fun w hw ↦ (nomatch hw)
  | malformed => cases h

end ZTask
