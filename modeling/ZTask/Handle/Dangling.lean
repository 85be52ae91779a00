import ZTask.Handle.NameMap

/-!
# Names and services

`ztask_server.c`: the commands `REG` and `NAME`, which bind a name to the handle of the service that
runs them, or to any handle. Nothing looks for the handle in the slot table, and a service can be
retired while it still runs commands. A name that has been bound to a handle that is live goes when
the handle does (`noDangling_iff`).

## Both directions

A step that binds no name to a handle that is not live leaves no name without its service
(`noDangling_step`): a retirement takes the names of the handle out together with the handle, and a
registration makes more handles live. If a step does bind a name to a handle that is not live, that
name dangles in the state after it. So the condition on the single steps is exact for runs.

## Numbers of names

`cmd_name` reads the handle with `strtoul`, which is a parameter here: whatever it makes of the
text, the condition is about the handle that comes out of it.
-/

namespace ZTask

open Lib

/-! ## The commands -/

inductive NameCommand
  | call (op : NameOp)
  /-- `cmd_reg`, in the context `c`. -/
  | reg (c : ℕ) (param : List UInt8)
  /-- `cmd_name`, with the two words that `sscanf` has put into its buffers. -/
  | name (name handle : List UInt8)
deriving DecidableEq

inductive CommandOut
  | call (o : NameOut)
  /-- The command returns the handle of its context. -/
  | self (handle : ℕ)
  /-- `NULL` is returned, and no call is made. -/
  | failed
deriving DecidableEq, Repr

/-- The bytes of `'.'` and `':'`. -/
def dot : UInt8 := 46

def colon : UInt8 := 58

/-- `cmd_reg` -/
def cmdReg (handle : ℕ) : List UInt8 → NameOp ⊕ CommandOut
  | [] => .inr (.self handle)
  | b :: name => if b = dot then .inl (.namehandle handle name) else .inr .failed

/-- `cmd_name`; `strtoul` reads a number in base 16. -/
def cmdName (strtoul : List UInt8 → ℕ) (name handle : List UInt8) : NameOp ⊕ CommandOut :=
  match handle with
  | [] => .inr .failed
  | b :: digits =>
    if b ≠ colon then .inr .failed
    else
      let handleId := strtoul digits % 2 ^ 32
      if handleId = 0 then .inr .failed
      else
        match name with
        | [] => .inr .failed
        | b :: name => if b = dot then .inl (.namehandle handleId name) else .inr .failed

/-- The call that a command makes, if it makes one. -/
def NameCommand.op (strtoul : List UInt8 → ℕ) (s : HandleNames) : NameCommand → NameOp ⊕ CommandOut
  | .call op => .inl op
  | .reg c param => cmdReg (s.registry.handleOf c) param
  | .name word handle => cmdName strtoul word handle

/-- The services and their names. -/
def namedServices (strtoul : List UInt8 → ℕ) :
    Machine HandleNames NameCommand CommandOut NameFault :=
    fun s i ↦
  match i.op strtoul s with
  | .inr o => .ok (s, o)
  | .inl op =>
    match handleNames s op with
    | .error e => .error e
    | .ok (s, o) => .ok (s, .call o)

/-! ## What is live -/

namespace HandleNames

/-- The handle is in the slot table. -/
def Live (s : HandleNames) (handle : ℕ) : Prop :=
  ∃ c ∈ s.registry.live, s.registry.handleOf c = handle

/-- Every name is bound to a handle that is live. -/
def NoDangling (s : HandleNames) : Prop := ∀ n ∈ s.names.toList, s.Live n.handle

instance decidableLive (s : HandleNames) : DecidablePred s.Live :=
  fun _ ↦ inferInstanceAs (Decidable (∃ c ∈ s.registry.live, _ = _))

end HandleNames

/-- The handle is live, or the call fails for the name that is bound already. -/
def NameOp.BindsLive (s : HandleNames) : NameOp → Prop
  | .namehandle handle name => s.names.Has name ∨ s.Live handle
  | .storage _ | .findname _ => True

/-- The call that the command makes, if it makes one, is like this. -/
def NameCommand.Calls (P : HandleNames → NameOp → Prop) (strtoul : List UInt8 → ℕ) (s : HandleNames)
    (i : NameCommand) : Prop :=
  match i.op strtoul s with
  | .inl op => P s op
  | .inr _ => True

instance NameCommand.decidableCalls (P : HandleNames → NameOp → Prop) [∀ s, DecidablePred (P s)]
    (strtoul : List UInt8 → ℕ) (s : HandleNames) :
    DecidablePred (NameCommand.Calls P strtoul s) := fun i ↦
  match hop : i.op strtoul s with
  | .inl op => decidable_of_iff (P s op) (by rw [NameCommand.Calls, hop])
  | .inr _ => .isTrue (by rw [NameCommand.Calls, hop]; trivial)

namespace HandleNames

variable {s s' : HandleNames} {m : NameBindings}

theorem Live.register {c handle : ℕ} {o : NameOut} (hc : c ∉ s.registry.live)
    (hm : handleNames s (.storage (.register c)) = .ok (s', o)) (h : s.Live handle) :
    s'.Live handle := by
  obtain ⟨c', hlive, hhandle⟩ := h
  cases hreg : s.registry.storage.register (Function.update s.registry.handleOf c 0) c with
  | error e =>
    simp only [handleNames, ZTask.registry, hreg] at hm
    cases hm
  | ok p =>
    simp only [handleNames, ZTask.registry, hreg] at hm
    obtain ⟨rfl, -⟩ := Prod.mk.inj (Except.ok.inj hm)
    refine ⟨c', Finset.mem_insert_of_mem hlive, ?_⟩
    exact (Registry.update_live hc p.1 c' hlive).trans hhandle

/-- **One call** leaves no name without its service, if it binds none. -/
theorem noDangling_step (h : s.Holds m) (hnone : s.NoDangling) {op : NameOp} {o : NameOut}
    (hop : op.Fresh s) (hm : handleNames s op = .ok (s', o)) : s'.NoDangling ↔ op.BindsLive s := by
  cases op with
  | storage op =>
    refine iff_of_true ?_ trivial
    have hfresh : op.Fresh s.registry := hop
    cases op with
    | register c =>
      intro n hn
      rw [(h.storage hfresh nofun hm).2] at hn
      exact Live.register hfresh hm (hnone n hn)
    | grab handle =>
      obtain ⟨rfl, -⟩ := Prod.mk.inj (Except.ok.inj hm)
      exact hnone
    | retire handle =>
      obtain ⟨s₁, c, hok, -, hsome, hhandleOf, hlive, hlist⟩ := h.retire handle
      obtain ⟨rfl, -⟩ := Prod.mk.inj (Except.ok.inj (hok.symm.trans hm))
      intro n hn
      -- the service of the name has another handle
      have hother : n ∈ s.names.toList ∧ n.handle ≠ handle := by
        rw [hlist] at hn
        split at hn
        next => exact ⟨(List.mem_filter.mp hn).1, of_decide_eq_true (List.mem_filter.mp hn).2⟩
        next hnot =>
          refine ⟨hn, fun heq ↦ hnot (hsome.mpr ?_)⟩
          rw [← heq]
          exact hnone n hn
      obtain ⟨c', hc', hhandle⟩ := hnone n hother.1
      refine ⟨c', (hlive c').mpr ⟨hc', ?_⟩, ?_⟩
      · rw [hhandle]
        exact hother.2
      · rw [hhandleOf]
        exact hhandle
  | namehandle handle name =>
    rcases NameArray.insertName_eq h.sorted name handle with ⟨hhas, hok⟩ | ⟨hnot, ⟨herr, -⟩ |
      ⟨names, before, hok, -, hlist⟩⟩
    · simp only [handleNames, hok] at hm
      obtain ⟨rfl, -⟩ := Prod.mk.inj (Except.ok.inj hm)
      exact iff_of_true hnone (Or.inl hhas)
    · simp only [handleNames, herr] at hm
      cases hm
    · simp only [handleNames, hok] at hm
      obtain ⟨rfl, -⟩ := Prod.mk.inj (Except.ok.inj hm)
      have hmem : ∀ n, n ∈ names.toList ↔ n = ⟨name, handle⟩ ∨ n ∈ s.names.toList := by
        intro n
        rw [hlist, List.mem_append, List.mem_cons, or_left_comm, ← List.mem_append,
          List.take_append_drop]
      constructor
      · exact fun hnone' ↦ Or.inr (hnone' ⟨name, handle⟩ ((hmem _).mpr (Or.inl rfl)))
      · rintro hbinds n hn
        rcases (hmem n).mp hn with rfl | hn
        · exact hbinds.resolve_left hnot
        · exact hnone n hn
  | findname name =>
    obtain ⟨rfl, -⟩ := Prod.mk.inj (Except.ok.inj ((h.findname name).symm.trans hm))
    exact iff_of_true hnone trivial

end HandleNames

/-! ## A run -/

abbrev CommandEvent := Event HandleNames NameCommand CommandOut

section Run

variable {strtoul : List UInt8 → ℕ} {harbor : ℕ} {tr : List CommandEvent} {s : HandleNames}

/-- A command is its call. -/
theorem namedServices_step {s' : HandleNames} {m : NameBindings} {i : NameCommand} {o : CommandOut}
    (h : s.Holds m) (hfresh : i.Calls NameOp.Fresh strtoul s)
    (hm : namedServices strtoul s i = .ok (s', o)) :
    (∃ m', s'.Holds m') ∧ (s.NoDangling →
    (s'.NoDangling ↔ i.Calls NameOp.BindsLive strtoul s)) := by
  cases hop : i.op strtoul s with
  | inr o' =>
    simp only [namedServices, hop] at hm
    obtain ⟨rfl, -⟩ := Prod.mk.inj (Except.ok.inj hm)
    refine ⟨⟨m, h⟩, fun hnone ↦ iff_of_true hnone ?_⟩
    rw [NameCommand.Calls, hop]
    trivial
  | inl op =>
    rw [NameCommand.Calls, hop] at hfresh
    rw [NameCommand.Calls, hop]
    cases hcall : handleNames s op with
    | error e =>
      simp only [namedServices, hop, hcall] at hm
      cases hm
    | ok p =>
      simp only [namedServices, hop, hcall] at hm
      obtain ⟨rfl, -⟩ := Prod.mk.inj (Except.ok.inj hm)
      exact ⟨⟨_, h.step hfresh hcall⟩, fun hnone ↦ HandleNames.noDangling_step h hnone hfresh hcall⟩

/-- **When names dangle.** In every run, every name is bound to a live handle all the time if and
only if no name is bound to a handle that is not live at that moment. As long as no name dangles,
`ztask_handle_findname` returns 0 or a handle that is live. -/
theorem noDangling_iff (hrun : Run (namedServices strtoul) (.init harbor) tr s)
    (hfresh : Meets (NameCommand.Calls NameOp.Fresh strtoul) tr) :
    ((∀ e ∈ tr, e.post.NoDangling) ↔ ∀ e ∈ tr, e.input.Calls NameOp.BindsLive strtoul e.pre) ∧
      (s.NoDangling → ∀ name, ∃ handle, handleNames s (.findname name) = .ok (s, .found handle) ∧
        (handle = 0 ∨ s.Live handle)) := by
  have hall : (∃ m, s.Holds m) ∧
      ((∀ e ∈ tr, e.post.NoDangling) ↔ ∀ e ∈ tr, e.input.Calls NameOp.BindsLive strtoul e.pre) ∧
      ((∀ e ∈ tr, e.post.NoDangling) → s.NoDangling) := by
    -- the equivalence is carried step by step, with what holds of the last state beside it
    refine hrun.ledger (fun tr s ↦ (∃ m, s.Holds m) ∧
      ((∀ e ∈ tr, e.post.NoDangling) ↔ ∀ e ∈ tr, e.input.Calls NameOp.BindsLive strtoul e.pre) ∧
      ((∀ e ∈ tr, e.post.NoDangling) → s.NoDangling)) ?_ ?_ hfresh
    · exact ⟨⟨_, HandleNames.holds_init harbor⟩, iff_of_true (fun _ he ↦ (nomatch he))
        (fun _ he ↦ (nomatch he)),
        fun _ _ hn ↦ (nomatch hn)⟩
    rintro tr s i s' o - ⟨⟨m, hholds⟩, hiff, hlast⟩ hf hm
    obtain ⟨hholds', hstep⟩ := namedServices_step hholds hf hm
    refine ⟨hholds', ?_, fun hpost ↦ hpost _ (List.mem_append_right tr (List.mem_singleton_self _))⟩
    rw [List.forall_mem_append, List.forall_mem_append, List.forall_mem_singleton,
      List.forall_mem_singleton, ← hiff]
    exact and_congr_right fun hnone ↦ hstep (hlast hnone)
  obtain ⟨⟨m, hholds⟩, hiff, -⟩ := hall
  refine ⟨hiff, fun hnone name ↦ ⟨_, hholds.findname name, ?_⟩⟩
  cases hname : m name with
  | none => exact Or.inl rfl
  | some handle => exact Or.inr (hnone _ ((hholds.bound name handle).mpr hname))

end Run

/-- `strtoul` of the digit 1. -/
def strtoulOne (digits : List UInt8) : ℕ := if digits = [49] then 1 else 0

instance HandleNames.decidableNoDangling (s : HandleNames) : Decidable s.NoDangling :=
  inferInstanceAs (Decidable (∀ n ∈ s.names.toList, _))

/-- A service binds its name, and is found by it. -/
theorem noDangling_iff_reg : ∃ tr s, Run (namedServices strtoulOne) (.init 0) tr s ∧
    ∃ handle, handleNames s (.findname [97]) = .ok (s, .found handle) ∧
      (handle = 0 ∨ s.Live handle) := by
  have hpasses : Passes (namedServices strtoulOne) (.init 0)
      [.call (.storage (.register 7)), .reg 7 [dot, 97], .name [dot, 98] [colon, 49]]
      fun tr s ↦ Meets (NameCommand.Calls NameOp.Fresh strtoulOne) tr ∧ s.NoDangling := by
    decide +kernel
  obtain ⟨tr, s, hrun, hfresh, hnone⟩ := Run.of_passes hpasses
  exact ⟨tr, s, hrun, (noDangling_iff hrun hfresh).2 hnone [97]⟩

/-- **A name that dangles.** A service is retired, and then a name is bound to its handle: it is
found, and there is no such service. -/
theorem name_dangles : ∃ tr s, Run (namedServices strtoulOne) (.init 0) tr s ∧
    Meets (NameCommand.Calls NameOp.Fresh strtoulOne) tr ∧ ¬ s.NoDangling ∧ ¬ s.Live 1 ∧
    s.names.findname [97] = .ok 1 := by
  have hpasses : Passes (namedServices strtoulOne) (.init 0)
      [.call (.storage (.register 7)), .call (.storage (.retire 1)), .name [dot, 97] [colon, 49]]
      fun tr s ↦ Meets (NameCommand.Calls NameOp.Fresh strtoulOne) tr ∧
        ¬ s.NoDangling ∧ ¬ s.Live 1 ∧
        s.names.search [97] = some (.found 0) ∧ (s.names.cells 0).handle = 1 := by
    decide +kernel
  obtain ⟨tr, s, hrun, hfresh, hdangling, hlive, hsearch, hhandle⟩ := Run.of_passes hpasses
  refine ⟨tr, s, hrun, hfresh, hdangling, hlive, ?_⟩
  rw [NameArray.findname, hsearch]
  exact congrArg Except.ok hhandle

end ZTask
