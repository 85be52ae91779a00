import Mathlib.Algebra.Ring.Int.Defs
import Mathlib.Algebra.Ring.Nat
import Mathlib.Data.List.Basic

/-!
# Machines, runs and the rules for invariants

A machine is a partial step function: from a state and an input it either faults (an assertion
of the program fails, or the program reads or writes out of bounds) or moves to a new state with
an output. Every choice the environment has — which thread moves next, which bytes arrive, which
address the allocator returns — is part of the input, so a run is a list of inputs and the step
function itself stays executable.

A run is recorded as a *trace* of events. Properties of the states a machine reaches are proved
with `Run.invariant`, properties that also speak about what happened on the way with
`Run.ledger`. Both take a condition `C` on the steps; a result that holds of all runs uses the
condition that is always true, and an environment assumption is a condition too.
-/

namespace Lib

universe u v w x

/-- A step function: `m s i` is the state and output that input `i` leads to in state `s`, or the
fault it runs into. -/
abbrev Machine (σ : Type u) (ι : Type v) (ο : Type w) (ε : Type x) :=
  σ → ι → Except ε (σ × ο)

/-- One completed step: the state and input it started from, the output, and the new state. -/
structure Event (σ : Type u) (ι : Type v) (ο : Type w) where
  /-- The state before the step. -/
  pre : σ
  /-- The input consumed. -/
  input : ι
  /-- The output produced. -/
  output : ο
  /-- The state after the step. -/
  post : σ

variable {σ : Type u} {ι : Type v} {ο : Type w} {ε : Type x}

/-- `Run m s₀ tr s`: the machine goes from `s₀` to `s` by the steps recorded in `tr`. -/
inductive Run (m : Machine σ ι ο ε) (s₀ : σ) : List (Event σ ι ο) → σ → Prop
  | nil : Run m s₀ [] s₀
  | snoc {tr : List (Event σ ι ο)} {s s' : σ} {i : ι} {o : ο} :
      Run m s₀ tr s → m s i = .ok (s', o) → Run m s₀ (tr ++ [⟨s, i, o, s'⟩]) s'

/-- Every step of the trace was taken from a state and on an input that satisfy `C`. -/
def Meets (C : σ → ι → Prop) (tr : List (Event σ ι ο)) : Prop := ∀ e ∈ tr, C e.pre e.input

@[simp] theorem meets_nil (C : σ → ι → Prop) : Meets C ([] : List (Event σ ι ο)) := by
  intro e he
  cases he

@[simp] theorem meets_concat {C : σ → ι → Prop} {tr : List (Event σ ι ο)} {e : Event σ ι ο} :
    Meets C (tr ++ [e]) ↔ Meets C tr ∧ C e.pre e.input := by
  constructor
  · intro h
    exact ⟨fun e' he' ↦ h e' (by simp [he']), h e (by simp)⟩
  · rintro ⟨h, he⟩ e' he'
    rcases List.mem_append.mp he' with h' | h'
    · exact h e' h'
    · rw [List.mem_singleton.mp h']
      exact he

/-- A state some run from `s₀` reaches, all steps of which satisfy `C`. -/
def Reachable (m : Machine σ ι ο ε) (C : σ → ι → Prop) (s₀ s : σ) : Prop :=
  ∃ tr, Run m s₀ tr s ∧ Meets C tr

/-! ## The rules -/

/-- **The ledger rule.** A relation between the trace and the state that holds at the start and is
kept by every step holds of every run. -/
theorem Run.ledger {m : Machine σ ι ο ε} {C : σ → ι → Prop} {s₀ s : σ}
    {tr : List (Event σ ι ο)} (P : List (Event σ ι ο) → σ → Prop) (h0 : P [] s₀)
    (hstep : ∀ {tr s i s' o}, Run m s₀ tr s → P tr s → C s i → m s i = .ok (s', o) →
      P (tr ++ [⟨s, i, o, s'⟩]) s')
    (hrun : Run m s₀ tr s) (hC : Meets C tr) : P tr s := by
  induction hrun with
  | nil => exact h0
  | snoc hr hm ih =>
    obtain ⟨hC', hlast⟩ := meets_concat.mp hC
    exact hstep hr (ih hC') hlast hm

/-- **The invariant rule.** A property of states that holds at the start and is kept by every step
holds of every state a run reaches. -/
theorem Run.invariant {m : Machine σ ι ο ε} {C : σ → ι → Prop} {s₀ s : σ}
    {tr : List (Event σ ι ο)} (P : σ → Prop) (h0 : P s₀)
    (hstep : ∀ {s i s' o}, P s → C s i → m s i = .ok (s', o) → P s')
    (hrun : Run m s₀ tr s) (hC : Meets C tr) : P s :=
  Run.ledger (fun _ s ↦ P s) h0 (fun _ hP hc hm ↦ hstep hP hc hm) hrun hC

/-- It holds after every step of the run. -/
theorem Run.throughout {m : Machine σ ι ο ε} {C : σ → ι → Prop} {s₀ s : σ}
    {tr : List (Event σ ι ο)} (P : σ → Prop) (h0 : P s₀)
    (hstep : ∀ {s i s' o}, P s → C s i → m s i = .ok (s', o) → P s')
    (hrun : Run m s₀ tr s) (hC : Meets C tr) : ∀ e ∈ tr, P e.post := by
  have hboth : P s ∧ ∀ e ∈ tr, P e.post := by
    refine hrun.ledger (fun tr s ↦ P s ∧ ∀ e ∈ tr, P e.post) ⟨h0, fun e he ↦ (nomatch he)⟩ ?_ hC
    rintro tr s i s' o - ⟨hs, hall⟩ hc hm
    have hs' := hstep hs hc hm
    refine ⟨hs', fun e he ↦ ?_⟩
    rcases List.mem_append.mp he with he | he
    · exact hall e he
    · rw [List.mem_singleton.mp he]
      exact hs'
  exact hboth.2

theorem Reachable.invariant {m : Machine σ ι ο ε} {C : σ → ι → Prop} {s₀ s : σ} (P : σ → Prop)
    (h0 : P s₀) (hstep : ∀ {s i s' o}, P s → C s i → m s i = .ok (s', o) → P s')
    (h : Reachable m C s₀ s) : P s := by
  obtain ⟨tr, hrun, hC⟩ := h
  exact hrun.invariant P h0 hstep hC

theorem Reachable.refl (m : Machine σ ι ο ε) (C : σ → ι → Prop) (s : σ) : Reachable m C s s :=
  ⟨[], .nil, meets_nil C⟩

/-! ## Executing a list of inputs -/

/-- The state after one more input, or the same state if the machine faults on it. -/
def after (m : Machine σ ι ο ε) (s : σ) (i : ι) : σ :=
  match m s i with
  | .ok (s', _) => s'
  | .error _ => s

theorem Reachable.after {m : Machine σ ι ο ε} {C : σ → ι → Prop} {s₀ s : σ} {i : ι}
    (h : Reachable m C s₀ s) (hi : C s i) : Reachable m C s₀ (after m s i) := by
  rw [Lib.after]
  split
  next s' o hm =>
    obtain ⟨tr, hrun, hC⟩ := h
    exact ⟨_, .snoc hrun hm, meets_concat.mpr ⟨hC, hi⟩⟩
  next => exact h

/-- Every input of the list meets the condition in the state it finds. -/
def Along (m : Machine σ ι ο ε) (C : σ → ι → Prop) : σ → List ι → Prop
  | _, [] => True
  | s, i :: is => C s i ∧ Along m C (after m s i) is

instance (m : Machine σ ι ο ε) (C : σ → ι → Prop) [∀ s i, Decidable (C s i)] :
    ∀ s is, Decidable (Along m C s is)
  | _, [] => .isTrue trivial
  | s, i :: is =>
    have := instDecidableAlong m C (after m s i) is
    inferInstanceAs (Decidable (C s i ∧ Along m C (after m s i) is))

/-- A condition that the inputs satisfy in every state is met along the way. -/
theorem along_of_mem {m : Machine σ ι ο ε} {C : σ → ι → Prop} {is : List ι}
    (h : ∀ i ∈ is, ∀ s, C s i) (s : σ) : Along m C s is := by
  induction is generalizing s with
  | nil => trivial
  | cons i is ih =>
    exact ⟨h i List.mem_cons_self s, ih (fun j hj ↦ h j (List.mem_cons_of_mem i hj)) _⟩

theorem along_of_forall {m : Machine σ ι ο ε} {C : σ → ι → Prop} (hC : ∀ s i, C s i) (s : σ)
    (is : List ι) : Along m C s is :=
  along_of_mem (fun i _ s ↦ hC s i) s

theorem Reachable.foldl {m : Machine σ ι ο ε} {C : σ → ι → Prop} {s₀ s : σ} {is : List ι}
    (h : Reachable m C s₀ s) (his : Along m C s is) :
    Reachable m C s₀ (is.foldl (Lib.after m) s) := by
  induction is generalizing s with
  | nil => exact h
  | cons i is ih => exact ih (h.after his.1) his.2

/-- Run the machine on a list of inputs, recording the trace. -/
def exec (m : Machine σ ι ο ε) : σ → List ι → Except ε (List (Event σ ι ο) × σ)
  | s, [] => .ok ([], s)
  | s, i :: is =>
    match m s i with
    | .error e => .error e
    | .ok (s', o) =>
      match exec m s' is with
      | .error e => .error e
      | .ok (tr, s'') => .ok (⟨s, i, o, s'⟩ :: tr, s'')

/-- A step in front of a run is a run. -/
theorem Run.cons {m : Machine σ ι ο ε} {s s' s'' : σ} {i : ι} {o : ο}
    {tr : List (Event σ ι ο)} (hm : m s i = .ok (s', o)) (hrun : Run m s' tr s'') :
    Run m s (⟨s, i, o, s'⟩ :: tr) s'' := by
  induction hrun with
  | nil =>
    have h : Run m s ([] ++ [⟨s, i, o, s'⟩]) s' := .snoc .nil hm
    exact h
  | snoc _ hm' ih =>
    rw [← List.cons_append]
    exact .snoc ih hm'

/-- What `exec` computes is a run. -/
theorem Run.of_exec {m : Machine σ ι ο ε} {is : List ι} {s s' : σ}
    {tr : List (Event σ ι ο)} (h : exec m s is = .ok (tr, s')) : Run m s tr s' := by
  induction is generalizing s tr with
  | nil =>
    cases h
    exact .nil
  | cons i is ih =>
    rw [exec] at h
    cases hm : m s i with
    | error e => simp [hm] at h
    | ok p =>
      obtain ⟨s₁, o⟩ := p
      cases he : exec m s₁ is with
      | error e => simp [hm, he] at h
      | ok q =>
        obtain ⟨tr', s₂⟩ := q
        simp only [hm, he, Except.ok.injEq, Prod.mk.injEq] at h
        obtain ⟨rfl, rfl⟩ := h
        exact Run.cons hm (ih he)

/-- A run on two lists of inputs is one on the first and then one on the second. -/
theorem exec_append {m : Machine σ ι ο ε} {is js : List ι} {s s' s'' : σ}
    {tr tr' : List (Event σ ι ο)} (h : exec m s is = .ok (tr, s'))
    (h' : exec m s' js = .ok (tr', s'')) : exec m s (is ++ js) = .ok (tr ++ tr', s'') := by
  induction is generalizing s tr with
  | nil =>
    cases h
    exact h'
  | cons i is ih =>
    rw [exec] at h
    rw [List.cons_append, exec]
    cases hm : m s i with
    | error e => simp [hm] at h
    | ok p =>
      obtain ⟨s₁, o⟩ := p
      cases he : exec m s₁ is with
      | error e => simp [hm, he] at h
      | ok q =>
        obtain ⟨tr₁, s₂⟩ := q
        simp only [hm, he, Except.ok.injEq, Prod.mk.injEq] at h
        obtain ⟨rfl, rfl⟩ := h
        simp only [ih he, List.cons_append]

/-- Inputs that meet the condition along the way are met by the trace. -/
theorem exec_meets {m : Machine σ ι ο ε} {C : σ → ι → Prop} {is : List ι} {s s' : σ}
    {tr : List (Event σ ι ο)} (h : exec m s is = .ok (tr, s')) (his : Along m C s is) :
    Meets C tr := by
  induction is generalizing s tr with
  | nil =>
    cases h
    exact meets_nil C
  | cons i is ih =>
    obtain ⟨hi, his⟩ := his
    rw [exec] at h
    rw [after] at his
    cases hm : m s i with
    | error e => simp [hm] at h
    | ok p =>
      obtain ⟨s₁, o⟩ := p
      rw [hm] at his
      cases he : exec m s₁ is with
      | error e => simp [hm, he] at h
      | ok q =>
        obtain ⟨tr', s₂⟩ := q
        simp only [hm, he, Except.ok.injEq, Prod.mk.injEq] at h
        obtain ⟨rfl, rfl⟩ := h
        intro e hmem
        rcases List.mem_cons.mp hmem with rfl | hmem
        · exact hi
        · exact ih he his e hmem

/-- A machine that makes every step from a state that satisfies `P`, on the inputs that satisfy `C`,
runs through. -/
theorem exec_of_progress {m : Machine σ ι ο ε} {C : ι → Prop} {is : List ι} {s : σ} (P : σ → Prop)
    (hstep : ∀ {s i}, P s → C i → ∃ s' o, m s i = .ok (s', o) ∧ P s') (hs : P s)
    (his : ∀ i ∈ is, C i) :
    ∃ tr s', exec m s is = .ok (tr, s') ∧ tr.map Event.input = is := by
  induction is generalizing s with
  | nil => exact ⟨[], s, rfl, rfl⟩
  | cons i is ih =>
    obtain ⟨s₁, o, hm, hs₁⟩ := hstep hs (his i List.mem_cons_self)
    obtain ⟨tr, s', hexec, hinputs⟩ := ih hs₁ fun j hj ↦ his j (List.mem_cons_of_mem i hj)
    refine ⟨⟨s, i, o, s₁⟩ :: tr, s', ?_, ?_⟩
    · rw [exec, hm]
      simp only [hexec]
    · rw [List.map_cons, hinputs]

/-- **The refinement rule.** A machine that answers each step of another one with the same output,
as long as the inputs meet a condition there, answers its runs with the same outputs. -/
theorem exec_refines {τ : Type*} {ε' : Type*} (m : Machine σ ι ο ε) (m' : Machine τ ι ο ε')
    {C : τ → ι → Prop} {is : List ι} {s : σ} {t t' : τ} {tr' : List (Event τ ι ο)}
    (R : σ → τ → Prop)
    (hstep : ∀ {s t i t' o}, R s t → C t i → m' t i = .ok (t', o) →
    ∃ s', m s i = .ok (s', o) ∧ R s' t')
    (hR : R s t) (hC : Along m' C t is) (hexec : exec m' t is = .ok (tr', t')) :
    ∃ tr s', exec m s is = .ok (tr, s') ∧ tr.map Event.output = tr'.map Event.output ∧ R s' t' := by
  induction is generalizing s t tr' with
  | nil =>
    obtain ⟨htr, ht⟩ := Prod.mk.inj (Except.ok.inj hexec)
    exact ⟨[], s, rfl, by rw [← htr]; rfl, ht ▸ hR⟩
  | cons i is ih =>
    obtain ⟨hi, his⟩ := hC
    rw [exec] at hexec
    rw [after] at his
    cases hm' : m' t i with
    | error e =>
      rw [hm'] at hexec
      cases hexec
    | ok p =>
      obtain ⟨t₁, o⟩ := p
      rw [hm'] at hexec his
      dsimp only at hexec his
      cases hrest : exec m' t₁ is with
      | error e =>
        rw [hrest] at hexec
        cases hexec
      | ok q =>
        obtain ⟨tr₁, t₂⟩ := q
        rw [hrest] at hexec
        obtain ⟨htr, ht⟩ := Prod.mk.inj (Except.ok.inj hexec)
        obtain ⟨s₁, hm, hR₁⟩ := hstep hR hi hm'
        obtain ⟨tr, s', hexec₁, houtputs, hR'⟩ := ih hR₁ his (ht ▸ hrest)
        refine ⟨⟨s, i, o, s₁⟩ :: tr, s', ?_, ?_, hR'⟩
        · rw [exec, hm]
          simp only [hexec₁]
        · rw [← htr, List.map_cons, List.map_cons, houtputs]

/-- **The tracking rule.** What a function makes of the inputs is tracked by a machine whose steps
track it, on the inputs that satisfy `C`. -/
theorem exec_foldl {τ : Type*} {m : Machine σ ι ο ε} {f : τ → ι → τ} {C : ι → Prop} {is : List ι}
    {s s' : σ} {t : τ} {tr : List (Event σ ι ο)} (R : σ → τ → Prop)
    (hstep : ∀ {s t i s' o}, R s t → C i → m s i = .ok (s', o) → R s' (f t i)) (hR : R s t)
    (his : ∀ i ∈ is, C i) (hexec : exec m s is = .ok (tr, s')) : R s' (is.foldl f t) := by
  induction is generalizing s t tr with
  | nil =>
    cases hexec
    exact hR
  | cons i is ih =>
    rw [exec] at hexec
    cases hm : m s i with
    | error e =>
      rw [hm] at hexec
      cases hexec
    | ok p =>
      obtain ⟨s₁, o⟩ := p
      rw [hm] at hexec
      dsimp only at hexec
      cases hrest : exec m s₁ is with
      | error e =>
        rw [hrest] at hexec
        cases hexec
      | ok q =>
        obtain ⟨tr₁, s₂⟩ := q
        rw [hrest] at hexec
        cases hexec
        exact ih (hstep hR (his i List.mem_cons_self) hm)
          (fun j hj ↦ his j (List.mem_cons_of_mem i hj))
          hrest

/-- A machine that cannot fault runs through. -/
theorem exec_total {m : Machine σ ι ο Empty} (s : σ) (is : List ι) :
    ∃ tr s', exec m s is = .ok (tr, s') := by
  cases hexec : exec m s is with
  | error e => exact nomatch e
  | ok p => exact ⟨p.1, p.2, rfl⟩

/-- The machine does not fault on the inputs, and its trace and its last state are as `P` says. -/
def Passes (m : Machine σ ι ο ε) (s : σ) (is : List ι)
    (P : List (Event σ ι ο) → σ → Prop) : Prop :=
  match exec m s is with
  | .error _ => False
  | .ok (tr, s') => P tr s'

instance decidablePasses (m : Machine σ ι ο ε) (s : σ) (is : List ι)
    (P : List (Event σ ι ο) → σ → Prop) [∀ tr s', Decidable (P tr s')] :
    Decidable (Passes m s is P) :=
  match hexec : exec m s is with
  | .error _ => .isFalse (by rw [Passes, hexec]; exact id)
  | .ok (tr, s') => decidable_of_iff (P tr s') (by rw [Passes, hexec])

/-- What the machine passes, some run does. -/
theorem Run.of_passes {m : Machine σ ι ο ε} {s : σ} {is : List ι}
    {P : List (Event σ ι ο) → σ → Prop} (h : Passes m s is P) :
    ∃ tr s', Run m s tr s' ∧ P tr s' := by
  rw [Passes] at h
  split at h
  next => cases h
  next tr s' hexec => exact ⟨tr, s', Run.of_exec hexec, h⟩

instance decidableMeets (C : σ → ι → Prop) [∀ s i, Decidable (C s i)]
    (tr : List (Event σ ι ο)) : Decidable (Meets C tr) :=
  inferInstanceAs (Decidable (∀ e ∈ tr, C e.pre e.input))

end Lib
