import Mathlib.Algebra.Ring.Int.Defs
import Mathlib.Algebra.Ring.Nat
import Mathlib.Data.List.Basic

/-!
# Readers and what they read

A reader takes the next part of an input and makes a value of it, or fails. It is specified by a
grammar, which says which bytes mean which value, and by the inputs it breaks on: it reads whatever
begins with a sentence of the grammar (`Reads.reads`), breaks on the others that it breaks on, and
stops with an ordinary failure otherwise. Readers that run one after the other read sentences that
stand one behind the other (`Reads.bind`).

How a state shows what is left of the input, and what it means to break, is up to the program
(`View`).
-/

namespace Lib

universe u

/-! ## Computations that fail -/

/-- A computation on a state that returns a value or fails; it leaves a state in both cases. -/
def Failing (σ ε α : Type u) := σ → Except ε α × σ

namespace Failing

variable {σ ε α γ : Type u}

instance : Monad (Failing σ ε) where
  pure a s := (.ok a, s)
  bind x f s :=
    match x s with
    | (.ok a, s') => f a s'
    | (.error e, s') => (.error e, s')

def fail (e : ε) : Failing σ ε α := fun s ↦ (.error e, s)

/-- The outcome of a pure computation. -/
def lift (r : Except ε α) : Failing σ ε α := fun s ↦ (r, s)

theorem pure_apply (a : α) (s : σ) : (pure a : Failing σ ε α) s = (.ok a, s) := rfl

theorem bind_ok {x : Failing σ ε α} {f : α → Failing σ ε γ} {s s' : σ} {a : α}
    (h : x s = (.ok a, s')) : (x >>= f) s = f a s' := by
  show (match x s with
    | (.ok a, s') => f a s'
    | (.error e, s') => (.error e, s')) = f a s'
  rw [h]

theorem bind_error {x : Failing σ ε α} {f : α → Failing σ ε γ} {s s' : σ} {e : ε}
    (h : x s = (.error e, s')) : (x >>= f) s = (.error e, s') := by
  show (match x s with
    | (.ok a, s') => f a s'
    | (.error e, s') => (.error e, s')) = (.error e, s')
  rw [h]

end Failing

/-! ## Grammars -/

variable {σ ε α γ : Type u} {β : Type*}

/-- A sentence that means `a`, and behind it one of the grammar for `a`. -/
def Then (G : List β → α → Prop) (H : α → List β → γ → Prop) (e : List β) (v : γ) : Prop :=
  ∃ e₁ e₂ a, e = e₁ ++ e₂ ∧ G e₁ a ∧ H a e₂ v

/-- The first of two readers breaks, or the second one does on what the first has left. -/
def Breaks (G : List β → α → Prop) (B : List β → Prop) (C : α → List β → Prop)
    (bytes : List β) : Prop :=
  B bytes ∨ ∃ e a rest, bytes = e ++ rest ∧ G e a ∧ C a rest

/-- Sentences that stand one behind the other, with their values. -/
inductive Concat (R : List β → α → Prop) : List β → List α → Prop
  | nil : Concat R [] []
  | cons {e es : List β} {a : α} {as : List α} :
      R e a → Concat R es as → Concat R (e ++ es) (a :: as)

/-- Nothing is made of no bytes, if sentences are not empty. -/
theorem Concat.eq_nil {R : List β → α → Prop} (hR : ∀ e a, R e a → e ≠ []) {e : List β}
    {as : List α} (h : Concat R e as) (he : e = []) : as = [] := by
  cases h with
  | nil => rfl
  | cons ha _ => exact absurd (List.append_eq_nil_iff.mp he).1 (hR _ _ ha)

/-! ## Readers -/

/-- What a state shows of the input, and which failures are ordinary and which are not. -/
structure View (β : Type*) (σ ε : Type u) where
  /-- What is left of the input. -/
  shows : σ → List β → Prop
  stopped : ε → σ → Prop
  broken : ε → σ → Prop

/-- The reader reads the sentences of `G` and breaks on the inputs in `B`, as far as inputs of
length at most `n` go. -/
structure Reads (V : View β σ ε) (n : ℕ) (G : List β → α → Prop) (B : List β → Prop)
    (x : Failing σ ε α) : Prop where
  reads : ∀ {s e v rest}, G e v → V.shows s (e ++ rest) → (e ++ rest).length ≤ n →
    ∃ s', x s = (.ok v, s') ∧ V.shows s' rest
  breaks : ∀ {s bytes}, B bytes → V.shows s bytes → bytes.length ≤ n →
    ∃ e s', x s = (.error e, s') ∧ V.broken e s'
  stops : ∀ {s bytes}, (∀ e v rest, bytes = e ++ rest → ¬G e v) → ¬B bytes → V.shows s bytes →
    bytes.length ≤ n → ∃ e s', x s = (.error e, s') ∧ V.stopped e s'

namespace Reads

variable {V : View β σ ε} {n m : ℕ} {G G' : List β → α → Prop} {B B' : List β → Prop}
  {x : Failing σ ε α}

theorem mono (h : Reads V n G B x) (hm : m ≤ n) : Reads V m G B x where
  reads hG hs hlen := h.reads hG hs (Nat.le_trans hlen hm)
  breaks hB hs hlen := h.breaks hB hs (Nat.le_trans hlen hm)
  stops hG hB hs hlen := h.stops hG hB hs (Nat.le_trans hlen hm)

theorem congr (h : Reads V n G B x) (hG : ∀ e v, G' e v ↔ G e v)
    (hB : ∀ bytes, B' bytes ↔ B bytes) :
    Reads V n G' B' x where
  reads he hs hlen := h.reads ((hG _ _).mp he) hs hlen
  breaks hb hs hlen := h.breaks ((hB _).mp hb) hs hlen
  stops hno hb hs hlen :=
    h.stops (fun e v rest heq he ↦ hno e v rest heq ((hG e v).mpr he)) (fun h' ↦ hb ((hB _).mpr h'))
      hs hlen

theorem pure (a : α) : Reads V n (fun e v ↦ e = [] ∧ v = a) (fun _ ↦ False) (Pure.pure a) where
  reads := by
    rintro s e v rest ⟨rfl, rfl⟩ hs -
    exact ⟨s, rfl, hs⟩
  breaks hB := hB.elim
  stops hno _ _ _ := absurd ⟨rfl, rfl⟩ (hno [] a _ rfl)

theorem fail {err : ε} (h : ∀ s bytes, V.shows s bytes → V.stopped err s) :
    Reads V n (fun _ (_ : α) ↦ False) (fun _ ↦ False) (Failing.fail err) where
  reads hG := hG.elim
  breaks hB := hB.elim
  stops _ _ hs _ := ⟨err, _, rfl, h _ _ hs⟩

/-- Two readers read one sentence behind the other. The second one need not read longer inputs than
the first one leaves. -/
theorem bind {H : α → List β → γ → Prop} {C : α → List β → Prop} {f : α → Failing σ ε γ}
    (h : Reads V n G B x)
    (hf : ∀ e a, G e a → e.length ≤ n → Reads V (n - e.length) (H a) (C a) (f a)) :
    Reads V n (Then G H) (Breaks G B C) (x >>= f) where
  reads := by
    rintro s e v rest ⟨e₁, e₂, a, rfl, hG, hH⟩ hs hlen
    rw [List.append_assoc] at hs hlen
    obtain ⟨s₁, hx, hs₁⟩ := h.reads hG hs hlen
    rw [List.length_append] at hlen
    obtain ⟨s₂, hfa, hs₂⟩ := (hf e₁ a hG (by omega)).reads hH hs₁ (by omega)
    exact ⟨s₂, (Failing.bind_ok hx).trans hfa, hs₂⟩
  breaks := by
    rintro s bytes (hB | ⟨e, a, rest, rfl, hG, hC⟩) hs hlen
    · obtain ⟨err, s₁, hx, hbroken⟩ := h.breaks hB hs hlen
      exact ⟨err, s₁, Failing.bind_error hx, hbroken⟩
    · obtain ⟨s₁, hx, hs₁⟩ := h.reads hG hs hlen
      rw [List.length_append] at hlen
      obtain ⟨err, s₂, hfa, hbroken⟩ := (hf e a hG (by omega)).breaks hC hs₁ (by omega)
      exact ⟨err, s₂, (Failing.bind_ok hx).trans hfa, hbroken⟩
  stops := by
    intro s bytes hno hB hs hlen
    by_cases hsome : ∃ e a rest, bytes = e ++ rest ∧ G e a
    · obtain ⟨e, a, rest, rfl, hG⟩ := hsome
      obtain ⟨s₁, hx, hs₁⟩ := h.reads hG hs hlen
      rw [List.length_append] at hlen
      have hno₂ : ∀ e₂ v rest₂, rest = e₂ ++ rest₂ → ¬H a e₂ v := by
        intro e₂ v rest₂ heq hH
        exact hno (e ++ e₂) v rest₂ (by rw [heq, List.append_assoc]) ⟨e, e₂, a, rfl, hG, hH⟩
      obtain ⟨err, s₂, hfa, hstopped⟩ := (hf e a hG (by omega)).stops hno₂
        (fun hC ↦ hB (.inr ⟨e, a, rest, rfl, hG, hC⟩)) hs₁ (by omega)
      exact ⟨err, s₂, (Failing.bind_ok hx).trans hfa, hstopped⟩
    · obtain ⟨err, s₁, hx, hstopped⟩ := h.stops
        (fun e a rest heq hG ↦ hsome ⟨e, a, rest, heq, hG⟩) (fun hb ↦ hB (.inl hb)) hs hlen
      exact ⟨err, s₁, Failing.bind_error hx, hstopped⟩

end Reads

end Lib
