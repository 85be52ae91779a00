import Mathlib.Algebra.Ring.Int.Defs
import Mathlib.Algebra.Ring.Nat
import Mathlib.Data.Finset.Card
import Mathlib.Data.Finset.Range
import Mathlib.Logic.Function.Basic

/-!
# Tables indexed by a key modulo the size

A table without collisions: an entry `c` with key `key c` is in cell `key c % size`, and nothing
else is in the table. `Holds` says this of a set of entries; it makes keys unique modulo the size,
so in particular unique, and there are at most as many entries as cells.
-/

namespace Lib

variable {α : Type*}

/-! ## Tables -/

/-- The cells below `size` hold the entries of `live`, each where its key says. -/
def Holds (f : ℕ → Option α) (size : ℕ) (key : α → ℕ) (live : Finset α) : Prop :=
  ∀ j < size, ∀ c, f j = some c ↔ c ∈ live ∧ key c % size = j

namespace Holds

variable {f : ℕ → Option α} {size : ℕ} {key : α → ℕ} {live : Finset α} {c c' : α}

/-! ## Lookup -/

theorem cell (h : Holds f size key live) (hpos : 0 < size) (hc : c ∈ live) :
    f (key c % size) = some c :=
  (h _ (Nat.mod_lt _ hpos) c).mpr ⟨hc, rfl⟩

theorem mem (h : Holds f size key live) {j : ℕ} (hj : j < size) (hc : f j = some c) :
    c ∈ live ∧ key c % size = j :=
  (h j hj c).mp hc

/-- Keys are unique modulo the size. -/
theorem eq_of_mod_eq (h : Holds f size key live) (hpos : 0 < size) (hc : c ∈ live)
    (hc' : c' ∈ live) (heq : key c % size = key c' % size) : c = c' := by
  have hcell := h.cell hpos hc
  rw [heq, h.cell hpos hc', Option.some.injEq] at hcell
  exact hcell.symm

theorem empty (size : ℕ) (key : α → ℕ) : Holds (fun _ ↦ none) size key ∅ := by
  intro j _ c
  simp

/-! ## Size -/

/-- A table without a free cell has at least as many entries as cells. -/
theorem size_le_card [DecidableEq α] (h : Holds f size key live)
    (hfull : ∀ j < size, f j ≠ none) : size ≤ live.card := by
  have hsub : Finset.range size ⊆ live.image (fun c ↦ key c % size) := by
    intro j hj
    have hj := Finset.mem_range.mp hj
    obtain ⟨c, hc⟩ := Option.ne_none_iff_exists'.mp (hfull j hj)
    obtain ⟨hlive, hk⟩ := h.mem hj hc
    exact Finset.mem_image.mpr ⟨c, hlive, hk⟩
  calc size = (Finset.range size).card := (Finset.card_range size).symm
    _ ≤ (live.image fun c ↦ key c % size).card := Finset.card_le_card hsub
    _ ≤ live.card := Finset.card_image_le

/-- Never more entries than cells. -/
theorem card_le_size (h : Holds f size key live) (hpos : 0 < size) : live.card ≤ size := by
  have hmaps : ∀ c ∈ live, key c % size ∈ Finset.range size :=
    fun c _ ↦ Finset.mem_range.mpr (Nat.mod_lt _ hpos)
  have hinj : Set.InjOn (fun c ↦ key c % size) live :=
    fun _ hc _ hc' heq ↦ h.eq_of_mod_eq hpos hc hc' heq
  calc live.card ≤ (Finset.range size).card := Finset.card_le_card_of_injOn _ hmaps hinj
    _ = size := Finset.card_range size

variable [DecidableEq α]

/-! ## Insertion and removal -/

/-- A new entry goes to a free cell. -/
theorem insert (h : Holds f size key live) {k : ℕ} (hfree : f (k % size) = none)
    (hnew : c ∉ live) :
    Holds (Function.update f (k % size) (some c)) size (Function.update key c k)
      (Insert.insert c live) := by
  intro j hj c'
  have hne : ∀ {c'}, c' ∈ live → c' ≠ c := by
    rintro c' hc' rfl
    exact hnew hc'
  by_cases hjk : j = k % size
  · subst hjk
    rw [Function.update_self, Option.some.injEq, Finset.mem_insert]
    constructor
    · rintro rfl
      exact ⟨Or.inl rfl, by rw [Function.update_self]⟩
    · rintro ⟨rfl | hc', hk⟩
      · rfl
      · rw [Function.update_of_ne (hne hc')] at hk
        have hcell := (h _ hj c').mpr ⟨hc', hk⟩
        rw [hfree] at hcell
        cases hcell
  · rw [Function.update_of_ne hjk, h j hj c', Finset.mem_insert]
    constructor
    · rintro ⟨hc', hk⟩
      exact ⟨Or.inr hc', by rw [Function.update_of_ne (hne hc'), hk]⟩
    · rintro ⟨rfl | hc', hk⟩
      · rw [Function.update_self] at hk
        exact absurd hk.symm hjk
      · rw [Function.update_of_ne (hne hc')] at hk
        exact ⟨hc', hk⟩

/-- Clearing the cell of an entry removes this entry only. -/
theorem erase (h : Holds f size key live) (hpos : 0 < size) (hc : c ∈ live) :
    Holds (Function.update f (key c % size) none) size key (live.erase c) := by
  intro j hj c'
  by_cases hjk : j = key c % size
  · subst hjk
    rw [Function.update_self]
    constructor
    · intro hn
      cases hn
    · rintro ⟨hc', hk⟩
      obtain ⟨hne, hc'⟩ := Finset.mem_erase.mp hc'
      exact absurd (h.eq_of_mod_eq hpos hc' hc hk) hne
  · rw [Function.update_of_ne hjk, h j hj c', Finset.mem_erase]
    constructor
    · rintro ⟨hc', hk⟩
      refine ⟨⟨?_, hc'⟩, hk⟩
      rintro rfl
      exact hjk hk.symm
    · rintro ⟨⟨-, hc'⟩, hk⟩
      exact ⟨hc', hk⟩

end Holds

end Lib
