import Mathlib.Algebra.Ring.Int.Defs
import Mathlib.Algebra.Ring.Nat
import Mathlib.Data.List.Nodup
import Mathlib.Logic.Function.Basic

/-!
# Custody

Items are handed out, kept at places or on a list, and given back. Whoever gives an item back gives
it back once, if no item is at two places, and if what is kept at a place is not given back again
once it has been: a place is *spent* from then on, until it gets another item. An item may stay at a
place that is spent.

`Custody` is the invariant; there is a rule for everything that may happen to an item.
-/

namespace Lib

universe u v

variable {α : Type u} {ι : Type v}

/-! ## Custody -/

/-- The items given back, those at places and those on the list; all of them are known, that is,
have been handed out. -/
structure Custody (back : List α) (held : ι → Option α) (loose : List α) (spent : ι → Bool)
    (known : α → Prop) : Prop where
  once : back.Nodup
  apart : ∀ {i j a}, held i = some a → held j = some a → i = j
  kept : ∀ {i a}, held i = some a → spent i = false → a ∉ back
  stays : ∀ {i a}, held i = some a → a ∉ loose
  looseOnce : loose.Nodup
  looseKept : ∀ {a}, a ∈ loose → a ∉ back
  knownBack : ∀ {a}, a ∈ back → known a
  knownHeld : ∀ {i a}, held i = some a → known a
  knownLoose : ∀ {a}, a ∈ loose → known a

namespace Custody

variable {back loose loose' : List α} {held : ι → Option α} {spent : ι → Bool}
  {known known' : α → Prop} {i : ι} {a : α}

/-! ## Before anything is obtained -/

theorem empty : Custody [] (fun _ : ι ↦ none) ([] : List α) spent known where
  once := .nil
  apart h := nomatch h
  kept h := nomatch h
  stays h := nomatch h
  looseOnce := .nil
  looseKept h := nomatch h
  knownBack h := nomatch h
  knownHeld h := nomatch h
  knownLoose h := nomatch h

theorem mono (h : Custody back held loose spent known) (hknown : ∀ a, known a → known' a) :
    Custody back held loose spent known' where
  __ := h
  knownBack ha := hknown _ (h.knownBack ha)
  knownHeld ha := hknown _ (h.knownHeld ha)
  knownLoose ha := hknown _ (h.knownLoose ha)

theorem perm (h : Custody back held loose spent known) (hperm : loose.Perm loose') :
    Custody back held loose' spent known where
  __ := h
  stays ha hmem := h.stays ha (hperm.mem_iff.mpr hmem)
  looseOnce := hperm.nodup_iff.mp h.looseOnce
  looseKept ha := h.looseKept (hperm.mem_iff.mpr ha)
  knownLoose ha := h.knownLoose (hperm.mem_iff.mpr ha)

/-! ## Obtaining and giving back -/

/-- An item is handed out. -/
theorem obtain (h : Custody back held loose spent known) (ha : ¬ known a)
    (hknown : ∀ b, known' b ↔ b = a ∨ known b) :
    Custody back held (a :: loose) spent known' where
  once := h.once
  apart := h.apart
  kept := h.kept
  stays hb hmem := by
    rcases List.mem_cons.mp hmem with rfl | hmem
    · exact ha (h.knownHeld hb)
    · exact h.stays hb hmem
  looseOnce := List.nodup_cons.mpr ⟨fun hmem ↦ ha (h.knownLoose hmem), h.looseOnce⟩
  looseKept hmem := by
    rcases List.mem_cons.mp hmem with rfl | hmem
    · exact fun hback ↦ ha (h.knownBack hback)
    · exact h.looseKept hmem
  knownBack hb := (hknown _).mpr (.inr (h.knownBack hb))
  knownHeld hb := (hknown _).mpr (.inr (h.knownHeld hb))
  knownLoose hmem := by
    rcases List.mem_cons.mp hmem with rfl | hmem
    · exact (hknown _).mpr (.inl rfl)
    · exact (hknown _).mpr (.inr (h.knownLoose hmem))

/-- An item that is given back is on no other place and not on the list. -/
theorem once_concat (h : Custody back held loose spent known) (ha : a ∉ back) :
    (back ++ [a]).Nodup :=
  List.nodup_append.mpr ⟨h.once, List.nodup_singleton a, fun b hb c hc heq ↦ ha (by
    rw [List.mem_singleton.mp hc] at heq
    rwa [heq] at hb)⟩

/-- An item on the list is given back. -/
theorem releaseLoose (h : Custody back held (a :: loose) spent known) :
    Custody (back ++ [a]) held loose spent known := by
  obtain ⟨hnotMem, hloose⟩ := List.nodup_cons.mp h.looseOnce
  refine ⟨h.once_concat (h.looseKept List.mem_cons_self), h.apart, fun hb hspent hmem ↦ ?_,
    fun hb hmem ↦ h.stays hb (List.mem_cons_of_mem _ hmem), hloose, fun hb hmem ↦ ?_,
    fun hmem ↦ ?_, h.knownHeld, fun hmem ↦ h.knownLoose (List.mem_cons_of_mem _ hmem)⟩
  · rcases List.mem_append.mp hmem with hmem | hmem
    · exact h.kept hb hspent hmem
    · rw [List.mem_singleton.mp hmem] at hb
      exact h.stays hb List.mem_cons_self
  · rcases List.mem_append.mp hmem with hmem | hmem
    · exact h.looseKept (List.mem_cons_of_mem _ hb) hmem
    · rw [List.mem_singleton.mp hmem] at hb
      exact hnotMem hb
  · rcases List.mem_append.mp hmem with hmem | hmem
    · exact h.knownBack hmem
    · rw [List.mem_singleton.mp hmem]
      exact h.knownLoose List.mem_cons_self

/-- An item on the list is lost. -/
theorem forget (h : Custody back held (a :: loose) spent known) :
    Custody back held loose spent known where
  __ := h
  stays hb hmem := h.stays hb (List.mem_cons_of_mem _ hmem)
  looseOnce := (List.nodup_cons.mp h.looseOnce).2
  looseKept hmem := h.looseKept (List.mem_cons_of_mem _ hmem)
  knownLoose hmem := h.knownLoose (List.mem_cons_of_mem _ hmem)

variable [DecidableEq ι]

/-! ## Holders -/

/-- A place gives up its item, which is given back by nobody. -/
theorem vacate (h : Custody back held loose spent known) (i : ι) :
    Custody back (Function.update held i none) loose spent known := by
  have hold : ∀ {j b}, Function.update held i none j = some b → held j = some b := by
    intro j b hb
    by_cases hj : j = i
    · rw [hj, Function.update_self] at hb
      cases hb
    · rwa [Function.update_of_ne hj] at hb
  exact { h with
    apart := fun hb hc ↦ h.apart (hold hb) (hold hc)
    kept := fun hb ↦ h.kept (hold hb)
    stays := fun hb ↦ h.stays (hold hb)
    knownHeld := fun hb ↦ h.knownHeld (hold hb) }

/-- An item on the list is put to a place. -/
theorem place (h : Custody back held (a :: loose) spent known) (i : ι) :
    Custody back (Function.update held i (some a)) loose (Function.update spent i false) known := by
  obtain ⟨hnotMem, hloose⟩ := List.nodup_cons.mp h.looseOnce
  have hold : ∀ {j b}, Function.update held i (some a) j = some b →
      j = i ∧ b = a ∨ j ≠ i ∧ held j = some b := by
    intro j b hb
    by_cases hj : j = i
    · rw [hj, Function.update_self] at hb
      exact .inl ⟨hj, (Option.some.inj hb).symm⟩
    · rw [Function.update_of_ne hj] at hb
      exact .inr ⟨hj, hb⟩
  have hother : ∀ {j}, held j ≠ some a := fun hj ↦ h.stays hj List.mem_cons_self
  refine ⟨h.once, fun hb hc ↦ ?_, fun hb hspent ↦ ?_, fun hb hmem ↦ ?_, hloose,
    fun hmem ↦ h.looseKept (List.mem_cons_of_mem _ hmem), h.knownBack, fun hb ↦ ?_,
    fun hmem ↦ h.knownLoose (List.mem_cons_of_mem _ hmem)⟩
  · rcases hold hb with ⟨hi, heq⟩ | ⟨-, hb'⟩ <;> rcases hold hc with ⟨hj, heq'⟩ | ⟨-, hc'⟩
    · exact hi.trans hj.symm
    · exact (hother (heq ▸ hc')).elim
    · exact (hother (heq' ▸ hb')).elim
    · exact h.apart hb' hc'
  · rcases hold hb with ⟨rfl, rfl⟩ | ⟨hj, hb⟩
    · exact h.looseKept List.mem_cons_self
    · rw [Function.update_of_ne hj] at hspent
      exact h.kept hb hspent
  · rcases hold hb with ⟨rfl, rfl⟩ | ⟨-, hb⟩
    · exact hnotMem hmem
    · exact h.stays hb (List.mem_cons_of_mem _ hmem)
  · rcases hold hb with ⟨rfl, rfl⟩ | ⟨-, hb⟩
    · exact h.knownLoose List.mem_cons_self
    · exact h.knownHeld hb

/-- The item at a place is given back. -/
theorem release (h : Custody back held loose spent known) (hheld : held i = some a)
    (hspent : spent i = false) :
    Custody (back ++ [a]) held loose (Function.update spent i true) known where
  once := h.once_concat (h.kept hheld hspent)
  apart := h.apart
  kept {j b} hb hspent' hmem := by
    have hj : j ≠ i := by
      rintro rfl
      rw [Function.update_self] at hspent'
      cases hspent'
    rw [Function.update_of_ne hj] at hspent'
    rcases List.mem_append.mp hmem with hmem | hmem
    · exact h.kept hb hspent' hmem
    · rw [List.mem_singleton.mp hmem] at hb
      exact hj (h.apart hb hheld)
  stays := h.stays
  looseOnce := h.looseOnce
  looseKept {b} hb hmem := by
    rcases List.mem_append.mp hmem with hmem | hmem
    · exact h.looseKept hb hmem
    · rw [List.mem_singleton.mp hmem] at hb
      exact h.stays hheld hb
  knownBack {b} hmem := by
    rcases List.mem_append.mp hmem with hmem | hmem
    · exact h.knownBack hmem
    · rw [List.mem_singleton.mp hmem]
      exact h.knownHeld hheld
  knownHeld := h.knownHeld
  knownLoose := h.knownLoose

/-- A place that has no item is spent, or is not any more. -/
theorem spend (h : Custody back held loose spent known) (hheld : held i = none) (b : Bool) :
    Custody back held loose (Function.update spent i b) known where
  __ := h
  kept {j b} hb hspent := by
    have hj : j ≠ i := by
      rintro rfl
      rw [hheld] at hb
      cases hb
    rw [Function.update_of_ne hj] at hspent
    exact h.kept hb hspent

end Custody

end Lib
