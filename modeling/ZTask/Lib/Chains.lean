import Mathlib.Algebra.Ring.Int.Defs
import Mathlib.Algebra.Ring.Nat
import Mathlib.Data.List.Basic
import Mathlib.Logic.Function.Basic

/-!
# Chained hash tables

A table of chains: an entry is kept in the chain of its key's slot, new entries in front. Only the
first entry of a key is ever found, so a table is described by `find?`: after an insertion or a
replacement it yields the new entry at its key and what it yielded before at every other.

Where entries are taken out again the ones behind the first count too. Such a table is described by
`entries`, all that is kept under a key.
-/

namespace Lib

/-- How entries are filed: the key of an entry and the slot of a key. -/
structure Chaining (α κ : Type*) where
  key : α → κ
  slot : κ → ℕ

namespace Chaining

variable {α κ : Type*} [DecidableEq κ] (C : Chaining α κ)

/-- The first entry of the key in its chain. -/
def find? (t : ℕ → List α) (k : κ) : Option α := (t (C.slot k)).find? fun a ↦ C.key a = k

/-- A new entry in front of its chain. -/
def insert (t : ℕ → List α) (a : α) : ℕ → List α :=
  Function.update t (C.slot (C.key a)) (a :: t (C.slot (C.key a)))

/-- The first entry of a chain that has the key of `a` is overwritten with `a`. -/
def replaceIn (a : α) : List α → List α
  | [] => []
  | b :: bs => if C.key b = C.key a then a :: bs else b :: replaceIn a bs

def replace (t : ℕ → List α) (a : α) : ℕ → List α :=
  Function.update t (C.slot (C.key a)) (C.replaceIn a (t (C.slot (C.key a))))

variable {C} {t : ℕ → List α} {a : α}

theorem key_of_find? {k : κ} (h : C.find? t k = some a) : C.key a = k := by
  simpa using List.find?_some h

theorem find?_insert (k : κ) :
    C.find? (C.insert t a) k = if C.key a = k then some a else C.find? t k := by
  by_cases hk : C.key a = k
  · subst hk
    rw [if_pos rfl, find?, insert, Function.update_self, List.find?_cons_of_pos (by simp)]
  · rw [if_neg hk, find?, insert]
    by_cases hs : C.slot k = C.slot (C.key a)
    · rw [hs, Function.update_self, List.find?_cons_of_neg (by simpa using hk), find?, hs]
    · rw [Function.update_of_ne hs, find?]

theorem find?_replaceIn (l : List α) (k : κ) :
    (C.replaceIn a l).find? (fun b ↦ C.key b = k) =
      if C.key a = k then (l.find? fun b ↦ C.key b = k).map fun _ ↦ a
      else l.find? fun b ↦ C.key b = k := by
  induction l with
  | nil => simp [replaceIn]
  | cons b bs ih =>
    rw [replaceIn]
    by_cases hb : C.key b = C.key a
    · rw [if_pos hb]
      by_cases hk : C.key a = k <;> simp [hb, hk]
    · rw [if_neg hb]
      by_cases hk : C.key b = k
      · have hne : ¬ C.key a = k := fun h ↦ hb (hk.trans h.symm)
        simp [hk, hne]
      · simp only [List.find?_cons, hk, decide_false, ih]

theorem find?_replace (k : κ) :
    C.find? (C.replace t a) k =
      if C.key a = k then (C.find? t k).map fun _ ↦ a else C.find? t k := by
  rw [find?, replace]
  by_cases hs : C.slot k = C.slot (C.key a)
  · rw [hs, Function.update_self, find?_replaceIn, find?, hs]
  · have hk : ¬ C.key a = k := fun h ↦ hs (by rw [h])
    rw [Function.update_of_ne hs, if_neg hk, find?]

/-! ## Taking out -/

/-- The first entry of the key, and the chain without it. -/
def takeIn (k : κ) : List α → Option (α × List α)
  | [] => none
  | b :: bs => if C.key b = k then some (b, bs) else (takeIn k bs).map fun p ↦ (p.1, b :: p.2)

/-- The first entry of the key, and the table without it. -/
def take? (t : ℕ → List α) (k : κ) : Option (α × (ℕ → List α)) :=
  (C.takeIn k (t (C.slot k))).map fun p ↦ (p.1, Function.update t (C.slot k) p.2)

/-- All entries of the key. -/
def entries (t : ℕ → List α) (k : κ) : List α := (t (C.slot k)).filter fun a ↦ C.key a = k

/-- Every entry is in the chain of its key. -/
def Filed (t : ℕ → List α) : Prop := ∀ i, ∀ a ∈ t i, C.slot (C.key a) = i

theorem takeIn_eq_none_iff {k : κ} {l : List α} :
    C.takeIn k l = none ↔ l.filter (fun a ↦ C.key a = k) = [] := by
  induction l with
  | nil => exact ⟨fun _ ↦ rfl, fun _ ↦ rfl⟩
  | cons b bs ih =>
    rw [takeIn]
    by_cases hb : C.key b = k
    · simp [hb]
    · simp [hb, ih]

/-- What is taken is the first entry of its key; the chain keeps the others, and all of the other
keys. -/
theorem takeIn_eq_some {k : κ} {l l' : List α} (h : C.takeIn k l = some (a, l')) :
    C.key a = k ∧ l.filter (fun b ↦ C.key b = k) = a :: l'.filter (fun b ↦ C.key b = k) ∧
      (∀ k' ≠ k, l.filter (fun b ↦ C.key b = k') = l'.filter fun b ↦ C.key b = k') ∧
      ∀ b ∈ l', b ∈ l := by
  induction l generalizing l' with
  | nil => cases h
  | cons b bs ih =>
    rw [takeIn] at h
    by_cases hb : C.key b = k
    · rw [if_pos hb] at h
      cases h
      refine ⟨hb, by simp [hb], fun k' hk' ↦ ?_, fun c hc ↦ List.mem_cons_of_mem a hc⟩
      have hne : ¬C.key a = k' := fun h ↦ hk' (h.symm.trans hb)
      simp [hne]
    · rw [if_neg hb, Option.map_eq_some_iff] at h
      obtain ⟨⟨c, cs⟩, htake, hp⟩ := h
      cases hp
      obtain ⟨hkey, hsame, hother, hmem⟩ := ih htake
      refine ⟨hkey, ?_, fun k' hk' ↦ ?_, fun c hc ↦ ?_⟩
      · simp [hb, hsame]
      · rw [List.filter_cons, List.filter_cons, hother k' hk']
      · rcases List.mem_cons.mp hc with rfl | hc
        · exact List.mem_cons_self
        · exact List.mem_cons_of_mem b (hmem c hc)

theorem entries_insert (k : κ) :
    C.entries (C.insert t a) k = if C.key a = k then a :: C.entries t k else C.entries t k := by
  rw [entries, insert]
  by_cases hk : C.key a = k
  · subst hk
    rw [if_pos rfl, Function.update_self, List.filter_cons_of_pos (by simp), entries]
  · rw [if_neg hk]
    by_cases hs : C.slot k = C.slot (C.key a)
    · rw [hs, Function.update_self, List.filter_cons_of_neg (by simpa using hk), entries, hs]
    · rw [Function.update_of_ne hs, entries]

theorem take?_eq_none_iff {k : κ} : C.take? t k = none ↔ C.entries t k = [] := by
  rw [take?, Option.map_eq_none_iff, takeIn_eq_none_iff, entries]

theorem take?_eq_some {k : κ} {t' : ℕ → List α} (h : C.take? t k = some (a, t')) :
    C.key a = k ∧ C.entries t k = a :: C.entries t' k ∧
      ∀ k' ≠ k, C.entries t' k' = C.entries t k' := by
  rw [take?, Option.map_eq_some_iff] at h
  obtain ⟨⟨c, l⟩, htake, hp⟩ := h
  cases hp
  obtain ⟨hkey, hsame, hother, -⟩ := takeIn_eq_some htake
  refine ⟨hkey, ?_, fun k' hk' ↦ ?_⟩
  · rw [entries, hsame, entries, Function.update_self]
  · rw [entries, entries]
    by_cases hs : C.slot k' = C.slot k
    · rw [hs, Function.update_self, hother k' hk']
    · rw [Function.update_of_ne hs]

omit [DecidableEq κ] in
theorem Filed.insert (h : C.Filed t) : C.Filed (C.insert t a) := by
  intro i b hb
  rw [Chaining.insert] at hb
  by_cases hi : i = C.slot (C.key a)
  · subst hi
    rw [Function.update_self] at hb
    rcases List.mem_cons.mp hb with rfl | hb
    · rfl
    · exact h _ b hb
  · rw [Function.update_of_ne hi] at hb
    exact h i b hb

theorem Filed.take? {k : κ} {t' : ℕ → List α} (h : C.Filed t)
    (htake : C.take? t k = some (a, t')) : C.Filed t' := by
  rw [Chaining.take?, Option.map_eq_some_iff] at htake
  obtain ⟨⟨c, l⟩, hin, hp⟩ := htake
  cases hp
  intro i b hb
  by_cases hi : i = C.slot k
  · subst hi
    rw [Function.update_self] at hb
    exact h _ b ((takeIn_eq_some hin).2.2.2 b hb)
  · rw [Function.update_of_ne hi] at hb
    exact h i b hb

/-- If every entry is in the chain of its key, the whole table has no other entries of the key. -/
theorem Filed.filter_flatMap {k : κ} {n : ℕ} (h : C.Filed t) (hk : C.slot k < n) :
    ((List.range n).flatMap t).filter (fun a ↦ C.key a = k) = C.entries t k := by
  have hother : ∀ i ≠ C.slot k, (t i).filter (fun a ↦ C.key a = k) = [] := by
    intro i hi
    refine List.filter_eq_nil_iff.mpr fun a ha hkey ↦ hi ?_
    rw [← of_decide_eq_true hkey, h i a ha]
  have hbelow : ∀ m ≤ C.slot k, ((List.range m).flatMap t).filter (fun a ↦ C.key a = k) = [] := by
    intro m hm
    refine List.filter_eq_nil_iff.mpr fun a ha ↦ ?_
    obtain ⟨i, hi, hai⟩ := List.mem_flatMap.mp ha
    have hne : i ≠ C.slot k := Nat.ne_of_lt (Nat.lt_of_lt_of_le (List.mem_range.mp hi) hm)
    exact List.filter_eq_nil_iff.mp (hother i hne) a hai
  induction n with
  | zero => exact absurd hk (Nat.not_lt_zero _)
  | succ n ih =>
    rw [List.range_succ, List.flatMap_append, List.flatMap_singleton, List.filter_append]
    by_cases hn : n = C.slot k
    · rw [hn, hbelow _ (Nat.le_refl _), List.nil_append, entries]
    · rw [hother n hn, List.append_nil]
      exact ih (by omega)

end Chaining

end Lib
