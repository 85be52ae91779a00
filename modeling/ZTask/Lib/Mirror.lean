import Mathlib.Algebra.Ring.Int.Defs
import Mathlib.Algebra.Ring.Nat
import Mathlib.Data.List.Basic
import Mathlib.Logic.Function.Basic

/-!
# A table and its copy at the other end of a line

Every entry that is written into the table is sent over a line, first in, first out, and written
into the copy when it arrives. The copy may lose an entry, and reports that. The table drops an
entry when it is told so, by the copy or by anyone else.

`Mirror` is what the two have in common at any time: an entry that is on the line is the one in the
table, if it is the last one for its key; and where nothing is on the line, table and copy agree,
unless the copy has lost the entry and has reported it. The table must not drop an entry that the
copy still has, or gets.
-/

namespace Lib

universe u v

variable {κ : Type u} {α : Type v} [DecidableEq κ]

/-! ## Mirrors -/

/-- `told k`: a report that the copy has lost the entry of `k` is on its way. -/
structure Mirror (table : κ → Option α) (line : List (κ × α)) (copy : κ → Option α)
    (told : κ → Prop) : Prop where
  sent : ∀ {k a before after}, line = before ++ (k, a) :: after → (∀ b, (k, b) ∉ after) →
    table k = some a
  settled : ∀ {k}, (∀ a, (k, a) ∉ line) → table k = copy k ∨ copy k = none ∧ told k

namespace Mirror

variable {table copy : κ → Option α} {line rest : List (κ × α)} {told told' : κ → Prop}
    {k : κ} {a : α}

/-! ## Agreement -/

omit [DecidableEq κ] in
theorem empty : Mirror (fun _ : κ ↦ (none : Option α)) [] (fun _ ↦ none) told where
  sent h := by simp at h
  settled _ := Or.inl rfl

omit [DecidableEq κ] in
/-- Where nothing is on its way, table and copy agree. -/
theorem agree (h : Mirror table [] copy fun _ ↦ False) (k : κ) :
    table k = copy k :=
  (h.settled fun _ hmem ↦ nomatch hmem).elim id fun hfalse ↦ hfalse.2.elim

omit [DecidableEq κ] in
theorem mono (h : Mirror table line copy told) (htold : ∀ k, told k → told' k) :
    Mirror table line copy told' where
  sent := h.sent
  settled hk := (h.settled hk).imp_right fun hlost ↦ ⟨hlost.1, htold _ hlost.2⟩

/-! ## Steps -/

/-- An entry is written and sent. -/
theorem write (h : Mirror table line copy told) (k : κ) (a : α) :
    Mirror (Function.update table k (some a)) (line ++ [(k, a)]) copy told where
  sent := by
    intro j b before after heq hafter
    rcases List.append_eq_append_iff.mp heq with ⟨mid, hbefore, hmid⟩ | ⟨mid, hline, hmid⟩
    · -- the last entry of the line is the new one
      cases mid with
      | nil =>
        obtain ⟨hhead, -⟩ := List.cons.inj hmid
        obtain ⟨rfl, rfl⟩ := Prod.mk.inj hhead
        rw [Function.update_self]
      | cons p mid =>
        have hlen := congrArg List.length hmid
        simp at hlen
    · cases mid with
      | nil =>
        obtain ⟨hhead, -⟩ := List.cons.inj hmid
        obtain ⟨rfl, rfl⟩ := Prod.mk.inj hhead
        rw [Function.update_self]
      | cons p mid =>
        obtain ⟨hhead, htail⟩ := List.cons.inj hmid
        have hj : j ≠ k := by
          rintro rfl
          exact hafter a (by rw [htail]; exact List.mem_append_right _ (List.mem_singleton_self _))
        rw [Function.update_of_ne hj]
        refine h.sent (by rw [hline, ← hhead]) fun b hb ↦ hafter b ?_
        rw [htail]
        exact List.mem_append_left _ hb
  settled := by
    intro j hj
    have hne : j ≠ k := by
      rintro rfl
      exact hj a (List.mem_append_right _ (List.mem_singleton_self _))
    rw [Function.update_of_ne hne]
    exact h.settled fun b hb ↦ hj b (List.mem_append_left _ hb)

/-- The next entry arrives. -/
theorem arrive (h : Mirror table ((k, a) :: rest) copy told) :
    Mirror table rest (Function.update copy k (some a)) told where
  sent := by
    intro j b before after heq hafter
    exact h.sent (by rw [heq, List.cons_append]) hafter
  settled := by
    intro j hj
    by_cases hjk : j = k
    · subst hjk
      rw [Function.update_self]
      exact Or.inl (h.sent (List.nil_append _).symm hj)
    · rw [Function.update_of_ne hjk]
      refine h.settled fun b hb ↦ ?_
      rcases List.mem_cons.mp hb with heq | hb
      · exact hjk (Prod.mk.inj heq).1
      · exact hj b hb

/-- The copy loses an entry, and reports it. -/
theorem lose (h : Mirror table line copy told) (k : κ) :
    Mirror table line (Function.update copy k none) fun j ↦ j = k ∨ told j where
  sent := h.sent
  settled := by
    intro j hj
    by_cases hjk : j = k
    · exact Or.inr ⟨by rw [hjk, Function.update_self], Or.inl hjk⟩
    · rw [Function.update_of_ne hjk]
      exact (h.settled hj).imp_right fun hlost ↦ ⟨hlost.1, Or.inr hlost.2⟩

/-- The table drops an entry that the copy does not have and does not get. -/
theorem drop (h : Mirror table line copy fun j ↦ j = k ∨ told j) (hcopy : copy k = none)
    (hline : ∀ a, (k, a) ∉ line) : Mirror (Function.update table k none) line copy told where
  sent := by
    intro j b before after heq hafter
    have hj : j ≠ k := by
      rintro rfl
      exact hline b (by rw [heq]; simp)
    rw [Function.update_of_ne hj]
    exact h.sent heq hafter
  settled := by
    intro j hj
    by_cases hjk : j = k
    · subst hjk
      rw [Function.update_self]
      exact Or.inl hcopy.symm
    · rw [Function.update_of_ne hjk]
      exact (h.settled hj).imp_right fun hlost ↦ ⟨hlost.1, hlost.2.resolve_left hjk⟩

end Mirror

end Lib
