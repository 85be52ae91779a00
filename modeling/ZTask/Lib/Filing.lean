import Mathlib.Algebra.Ring.Int.Defs
import Mathlib.Algebra.Ring.Nat
import Mathlib.Data.List.Basic
import Mathlib.Logic.Function.Basic

/-!
# Items filed under slots

A family of lists indexed by slots, together with a function that says which slot an item belongs
to, is another way of writing down one list of items: `Files f place l` says that every slot holds
the items of `l` that belong there, in the order of `l`.

The point of the relation is `Files.cascade`. When the placement changes, it is enough to empty one
slot and file its items anew, in order, provided the items elsewhere keep their place and the slots
that receive items were empty. Order within a slot is then still the order of `l`.
-/

namespace Lib

variable {α ι : Type*} [DecidableEq ι]

/-! ## Filing -/

/-- Slot `i` holds the items of `l` that `place` puts there, in the order of `l`. -/
def Files (f : ι → List α) (place : α → ι) (l : List α) : Prop :=
  ∀ i, f i = l.filter (place · = i)

/-- Append an item to its slot. -/
def file (place : α → ι) (f : ι → List α) (x : α) : ι → List α :=
  Function.update f (place x) (f (place x) ++ [x])

variable {f : ι → List α} {place place' : α → ι} {l : List α}

/-! ## One list at a time -/

theorem file_apply (x : α) (i : ι) :
    file place f x i = f i ++ [x].filter (place · = i) := by
  by_cases hi : place x = i
  · subst hi
    simp [file]
  · simp [file, hi, Function.update_of_ne (Ne.symm hi)]

theorem foldl_file_apply (l : List α) (f : ι → List α) (i : ι) :
    l.foldl (file place) f i = f i ++ l.filter (place · = i) := by
  induction l generalizing f with
  | nil => simp
  | cons x l ih =>
    rw [List.foldl_cons, ih, file_apply, List.append_assoc, ← List.filter_append]
    rfl

/-! ## What files, files on -/

theorem files_nil (place : α → ι) : Files (fun _ ↦ []) place [] := fun _ ↦ rfl

/-- A new item goes to the end of its slot. -/
theorem Files.insert (h : Files f place l) (x : α) : Files (file place f x) place (l ++ [x]) := by
  intro i
  rw [file_apply, h i, List.filter_append]

/-- Emptying a slot removes exactly the items that belong there. -/
theorem Files.clear (h : Files f place l) (i : ι) :
    Files (Function.update f i []) place (l.filter (place · ≠ i)) := by
  intro j
  by_cases hj : j = i
  · subst hj
    simp [List.filter_filter]
  · rw [Function.update_of_ne hj, h j, List.filter_filter]
    refine List.filter_congr fun x _ ↦ ?_
    by_cases hx : place x = j <;> simp [hx, hj]

/-- Only the placement of the items at hand matters. -/
theorem Files.congr (h : Files f place l) (heq : ∀ x ∈ l, place' x = place x) :
    Files f place' l := by
  intro i
  rw [h i]
  exact List.filter_congr fun x hx ↦ by rw [heq x hx]

/-- **Cascade.** The placement changes from `place` to `place'`, and slot `i` is filed anew. -/
theorem Files.cascade (h : Files f place l) (i : ι)
    (hstay : ∀ x ∈ l, place x ≠ i → place' x = place x)
    (hempty : ∀ x ∈ l, ∀ y ∈ l, place x = i → place y ≠ i → place' x ≠ place y) :
    Files ((f i).foldl (file place') (Function.update f i [])) place' l := by
  intro j
  rw [foldl_file_apply, h i, List.filter_filter]
  by_cases hmoved : ∃ x ∈ l, place x = i ∧ place' x = j
  · -- slot `j` receives items, and then it has no others
    obtain ⟨x, hx, hxi, hxj⟩ := hmoved
    have hrest : Function.update f i [] j = [] := by
      by_cases hj : j = i
      · simp [hj]
      · rw [Function.update_of_ne hj, h j, List.filter_eq_nil_iff]
        intro y hy hyj
        have hyj : place y = j := by simpa using hyj
        exact hempty x hx y hy hxi (hyj ▸ hj) (hxj.trans hyj.symm)
    rw [hrest, List.nil_append]
    refine List.filter_congr fun y hy ↦ ?_
    by_cases hyi : place y = i
    · simp [hyi]
    · have hne : place' y ≠ j := by
        rw [hstay y hy hyi, ← hxj]
        exact (hempty x hx y hy hxi hyi).symm
      simp [hne]
  · -- slot `j` keeps what it has
    push Not at hmoved
    have hnone : l.filter (fun a ↦ decide (place' a = j) && decide (place a = i)) = [] := by
      rw [List.filter_eq_nil_iff]
      intro y hy hyj
      simp only [Bool.and_eq_true, decide_eq_true_eq] at hyj
      exact hmoved y hy hyj.2 hyj.1
    rw [hnone, List.append_nil]
    by_cases hj : j = i
    · rw [hj, Function.update_self, eq_comm, List.filter_eq_nil_iff]
      intro y hy hyi
      have hyi : place' y = i := by simpa using hyi
      by_cases hy' : place y = i
      · exact hmoved y hy hy' (hyi.trans hj.symm)
      · exact hy' ((hstay y hy hy').symm.trans hyi)
    · rw [Function.update_of_ne hj, h j]
      refine List.filter_congr fun y hy ↦ ?_
      by_cases hyi : place y = i
      · simp [hyi, hmoved y hy hyi, Ne.symm hj]
      · rw [hstay y hy hyi]

end Lib
