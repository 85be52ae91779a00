import Mathlib.Algebra.Ring.Int.Defs
import Mathlib.Algebra.Ring.Nat
import Mathlib.Data.List.Basic
import Mathlib.Data.List.Pairwise
import Mathlib.Logic.Function.Basic

/-!
# Sorted arrays

A block of cells of which the first `n` are in use and sorted, without two of the same key: how it
is searched, how a gap is made in it, in the block itself or on the way to a larger one, and how
what is not wanted any more is taken out in one pass.

The loops are the ones that one writes for this, over a function from indices to cells; what they do
is said by the list of the first cells (`firstCells`). The keys are compared by `compare`.
-/

namespace Lib

open Std

variable {α : Type*}

/-- The first `n` cells. -/
def firstCells (f : ℕ → α) (n : ℕ) : List α := (List.range n).map f

@[simp] theorem length_firstCells (f : ℕ → α) (n : ℕ) : (firstCells f n).length = n := by
  rw [firstCells, List.length_map, List.length_range]

theorem mem_firstCells {f : ℕ → α} {n : ℕ} {a : α} : a ∈ firstCells f n ↔ ∃ i < n, f i = a := by
  simp only [firstCells, List.mem_map, List.mem_range]

theorem firstCells_congr {f g : ℕ → α} {n : ℕ} (h : ∀ i < n, f i = g i) :
    firstCells f n = firstCells g n :=
  List.map_congr_left fun i hi ↦ h i (List.mem_range.mp hi)

theorem firstCells_succ (f : ℕ → α) (n : ℕ) : firstCells f (n + 1) = firstCells f n ++ [f n] := by
  rw [firstCells, List.range_succ, List.map_append, List.map_singleton, firstCells]

/-- The first cells, and those behind them. -/
theorem firstCells_add (f : ℕ → α) (m n : ℕ) :
    firstCells f (m + n) = firstCells f m ++ firstCells (fun i ↦ f (m + i)) n := by
  rw [firstCells, List.range_add, List.map_append, List.map_map, firstCells, firstCells]
  rfl

theorem take_firstCells (f : ℕ → α) (m n : ℕ) : (firstCells f (m + n)).take m = firstCells f m := by
  rw [firstCells_add, List.take_left' (length_firstCells f m)]

theorem drop_firstCells (f : ℕ → α) (m n : ℕ) :
    (firstCells f (m + n)).drop m = firstCells (fun i ↦ f (m + i)) n := by
  rw [firstCells_add, List.drop_left' (length_firstCells f m)]

/-! ## Making a gap -/

/-- Copy `n` cells of `src`, from `i` on, to the cells that are `d` further. -/
def copyCells (src : ℕ → α) (d : ℕ) : ℕ → ℕ → (ℕ → α) → ℕ → α
  | 0, _, dst => dst
  | n + 1, i, dst => copyCells src d n (i + 1) (Function.update dst (i + d) (src i))

/-- The cells before the copy stay. -/
theorem copyCells_of_lt (src : ℕ → α) {d j : ℕ} (n : ℕ) {i : ℕ} (hj : j < i + d) (dst : ℕ → α) :
    copyCells src d n i dst j = dst j := by
  induction n generalizing i dst with
  | zero => rfl
  | succ n ih => rw [copyCells, ih (by omega), Function.update_of_ne (by omega)]

theorem copyCells_of_mem (src : ℕ → α) {d n i k : ℕ} (hle : i ≤ k) (hlt : k < i + n) (dst : ℕ → α) :
    copyCells src d n i dst (k + d) = src k := by
  induction n generalizing i dst with
  | zero => omega
  | succ n ih =>
    rw [copyCells]
    rcases Nat.eq_or_lt_of_le hle with rfl | hik
    · rw [copyCells_of_lt src n (by omega), Function.update_self]
    · exact ih hik (by omega) _

/-- Move the cells from `before` on up by one, from the cell `i` down. -/
def shiftCells (before : ℕ) : ℕ → (ℕ → α) → ℕ → α
  | 0, f => f
  | i + 1, f => if i + 1 > before then shiftCells before i (Function.update f (i + 1) (f i)) else f

theorem shiftCells_of_gt (before : ℕ) {i j : ℕ} (hj : i < j) (f : ℕ → α) :
    shiftCells before i f j = f j := by
  induction i generalizing f with
  | zero => rfl
  | succ i ih =>
    rw [shiftCells]
    split
    · rw [ih (by omega), Function.update_of_ne (by omega)]
    · rfl

theorem shiftCells_of_le {before j : ℕ} (hj : j ≤ before) (i : ℕ) (f : ℕ → α) :
    shiftCells before i f j = f j := by
  induction i generalizing f with
  | zero => rfl
  | succ i ih =>
    rw [shiftCells]
    split
    · rw [ih, Function.update_of_ne (by omega)]
    · rfl

theorem shiftCells_succ {before i j : ℕ} (hle : before ≤ j) (hlt : j < i) (f : ℕ → α) :
    shiftCells before i f (j + 1) = f j := by
  induction i generalizing f with
  | zero => omega
  | succ i ih =>
    rw [shiftCells, if_pos (by omega)]
    rcases Nat.eq_or_lt_of_le (Nat.le_of_lt_succ hlt) with rfl | hji
    · rw [shiftCells_of_gt before (Nat.lt_succ_self j), Function.update_self]
    · rw [ih hji, Function.update_of_ne (by omega)]

/-- A cell that is put between the others. -/
theorem firstCells_insert {f g : ℕ → α} {n before : ℕ} {a : α} (hle : before ≤ n)
    (hlow : ∀ j < before, g j = f j) (hat : g before = a)
    (hhigh : ∀ j, before ≤ j → j < n → g (j + 1) = f j) :
    firstCells g (n + 1) = (firstCells f n).take before ++ a :: (firstCells f n).drop before := by
  obtain ⟨m, rfl⟩ := Nat.exists_eq_add_of_le hle
  have hg : firstCells g (before + m + 1) =
      firstCells f before ++ a :: firstCells (fun i ↦ f (before + i)) m := by
    rw [Nat.add_right_comm, firstCells_add, firstCells_succ, hat, firstCells_congr hlow,
      List.append_assoc]
    refine congrArg (firstCells f before ++ a :: ·) (firstCells_congr fun i hi ↦ ?_)
    rw [Nat.add_right_comm]
    exact hhigh (before + i) (Nat.le_add_right _ _) (by omega)
  rw [hg, take_firstCells, drop_firstCells]

/-! ## Taking cells out -/

/-- Go through `n` cells from `i` on, and move those that stay to `j` and the cells that follow. -/
def compactCells (stays : α → Bool) : ℕ → ℕ → ℕ → (ℕ → α) → ℕ × (ℕ → α)
  | 0, _, j, f => (j, f)
  | n + 1, i, j, f =>
    if stays (f i) then
      compactCells stays n (i + 1) (j + 1) (if i ≠ j then Function.update f j (f i) else f)
    else compactCells stays n (i + 1) j f

theorem compactCells_le (stays : α → Bool) (n i j : ℕ) (f : ℕ → α) :
    (compactCells stays n i j f).1 ≤ j + n := by
  induction n generalizing i j f with
  | zero => exact Nat.le_refl j
  | succ n ih =>
    rw [compactCells]
    split
    · exact Nat.le_trans (ih _ _ _) (by omega)
    · exact Nat.le_trans (ih _ _ _) (by omega)

/-- The cells that stay are left, in order. -/
theorem firstCells_compactCells (stays : α → Bool) {n i j : ℕ} (hji : j ≤ i) (f : ℕ → α) :
    firstCells (compactCells stays n i j f).2 (compactCells stays n i j f).1 =
      firstCells f j ++ (firstCells (fun k ↦ f (i + k)) n).filter stays := by
  induction n generalizing i j f with
  | zero => exact (List.append_nil _).symm
  | succ n ih =>
    have hcells : firstCells (fun k ↦ f (i + k)) (n + 1) = f i ::
        firstCells (fun k ↦ f (i + 1 + k)) n := by
      rw [Nat.add_comm n 1, firstCells_add]
      refine congrArg (f i :: ·) (firstCells_congr fun k _ ↦ ?_)
      exact congrArg f (by omega)
    rw [compactCells, hcells, List.filter_cons]
    split
    · -- the cell is moved; the cells after it have not been written
      let g := if i ≠ j then Function.update f j (f i) else f
      have hg : ∀ k, k ≠ j → g k = f k := by
        intro k hk
        change (if i ≠ j then Function.update f j (f i) else f) k = f k
        split
        · exact Function.update_of_ne hk _ _
        · rfl
      have hgj : g j = f i := by
        change (if i ≠ j then Function.update f j (f i) else f) j = f i
        split
        next => exact Function.update_self _ _ _
        next heq => rw [not_not.mp heq]
      change firstCells (compactCells stays n (i + 1) (j + 1) g).2
          (compactCells stays n (i + 1) (j + 1) g).1 = _
      rw [ih (by omega), firstCells_succ, hgj, firstCells_congr fun k hk ↦ hg k (Nat.ne_of_lt hk),
        firstCells_congr fun k _ ↦ hg (i + 1 + k) (by omega), List.append_assoc]
      rfl
    · exact ih (by omega) f

/-! ## Searching -/

/-- What a search comes to: a cell, or the place before which there is none. -/
inductive Search
  | found (mid : ℕ)
  | absent (begin : ℕ)
deriving DecidableEq, Repr

/-- Binary search in the cells from `b` to `e`, both included; `cmp` compares a cell with what is
searched for. The first argument bounds the rounds. -/
def binarySearch (cmp : ℕ → Ordering) : ℕ → ℤ → ℤ → Option Search
  | 0, _, _ => none
  | fuel + 1, b, e =>
    if b ≤ e then
      let mid := ((b + e) / 2).toNat
      match cmp mid with
      | .eq => some (.found mid)
      | .lt => binarySearch cmp fuel (mid + 1) e
      | .gt => binarySearch cmp fuel b (mid - 1)
    else some (.absent b.toNat)

/-- What is known of the result. -/
def Search.Right (cmp : ℕ → Ordering) (n : ℕ) : Search → Prop
  | .found mid => mid < n ∧ cmp mid = .eq
  | .absent begin => begin ≤ n ∧ (∀ i < begin, cmp i = .lt) ∧ ∀ i, begin ≤ i → i < n → cmp i = .gt

/-- **Binary search**: it comes to an end, and to the right place, if the cells are sorted: one that
is not less than what is searched for is followed by greater ones only. -/
theorem binarySearch_right {cmp : ℕ → Ordering} {n fuel : ℕ} {b e : ℤ}
    (hsorted : ∀ i j, i < j → j < n → cmp i ≠ .lt → cmp j = .gt) (hb : 0 ≤ b) (he : e < n)
    (hbe : b ≤ e + 1)
    (hlow : ∀ i : ℕ, (i : ℤ) < b → cmp i = .lt) (hhigh : ∀ i : ℕ, e < i → i < n → cmp i = .gt)
    (hfuel : e + 1 - b < fuel) :
    ∃ r, binarySearch cmp fuel b e = some r ∧ r.Right cmp n := by
  induction fuel generalizing b e with
  | zero => omega
  | succ fuel ih =>
    rw [binarySearch]
    split
    next hle =>
      have hmid : b ≤ ((b + e) / 2).toNat ∧ (((b + e) / 2).toNat : ℤ) ≤ e := by omega
      generalize ((b + e) / 2).toNat = mid at hmid
      dsimp only
      cases hcmp : cmp mid with
      | eq => exact ⟨_, rfl, by omega, hcmp⟩
      | lt =>
        refine ih (by omega) he (by omega) (fun i hi ↦ ?_) hhigh (by omega)
        by_contra hnot
        rcases Nat.lt_or_ge i mid with hlt | hge
        · have hgt := hsorted i mid hlt (by omega) hnot
          rw [hcmp] at hgt
          cases hgt
        · obtain rfl : i = mid := by omega
          exact hnot hcmp
      | gt =>
        refine ih hb (by omega) (by omega) hlow (fun i hi hin ↦ ?_) (by omega)
        rcases Nat.lt_or_ge mid i with hlt | hge
        · refine hsorted mid i hlt hin ?_
          rw [hcmp]
          exact nofun
        · obtain rfl : i = mid := by omega
          exact hcmp
    next =>
      refine ⟨_, rfl, by omega, fun i hi ↦ hlow i (by omega), fun i hi hin ↦ hhigh i (by omega) hin⟩

/-! ## Sorted lists of keys -/

section Sorted

variable {κ : Type*} [Ord κ] [TransOrd κ] [LawfulEqOrd κ] {key : α → κ} {l : List α}
    {a b : α} {k : κ}

/-- The keys go up, and none comes twice. -/
def SortedBy (key : α → κ) (l : List α) : Prop := l.Pairwise fun a b ↦ compare (key a) (key b) = .lt

/-- A sorted array can be searched. -/
theorem SortedBy.search {f : ℕ → α} {n : ℕ} (h : SortedBy key (firstCells f n)) (k : κ) {i j : ℕ}
    (hij : i < j)
    (hj : j < n) (hi : compare (key (f i)) k ≠ .lt) : compare (key (f j)) k = .gt := by
  have hpair := List.pairwise_iff_getElem.mp h i j (by rw [length_firstCells]; omega)
    (by rw [length_firstCells]; exact hj) hij
  simp only [firstCells, List.getElem_map, List.getElem_range] at hpair
  rw [OrientedCmp.gt_iff_lt]
  cases hcmp : compare (key (f i)) k with
  | lt => exact absurd hcmp hi
  | eq => rwa [LawfulEqOrd.eq_of_compare hcmp] at hpair
  | gt => exact TransCmp.lt_trans (OrientedCmp.gt_iff_lt.mp hcmp) hpair

omit [LawfulEqOrd κ] in
/-- An entry is put where its key belongs. -/
theorem SortedBy.insert (h : SortedBy key l) {before : ℕ}
    (hlow : ∀ b ∈ l.take before, compare (key b) (key a) = .lt)
    (hhigh : ∀ b ∈ l.drop before, compare (key b) (key a) = .gt) :
    SortedBy key (l.take before ++ a :: l.drop before) := by
  have hparts : SortedBy key (l.take before ++ l.drop before) := by rwa [List.take_append_drop]
  obtain ⟨htake, hdrop, hacross⟩ := List.pairwise_append.mp hparts
  refine List.pairwise_append.mpr ⟨htake, List.pairwise_cons.mpr ⟨fun b hb ↦ ?_, hdrop⟩,
    fun b hb c hc ↦ ?_⟩
  · exact OrientedCmp.gt_iff_lt.mp (hhigh b hb)
  · rcases List.mem_cons.mp hc with rfl | hc
    · exact hlow b hb
    · exact hacross b hb c hc

end Sorted

end Lib
