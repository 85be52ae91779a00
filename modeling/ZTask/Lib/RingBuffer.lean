import Mathlib.Algebra.Ring.Int.Defs
import Mathlib.Algebra.Ring.Nat
import Mathlib.Data.List.Basic
import Mathlib.Logic.Function.Basic
import Mathlib.Tactic.SplitIfs

/-!
# Ring buffers

A block of `cap` cells with a read index `head` and a write index `tail`. The two indices are
carried with the proof that they lie inside the block, so no client has to argue about it again.
The buffer counts as empty when the indices meet; a client that fills the last cell must move the
contents to a larger block at once, and how it does that (`growFrom`) is up to the client.

`toList` is what the buffer holds, in the order it will be read. Two facts are enough to follow
any operation: `toList_concat`, that a buffer agreeing with another on its cells and holding one
more holds the list with one more at the end, and `toList_cons`, the same at the front.
-/

namespace Lib

variable {α : Type*}

/-- A ring buffer with its indices inside the block. -/
structure RingBuffer (α : Type*) where
  /-- The number of cells. -/
  cap : ℕ
  /-- The index read next. -/
  head : ℕ
  /-- The index written next. -/
  tail : ℕ
  /-- The cells; only those below `cap` are used. -/
  data : ℕ → α
  /-- The read index is inside the block. -/
  head_lt : head < cap
  /-- The write index is inside the block. -/
  tail_lt : tail < cap

namespace RingBuffer

/-- The index after `i`, going round at the end of the block. -/
def advance (cap i : ℕ) : ℕ := if cap ≤ i + 1 then 0 else i + 1

theorem advance_lt {cap i : ℕ} (h : i < cap) : advance cap i < cap := by
  rw [advance]
  split <;> omega

theorem advance_eq_mod {cap i : ℕ} (h : i < cap) : (i + 1) % cap = advance cap i := by
  rw [advance]
  split
  · have : i + 1 = cap := by omega
    rw [this, Nat.mod_self]
  · exact Nat.mod_eq_of_lt (by omega)

theorem add_mod_of_lt {cap h i : ℕ} (hh : h < cap) (hi : i < cap) :
    (h + i) % cap = if h + i < cap then h + i else h + i - cap := by
  split
  · exact Nat.mod_eq_of_lt ‹_›
  · rw [Nat.mod_eq_sub_mod (by omega), Nat.mod_eq_of_lt (by omega)]

variable (r : RingBuffer α)

/-- How many cells are in use. -/
def length : ℕ := if r.head ≤ r.tail then r.tail - r.head else r.tail + r.cap - r.head

/-- The `i`-th cell from the read index. -/
def cell (i : ℕ) : α := r.data ((r.head + i) % r.cap)

/-- The contents, in reading order. -/
def toList : List α := (List.range r.length).map r.cell

variable {r}

theorem length_lt : r.length < r.cap := by
  have h1 := r.head_lt
  have h2 := r.tail_lt
  rw [length]
  split <;> omega

theorem length_eq_zero_iff : r.length = 0 ↔ r.head = r.tail := by
  have h1 := r.head_lt
  have h2 := r.tail_lt
  rw [length]
  split <;> omega

@[simp] theorem length_toList : r.toList.length = r.length := by
  rw [toList, List.length_map, List.length_range]

theorem toList_eq_nil_iff : r.toList = [] ↔ r.head = r.tail := by
  rw [← length_eq_zero_iff, ← length_toList, List.length_eq_zero_iff]

theorem toList_eq_nil (h : r.head = r.tail) : r.toList = [] := toList_eq_nil_iff.mpr h

/-- A buffer that agrees with `r` and holds one cell more holds one more at the end. -/
theorem toList_concat {r' : RingBuffer α} {a : α} (hlen : r'.length = r.length + 1)
    (hcell : ∀ i < r.length, r'.cell i = r.cell i) (hlast : r'.cell r.length = a) :
    r'.toList = r.toList ++ [a] := by
  rw [toList, toList, hlen, List.range_succ, List.map_append, List.map_singleton, hlast]
  congr 1
  exact List.map_congr_left fun i hi ↦ hcell i (List.mem_range.mp hi)

/-- A buffer that is one cell behind `r` holds all of `r` but the first. -/
theorem toList_cons {r' : RingBuffer α} {a : α} (hlen : r.length = r'.length + 1)
    (hfirst : r.cell 0 = a) (hcell : ∀ i < r'.length, r.cell (i + 1) = r'.cell i) :
    r.toList = a :: r'.toList := by
  rw [toList, toList, hlen, List.range_succ_eq_map, List.map_cons, hfirst, List.map_map]
  congr 1
  exact List.map_congr_left fun i hi ↦ hcell i (List.mem_range.mp hi)

/-! ## Reading -/

/-- Read the cell at `head` and step over it; nothing when the buffer is empty. -/
def pop? (r : RingBuffer α) : Option (α × RingBuffer α) :=
  if r.head = r.tail then none
  else
    some (r.data r.head,
      { r with head := advance r.cap r.head, head_lt := advance_lt r.head_lt })

theorem pop?_eq_none_iff : r.pop? = none ↔ r.toList = [] := by
  rw [toList_eq_nil_iff, pop?]
  split <;> simp_all

/-- **Pop.** What is read is the front of the list. -/
theorem toList_of_pop? {r' : RingBuffer α} {a : α} (h : r.pop? = some (a, r')) :
    r.toList = a :: r'.toList := by
  have h1 := r.head_lt
  have h2 := r.tail_lt
  rw [pop?] at h
  split at h
  next => cases h
  next hne =>
    cases h
    refine toList_cons ?_ ?_ ?_
    · simp only [length, advance]
      split <;> split <;> split <;> omega
    · rw [cell, Nat.add_zero, Nat.mod_eq_of_lt h1]
    · intro i hi
      have hi' := Nat.lt_trans hi length_lt
      simp only [cell]
      congr 1
      rw [add_mod_of_lt (advance_lt h1) hi']
      by_cases hi1 : i + 1 < r.cap
      · rw [add_mod_of_lt h1 hi1, advance]
        split <;> split <;> split <;> omega
      · have hlen := hi
        simp only [length, advance] at hlen
        split at hlen <;> split at hlen <;> omega

/-- Read until the buffer is empty; the fuel is the number of cells in use. -/
def drain : ℕ → RingBuffer α → List α × RingBuffer α
  | 0, r => ([], r)
  | fuel + 1, r =>
    match r.pop? with
    | none => ([], r)
    | some (a, r') =>
      let (as, r'') := drain fuel r'
      (a :: as, r'')

/-- **Drain.** Reading until the buffer is empty yields the contents and leaves nothing. -/
theorem drain_eq {fuel : ℕ} (h : r.length ≤ fuel) :
    (drain fuel r).1 = r.toList ∧ (drain fuel r).2.toList = [] := by
  induction fuel generalizing r with
  | zero =>
    have : r.toList = [] := by
      rw [← List.length_eq_zero_iff, length_toList]
      omega
    exact ⟨this.symm, this⟩
  | succ fuel ih =>
    cases hp : r.pop? with
    | none =>
      have : r.toList = [] := pop?_eq_none_iff.mp hp
      simp [drain, hp, this]
    | some p =>
      obtain ⟨a, r'⟩ := p
      have hl := toList_of_pop? hp
      have hlen : r.length = r'.length + 1 := by
        rw [← length_toList, hl, List.length_cons, length_toList]
      obtain ⟨h1, h2⟩ := ih (r := r') (by omega)
      simp [drain, hp, h1, h2, hl]

/-! ## Writing -/

/-- Write at `tail` and step over it. The buffer must not become full. -/
def write (r : RingBuffer α) (a : α) : RingBuffer α :=
  { r with
    data := Function.update r.data r.tail a
    tail := advance r.cap r.tail
    tail_lt := advance_lt r.tail_lt }

/-- **Write.** As long as the buffer does not become full, the written cell is the new end. -/
theorem toList_write {a : α} (h : advance r.cap r.tail ≠ r.head) :
    (r.write a).toList = r.toList ++ [a] := by
  have h1 := r.head_lt
  have h2 := r.tail_lt
  have hlen : (r.write a).length = r.length + 1 := by
    simp only [write, length, advance] at h ⊢
    split_ifs at h ⊢ <;> omega
  have hidx : ∀ i < r.cap, (r.head + i) % r.cap = r.tail → r.length ≤ i := by
    intro i hi htail
    rw [add_mod_of_lt h1 hi] at htail
    rw [length]
    split at htail <;> split <;> omega
  refine toList_concat hlen ?_ ?_
  · intro i hi
    simp only [cell, write]
    refine Function.update_of_ne (fun htail ↦ ?_) _ _
    have := hidx i (Nat.lt_trans hi length_lt) htail
    omega
  · simp only [cell, write]
    have : (r.head + r.length) % r.cap = r.tail := by
      rw [add_mod_of_lt h1 length_lt, length]
      split <;> split <;> omega
    rw [this, Function.update_self]

/-- A block of `cap` cells that starts with the first `n` cells of `data` and reads from `0`. -/
def ofCells (cap n : ℕ) (data : ℕ → α) (h : n < cap) : RingBuffer α where
  cap := cap
  head := 0
  tail := n
  data := data
  head_lt := by omega
  tail_lt := h

@[simp] theorem length_ofCells {cap n : ℕ} {data : ℕ → α} (h : n < cap) :
    (ofCells cap n data h).length = n := by
  simp [length, ofCells]

theorem cell_ofCells {cap n i : ℕ} {data : ℕ → α} (h : n < cap) (hi : i < cap) :
    (ofCells cap n data h).cell i = data i := by
  simp [cell, ofCells, Nat.mod_eq_of_lt hi]

theorem toList_ofCells {cap n : ℕ} {data : ℕ → α} (h : n < cap) :
    (ofCells cap n data h).toList = (List.range n).map data := by
  rw [toList, length_ofCells]
  exact List.map_congr_left fun i hi ↦ cell_ofCells h (Nat.lt_trans (List.mem_range.mp hi) h)

/-- **Growing.** When a write fills the last cell, all cells are moved to a larger block, the one
read next first: the written cell is the new end. -/
theorem toList_grow {a : α} {cap : ℕ} (hcap : r.cap < cap)
    (hfull : r.head = advance r.cap r.tail) :
    (ofCells cap r.cap (fun i ↦ (r.write a).data ((r.head + i) % r.cap)) hcap).toList =
      r.toList ++ [a] := by
  have h1 := r.head_lt
  have h2 := r.tail_lt
  have hlen : r.length + 1 = r.cap := by
    rw [length]
    rw [advance] at hfull
    split at hfull <;> split <;> omega
  have htail : (r.head + r.length) % r.cap = r.tail := by
    rw [add_mod_of_lt h1 length_lt]
    rw [advance] at hfull
    split <;> split at hfull <;> omega
  have hidx : ∀ i < r.length, (r.head + i) % r.cap ≠ r.tail := by
    intro i hi
    rw [add_mod_of_lt h1 (by omega)]
    rw [advance] at hfull
    split <;> split at hfull <;> omega
  refine toList_concat ?_ ?_ ?_
  · rw [length_ofCells, hlen]
  · intro i hi
    rw [cell_ofCells _ (by omega)]
    exact Function.update_of_ne (hidx i hi) _ _
  · rw [cell_ofCells _ (by omega), htail]
    exact Function.update_self _ _ _

end RingBuffer

end Lib
