import Mathlib.Algebra.Ring.Int.Defs
import Mathlib.Algebra.Ring.Nat
import Mathlib.Data.List.Basic
import Mathlib.Tactic.SplitIfs

/-!
# Blocks of memory

A block is a list of cells, and a cell that has not been written yet is `none`. A write that does
not fit and a read of a cell that has not been written yield nothing.

`At` says what stands in a block, from an offset on. A write puts something there and leaves what
stands elsewhere (`At.of_write?`, `At.write?`), so a program that fills a block piece by piece, in
any order, is followed by adding the pieces up (`At.append`), and reads back their sum (`At.read?`).
-/

namespace Lib

variable {α : Type*}

abbrev Block (α : Type*) := List (Option α)

namespace Block

/-- A new block. -/
def alloc (size : ℕ) : Block α := List.replicate size none

/-- Write `src` to the offset `off`. -/
def write? (b : Block α) (off : ℕ) (src : List α) : Option (Block α) :=
  if off + src.length ≤ b.length then
    some (b.take off ++ (src.map some ++ b.drop (off + src.length)))
  else none

/-- The first `n` cells. -/
def read? (b : Block α) (n : ℕ) : Option (List α) :=
  if n ≤ b.length then (b.take n).mapM fun cell ↦ cell else none

/-- `xs` stands at the offset `off`. -/
def At (b : Block α) (off : ℕ) (xs : List α) : Prop :=
  ∀ i x, xs[i]? = some x → b[off + i]? = some (some x)

@[simp] theorem length_alloc (size : ℕ) : (alloc size : Block α).length = size :=
  List.length_replicate

variable {b b' : Block α} {off off' : ℕ} {xs ys : List α}

theorem write?_eq_some (h : off + xs.length ≤ b.length) : ∃ b', b.write? off xs = some b' :=
  ⟨_, if_pos h⟩

theorem length_of_write? (h : b.write? off xs = some b') : b'.length = b.length := by
  rw [write?] at h
  split at h
  · cases h
    rw [List.length_append, List.length_append, List.length_take, List.length_map, List.length_drop]
    omega
  · cases h

/-- The cells after a write. -/
theorem getElem?_of_write? (h : b.write? off xs = some b') (i : ℕ) :
    b'[i]? = if off ≤ i ∧ i < off + xs.length then (xs[i - off]?).map some else b[i]? := by
  rw [write?] at h
  split at h
  next hfits =>
    cases h
    have htake : (b.take off).length = off := by
      rw [List.length_take]
      omega
    by_cases hbefore : i < off
    · rw [List.getElem?_append_left (by omega), List.getElem?_take_of_lt hbefore, if_neg (by omega)]
    · rw [List.getElem?_append_right (by omega), htake]
      by_cases hin : i < off + xs.length
      · rw [List.getElem?_append_left (by rw [List.length_map]; omega), List.getElem?_map,
          if_pos ⟨by omega, hin⟩]
      · rw [List.getElem?_append_right (by rw [List.length_map]; omega), List.length_map,
          List.getElem?_drop, if_neg (by omega)]
        congr 1
        omega
  next => cases h

theorem at_nil (b : Block α) (off : ℕ) : b.At off [] := by
  intro i x h
  rw [List.getElem?_nil] at h
  cases h

/-- Pieces that stand one behind the other. -/
theorem At.append (h : b.At off xs) (h' : b.At (off + xs.length) ys) : b.At off (xs ++ ys) := by
  intro i x hi
  by_cases hlt : i < xs.length
  · rw [List.getElem?_append_left hlt] at hi
    exact h i x hi
  · rw [List.getElem?_append_right (by omega)] at hi
    have hy := h' _ x hi
    have hindex : off + xs.length + (i - xs.length) = off + i := by omega
    rwa [hindex] at hy

/-- The front of what stands there. -/
theorem At.left (h : b.At off (xs ++ ys)) : b.At off xs := by
  intro i x hi
  exact h i x (by rw [List.getElem?_append_left (List.getElem?_eq_some_iff.mp hi).1, hi])

/-- What stands behind the front. -/
theorem At.right (h : b.At off (xs ++ ys)) : b.At (off + xs.length) ys := by
  intro i x hi
  rw [Nat.add_assoc]
  exact h _ x (by rw [List.getElem?_append_right (Nat.le_add_right _ _),
    Nat.add_sub_cancel_left, hi])

/-- What stands behind the front, in the cells behind it. -/
theorem At.drop (h : b.At 0 (xs ++ ys)) : At (b.drop xs.length) 0 ys := by
  intro i x hi
  have hcell := h (xs.length + i) x
    (by rw [List.getElem?_append_right (Nat.le_add_right _ _), Nat.add_sub_cancel_left, hi])
  rw [Nat.zero_add] at hcell ⊢
  rwa [List.getElem?_drop]

/-- What is written stands there. -/
theorem At.of_write? (h : b.write? off xs = some b') : b'.At off xs := by
  intro i x hi
  have hlt : i < xs.length := (List.getElem?_eq_some_iff.mp hi).1
  rw [getElem?_of_write? h, if_pos ⟨by omega, by omega⟩, Nat.add_sub_cancel_left, hi]
  rfl

/-- What stands elsewhere stays. -/
theorem At.write? (hat : b.At off' ys) (h : b.write? off xs = some b')
    (hother : off' + ys.length ≤ off ∨ off + xs.length ≤ off') : b'.At off' ys := by
  intro i x hi
  have hlt : i < ys.length := (List.getElem?_eq_some_iff.mp hi).1
  rw [getElem?_of_write? h, if_neg (by omega)]
  exact hat i x hi

/-- What stands at the front is read. -/
theorem At.read? (h : b.At 0 xs) : b.read? xs.length = some xs := by
  have hlen : xs.length ≤ b.length := by
    rcases Nat.eq_zero_or_pos xs.length with hzero | hpos
    · omega
    · obtain ⟨x, hx⟩ : ∃ x, xs[xs.length - 1]? = some x :=
        ⟨_, List.getElem?_eq_getElem (by omega)⟩
      have hlast := (List.getElem?_eq_some_iff.mp (h _ x hx)).1
      omega
  have htake : b.take xs.length = xs.map some := by
    refine List.ext_getElem? fun i ↦ ?_
    by_cases hi : i < xs.length
    · have hcell := h i _ (List.getElem?_eq_getElem hi)
      rw [Nat.zero_add] at hcell
      rw [List.getElem?_take_of_lt hi, hcell, List.getElem?_map, List.getElem?_eq_getElem hi]
      rfl
    · rw [List.getElem?_eq_none (by rw [List.length_take]; omega),
        List.getElem?_eq_none (by rw [List.length_map]; omega)]
  have hall : ∀ zs : List α, (zs.map some).mapM (fun cell ↦ cell) = some zs := by
    intro zs
    induction zs with
    | nil => rfl
    | cons z zs ih =>
      rw [List.map_cons, List.mapM_cons, ih]
      rfl
  rw [Block.read?, if_pos hlen, htake, hall]

/-- The front of a block is read. -/
theorem read?_front (xs : List α) (cells : Block α) :
    read? (xs.map some ++ cells) xs.length = some xs := by
  apply At.read?
  intro i x hi
  have hlt : i < xs.length := (List.getElem?_eq_some_iff.mp hi).1
  rw [Nat.zero_add, List.getElem?_append_left (by rw [List.length_map]; exact hlt),
    List.getElem?_map, hi]
  rfl

/-- As much is read as is asked for. -/
theorem length_of_read? {n : ℕ} (h : b.read? n = some xs) : xs.length = n := by
  have hall : ∀ (cells : Block α) (zs : List α), cells.mapM (fun cell ↦ cell) = some zs →
      zs.length = cells.length := by
    intro cells
    induction cells with
    | nil =>
      intro zs hzs
      cases hzs
      rfl
    | cons cell cells ih =>
      intro zs hzs
      rw [List.mapM_cons] at hzs
      obtain ⟨z, -, hzs⟩ := Option.bind_eq_some_iff.mp hzs
      obtain ⟨rest, hrest, hzs⟩ := Option.bind_eq_some_iff.mp hzs
      cases hzs
      rw [List.length_cons, List.length_cons, ih rest hrest]
  rw [Block.read?] at h
  split at h
  · rw [hall _ _ h, List.length_take]
    omega
  · cases h

/-- Two writes one behind the other are one write. -/
theorem write?_append (b : Block α) (off : ℕ) (xs ys : List α) :
    ((b.write? off xs).bind fun b' ↦ b'.write? (off + xs.length) ys) = b.write? off (xs ++ ys) := by
  by_cases hfits : off + (xs ++ ys).length ≤ b.length
  · obtain ⟨whole, hwhole⟩ := write?_eq_some hfits
    rw [List.length_append] at hfits
    obtain ⟨first, hfirst⟩ := @write?_eq_some _ b off xs (by omega)
    have hlen := length_of_write? hfirst
    obtain ⟨second, hsecond⟩ := @write?_eq_some _ first (off + xs.length) ys (by omega)
    rw [hfirst, hwhole, Option.bind_some, hsecond, Option.some.injEq]
    refine List.ext_getElem? fun i ↦ ?_
    rw [getElem?_of_write? hsecond, getElem?_of_write? hfirst, getElem?_of_write? hwhole,
      List.length_append]
    by_cases hin : off ≤ i ∧ i < off + xs.length
    · rw [if_neg (by omega), if_pos hin, if_pos (by omega), List.getElem?_append_left (by omega)]
    · rw [if_neg hin]
      by_cases hbehind : off + xs.length ≤ i ∧ i < off + xs.length + ys.length
      · rw [if_pos hbehind, if_pos (by omega), List.getElem?_append_right (by omega)]
        congr 2
        omega
      · rw [if_neg hbehind, if_neg (by omega)]
  · rw [write?, write?, if_neg hfits]
    rw [List.length_append] at hfits
    split
    next hfirst =>
      rw [Option.bind_some, write?, if_neg]
      rw [List.length_append, List.length_append, List.length_take, List.length_map,
        List.length_drop]
      omega
    next => rfl

/-- Writing goes on where it ended. -/
theorem write?_front {front : List α} {rest : Block α} (h : xs.length ≤ rest.length) :
    write? (front.map some ++ rest) front.length xs =
      some ((front ++ xs).map some ++ rest.drop xs.length) := by
  have hfits : front.length + xs.length ≤ (front.map some ++ rest).length := by
    rw [List.length_append, List.length_map]
    omega
  have htake : (front.map some ++ rest).take front.length = front.map some :=
    List.take_left' (List.length_map _)
  have hdrop : (front.map some ++ rest).drop (front.length + xs.length) = rest.drop xs.length := by
    rw [← List.drop_drop, List.drop_left' (List.length_map _)]
  rw [write?, if_pos hfits, htake, hdrop, List.map_append, List.append_assoc]

/-! ## What a program keeps -/

/-- What stands in front of a place stays there. -/
def KeepsFront (b b' : Block α) (p : ℕ) : Prop :=
  b'.length = b.length ∧ ∀ {off : ℕ} {xs : List α}, b.At off xs → off + xs.length ≤ p → b'.At off xs

theorem KeepsFront.refl (b : Block α) (p : ℕ) : KeepsFront b b p := ⟨rfl, fun h _ ↦ h⟩

theorem KeepsFront.trans {b'' : Block α} {p q : ℕ}
    (h : KeepsFront b b' p) (h' : KeepsFront b' b'' q) (hle : p ≤ q) : KeepsFront b b'' p :=
  ⟨h'.1.trans h.1, fun hat hbefore ↦ h'.2 (h.2 hat hbefore) (Nat.le_trans hbefore hle)⟩

theorem KeepsFront.mono {p q : ℕ} (h : KeepsFront b b' q) (hle : p ≤ q) : KeepsFront b b' p :=
  ⟨h.1, fun hat hbefore ↦ h.2 hat (Nat.le_trans hbefore hle)⟩

theorem KeepsFront.of_write? {p : ℕ} (h : b.write? off xs = some b') (hle : p ≤ off) :
    KeepsFront b b' p :=
  ⟨length_of_write? h, fun hat hbefore ↦ hat.write? h (.inl (Nat.le_trans hbefore hle))⟩

/-- What stands at a place is read from there. -/
theorem At.read?_drop (h : b.At off xs) : Block.read? (b.drop off) xs.length = some xs := by
  apply At.read?
  intro i x hi
  rw [List.getElem?_drop, Nat.zero_add]
  exact h i x hi

end Block

end Lib
