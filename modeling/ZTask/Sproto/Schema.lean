import Mathlib.Algebra.Ring.Int.Defs
import Mathlib.Algebra.Ring.Nat
import Mathlib.Data.List.Basic
import Mathlib.Data.Int.Notation

/-!
# Types and their fields

What `sproto.c` knows of a type: its fields in the order of their tags, how many records the header
of a text may need, and whether the tags follow one another. `findtag` finds a field by its tag; it
looks at a place of its own if they do, and searches otherwise (`findtag_eq_some`).

## Two ways to find a field

If the tags follow one another from the first one on, the place of a tag is its distance from the
base (`tag_of_base`). Otherwise the search halves the places that are left; as the tags ascend, the
place of the tag stays among them (`findtagLoop_eq_some`). `findtag_eq_some` needs nothing but what
a `SprotoType` carries with it.
-/

namespace ZTask

/-- The type of a field, among `n` types. The type `integer(k)` of a schema, a decimal whose `extra`
is a power of ten, is left out: the `extra` of a field is 0. -/
inductive SprotoKind (n : ℕ)
  | integer
  | boolean
  | string
  | struct (st : Fin n)
deriving DecidableEq, Repr

/-- `struct field` -/
structure SprotoField (n : ℕ) where
  tag : ℕ
  kind : SprotoKind n
  /-- The bit `SPROTO_TARRAY`. -/
  array : Bool
  name : List UInt8
  /-- The tag of the main index, for an array that is a map. -/
  key : Option ℕ
deriving DecidableEq, Repr

/-- `sprotoparser.lua` gives a main index to arrays of structs only. -/
def SprotoField.Keyed {n : ℕ} (f : SprotoField n) : Prop :=
  f.key.isSome → f.array = true ∧ ∃ st, f.kind = .struct st

/-- `struct sproto_type`, as `import_type` takes it: the tags ascend, and each is in a word of a
text. -/
structure SprotoType (n : ℕ) where
  f : List (SprotoField n)
  ascending : (f.map SprotoField.tag).Pairwise (· < ·)
  bounded : ∀ g ∈ f, g.tag < 0x7fff
  keyed : ∀ g ∈ f, g.Keyed

namespace SprotoType

variable {n : ℕ} {st : SprotoType n} {f g : SprotoField n} {tag : ℕ}

/-- The loop of `import_type` that counts the records: one more where tags are left out. -/
def maxnLoop (last : ℤ) (maxn : ℕ) : List (SprotoField n) → ℕ
  | [] => maxn
  | f :: fs => maxnLoop f.tag (if last + 1 < f.tag then maxn + 1 else maxn) fs

/-- `st->maxn` -/
def maxn (st : SprotoType n) : ℕ := maxnLoop (-1) st.f.length st.f

/-- `st->base`: the first tag, or -1 if tags are left out behind it. -/
def base (st : SprotoType n) : ℤ :=
  match st.f with
  | [] => 0
  | f :: fs =>
    let last := (f :: fs).getLast (List.cons_ne_nil f fs)
    if (last.tag : ℤ) - f.tag + 1 = (f :: fs).length then f.tag else -1

/-- The loop of `findtag`. -/
def findtagLoop (fs : List (SprotoField n)) (tag : ℕ) : ℕ → ℕ → ℕ → Option (SprotoField n)
  | 0, _, _ => none
  | fuel + 1, b, e =>
    if b < e then
      let mid := (b + e) / 2
      match fs[mid]? with
      | none => none
      | some f =>
        if f.tag = tag then some f
        else if f.tag < tag then findtagLoop fs tag fuel (mid + 1) e
        else findtagLoop fs tag fuel b mid
    else none

/-- `findtag` -/
def findtag (st : SprotoType n) (tag : ℕ) : Option (SprotoField n) :=
  if 0 ≤ st.base then
    if (tag : ℤ) < st.base then none else st.f[(tag - st.base).toNat]?
  else findtagLoop st.f tag (st.f.length + 1) 0 st.f.length

/-! ## Fields by their tags -/

/-- Tags grow by one at least from field to field. -/
theorem tag_add_le (st : SprotoType n) {i j : ℕ} (hij : i ≤ j) (hf : st.f[i]? = some f)
    (hg : st.f[j]? = some g) : f.tag + (j - i) ≤ g.tag := by
  induction j generalizing g with
  | zero =>
    obtain rfl : i = 0 := Nat.le_zero.mp hij
    rw [hf, Option.some.injEq] at hg
    rw [hg]
    exact Nat.le_refl _
  | succ j ih =>
    rcases Nat.lt_or_ge j i with hlt | hle
    · obtain rfl : i = j + 1 := by omega
      rw [hf, Option.some.injEq] at hg
      rw [hg, Nat.sub_self]
      exact Nat.le_refl _
    · obtain ⟨hlen, -⟩ := List.getElem?_eq_some_iff.mp hg
      have hbefore : st.f[j]? = some st.f[j] := List.getElem?_eq_getElem (by omega)
      have hprev := ih hle hbefore
      have hstep := List.pairwise_iff_getElem.mp st.ascending j (j + 1)
          (by rw [List.length_map]; omega)
        (by rw [List.length_map]; omega) (Nat.lt_succ_self j)
      rw [List.getElem_map, List.getElem_map] at hstep
      have heq := (List.getElem?_eq_some_iff.mp hg).2
      rw [heq] at hstep
      omega

private theorem tag_lt (st : SprotoType n) {i j : ℕ} (hij : i < j) (hf : st.f[i]? = some f)
    (hg : st.f[j]? = some g) : f.tag < g.tag := by
  have h := st.tag_add_le (Nat.le_of_lt hij) hf hg
  omega

theorem eq_of_tag_eq (st : SprotoType n) (hf : f ∈ st.f) (hg : g ∈ st.f) (h : f.tag = g.tag) :
    f = g := by
  obtain ⟨i, hi⟩ := List.getElem?_of_mem hf
  obtain ⟨j, hj⟩ := List.getElem?_of_mem hg
  rcases Nat.lt_trichotomy i j with hlt | rfl | hgt
  · exact absurd h (Nat.ne_of_lt (st.tag_lt hlt hi hj))
  · rw [hi, Option.some.injEq] at hj
    exact hj
  · exact absurd h.symm (Nat.ne_of_lt (st.tag_lt hgt hj hi))

/-- The tags follow one another from the base on. -/
theorem tag_of_base (h : 0 ≤ st.base) {i : ℕ} (hf : st.f[i]? = some f) :
    (f.tag : ℤ) = st.base + i := by
  rw [base] at h ⊢
  cases hfs : st.f with
  | nil =>
    rw [hfs] at hf
    cases hf
  | cons first fs =>
    rw [hfs] at h
    dsimp only at h ⊢
    have hfirst : st.f[0]? = some first := by rw [hfs]; rfl
    have hlast : st.f[fs.length]? = some ((first :: fs).getLast (List.cons_ne_nil first fs)) := by
      rw [hfs, List.getElem?_eq_getElem (by rw [List.length_cons]; omega), List.getLast_eq_getElem]
      rfl
    have hi := (List.getElem?_eq_some_iff.mp hf).1
    rw [hfs, List.length_cons] at hi
    have hfront := st.tag_add_le (Nat.zero_le i) hfirst hf
    have hback := st.tag_add_le (Nat.le_of_lt_succ hi) hf hlast
    rw [List.length_cons] at h ⊢
    split at h
    next hcount =>
      rw [if_pos hcount]
      omega
    next => omega

/-- The search goes on between the places that are left, and ends at the place of the tag if it is
among them. -/
theorem findtagLoop_eq_some (st : SprotoType n) (tag : ℕ) {fuel b e : ℕ} (hfuel : e - b < fuel)
    (he : e ≤ st.f.length) :
    findtagLoop st.f tag fuel b e = some f ↔ ∃ i, b ≤ i ∧ i < e ∧ st.f[i]? = some f ∧
      f.tag = tag := by
  induction fuel generalizing b e with
  | zero => omega
  | succ fuel ih =>
    rw [findtagLoop]
    by_cases hbe : b < e
    · rw [if_pos hbe]
      have hmid : b ≤ (b + e) / 2 ∧ (b + e) / 2 < e := by omega
      generalize (b + e) / 2 = mid at hmid
      have hat : st.f[mid]? = some st.f[mid] := List.getElem?_eq_getElem (by omega)
      dsimp only
      rw [hat]
      dsimp only
      generalize st.f[mid] = g at hat
      by_cases heq : g.tag = tag
      · rw [if_pos heq, Option.some.injEq]
        constructor
        · rintro rfl
          exact ⟨mid, hmid.1, hmid.2, hat, heq⟩
        · rintro ⟨i, -, -, hi, htag⟩
          exact st.eq_of_tag_eq (List.mem_of_getElem? hat) (List.mem_of_getElem? hi)
            (heq.trans htag.symm)
      · rw [if_neg heq]
        by_cases hlt : g.tag < tag
        · rw [if_pos hlt, ih (by omega) he]
          -- what stands before the middle has smaller tags
          refine exists_congr fun i ↦ ⟨fun h ↦ ⟨by omega, h.2⟩, ?_⟩
          rintro ⟨-, hie, hi, htag⟩
          refine ⟨?_, hie, hi, htag⟩
          by_contra hbefore
          rcases Nat.lt_or_eq_of_le (Nat.le_of_lt_succ (Nat.lt_of_not_le hbefore))
              with hbefore | rfl
          · have hless := st.tag_lt hbefore hi hat
            omega
          · rw [hat, Option.some.injEq] at hi
            exact heq (hi ▸ htag)
        · rw [if_neg hlt, ih (by omega) (by omega)]
          -- and what stands behind it has greater ones
          refine exists_congr fun i ↦ ⟨fun h ↦ ⟨h.1, by omega, h.2.2⟩, ?_⟩
          rintro ⟨hbi, -, hi, htag⟩
          refine ⟨hbi, ?_, hi, htag⟩
          by_contra hbehind
          rcases Nat.lt_or_eq_of_le (Nat.le_of_not_lt hbehind) with hbehind | rfl
          · have hless := st.tag_lt hbehind hat hi
            omega
          · rw [hat, Option.some.injEq] at hi
            exact heq (hi ▸ htag)
    · rw [if_neg hbe]
      constructor
      · intro h
        cases h
      · rintro ⟨i, hbi, hie, -⟩
        omega

/-- **`findtag` finds the field with the tag.** -/
theorem findtag_eq_some : st.findtag tag = some f ↔ f ∈ st.f ∧ f.tag = tag := by
  rw [findtag]
  by_cases hbase : 0 ≤ st.base
  · rw [if_pos hbase]
    constructor
    · intro h
      split at h
      · cases h
      · have htag := tag_of_base hbase h
        exact ⟨List.mem_of_getElem? h, by omega⟩
    · rintro ⟨hf, rfl⟩
      obtain ⟨i, hi⟩ := List.getElem?_of_mem hf
      have htag := tag_of_base hbase hi
      rw [if_neg (by omega), show ((f.tag : ℤ) - st.base).toNat = i by omega, hi]
  · rw [if_neg hbase, findtagLoop_eq_some st tag (by omega) (Nat.le_refl _)]
    constructor
    · rintro ⟨i, -, -, hi, htag⟩
      exact ⟨List.mem_of_getElem? hi, htag⟩
    · rintro ⟨hf, htag⟩
      obtain ⟨i, hi⟩ := List.getElem?_of_mem hf
      exact ⟨i, Nat.zero_le i, (List.getElem?_eq_some_iff.mp hi).1, hi, htag⟩

end SprotoType

end ZTask
