import ZTask.Bson.Spelling
import Mathlib.Data.List.Nodup

/-!
# Tables that are encoded

What the API tells of a table without metamethods (`RawTable`): the pairs in the order of
`lua_next`, and its length, which is a border. A nested table is taken for an array if the length is
the last key that `lua_next` comes to (`isRawarray_eq_true`). That says nothing of the other keys.
-/

namespace ZTask

open Lib

variable {realText : UInt64 → List UInt8} {pairs : List (LuaScalar × BsonObject)}
  {elements : List BsonObject} {key : List UInt8} {left : ℕ}

/-! ## Tables without metamethods -/

/-- `lua_rawget`. -/
def rawgetOf : List (LuaScalar × BsonObject) → LuaScalar → BsonObject
  | [], _ => .nil
  | (k', v) :: pairs, k => if k' = k then v else rawgetOf pairs k

/-- What the API tells of a table without metamethods. `lua_next` comes to each key once, and to no
nil; the length is a border, and an `int` (`luaH_getn`); and `lua_geti` finds what the pairs hold.
-/
structure RawTable (pairs : List (LuaScalar × BsonObject)) (elements : List BsonObject) : Prop where
  nodup : (pairs.map Prod.fst).Nodup
  not_nil : ∀ pair ∈ pairs, pair.2.isNil = false
  border : 0 < elements.length → .integer (.ofNat elements.length) ∈ pairs.map Prod.fst
  small : elements.length < 2 ^ 31
  elements_eq : elements =
    (List.range elements.length).map fun i ↦ rawgetOf pairs (.integer (.ofNat (i + 1)))

/-- The keys are the numbers from 1 to `n`. -/
def IsSequence (pairs : List (LuaScalar × BsonObject)) (n : ℕ) : Prop :=
  ∀ k, k ∈ pairs.map Prod.fst ↔ ∃ i < n, k = .integer (.ofNat (i + 1))

theorem rawgetOf_mem (hnodup : (pairs.map Prod.fst).Nodup) {pair : LuaScalar × BsonObject}
    (hmem : pair ∈ pairs) : rawgetOf pairs pair.1 = pair.2 := by
  induction pairs with
  | nil => cases hmem
  | cons head pairs ih =>
    rw [List.map_cons, List.nodup_cons] at hnodup
    obtain ⟨k, v⟩ := head
    rw [rawgetOf]
    rcases List.mem_cons.mp hmem with rfl | hbehind
    · exact if_pos rfl
    · have hne : k ≠ pair.1 := by
        rintro rfl
        exact hnodup.1 (List.mem_map.mpr ⟨pair, hbehind, rfl⟩)
      rw [if_neg hne, ih hnodup.2 hbehind]

/-! ## Whether a table is an array -/

/-- `is_rawarray` holds of the tables of which the length is the last key. -/
theorem isRawarray_eq_true {n : ℕ} (hnodup : (pairs.map Prod.fst).Nodup) :
    isRawarray pairs n = .ok true ↔ 0 < n ∧
      ∃ v, pairs.getLast? = some (.integer (.ofNat n), v) := by
  rw [isRawarray]
  by_cases hn : n = 0
  · rw [if_pos hn]
    constructor
    · intro h
      cases h
    · rintro ⟨hpos, -⟩
      omega
  · rw [if_neg hn]
    constructor
    · intro h
      refine ⟨Nat.pos_of_ne_zero hn, ?_⟩
      split at h
      next => cases h
      next last hdrop =>
        -- `lua_next` behind the last index finds nothing exactly if that index comes last
        have hsplit := List.takeWhile_append_dropWhile
          (p := fun pair : LuaScalar × BsonObject ↦ decide (pair.1 ≠ .integer (.ofNat n)))
            (l := pairs)
        have hkey := List.head_dropWhile_not
          (fun pair : LuaScalar × BsonObject ↦ decide (pair.1 ≠ .integer (.ofNat n))) (l := pairs)
          (by rw [hdrop]; exact List.cons_ne_nil _ _)
        rw [hdrop] at hsplit
        simp only [hdrop, List.head_cons, decide_eq_false_iff_not, ne_eq, not_not] at hkey
        refine ⟨last.2, ?_⟩
        rw [← hsplit, List.getLast?_append_of_ne_nil _ (List.cons_ne_nil _ _), ← hkey]
        rfl
      next => cases h
    · rintro ⟨-, v, hlast⟩
      obtain ⟨init, rfl⟩ : ∃ init, pairs = init ++ [(.integer (.ofNat n), v)] :=
        List.getLast?_eq_some_iff.mp hlast
      have hdrop : (init ++ [(LuaScalar.integer (.ofNat n), v)]).dropWhile
          (fun pair ↦ decide (pair.1 ≠ .integer (.ofNat n))) = [(.integer (.ofNat n), v)] := by
        rw [List.dropWhile_append_of_pos]
        · rw [List.dropWhile_cons_of_neg (by simp)]
        · intro pair hmem
          rw [List.map_append, List.nodup_append] at hnodup
          refine decide_eq_true ?_
          exact hnodup.2.2 _ (List.mem_map.mpr ⟨pair, hmem, rfl⟩) _ (List.mem_singleton.mpr rfl)
      rw [hdrop]

/-! ## What is written -/

theorem RawTable.mem_zipIdx (h : RawTable pairs elements) {i : ℕ} (hi : i < elements.length)
    {v : BsonObject} (hmem : (.integer (.ofNat (i + 1)), v) ∈ pairs) :
    (v, i) ∈ elements.zipIdx := by
  have hget : elements[i]? = some v := by
    rw [h.elements_eq, List.getElem?_map, List.getElem?_range hi]
    exact congrArg some (rawgetOf_mem h.nodup hmem)
  rw [List.mem_zipIdx_iff_getElem?]
  exact hget

theorem append_layKey_out {type : BsonType} {p : BsonLayout} {bytes : List UInt8}
    (h : ((layKey type.code key).append p).out = .ok bytes) :
    ∃ xs, p.out = .ok xs ∧ bytes = type.code :: (key ++ 0 :: xs) := by
  obtain ⟨front, xs, hfront, hxs, rfl⟩ := Layout.append_out_eq_ok.mp h
  obtain ⟨-, rfl⟩ := layKey_out.mp hfront
  refine ⟨xs, hxs, ?_⟩
  rw [List.cons_append, List.append_assoc, List.singleton_append]

theorem lencode_eq_ok {v : BsonObject} {doc : List UInt8} (h : lencode realText v = .ok doc) :
    (layBson realText v).out = .ok doc := by
  rw [lencode, encodeBson_eq] at h
  cases hrun : (layBson realText v).run ⟨[], 64⟩ with
  | error e =>
    rw [hrun] at h
    cases h
  | ok r =>
    rw [hrun] at h
    obtain ⟨xs, hout, hwritten⟩ := Layout.of_run hrun
    rw [hout, ← Except.ok.inj h, hwritten, List.nil_append]

end ZTask
