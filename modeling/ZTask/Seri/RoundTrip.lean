import ZTask.Seri.Encode
import ZTask.Seri.Safety

/-!
# What is packed is unpacked

A table is written as its array part, as long as `lua_rawlen` says, and the other pairs, in the
order of `lua_next`. Whatever that length and that order are, filling a table with them gives what
the table holds (`of_data`). So the bytes that `luaseri_pack` makes of plain values are encodings of
what they hold, and `luaseri_unpack` reads them back (`unpack_pack`).

## Values

`Appends` of the encoder says of a piece of it that some bytes are put behind the others.
`appends_packOne` is the induction over the depth of a value, with a case for each kind;
`appends_wbTable` is the case of a table, from what is known of its keys and values. The bytes are
encodings in the sense of `Seri.Format`, which says nothing about the functions.

## Tables

The length of the array part is what `lua_rawlen` returns, any border of the table. A pair whose key
is in the array part is left out by the loop over the others (`inArray_iff`). What the decoder fills
a table with is, in whatever order, one pair for each key of the table, and so it holds the same.
-/

namespace ZTask

open Lib

/-! ## The pairs of a table -/

/-- The value of the first pair with this key. -/
def pairValue : List (LuaObject × LuaObject) → LuaScalar → Option LuaObject
  | [], _ => none
  | (.scalar k', v) :: pairs, k => if k' = k then some v else pairValue pairs k
  | (.table _ _ _, _) :: pairs, k => pairValue pairs k

variable {pairs : List (LuaObject × LuaObject)}

private theorem rawgeti_eq (i : ℕ) :
    rawgeti pairs i = (pairValue pairs (.integer (.ofNat i))).getD (.scalar .nil) := by
  induction pairs with
  | nil => rfl
  | cons p pairs ih =>
    obtain ⟨k, v⟩ := p
    cases k with
    | scalar k =>
      simp only [rawgeti, pairValue]
      split
      · rfl
      · exact ih
    | table _ _ _ => exact ih

private theorem getOf_dataPairs (k : LuaScalar) :
    getOf (dataPairs pairs) k = ((pairValue pairs k).map LuaObject.data).getD .nil := by
  induction pairs with
  | nil => rfl
  | cons p pairs ih =>
    obtain ⟨k', v⟩ := p
    cases k' with
    | scalar k' =>
      simp only [dataPairs, LuaObject.data, getOf, pairValue]
      split
      · rfl
      · exact ih
    | table _ _ _ =>
      simp only [dataPairs, LuaObject.data, getOf, pairValue]
      exact ih

private theorem dataPairs_eq_map : dataPairs pairs = pairs.map fun p ↦ (p.1.data, p.2.data) := by
  induction pairs with
  | nil => rfl
  | cons p pairs ih => rw [dataPairs, ih, List.map_cons]

/-- A pair of a plain table. -/
structure PlainPair (p : LuaObject × LuaObject) (k : LuaScalar) : Prop where
  key : p.1 = .scalar k
  isKey : k.IsKey
  keyPlain : k.Plain
  valuePlain : p.2.Plain
  notNil : p.2.isNil = false

theorem PlainPairs.mem (h : PlainPairs pairs) {p : LuaObject × LuaObject} (hp : p ∈ pairs) :
    ∃ k, PlainPair p k := by
  induction pairs with
  | nil => cases hp
  | cons p' pairs ih =>
    obtain ⟨k, v⟩ := p'
    cases k with
    | scalar k =>
      obtain ⟨⟨hkey, hplain, -⟩, ⟨hvalue, hnil⟩, hrest⟩ := h
      rcases List.mem_cons.mp hp with rfl | hp
      · exact ⟨k, rfl, hkey, hplain, hvalue, hnil⟩
      · exact ih hrest hp
    | table _ _ _ => exact h.elim

private theorem depth_le_of_mem {p : LuaObject × LuaObject} (hp : p ∈ pairs) :
    p.1.depth ≤ depthPairs pairs ∧ p.2.depth ≤ depthPairs pairs := by
  induction pairs with
  | nil => cases hp
  | cons p' pairs ih =>
    rw [depthPairs]
    rcases List.mem_cons.mp hp with rfl | hp
    · omega
    · have := ih hp
      omega

theorem pairValue_eq_none_iff {k : LuaScalar} : pairValue pairs k = none ↔ k ∉ keysOf pairs := by
  induction pairs with
  | nil => simp [pairValue, keysOf]
  | cons p pairs ih =>
    obtain ⟨k', v⟩ := p
    cases k' with
    | scalar k' =>
      by_cases hk : k' = k
      · simp [pairValue, keysOf, hk]
      · simp only [pairValue, if_neg hk, ih]
        simp [keysOf, Ne.symm hk]
    | table _ _ _ =>
      simp only [pairValue, ih]
      simp [keysOf]

private theorem mem_of_pairValue {k : LuaScalar} {v : LuaObject} (h : pairValue pairs k = some v) :
    (.scalar k, v) ∈ pairs := by
  induction pairs with
  | nil => cases h
  | cons p pairs ih =>
    obtain ⟨k', v'⟩ := p
    cases k' with
    | scalar k' =>
      rw [pairValue] at h
      split at h
      next hk =>
        cases h
        rw [hk]
        exact List.mem_cons_self
      next => exact List.mem_cons_of_mem _ (ih h)
    | table _ _ _ => exact List.mem_cons_of_mem _ (ih h)

/-- What is left out of the pairs. -/
theorem pairValue_filter (keep : LuaObject → Bool) (k : LuaScalar) :
    pairValue (pairs.filter fun p ↦ keep p.1) k =
      if keep (.scalar k) then pairValue pairs k else none := by
  induction pairs with
  | nil => simp [pairValue]
  | cons p pairs ih =>
    obtain ⟨k', v⟩ := p
    by_cases hkeep : keep k' = true
    · simp only [List.filter_cons, if_pos hkeep]
      cases k' with
      | scalar k' =>
        rw [pairValue, pairValue]
        by_cases hk : k' = k
        · rw [if_pos hk, if_pos hk, ← hk, if_pos hkeep]
        · rw [if_neg hk, if_neg hk, ih]
      | table _ _ _ => exact ih
    · simp only [List.filter_cons, if_neg hkeep]
      rw [ih]
      cases k' with
      | scalar k' =>
        rw [pairValue]
        by_cases hk : k' = k
        · rw [← hk, if_neg hkeep, if_neg hkeep]
        · rw [if_neg hk]
      | table _ _ _ => rfl

theorem PlainPairs.filter (h : PlainPairs pairs) (keep : LuaObject → Bool) :
    PlainPairs (pairs.filter fun p ↦ keep p.1) := by
  induction pairs with
  | nil => exact h
  | cons p pairs ih =>
    obtain ⟨k, v⟩ := p
    cases k with
    | scalar k =>
      obtain ⟨⟨hkey, hplain, hfresh⟩, hvalue, hrest⟩ := h
      by_cases hkeep : keep (.scalar k) = true
      · simp only [List.filter_cons, if_pos hkeep]
        refine ⟨⟨hkey, hplain, ?_⟩, hvalue, ih hrest⟩
        rw [← pairValue_eq_none_iff, pairValue_filter, if_pos hkeep]
        exact pairValue_eq_none_iff.mpr hfresh
      · simp only [List.filter_cons, if_neg hkeep]
        exact ih hrest
    | table _ _ _ => exact h.elim

/-! ## Filling a table -/

private theorem put_of_isKey {t : LuaTable} {k : LuaScalar} (h : k.IsKey) (v : LuaData) :
    t.put (.scalar k, v) = t.set k v := by
  simp only [LuaTable.put, LuaTable.rawset, show k.toKey = some k from h, Option.map_some,
    Option.getD_some]

/-- The pairs are put into the table. -/
theorem foldl_put (h : PlainPairs pairs) (t : LuaTable) :
    (∀ k, ((dataPairs pairs).foldl LuaTable.put t).get k =
      ((pairValue pairs k).map LuaObject.data).getD (t.get k)) ∧
    ((dataPairs pairs).foldl LuaTable.put t).keyed = t.keyed := by
  induction pairs generalizing t with
  | nil => exact ⟨fun _ ↦ rfl, rfl⟩
  | cons p pairs ih =>
    obtain ⟨k, v⟩ := p
    cases k with
    | scalar k =>
      obtain ⟨⟨hkey, -, hfresh⟩, -, hrest⟩ := h
      obtain ⟨hget, hkeyed⟩ := ih hrest (t.set k v.data)
      simp only [dataPairs, LuaObject.data, List.foldl_cons, put_of_isKey hkey]
      refine ⟨fun k' ↦ ?_, hkeyed⟩
      rw [hget, pairValue]
      by_cases hk : k = k'
      · subst hk
        rw [pairValue_eq_none_iff.mpr hfresh, if_pos rfl]
        simp [LuaTable.set]
      · rw [if_neg hk]
        simp [LuaTable.set, Function.update_of_ne (Ne.symm hk)]
    | table _ _ _ => exact h.elim

/-- The elements are put into the table, and nothing else. -/
theorem putArray_spec (values : List LuaData) {i : ℕ} (hlen : i + values.length ≤ 2 ^ 31)
    (t : LuaTable) :
    (∀ j, j < values.length →
      (t.putArray i values).get (.integer (.ofNat (i + j))) = values.getD j .nil) ∧
    (∀ k, (∀ j, j < values.length → k ≠ .integer (.ofNat (i + j))) →
      (t.putArray i values).get k = t.get k) ∧
    (t.putArray i values).keyed = t.keyed := by
  induction values generalizing i t with
  | nil => exact ⟨fun j hj ↦ (nomatch hj), fun _ _ ↦ rfl, rfl⟩
  | cons v values ih =>
    rw [List.length_cons] at hlen
    obtain ⟨hin, hout, hkeyed⟩ := ih (i := i + 1) (by omega) (t.rawseti i v)
    refine ⟨?_, ?_, hkeyed⟩
    · intro j hj
      cases j with
      | zero =>
        have hother : ∀ j, j < values.length →
            LuaScalar.integer (.ofNat i) ≠ .integer (.ofNat (i + 1 + j)) := by
          intro j hj heq
          have := ofNat_inj_of_lt (by omega) (by omega) (LuaScalar.integer.inj heq)
          omega
        show (t.putArray i (v :: values)).get (.integer (.ofNat i)) = v
        rw [LuaTable.putArray, hout _ hother]
        simp [LuaTable.rawseti, LuaTable.set]
      | succ j =>
        have hget := hin j (Nat.lt_of_succ_lt_succ hj)
        rw [Nat.add_right_comm, Nat.add_assoc] at hget
        exact hget
    · intro k hk
      have hk0 : k ≠ .integer (.ofNat i) := hk 0 (Nat.succ_pos _)
      rw [LuaTable.putArray, hout k fun j hj heq ↦ hk (j + 1) (Nat.succ_lt_succ hj) (by
        rw [heq, Nat.add_right_comm, Nat.add_assoc])]
      simp [LuaTable.rawseti, LuaTable.set, Function.update_of_ne hk0]

/-- The keys of the array part. -/
theorem inArray_iff {n : ℕ} (hn : n < 2 ^ 31) {k : LuaScalar} :
    inArray n (.scalar k) = true ↔ ∃ j, j < n ∧ k = .integer (.ofNat (1 + j)) := by
  constructor
  · intro h
    cases k with
    | integer x =>
      simp only [inArray, Bool.and_eq_true, decide_eq_true_eq] at h
      refine ⟨x.toInt.toNat - 1, by omega, ?_⟩
      have hj : 1 + (x.toInt.toNat - 1) = x.toInt.toNat := by omega
      rw [hj, LuaScalar.integer.injEq, ← Int64.toInt_inj, Int64.toInt_ofNat_of_lt (by omega)]
      omega
    | _ => cases h
  · rintro ⟨j, hj, rfl⟩
    simp only [inArray, Bool.and_eq_true, decide_eq_true_eq,
      Int64.toInt_ofNat_of_lt (show 1 + j < 2 ^ 63 by omega)]
    omega

private theorem keyedOf_plain (h : PlainPairs pairs) : keyedOf (dataPairs pairs) = [] := by
  rw [keyedOf, List.filter_eq_nil_iff, dataPairs_eq_map]
  intro p hp
  obtain ⟨p, hmem, rfl⟩ := List.mem_map.mp hp
  obtain ⟨k, hk⟩ := h.mem hmem
  simp [hk.key, LuaObject.data]

/-- **The table that is filled holds what the table held.** -/
theorem of_data (h : PlainPairs pairs) {n : ℕ} (hn : n < 2 ^ 31)
    (metapairs : Option (List (LuaObject × LuaObject))) :
    (LuaTable.of ((List.range n).map fun i ↦ (rawgeti pairs (i + 1)).data)
      (dataPairs (pairs.filter fun p ↦ !inArray n p.1))).data =
      (LuaObject.table pairs n metapairs).data := by
  have hlen : ((List.range n).map fun i ↦ (rawgeti pairs (i + 1)).data).length = n := by
    rw [List.length_map, List.length_range]
  obtain ⟨hin, hout, hkeyed⟩ :=
    putArray_spec ((List.range n).map fun i ↦ (rawgeti pairs (i + 1)).data)
    (i := 1) (by rw [hlen]; omega) .empty
  rw [hlen] at hin hout
  obtain ⟨hget, hkeyed'⟩ := foldl_put (h.filter fun k ↦ !inArray n k)
    (LuaTable.empty.putArray 1 ((List.range n).map fun i ↦ (rawgeti pairs (i + 1)).data))
  rw [LuaTable.data, LuaObject.data, keyedOf_plain h]
  congr 1
  · funext k
    rw [LuaTable.of, hget, pairValue_filter fun k ↦ !inArray n k, getOf_dataPairs]
    by_cases hk : inArray n (.scalar k) = true
    · obtain ⟨j, hj, rfl⟩ := (inArray_iff hn).mp hk
      rw [hk, hin j hj]
      simp only [rawgeti_eq, Nat.add_comm 1 j, List.getD_eq_getElem?_getD, List.getElem?_map,
        List.getElem?_range hj, Option.map_some, Option.getD_some]
      cases pairValue pairs (.integer (.ofNat (j + 1)))
      · rfl
      · rfl
    · have hnone : ∀ j, j < n → k ≠ .integer (.ofNat (1 + j)) :=
        fun j hj heq ↦ hk ((inArray_iff hn).mpr ⟨j, hj, heq⟩)
      rw [hout k hnone, Bool.eq_false_iff.mpr hk]
      rfl
  · exact hkeyed'.trans hkeyed

/-! ## Writing a table -/

section Table

variable {one : WriteBlock → LuaObject → Except PackError WriteBlock}

/-- What begins a table. -/
theorem appends_arraySize {n : ℕ} (hn : n < 2 ^ 31) :
    Appends (fun b ↦ .ok (if (n : Int) ≥ maxCookie - 1 then
        (b.pushType typeTable (maxCookie - 1)).integer (.ofInt n) else b.pushType typeTable n))
      fun e ↦ ∃ t h, e = t :: h ∧ kindOf t = typeTable ∧ ArraySize (cookieOf t) h n := by
  by_cases hlong : (n : Int) ≥ maxCookie - 1
  · simp only [if_pos hlong]
    refine ((Appends.push [combineType typeTable (maxCookie - 1)]).bind
      (appends_integer (.ofInt n))).mono ?_
    rintro e ⟨_, _, rfl, rfl, t, bytes, rfl, hkind, hreal, hbytes⟩
    refine ⟨_, t :: bytes, rfl, by decide, ?_⟩
    have hsize : toInt32 (Int64.ofInt n).toInt = n := by
      rw [Int64.toInt_ofInt_of_le (by omega) (by omega), toInt32_of_lt (by omega) (by omega)]
    rw [← hsize]
    exact .long hkind hreal hbytes
  · simp only [if_neg hlong]
    rw [maxCookie] at hlong
    refine (Appends.push [combineType typeTable n]).mono ?_
    rintro e rfl
    have hcookie : cookieOf (combineType typeTable n) = n :=
      cookieOf_combineType (by decide) (by omega)
    refine ⟨_, [], rfl, kindOf_combineType (by decide), ?_⟩
    rw [hcookie]
    exact .short (by rw [maxCookie]; omega)

/-- **A table is written**, if its keys and values are. -/
theorem appends_wbTable (hone : ∀ v : LuaObject, v.Plain → v.depth ≤ depthPairs pairs →
      Appends (one · v) (Encodes · v.data)) (h : PlainPairs pairs) {n : ℕ} (hn : n < 2 ^ 31) :
    Appends (fun b ↦ wbTable one b pairs n none)
      (Encodes · (LuaObject.table pairs n none).data) := by
  have hint : toInt32 n = n := toInt32_of_lt (by omega) (by omega)
  have helement : ∀ i ∈ List.range n,
      Appends (fun b ↦ one b (rawgeti pairs (i + 1))) (Encodes · (rawgeti pairs (i + 1)).data) := by
    intro i _
    rw [rawgeti_eq]
    cases hvalue : pairValue pairs (.integer (.ofNat (i + 1))) with
    | none => exact hone _ trivial (Nat.zero_le _)
    | some v =>
      obtain ⟨k, hk⟩ := h.mem (mem_of_pairValue hvalue)
      exact hone v hk.valuePlain (depth_le_of_mem (mem_of_pairValue hvalue)).2
  have hpair : ∀ p ∈ pairs.filter fun p ↦ !inArray n p.1,
      Appends (fun b ↦ one b p.1 >>= fun b ↦ one b p.2)
        (PairOf Encodes · (p.1.data, p.2.data)) := by
    intro p hp
    have hmem := List.mem_of_mem_filter hp
    obtain ⟨k, hk⟩ := h.mem hmem
    have hkey : p.1.Plain := by
      rw [hk.key]
      exact hk.keyPlain
    refine ((hone p.1 hkey (depth_le_of_mem hmem).1).bind
      (hone p.2 hk.valuePlain (depth_le_of_mem hmem).2)).mono ?_
    rintro e ⟨e₁, e₂, rfl, hkeyEncodes, hvalue⟩
    refine .mk hkeyEncodes ?_ hvalue
    rw [hk.key]
    exact Option.isSome_iff_exists.mpr ⟨k, hk.isKey⟩
  have hsteps := ((appends_arraySize hn).bind (.foldlM helement)).bind
    ((Appends.foldlM hpair).bind appends_nil)
  simp only [wbTable, hint]
  refine hsteps.mono ?_
  rintro e ⟨_, _, rfl, ⟨_, a, rfl, ⟨t, size, rfl, hkind, hsize⟩, hvalues⟩, q, z, rfl, hpairs, hz⟩
  rw [← of_data h hn none, dataPairs_eq_map, List.append_assoc, List.cons_append]
  refine .table hkind hsize hvalues ?_ hpairs hz
  rw [List.length_map, List.length_range, Int.toNat_natCast]

end Table

/-- **`pack_one` writes the value**, if it is plain and not nested too deep. -/
theorem appends_packOne (depth : ℕ) : ∀ v : LuaObject, v.Plain → v.depth < depth →
    Appends (fun b ↦ packOne depth b v) (Encodes · v.data) := by
  induction depth with
  | zero => exact fun v _ hdepth ↦ absurd hdepth (Nat.not_lt_zero _)
  | succ depth ih =>
    intro v hplain hdepth
    cases v with
    | scalar s => exact appends_scalar hplain depth
    | table pairs rawlen metapairs =>
      obtain ⟨hpairs, hlen, hmeta⟩ := hplain
      have hmeta : metapairs = none := Option.isNone_iff_eq_none.mp hmeta
      subst hmeta
      rw [LuaObject.depth] at hdepth
      exact appends_wbTable (fun v hv hle ↦ ih v hv (by omega)) hpairs hlen

/-- **`luaseri_pack` writes the values.** -/
theorem luaseriPack_encodes {values : List LuaObject} (hplain : ∀ v ∈ values, v.Plain)
    (hdepth : ∀ v ∈ values, v.depth ≤ maxDepth) :
    ∃ bytes, luaseriPack values = .ok (some bytes) ∧
      Concat Encodes bytes (values.map LuaObject.data) := by
  have hone : ∀ v ∈ values, Appends (packOne (maxDepth + 1) · v) (Encodes · v.data) :=
    fun v hv ↦ appends_packOne _ v (hplain v hv) (Nat.lt_succ_of_le (hdepth v hv))
  obtain ⟨b, bytes, hpack, hb, hcontents, hbytes⟩ := Appends.foldlM hone .init WriteBlock.ok_init
  refine ⟨bytes, ?_, hbytes⟩
  have hcopy := hb.seriCopy
  rw [hcontents] at hcopy
  change packFrom .init values = .ok b at hpack
  show (packFrom .init values).bind _ = _
  rw [hpack]
  exact congrArg Except.ok hcopy

/-- **What is packed is unpacked.** -/
theorem unpack_pack {values : List LuaObject} (hplain : ∀ v ∈ values, v.Plain)
    (hdepth : ∀ v ∈ values, v.depth ≤ maxDepth) :
    ∃ bytes, luaseriPack values = .ok (some bytes) ∧ (bytes.length < 2 ^ 31 →
      (luaseriUnpack (.pointer (some bytes) bytes.length)).1 =
      .ok (values.map LuaObject.data)) := by
  obtain ⟨bytes, hpack, hbytes⟩ := luaseriPack_encodes hplain hdepth
  refine ⟨bytes, hpack, fun hlen ↦ ?_⟩
  have hint : toInt32 bytes.length = bytes.length := toInt32_of_lt (by omega) (by omega)
  rw [luaseriUnpack, hint, luaseriUnpack.unpackBuffer]
  -- an empty text is not read at all
  split
  next hzero =>
    have hnil : bytes = [] := List.length_eq_zero_iff.mp (by omega)
    rw [hbytes.eq_nil Encodes.ne_nil hnil]
  next =>
    have hshows := @ReadBlock.shows_init bytes bytes.length (by omega) (Int.le_refl _) (by omega)
    rw [Int.toNat_natCast, List.take_length] at hshows
    exact ((unpackAll_outcome (Nat.lt_succ_self _) [] hshows).values hbytes).1

/-- An integer, and a table with an element and a table in it. -/
def packedValues : List LuaObject :=
  [.scalar (.integer (-1)),
    .table [(.scalar (.integer 1), .scalar (.string [104, 105])),
      (.scalar (.string [110]), .table [] 0 none)] 1 none]

theorem unpack_pack_nested : ∃ bytes, luaseriPack packedValues = .ok (some bytes) ∧
    bytes.length = 14 ∧ (luaseriUnpack (.pointer (some bytes) bytes.length)).1 =
      .ok (packedValues.map LuaObject.data) := by
  obtain ⟨bytes, hpack, hunpack⟩ := @unpack_pack packedValues (by decide) (by decide)
  have hbytes : luaseriPack packedValues =
      .ok (some [34, 255, 255, 255, 255, 14, 20, 104, 105, 12, 110, 6, 0, 0]) := by decide +kernel
  rw [hbytes] at hpack
  cases hpack
  exact ⟨_, hbytes, rfl, hunpack (by decide)⟩

end ZTask
