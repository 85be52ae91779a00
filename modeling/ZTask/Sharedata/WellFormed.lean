import ZTask.Sharedata.Found

/-!
# Well-formed tables, and iteration

When all keys of a Lua table are strings, or integers that an `int` can have, no two become the
same. So the hash part has as many slots as there are keys for it: each slot has one key and each
key one slot. `nextkey` then goes over the array part and over the slots, and visits every key once.

## The hash part

The nodes are filled as the scatter table of `Lib.Scatter`: a key goes to its own slot, or to a free
one that is linked behind. When the keys are different after they have been converted, as many slots
are filled as there are keys, and the chain of every key leads to it (`Hash.chains`).

## Iteration

`nextkey` finds the key it is given and returns the one behind. `visit_spec` says that this visits a
list when each of its keys leads to the next. The list is `allKeys`: the array part, and then the
slots from the first on (`Hash.nextkey_eq`). It is a permutation of the keys of the Lua table, so
each is visited once.
-/

namespace ZTask

open Lib

/-- A string, or an integer that an `int` can have. -/
def LuaKey.Fits : LuaKey → Prop
  | .integer d => -2 ^ 31 ≤ d.toInt ∧ d.toInt < 2 ^ 31
  | .string _ => True
  | .real _ | .table _ | .other _ => False

instance decidableKeyFits : ∀ k : LuaKey, Decidable k.Fits
  | .integer _ => inferInstanceAs (Decidable (_ ≤ _ ∧ _ < _))
  | .string _ => .isTrue trivial
  | .real _ | .table _ | .other _ => .isFalse id

def SourceTable.Fits (t : SourceTable) : Prop := ∀ e ∈ t.entries, e.1.Fits

namespace ConfContext

/-- The links lead from a slot through the others, and end. -/
def LinksThrough (t : ConfTable) : ℕ → List ℕ → Prop
  | s, [] => (t.hash s).next < 0
  | s, n :: ns => (t.hash s).next = n ∧ LinksThrough t n ns

/-- The keys of the hash part. -/
def hashKeys (tb : ConfTable) (t : SourceTable) : List LuaKey :=
  (hashEntries tb.sizearray t.entries).map Prod.fst

/-- **What a converted table is like.** -/
structure WellFormed (c : ConfContext) (tb : ℕ) (t : SourceTable) : Prop where
  /-- Every slot of the hash part is filled, and there is one slot for each key. -/
  filled : ∀ s < (c.tables tb).sizehash, ((c.tables tb).hash s).v ≠ .nil
  slots : ((List.range (c.tables tb).sizehash).map fun s ↦ c.pushkey ((c.tables tb).hash s)).Perm
    ((hashKeys (c.tables tb) t).map Except.ok)
  /-- The chain from a main position ends, has no slot twice, and has the keys of that position. -/
  chains : ∀ k ∈ hashKeys (c.tables tb) t, ∃ ns,
    LinksThrough (c.tables tb) (k.conf.keyhash.toNat % (c.tables tb).sizehash) ns ∧
    (k.conf.keyhash.toNat % (c.tables tb).sizehash :: ns).Nodup ∧
    ∀ k' : LuaKey, (∃ s ∈ k.conf.keyhash.toNat % (c.tables tb).sizehash :: ns,
        s < (c.tables tb).sizehash ∧ c.pushkey ((c.tables tb).hash s) = .ok k') ↔
      k' ∈ hashKeys (c.tables tb) t ∧ k'.conf.keyhash.toNat % (c.tables tb).sizehash
        = k.conf.keyhash.toNat % (c.tables tb).sizehash
  /-- Every lookup ends. -/
  lookup : ∀ k : ConfKey, ∃ r, c.lookupKey (c.tables tb) k.keyhash k = .ok r
  /-- `nextkey` visits every key once. -/
  visits : ∃ fuel keys, c.visit tb fuel none = .ok keys ∧ keys.Perm (t.entries.map Prod.fst)

variable {c : ConfContext} {source : ℕ → ℕ} {tb : ConfTable} {t : SourceTable} {k k' : LuaKey}
  {e : LuaKey × LuaValue} {n : ConfNode} {next : Option ℕ} {sc : Scatter (LuaKey × LuaValue)}
  {l : ℕ → List ℕ} {s p : ℕ} {ns : List ℕ}

/-! ## Keys that fit -/

private theorem conf_integer {d : Int64} (h : (LuaKey.integer d).Fits) :
    (LuaKey.integer d).conf = .integer d.toInt := by
  rw [LuaKey.conf, toInt32_of_lt h.1 h.2]

theorem conf_inj (h : k.Fits) (h' : k'.Fits) (heq : k.conf = k'.conf) : k = k' := by
  cases k with
  | integer d =>
    cases k' with
    | integer d' =>
      rw [conf_integer h, conf_integer h'] at heq
      rw [Int64.toInt_inj.mp (ConfKey.integer.inj heq)]
    | string s' => cases heq
    | real n => exact h'.elim
    | table ref => exact h'.elim
    | other typename => exact h'.elim
  | string s =>
    cases k' with
    | integer d' => cases heq
    | string s' => rw [ConfKey.string.inj heq]
    | real n => exact h'.elim
    | table ref => exact h'.elim
    | other typename => exact h'.elim
  | real n => exact h.elim
  | table ref => exact h.elim
  | other typename => exact h.elim

private theorem counted_eq {sizearray : ℕ} (h : e.1.Fits) :
    counted sizearray e = !e.1.conf.isArray sizearray := by
  obtain ⟨k, v⟩ := e
  cases k with
  | integer d =>
    dsimp only at h ⊢
    rw [conf_integer h]
    rfl
  | string s => rfl
  | real n => exact h.elim
  | table ref => exact h.elim
  | other typename => exact h.elim

private theorem length_hashEntries (h : Built (c.meaning source) tb t) (hfits : t.Fits) :
    (hashEntries tb.sizearray t.entries).length = tb.sizehash := by
  rw [h.sizehash, hashEntries]
  congr 1
  exact List.filter_congr fun e he ↦ (counted_eq (hfits e he)).symm

theorem entry_inj (hfits : t.Fits) {e e' : LuaKey × LuaValue} (he : e ∈ t.entries)
    (he' : e' ∈ t.entries) (heq : e.1.conf = e'.1.conf) : e = e' :=
  List.inj_on_of_nodup_map t.nodup he he' (conf_inj (hfits e he) (hfits e' he') heq)

private theorem mem_of_mem_hashEntries {sizearray : ℕ} (he : e ∈ hashEntries sizearray t.entries) :
    e ∈ t.entries ∧ e.1.conf.isArray sizearray = false := by
  obtain ⟨hmem, hnot⟩ := List.mem_filter.mp he
  exact ⟨hmem, Bool.not_eq_true' _ |>.mp hnot⟩

theorem Hash.perm (h : Hash sc l c source tb t) (hbuilt : Built (c.meaning source) tb t)
    (hfits : t.Fits) :
    ((List.range tb.sizehash).map sc.slot).Perm ((hashEntries tb.sizearray t.entries).map some) :=
  h.chained.perm (nodup_hashEntries t tb.sizearray) (length_hashEntries hbuilt hfits)
    (fun _ he ↦ h.mainpos_lt he) fun _ he _ he' heq ↦
      entry_inj hfits (mem_of_mem_hashEntries he).1 (mem_of_mem_hashEntries he').1 heq

theorem Hash.full (h : Hash sc l c source tb t) (hbuilt : Built (c.meaning source) tb t)
    (hfits : t.Fits) : Full sc tb := by
  intro s hs
  have hmem : sc.slot s ∈ (List.range tb.sizehash).map sc.slot :=
    List.mem_map_of_mem (List.mem_range.mpr hs)
  rw [(h.perm hbuilt hfits).mem_iff] at hmem
  obtain ⟨e, -, he⟩ := List.mem_map.mp hmem
  exact ⟨e, he.symm⟩

/-- The key of a node. -/
theorem pushkey_eq (h : HasEntry (c.meaning source) n e next) (hfits : e.1.Fits) :
    c.pushkey n = .ok e.1 := by
  have hkey := h.key
  obtain ⟨k, v⟩ := e
  cases k with
  | integer d =>
    dsimp only at hkey hfits
    rw [conf_integer hfits] at hkey
    rw [pushkey, hkey.1, hkey.2]
    dsimp only
    rw [Int64.ofInt_toInt]
  | string str =>
    obtain ⟨htype, j, hnum, hj⟩ := hkey
    rw [pushkey, htype, hnum]
    dsimp only
    rw [toLString_eq hj]
    rfl
  | real n => exact hfits.elim
  | table ref => exact hfits.elim
  | other typename => exact hfits.elim

/-- The links of the nodes are those of the scatter table. -/
theorem linksThrough_of_chain (h : Slots (c.meaning source) tb sc)
    (hchain : LinkQueue.Chain sc.next (some s) (s :: ns))
    (hfilled : ∀ i ∈ s :: ns, i < tb.sizehash ∧ ∃ e, sc.slot i = some e) :
    LinksThrough tb s ns := by
  induction ns generalizing s with
  | nil =>
    obtain ⟨hs, e, he⟩ := hfilled s List.mem_cons_self
    have hlink := (h.keeps hs he).link
    have hnone : sc.next s = none := hchain.2
    rw [hnone] at hlink
    exact hlink
  | cons s' ns ih =>
    obtain ⟨hs, e, he⟩ := hfilled s List.mem_cons_self
    have hlink := (h.keeps hs he).link
    have hsome : sc.next s = some s' := hchain.2.1
    rw [hsome] at hlink
    exact ⟨hlink, ih ⟨rfl, hchain.2.2⟩ fun i hi ↦ hfilled i (List.mem_cons_of_mem s hi)⟩

/-- **The chains.** -/
theorem Hash.chains (h : Hash sc l c source tb t) (hfits : t.Fits)
    (he : e ∈ hashEntries tb.sizearray t.entries) :
    LinksThrough tb (mainpos tb.sizehash e) (l (mainpos tb.sizehash e)) ∧
    (mainpos tb.sizehash e :: l (mainpos tb.sizehash e)).Nodup ∧
    ∀ k : LuaKey, (∃ s ∈ mainpos tb.sizehash e :: l (mainpos tb.sizehash e),
        s < tb.sizehash ∧ c.pushkey (tb.hash s) = .ok k) ↔
      k ∈ hashKeys tb t ∧ k.conf.keyhash.toNat % tb.sizehash = mainpos tb.sizehash e := by
  obtain ⟨b, hb⟩ := Scatter.first_isSome (mainpos tb.sizehash) he
  obtain ⟨hchain, hnodup⟩ := h.chained.chain hb
  have hslot : ∀ {s x}, sc.slot s = some x → c.pushkey (tb.hash s) = .ok x.1 := by
    intro s x hx
    obtain ⟨hlt, hmem⟩ := h.slot_lt hx
    exact pushkey_eq (h.slots.keeps hlt hx) (hfits x (mem_of_mem_hashEntries hmem).1)
  refine ⟨linksThrough_of_chain h.slots hchain fun i hi ↦ ?_, hnodup, fun k ↦ ⟨?_, ?_⟩⟩
  · obtain ⟨x, hx, -⟩ := h.chained.pos_of_mem hb hi
    exact ⟨(h.slot_lt hx).1, x, hx⟩
  · rintro ⟨s, hs, -, hk⟩
    obtain ⟨x, hx, hpos, hmem⟩ := h.chained.pos_of_mem hb hs
    rw [hslot hx] at hk
    rw [← Except.ok.inj hk]
    exact ⟨List.mem_map_of_mem hmem, hpos⟩
  · rintro ⟨hk, hpos⟩
    obtain ⟨x, hx, rfl⟩ := List.mem_map.mp hk
    have hmain : mainpos tb.sizehash x = mainpos tb.sizehash e := hpos
    obtain ⟨s, hs, x', hx', hcode⟩ := h.chained.exists_slot hx
    obtain ⟨hlt, hmem⟩ := h.slot_lt hx'
    have heq := entry_inj hfits (mem_of_mem_hashEntries hmem).1 (mem_of_mem_hashEntries hx).1 hcode
    rw [hmain] at hs
    exact ⟨s, hs, hlt, heq ▸ hslot hx'⟩

/-! ## Iteration -/

/-- The key of a slot. -/
def keyAt (sc : Scatter (LuaKey × LuaValue)) (s : ℕ) : LuaKey :=
  match sc.slot s with
  | some e => e.1
  | none => .string []

/-- The positions of the array part that have a value, from one on. -/
def arrayPositions (tb : ConfTable) (i : ℕ) : List ℕ :=
  (List.range' i (tb.sizearray - i)).filter fun j ↦ decide (tb.array j ≠ .nil)

/-- The keys, in the order of `nextkey`. -/
def allKeys (sc : Scatter (LuaKey × LuaValue)) (tb : ConfTable) (i : ℕ) : List LuaKey :=
  (arrayPositions tb i).map arrayKey ++ (List.range' 0 tb.sizehash).map (keyAt sc)

/-- **The iteration** visits a list of keys, if `nextkey` leads from each to the next. -/
theorem visit_spec {p : ℕ} {keys : List LuaKey} (hnone : c.nextkey p none = .ok keys.head?)
    (hnext : ∀ xs k rest, keys = xs ++ k :: rest → c.nextkey p (some k) = .ok rest.head?) :
    c.visit p (keys.length + 1) none = .ok keys := by
  have hloop : ∀ rest xs cur, keys = xs ++ rest → c.nextkey p cur = .ok rest.head? →
      c.visit p (rest.length + 1) cur = .ok rest := by
    intro rest
    induction rest with
    | nil =>
      intro xs cur _ hcur
      rw [visit, hcur]
      rfl
    | cons k rest ih =>
      intro xs cur hkeys hcur
      rw [visit, hcur]
      simp only [bind, Except.bind, List.head?_cons]
      rw [List.length_cons, ih (xs ++ [k]) (some k) (by rw [hkeys, List.append_assoc]; rfl)
        (hnext xs k rest hkeys)]
      rfl
  exact hloop keys [] none rfl hnone

theorem Hash.pushkey_slot (h : Hash sc l c source tb t) (hfull : Full sc tb) (hfits : t.Fits)
    (hs : s < tb.sizehash) : c.pushkey (tb.hash s) = .ok (keyAt sc s) := by
  obtain ⟨e, he⟩ := hfull s hs
  rw [keyAt, he]
  exact pushkey_eq (h.slots.keeps hs he) (hfits e (mem_of_mem_hashEntries (h.slot_lt he).2).1)

/-- From the array part to the first slot. -/
theorem Hash.nextFrom_eq (h : Hash sc l c source tb t) (hfull : Full sc tb)
    (hfits : t.Fits) (i : ℕ) :
    c.nextFrom tb i = .ok (allKeys sc tb i).head? := by
  rw [nextFrom, nextArray, allKeys, arrayPositions, ← List.head?_filter]
  cases hhead : ((List.range' i (tb.sizearray - i)).filter fun j ↦
    decide (tb.array j ≠ .nil)).head? with
  | some j => rw [List.head?_append, List.head?_map, hhead, Option.map_some, Option.some_or]
  | none =>
    rw [List.head?_append, List.head?_map, hhead, Option.map_none, Option.none_or, pushfirsthash]
    by_cases hzero : tb.sizehash = 0
    · rw [if_pos hzero, hzero]
      rfl
    · rw [if_neg hzero, h.pushkey_slot hfull hfits (Nat.pos_of_ne_zero hzero)]
      obtain ⟨m, hm⟩ := Nat.exists_eq_succ_of_ne_zero hzero
      rw [hm, List.range'_succ]
      rfl

/-- From a slot to the next. -/
theorem Hash.nextHash_eq (h : Hash sc l c source tb t) (hbuilt : Built (c.meaning source) tb t)
    (hfits : t.Fits) (hs : sc.slot s = some e) :
    c.nextHash tb e.1.conf.keyhash e.1.conf
      = .ok ((List.range' (s + 1) (tb.sizehash - (s + 1))).map (keyAt sc)).head? := by
  obtain ⟨hlt, hmem⟩ := h.slot_lt hs
  obtain ⟨s', e', hlookup, hs', hcode⟩ := h.lookup_present hmem
  -- the slot that is found is the one of the key
  have heq : e' = e := entry_inj hfits (mem_of_mem_hashEntries (h.slot_lt hs').2).1
    (mem_of_mem_hashEntries hmem).1 hcode
  have hslot : s' = s := h.chained.slot_inj (nodup_hashEntries t tb.sizearray) hs' (heq ▸ hs)
  rw [nextHash, hlookup, hslot]
  simp only [bind, Except.bind]
  by_cases hlast : s + 1 = tb.sizehash
  · rw [if_pos hlast, hlast, Nat.sub_self]
    rfl
  · rw [if_neg hlast, h.pushkey_slot (h.full hbuilt hfits) hfits (by omega)]
    obtain ⟨m, hm⟩ := Nat.exists_eq_succ_of_ne_zero (n := tb.sizehash - (s + 1)) (by omega)
    rw [hm, List.range'_succ]
    rfl

theorem rest_of_range' {i m j : ℕ} {xs rest : List ℕ} (h : List.range' i m = xs ++ j :: rest) :
    i ≤ j ∧ j < i + m ∧ rest = List.range' (j + 1) (i + m - (j + 1)) := by
  obtain ⟨a, ha, -, htail⟩ := List.range'_eq_append_iff.mp h
  obtain ⟨hj, hpos, hrest⟩ := List.range'_eq_cons_iff.mp htail.symm
  refine ⟨by omega, by omega, ?_⟩
  rw [hrest, ← hj]
  congr 1
  omega

private theorem rest_of_arrayPositions {j : ℕ} {xs rest : List ℕ}
    (h : arrayPositions tb 0 = xs ++ j :: rest) :
    j < tb.sizearray ∧ rest = arrayPositions tb (j + 1) := by
  rw [arrayPositions] at h
  obtain ⟨l₁, l₂, hsplit, -, htail⟩ := List.filter_eq_append_iff.mp h
  obtain ⟨l₃, l₄, hcons, -, -, hrest⟩ := List.filter_eq_cons_iff.mp htail
  rw [hcons, ← List.append_assoc] at hsplit
  obtain ⟨-, hlt, hl₄⟩ := rest_of_range' hsplit
  refine ⟨by omega, ?_⟩
  rw [← hrest, hl₄, arrayPositions]
  congr 2
  omega

private theorem arrayKey_toInt {j : ℕ} (h : (j : ℤ) + 1 < 2 ^ 31) :
    (Int64.ofNat (j + 1)).toInt = (j + 1 : ℕ) := Int64.toInt_ofNat_of_lt (by omega)

/-- **`nextkey`** leads from each key to the next. -/
theorem Hash.nextkey_eq {p : ℕ} (h : Hash sc l c source (c.tables p) t)
    (hbuilt : Built (c.meaning source) (c.tables p) t) (hfits : t.Fits) {xs rest : List LuaKey}
    (hkeys : allKeys sc (c.tables p) 0 = xs ++ k :: rest) :
    c.nextkey p (some k) = .ok rest.head? := by
  have hfull := h.full hbuilt hfits
  have hlt := toInt32_lt t.length
  have hsize := hbuilt.sizearray
  -- a key of the array part
  have harray : ∀ {xs : List ℕ} {j : ℕ} {rest : List ℕ},
      arrayPositions (c.tables p) 0 = xs ++ j :: rest → k = arrayKey j →
      c.nextkey p (some k) = .ok (allKeys sc (c.tables p) (j + 1)).head? := by
    intro xs j rest hsplit hk
    obtain ⟨hj, -⟩ := rest_of_arrayPositions hsplit
    have hint := arrayKey_toInt (j := j) (by omega)
    rw [hk, arrayKey, nextkey]
    · simp only [argument, bind, Except.bind]
      rw [hint, toInt32_of_lt (by omega) (by omega), if_pos ⟨by omega, by omega⟩]
      exact h.nextFrom_eq hfull hfits (j + 1)
    · exact fun n heq ↦ (nomatch heq)
  -- a key of the hash part
  have hhash : ∀ (xs : List ℕ) {s : ℕ} {rest : List ℕ},
      List.range' 0 (c.tables p).sizehash = xs ++ s :: rest → k = keyAt sc s →
      c.nextkey p (some k) = .ok (rest.map (keyAt sc)).head? := by
    intro xs s rest hsplit hk
    obtain ⟨-, hs, hrest⟩ := rest_of_range' hsplit
    rw [Nat.zero_add] at hs hrest
    obtain ⟨e, he⟩ := hfull s hs
    obtain ⟨hmem, hnot⟩ := mem_of_mem_hashEntries (h.slot_lt he).2
    have hnext := h.nextHash_eq hbuilt hfits he
    have hke : k = e.1 := by rw [hk, keyAt, he]
    have hkfits := hfits e hmem
    rw [hrest]
    rw [← hke] at hnext hnot hkfits
    cases k with
    | integer d =>
      rw [conf_integer hkfits] at hnext hnot
      rw [nextkey]
      · simp only [argument, bind, Except.bind]
        rw [toInt32_of_lt hkfits.1 hkfits.2, if_neg (of_decide_eq_false hnot)]
        exact hnext
      · exact fun n heq ↦ (nomatch heq)
    | string str =>
      rw [nextkey]
      · exact hnext
      · exact fun n heq ↦ (nomatch heq)
    | real n => exact hkfits.elim
    | table ref => exact hkfits.elim
    | other typename => exact hkfits.elim
  rw [allKeys] at hkeys
  rcases List.append_eq_append_iff.mp hkeys with ⟨ys, -, hright⟩ | ⟨ys, hleft, hright⟩
  · obtain ⟨l₁, l₂, hsplit, -, htail⟩ := List.map_eq_append_iff.mp hright
    obtain ⟨s, rest', hcons, hk, hrest⟩ := List.map_eq_cons_iff.mp htail
    rw [← hrest]
    exact hhash _ (hcons ▸ hsplit) hk.symm
  · obtain ⟨l₁, l₂, hsplit, -, htail⟩ := List.map_eq_append_iff.mp hleft
    cases ys with
    | nil =>
      -- the first slot
      obtain ⟨s, rest', hcons, hk, hrest⟩ := List.map_eq_cons_iff.mp hright.symm
      rw [← hrest]
      exact hhash [] hcons hk.symm
    | cons k' ys =>
      obtain ⟨hk', hrest⟩ := List.cons.inj hright
      obtain ⟨j, rest', hcons, hj, hys⟩ := List.map_eq_cons_iff.mp htail
      rw [hcons] at hsplit
      obtain ⟨-, hpositions⟩ := rest_of_arrayPositions hsplit
      rw [harray hsplit (hk'.trans hj.symm), hrest, ← hys, hpositions]
      rfl

/-! ## Every key once -/

/-- The keys of the array part. -/
theorem perm_arrayKeys (hbuilt : Built (c.meaning source) tb t) (hfits : t.Fits) :
    ((arrayPositions tb 0).map arrayKey).Perm
      ((t.entries.filter fun e ↦ e.1.conf.isArray tb.sizearray).map Prod.fst) := by
  have hlt := toInt32_lt t.length
  have hsize := hbuilt.sizearray
  have hmem : ∀ {j}, j ∈ arrayPositions tb 0 ↔ j < tb.sizearray ∧ tb.array j ≠ .nil := by
    intro j
    rw [arrayPositions, List.mem_filter, List.mem_range'_1, decide_eq_true_iff]
    exact and_congr_left' ⟨fun h ↦ by omega, fun h ↦ ⟨Nat.zero_le j, by omega⟩⟩
  -- both lists have no duplicates, so it is enough to compare their members
  refine (List.perm_ext_iff_of_nodup ?_ ?_).mpr fun k ↦ ?_
  · refine List.Nodup.map_on (fun j hj j' hj' heq ↦ ?_) (List.Nodup.filter _ List.nodup_range')
    have hj := (hmem.mp hj).1
    have hj' := (hmem.mp hj').1
    have hint := congrArg Int64.toInt (LuaKey.integer.inj heq)
    rw [arrayKey_toInt (by omega), arrayKey_toInt (by omega)] at hint
    omega
  · exact t.nodup.sublist (List.filter_sublist.map Prod.fst)
  · rw [List.mem_map, List.mem_map]
    constructor
    · rintro ⟨j, hj, rfl⟩
      obtain ⟨hlt, hne⟩ := hmem.mp hj
      rcases hbuilt.array j hlt with ⟨hnil, -⟩ | ⟨e, he, hconf, -⟩
      · exact (hne hnil).elim
      · have harray : (arrayKey j).conf = .integer (j + 1 : ℕ) := by
          rw [arrayKey, LuaKey.conf, arrayKey_toInt (by omega), toInt32_of_lt (by omega) (by omega)]
        have hfit : (arrayKey j).Fits := by
          rw [arrayKey, LuaKey.Fits, arrayKey_toInt (by omega)]
          omega
        refine ⟨e, List.mem_filter.mpr ⟨he, ?_⟩,
          conf_inj (hfits e he) hfit (hconf.trans harray.symm)⟩
        rw [hconf]
        exact decide_eq_true ⟨by omega, by omega⟩
    · rintro ⟨e, he, rfl⟩
      obtain ⟨hentry, harray⟩ := List.mem_filter.mp he
      have hfit := hfits e hentry
      obtain ⟨k, v⟩ := e
      -- only an integer that fits can stand in the array part
      cases k with
      | integer d =>
        dsimp only at harray hfit ⊢
        rw [conf_integer hfit] at harray
        obtain ⟨hpos, hle⟩ := of_decide_eq_true (p := 0 < d.toInt ∧ d.toInt ≤ tb.sizearray) harray
        have hj : ((d.toInt - 1).toNat : ℤ) = d.toInt - 1 := by omega
        generalize (d.toInt - 1).toNat = j at hj
        refine ⟨j, hmem.mpr ⟨by omega, ?_⟩, ?_⟩
        · rcases hbuilt.array j (by omega) with ⟨-, hnone⟩ | ⟨e, -, -, hstands⟩
          · refine absurd ?_ (hnone _ hentry)
            rw [conf_integer hfit]
            congr 1
            omega
          · exact hstands.ne_nil
        · rw [arrayKey]
          congr 1
          refine Int64.toInt_inj.mp ?_
          rw [arrayKey_toInt (by omega)]
          omega
      | string str => cases harray
      | real n => exact hfit.elim
      | table ref => exact hfit.elim
      | other typename => exact hfit.elim

theorem Hash.perm_keys (h : Hash sc l c source tb t) (hbuilt : Built (c.meaning source) tb t)
    (hfits : t.Fits) : ((List.range tb.sizehash).map (keyAt sc)).Perm (hashKeys tb t) := by
  have hperm := (h.perm hbuilt hfits).map fun o ↦ match o with
    | some e => e.1
    | none => LuaKey.string []
  rw [List.map_map, List.map_map] at hperm
  exact hperm

theorem Hash.perm_allKeys (h : Hash sc l c source tb t) (hbuilt : Built (c.meaning source) tb t)
    (hfits : t.Fits) : (allKeys sc tb 0).Perm (t.entries.map Prod.fst) := by
  rw [allKeys, ← List.range_eq_range']
  refine ((perm_arrayKeys hbuilt hfits).append (h.perm_keys hbuilt hfits)).trans ?_
  rw [hashKeys, ← List.map_append]
  exact (List.filter_append_perm _ _).map _

/-- A table that is built is well formed. -/
theorem wellFormed_of_built {p : ℕ} (hbuilt : Built (c.meaning source) (c.tables p) t)
    (hfits : t.Fits) : WellFormed c p t := by
  obtain ⟨sc, l, h⟩ := hash_of_built hbuilt
  have hfull := h.full hbuilt hfits
  refine ⟨fun s hs ↦ ?_, ?_, fun k hk ↦ ?_, fun k ↦ ?_, ?_⟩
  · obtain ⟨e, he⟩ := hfull s hs
    exact (h.slots.keeps hs he).value.ne_nil
  · have hkeys : ((List.range (c.tables p).sizehash).map fun s ↦ c.pushkey ((c.tables p).hash s))
        = ((List.range (c.tables p).sizehash).map (keyAt sc)).map Except.ok := by
      rw [List.map_map]
      exact List.map_congr_left fun s hs ↦ h.pushkey_slot hfull hfits (List.mem_range.mp hs)
    rw [hkeys]
    exact (h.perm_keys hbuilt hfits).map _
  · obtain ⟨e, he, rfl⟩ := List.mem_map.mp hk
    exact ⟨_, h.chains hfits he⟩
  · obtain ⟨r, hr, -⟩ := h.lookup_ends hfull k
    exact ⟨r, hr⟩
  · exact ⟨_, _, visit_spec (h.nextFrom_eq hfull hfits 0) fun xs k rest ↦ h.nextkey_eq hbuilt hfits,
      h.perm_allKeys hbuilt hfits⟩

end ConfContext

/-- A nested table is found as the one that it has become. -/
theorem ConfContext.indexconf_table {c : ConfContext} {source : ℕ → ℕ} {p r : ℕ} {t : SourceTable}
    {e : LuaKey × LuaValue} (hbuilt : Built (c.meaning source) (c.tables p) t) (hfits : t.Fits)
    (he : e ∈ t.entries) (hr : e.2 = .table r) :
    ∃ q < c.allocated, source q = r ∧ c.indexconf p e.1 = .ok [.table q] := by
  have hplain : Plain e.1 := by
    have hfit := hfits e he
    generalize e.1 = k at hfit
    cases k with
    | integer d => exact trivial
    | string s => exact trivial
    | real n => exact hfit
    | table ref => exact hfit
    | other typename => exact hfit
  obtain ⟨e', he', hconf, x, hx, hshows⟩ := indexconf_present hbuilt hplain he rfl
  rw [entry_inj hfits he' he hconf, hr] at hshows
  cases hshows with
  | table hq => exact ⟨_, hq, rfl, hx⟩

/-- **Converted tables are well formed**: the one that `lnewconf` is called with, and all that are
nested in it, where they have keys that fit. -/
theorem newconf_wellFormed {lua : ℕ → SourceTable} {junk : ℕ → ℕ → ConfNode} {calls stack ref : ℕ}
    {c : ConfContext} (h : newconf lua junk calls stack ref = .ok c) :
    ∃ source : ℕ → ℕ, source 0 = ref ∧ 0 < c.allocated ∧ ∀ p < c.allocated,
      (lua (source p)).Fits → c.WellFormed p (lua (source p)) ∧
        ∀ e ∈ (lua (source p)).entries, ∀ r, e.2 = .table r →
          ∃ q < c.allocated, source q = r ∧ c.indexconf p e.1 = .ok [.table q] := by
  obtain ⟨source, hroot, hpos, -, hbuilt⟩ := newconf_built h
  exact ⟨source, hroot, hpos, fun p hp hfits ↦
    ⟨ConfContext.wellFormed_of_built (hbuilt p hp) hfits, fun e he r ↦
      ConfContext.indexconf_table (hbuilt p hp) hfits he⟩⟩

/-- A table with an array part, a table in a table, and keys that collide. -/
def nestedTables : ℕ → SourceTable
  | 0 => ⟨[(.integer 1, .boolean true), (.integer 2, .string [97]), (.string [97], .table 1),
      (.integer (-3), .integer 5), (.integer 5, .real 0),
        (.string [], .boolean false)], 2, by decide⟩
  | _ => ⟨[(.string [97], .integer 1), (.integer 4, .string [98])], 0, by decide⟩

theorem newconf_wellFormed_nested :
    ∃ c, newconf nestedTables (fun _ _ ↦ ⟨.nil, 5, 7, 0, .string, true⟩)
    10 100 0
      = .ok c ∧ (∀ p, (nestedTables p).Fits) ∧
    ∃ source : ℕ → ℕ, source 0 = 0 ∧ 0 < c.allocated ∧ ∀ p < c.allocated,
      (nestedTables (source p)).Fits → c.WellFormed p (nestedTables (source p)) ∧
        ∀ e ∈ (nestedTables (source p)).entries, ∀ r, e.2 = .table r →
          ∃ q < c.allocated, source q = r ∧ c.indexconf p e.1 = .ok [.table q] := by
  have hok : (newconf nestedTables (fun _ _ ↦ ⟨.nil, 5, 7, 0, .string, true⟩) 10 100 0).toBool =
      true := by
    decide +kernel
  have hfits : ∀ p, (nestedTables p).Fits := by
    intro p
    match p with
    | 0 => exact (by decide : ∀ e ∈ (nestedTables 0).entries, e.1.Fits)
    | p + 1 => exact (by decide : ∀ e ∈ (nestedTables 1).entries, e.1.Fits)
  cases h : newconf nestedTables (fun _ _ ↦ ⟨.nil, 5, 7, 0, .string, true⟩) 10 100 0 with
  | error e =>
    rw [h] at hok
    cases hok
  | ok c => exact ⟨c, rfl, hfits, newconf_wellFormed h⟩

end ZTask
