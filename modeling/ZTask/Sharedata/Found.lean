import ZTask.Sharedata.Building
import ZTask.Sharedata.Lookup

/-!
# What is found

A lookup begins at the main position of the key and goes along a chain to its end, so it finds a
node with that key if there is one on the chain. It gives up early only where the chain has one
node.
-/

namespace ZTask

open Lib

namespace ConfContext

variable {c : ConfContext} {source : ℕ → ℕ} {tb : ConfTable} {t : SourceTable} {k : ConfKey}
  {e : LuaKey × LuaValue} {n : ConfNode} {next : Option ℕ} {sc : Scatter (LuaKey × LuaValue)}
  {entries : List (LuaKey × LuaValue)} {l : ℕ → List ℕ} {s p : ℕ} {ns : List ℕ}

theorem toLString_eq {j : ℕ} {str : List UInt8} (h : c.strings[j]? = some str) :
    c.toLString (j + 2 : ℕ) = .ok str := by
  have hidx : (((j + 2 : ℕ) : ℤ) - 2).toNat = j := by omega
  rw [toLString, if_pos (by omega), hidx, h]

/-- The comparison in the loop of `lookup_key`. -/
theorem compare_eq (h : HasEntry (c.meaning source) n e next) (k : ConfKey) :
    (if k.keyhash = n.keyhash then c.sameKey n k else .ok false)
      = .ok (decide (e.1.conf = k)) := by
  have hkey := h.key
  have hsame : c.sameKey n k = .ok (decide (e.1.conf = k)) := by
    generalize e.1.conf = k' at hkey
    cases k with
    | integer key =>
      cases k' with
      | integer key' =>
        rw [sameKey, hkey.1, hkey.2]
        exact congrArg Except.ok (decide_eq_decide.mpr ⟨congrArg ConfKey.integer,
          ConfKey.integer.inj⟩)
      | string str' =>
        rw [sameKey, hkey.1]
        rfl
    | string str =>
      cases k' with
      | integer key' =>
        rw [sameKey, hkey.1]
        rfl
      | string str' =>
        obtain ⟨htype, j, hnum, hj⟩ := hkey
        rw [sameKey, htype, hnum]
        dsimp only
        rw [toLString_eq hj]
        exact congrArg Except.ok (decide_eq_decide.mpr
          ⟨fun heq ↦ congrArg ConfKey.string heq.symm, fun heq ↦ (ConfKey.string.inj heq).symm⟩)
  by_cases hhash : k.keyhash = n.keyhash
  · rw [if_pos hhash, hsame]
  · rw [if_neg hhash, decide_eq_false]
    rintro rfl
    exact hhash h.keyhash.symm

/-- The entry of a slot has this key. -/
def hasKey (sc : Scatter (LuaKey × LuaValue)) (k : ConfKey) (s : ℕ) : Bool :=
  match sc.slot s with
  | some e => decide (e.1.conf = k)
  | none => false

/-- **The loop of `lookup_key`** finds the first node of the chain with the key. -/
theorem lookupLoop_spec {fuel : ℕ} (h : Slots (c.meaning source) tb sc)
    (hchain : LinkQueue.Chain sc.next (some s) (s :: ns))
    (hfilled : ∀ i ∈ s :: ns, i < tb.sizehash ∧ ∃ e, sc.slot i = some e)
    (hfuel : ns.length < fuel) :
    c.lookupLoop tb k.keyhash k fuel s = .ok ((s :: ns).find? (hasKey sc k)) := by
  induction fuel generalizing s ns with
  | zero => exact absurd hfuel (Nat.not_lt_zero _)
  | succ fuel ih =>
    obtain ⟨hs, e, he⟩ := hfilled s List.mem_cons_self
    have hkeeps := h.keeps hs he
    rw [lookupLoop, if_pos hs]
    dsimp only
    rw [compare_eq hkeeps, List.find?_cons, hasKey, he]
    simp only [bind, Except.bind]
    by_cases hkey : e.1.conf = k
    · rw [if_pos (decide_eq_true hkey), decide_eq_true hkey]
    · rw [if_neg (fun heq ↦ hkey (of_decide_eq_true heq)), decide_eq_false hkey]
      have hlink := hkeeps.link
      cases ns with
      | nil =>
        have hnone : sc.next s = none := hchain.2
        rw [hnone] at hlink
        have hneg : (tb.hash s).next < 0 := hlink
        rw [if_pos hneg]
        rfl
      | cons s' ns' =>
        have hsome : sc.next s = some s' := hchain.2.1
        rw [hsome] at hlink
        have hnext : (tb.hash s).next = s' := hlink
        rw [hnext, if_neg (by omega), Int.toNat_natCast]
        rw [List.length_cons] at hfuel
        exact ih ⟨rfl, hchain.2.2⟩ (fun i hi ↦ hfilled i (List.mem_cons_of_mem s hi)) (by omega)

/-- **`lookup_key`** from a main position with an entry. -/
theorem lookupKey_spec (h : Slots (c.meaning source) tb sc) (hp : p = k.keyhash.toNat % tb.sizehash)
    (hchain : LinkQueue.Chain sc.next (some p) (p :: ns)) (hnodup : (p :: ns).Nodup)
    (hfilled : ∀ i ∈ p :: ns, i < tb.sizehash ∧ ∃ e, sc.slot i = some e) :
    c.lookupKey tb k.keyhash k = .ok ((p :: ns).find? (hasKey sc k)) := by
  obtain ⟨hlt, e, he⟩ := hfilled p List.mem_cons_self
  have hkeeps := h.keeps hlt he
  have hlen : (p :: ns).length ≤ tb.sizehash := by
    have hsub : p :: ns ⊆ List.range tb.sizehash := fun i hi ↦ List.mem_range.mpr (hfilled i hi).1
    have hle := (List.subperm_of_subset hnodup hsub).length_le
    rwa [List.length_range] at hle
  rw [lookupKey, if_neg (by omega), ← hp]
  dsimp only
  by_cases hearly : k.keyhash ≠ (tb.hash p).keyhash ∧ (tb.hash p).nocolliding = true
  · -- the chain has no other node
    rw [if_pos hearly]
    have hnone := hkeeps.flag hearly.2
    have hkey : ¬ e.1.conf = k := by
      rintro rfl
      exact hearly.1 hkeeps.keyhash.symm
    cases ns with
    | nil =>
      rw [List.find?_cons, hasKey, he]
      dsimp only
      rw [decide_eq_false hkey, List.find?_nil]
    | cons s ns =>
      have hsome : sc.next p = some s := hchain.2.1
      rw [hnone] at hsome
      cases hsome
  · rw [if_neg hearly]
    rw [List.length_cons] at hlen
    exact lookupLoop_spec h hchain hfilled (by omega)

/-! ## In a table that is built -/

variable (sc l) in
/-- The hash part of a table that is built. -/
structure Hash (c : ConfContext) (source : ℕ → ℕ) (tb : ConfTable) (t : SourceTable) : Prop where
  slots : Slots (c.meaning source) tb sc
  chained : Scatter.Chained (mainpos tb.sizehash) (fun e ↦ e.1.conf) tb.sizehash
    (hashEntries tb.sizearray t.entries) (hashEntries tb.sizearray t.entries) sc l
  length_le : (hashEntries tb.sizearray t.entries).length ≤ tb.sizehash

theorem hash_of_built (h : Built (c.meaning source) tb t) : ∃ sc l, Hash sc l c source tb t := by
  obtain ⟨sc, l, hslots, hchained⟩ := h.hash
  have hlt := toInt32_lt t.length
  refine ⟨sc, l, hslots, hchained, ?_⟩
  rw [h.sizehash]
  exact length_hashEntries_le (h.sizearray ▸ hlt)

theorem Hash.mainpos_lt (h : Hash sc l c source tb t)
    (he : e ∈ hashEntries tb.sizearray t.entries) :
    mainpos tb.sizehash e < tb.sizehash := by
  have hle := h.length_le
  have hpos := List.length_pos_of_mem he
  exact Nat.mod_lt _ (by omega)

theorem Hash.slot_lt (h : Hash sc l c source tb t) (hs : sc.slot s = some e) :
    s < tb.sizehash ∧ e ∈ hashEntries tb.sizearray t.entries := by
  have hmem := h.chained.mem (List.Subset.refl _) hs
  refine ⟨?_, hmem⟩
  rcases h.chained.of_slot hs with hfirst | ⟨-, htail, -, -⟩
  · rw [← (Scatter.mem_of_first hfirst).2]
    exact h.mainpos_lt hmem
  · exact (h.chained.tail htail).2

/-- **A key that is there is found.** -/
theorem Hash.lookup_present (h : Hash sc l c source tb t)
    (he : e ∈ hashEntries tb.sizearray t.entries) :
    ∃ s e', c.lookupKey tb e.1.conf.keyhash e.1.conf = .ok (some s) ∧ sc.slot s = some e' ∧
      e'.1.conf = e.1.conf := by
  obtain ⟨b, hb⟩ := Scatter.first_isSome (mainpos tb.sizehash) he
  obtain ⟨hchain, hnodup⟩ := h.chained.chain hb
  have hfilled : ∀ i ∈ mainpos tb.sizehash e :: l (mainpos tb.sizehash e),
      i < tb.sizehash ∧ ∃ e, sc.slot i = some e := by
    intro i hi
    obtain ⟨x, hx, -⟩ := h.chained.pos_of_mem hb hi
    exact ⟨(h.slot_lt hx).1, x, hx⟩
  rw [lookupKey_spec (k := e.1.conf) (p := mainpos tb.sizehash e) h.slots rfl hchain hnodup hfilled]
  obtain ⟨s, hs, x, hx, hcode⟩ := h.chained.exists_slot he
  have hkey : hasKey sc e.1.conf s = true := by
    rw [hasKey, hx]
    exact decide_eq_true hcode
  cases hfind : (mainpos tb.sizehash e :: l (mainpos tb.sizehash e)).find? (hasKey sc e.1.conf) with
  | none => exact absurd hkey (List.find?_eq_none.mp hfind s hs)
  | some s' =>
    have hkey' := List.find?_some hfind
    obtain ⟨-, e', he'⟩ := hfilled s' (List.mem_of_find?_eq_some hfind)
    rw [hasKey, he'] at hkey'
    exact ⟨s', e', rfl, he', of_decide_eq_true hkey'⟩

/-- Every slot has an entry. -/
def Full (sc : Scatter (LuaKey × LuaValue)) (tb : ConfTable) : Prop :=
  ∀ s < tb.sizehash, ∃ e, sc.slot s = some e

/-- **Every lookup ends** in a table without empty slots. -/
theorem Hash.lookup_ends (h : Hash sc l c source tb t) (hfull : Full sc tb) (k : ConfKey) :
    ∃ r, c.lookupKey tb k.keyhash k = .ok r ∧
      ∀ s ∈ r, ∃ e, sc.slot s = some e ∧ e.1.conf = k := by
  by_cases hzero : tb.sizehash = 0
  · refine ⟨none, ?_, fun s hs ↦ (nomatch hs)⟩
    rw [lookupKey, if_pos hzero]
  · obtain ⟨e, he⟩ := hfull (k.keyhash.toNat % tb.sizehash)
        (Nat.mod_lt _ (Nat.pos_of_ne_zero hzero))
    obtain ⟨ns, hchain, hnodup, hfilled⟩ := h.chained.chain_from he
    refine ⟨_, lookupKey_spec h.slots rfl hchain hnodup fun i hi ↦ ?_, fun s hs ↦ ?_⟩
    · obtain ⟨y, hy⟩ := hfilled i hi
      exact ⟨(h.slot_lt hy).1, y, hy⟩
    · have hkey := List.find?_some hs
      obtain ⟨y, hy⟩ := hfilled s (List.mem_of_find?_eq_some hs)
      rw [hasKey, hy] at hkey
      exact ⟨y, hy, of_decide_eq_true hkey⟩

theorem Hash.lookup_absent (h : Hash sc l c source tb t) (hfull : Full sc tb)
    (habsent : ∀ e ∈ hashEntries tb.sizearray t.entries, e.1.conf ≠ k) :
    c.lookupKey tb k.keyhash k = .ok none := by
  obtain ⟨r, hr, hkeys⟩ := h.lookup_ends hfull k
  cases r with
  | none => exact hr
  | some s =>
    obtain ⟨e, he, hkey⟩ := hkeys s rfl
    exact (habsent e (h.slot_lt he).2 hkey).elim

/-! ## The value of a key -/

/-- What is pushed is this value; a table is pushed as the one that it has become. -/
inductive Shows (w : Meaning) : Pushed → LuaValue → Prop
  | boolean (b : Bool) : Shows w (.boolean b) (.boolean b)
  | integer (d : Int64) : Shows w (.integer d) (.integer d)
  | real (x : UInt64) : Shows w (.real x) (.real x)
  | string (str : List UInt8) : Shows w (.string str) (.string str)
  | table {q : ℕ} (h : q < w.allocated) : Shows w (.table q) (.table (w.source q))

theorem pushvalue_spec {cv : ConfValue} {v : LuaValue} (h : Stands (c.meaning source) cv v) :
    ∃ x, c.pushvalue cv = .ok x ∧ Shows (c.meaning source) x v := by
  cases h with
  | boolean b => exact ⟨_, rfl, .boolean b⟩
  | integer d => exact ⟨_, rfl, .integer d⟩
  | real n => exact ⟨_, rfl, .real n⟩
  | @string j s hj =>
    refine ⟨.string s, ?_, .string s⟩
    rw [pushvalue, toLString_eq hj]
    rfl
  | table h => exact ⟨_, rfl, .table h⟩

/-- A key that `lindexconf` takes. -/
def Plain : LuaKey → Prop
  | .integer _ | .string _ => True
  | .real _ | .table _ | .other _ => False

variable {key : LuaKey}

/-- The array part and the hash part. -/
theorem indexconf_eq (hplain : Plain key) : c.indexconf p key =
    match key.conf with
    | .integer i =>
      if 0 < i ∧ i ≤ (c.tables p).sizearray then
        (c.pushvalue ((c.tables p).array (i - 1).toNat)).map fun v ↦ [v]
      else c.indexHash (c.tables p) key.conf.keyhash key.conf
    | .string _ => c.indexHash (c.tables p) key.conf.keyhash key.conf := by
  cases key with
  | integer d => rfl
  | string s => rfl
  | real n => exact hplain.elim
  | table ref => exact hplain.elim
  | other typename => exact hplain.elim

/-- **A key that is there** has the value of an entry with that key. -/
theorem indexconf_present (hbuilt : Built (c.meaning source) (c.tables p) t) (hplain : Plain key)
    (he : e ∈ t.entries) (hkey : key.conf = e.1.conf) :
    ∃ e' ∈ t.entries, e'.1.conf = e.1.conf ∧ ∃ x, c.indexconf p key = .ok [x] ∧
      Shows (c.meaning source) x e'.2 := by
  rw [indexconf_eq hplain, hkey]
  -- what is not in the array part is found along its chain
  have hinHash : e.1.conf.isArray (c.tables p).sizearray = false →
      ∃ e' ∈ t.entries, e'.1.conf = e.1.conf ∧ ∃ x,
        c.indexHash (c.tables p) e.1.conf.keyhash e.1.conf = .ok [x] ∧
        Shows (c.meaning source) x e'.2 := by
    intro hnot
    obtain ⟨sc, l, h⟩ := hash_of_built hbuilt
    have hmem : e ∈ hashEntries (c.tables p).sizearray t.entries := by
      refine List.mem_filter.mpr ⟨he, ?_⟩
      rw [hnot]
      rfl
    obtain ⟨s, e', hlookup, hs, hcode⟩ := h.lookup_present hmem
    obtain ⟨hlt, hmem'⟩ := h.slot_lt hs
    obtain ⟨x, hx, hshows⟩ := pushvalue_spec (h.slots.keeps hlt hs).value
    refine ⟨e', (List.mem_filter.mp hmem').1, hcode, x, ?_, hshows⟩
    rw [indexHash, hlookup]
    simp only [bind, Except.bind]
    rw [hx]
    rfl
  -- an integer may stand in either part, a string in the hash part only
  cases hconf : e.1.conf with
  | integer i =>
    rw [hconf] at hinHash
    dsimp only
    by_cases harray : 0 < i ∧ i ≤ (c.tables p).sizearray
    · rw [if_pos harray]
      rcases hbuilt.array (i - 1).toNat (by omega) with ⟨-, hnone⟩ | ⟨e', he', hconf', hstands⟩
      · refine absurd ?_ (hnone e he)
        rw [hconf]
        congr 1
        omega
      · obtain ⟨x, hx, hshows⟩ := pushvalue_spec hstands
        refine ⟨e', he', ?_, x, ?_, hshows⟩
        · rw [hconf']
          congr 1
          omega
        · rw [hx]
          rfl
    · rw [if_neg harray]
      exact hinHash (decide_eq_false harray)
  | string str =>
    rw [hconf] at hinHash
    exact hinHash rfl

/-- A key that is not there has no value, in a table without empty slots. -/
theorem indexconf_absent (hbuilt : Built (c.meaning source) (c.tables p) t)
    (h : Hash sc l c source (c.tables p) t) (hfull : Full sc (c.tables p)) (hplain : Plain key)
    (habsent : ∀ e ∈ t.entries, e.1.conf ≠ key.conf) :
    c.indexconf p key = .ok [] ∨ c.indexconf p key = .ok [.nil] := by
  have hhash : c.indexHash (c.tables p) key.conf.keyhash key.conf = .ok [] := by
    rw [indexHash, h.lookup_absent hfull fun e he ↦ habsent e (List.mem_filter.mp he).1]
    rfl
  rw [indexconf_eq hplain, hhash]
  cases hconf : key.conf with
  | string str => exact .inl rfl
  | integer i =>
    dsimp only
    by_cases harray : 0 < i ∧ i ≤ (c.tables p).sizearray
    · rw [if_pos harray]
      rcases hbuilt.array (i - 1).toNat (by omega) with ⟨hnil, -⟩ | ⟨e', he', hconf', -⟩
      · rw [hnil]
        exact .inr rfl
      · refine absurd ?_ (habsent e' he')
        rw [hconf, hconf']
        congr 1
        omega
    · rw [if_neg harray]
      exact .inl rfl

end ConfContext

end ZTask
