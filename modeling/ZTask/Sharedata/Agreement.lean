import ZTask.Sharedata.WellFormed

/-!
# Converted tables and Lua tables

An integer key is cut down to an `int`, when a table is converted and when it is read. As long as
the keys of the table fit, reading agrees with the Lua table but for the keys that are cut down to
one that is there. Once a key of the table is cut down itself, there are so many others that become
the same that the table does not have all of them, and the value is found for each.

## Why one direction needs counting

That reading fails for some key once a key of the table does not fit is not seen from that key
alone: reading it may well find its own entry. But more keys become the same `int` than the table
has (`aliasKey_toInt`), so one of them is not in it (`exists_alias_absent`), and for that one the
same entry is found (`exists_not_agrees`).

## Strings

Only integer keys are cut down. A string is found if it is a key of the table, and not otherwise.
-/

namespace ZTask

open Lib

namespace ConfContext

/-- Reading a key has the value that it has in the Lua table: one value, or nothing. -/
def Agrees (c : ConfContext) (w : Meaning) (p : ℕ) (t : SourceTable) (k : LuaKey) : Prop :=
  ∃ xs, c.indexconf p k = .ok xs ∧
    match t.get k with
    | none => xs = [] ∨ xs = [.nil]
    | some v => ∃ x, xs = [x] ∧ Shows w x v

/-- The key fits, or nothing is under the one that it is cut down to. -/
def Uncut (t : SourceTable) : LuaKey → Prop
  | .integer d => -2 ^ 31 ≤ d.toInt ∧ d.toInt < 2 ^ 31 ∨
    t.get (.integer (Int64.ofInt (toInt32 d.toInt))) = none
  | _ => True

variable {c : ConfContext} {source : ℕ → ℕ} {tb : ConfTable} {t : SourceTable} {k : LuaKey}
  {e : LuaKey × LuaValue} {v : LuaValue} {p : ℕ}

private theorem get_of_mem (he : e ∈ t.entries) : t.get e.1 = some e.2 := by
  cases hget : t.get e.1 with
  | none => exact (SourceTable.get_eq_none hget he rfl).elim
  | some v =>
    have hmem := SourceTable.mem_of_get hget
    rw [List.inj_on_of_nodup_map t.nodup he hmem rfl]

/-- A key without an entry, for which one is found. -/
theorem not_agrees (hbuilt : Built (c.meaning source) (c.tables p) t) (hplain : Plain k)
    (hnone : t.get k = none) (he : e ∈ t.entries) (hconf : k.conf = e.1.conf) :
    ¬ Agrees c (c.meaning source) p t k := by
  rintro ⟨xs, hxs, hmatch⟩
  obtain ⟨e', -, -, x, hx, hshows⟩ := indexconf_present hbuilt hplain he hconf
  rw [hnone] at hmatch
  rw [hx] at hxs
  have hlist := Except.ok.inj hxs
  rcases hmatch with hnil | hnil
  · rw [hnil] at hlist
    cases hlist
  · rw [hnil] at hlist
    obtain rfl := (List.cons.inj hlist).1
    cases hshows

/-! ## Keys that fit -/

private theorem conf_cut (d : Int64) : ∃ d' : Int64, d' = Int64.ofInt (toInt32 d.toInt) ∧
    (LuaKey.integer d').Fits ∧ (LuaKey.integer d').conf = (LuaKey.integer d).conf := by
  have hlo := toInt32_ge d.toInt
  have hhi := toInt32_lt d.toInt
  have hint : (Int64.ofInt (toInt32 d.toInt)).toInt = toInt32 d.toInt :=
    Int64.toInt_ofInt_of_le (by omega) (by omega)
  refine ⟨_, rfl, ?_, ?_⟩
  · rw [LuaKey.Fits, hint]
    exact ⟨hlo, hhi⟩
  · rw [LuaKey.conf, LuaKey.conf, hint, toInt32_of_lt hlo hhi]

/-- **Where the keys of the table fit.** -/
theorem agrees_iff (hbuilt : Built (c.meaning source) (c.tables p) t) (hfits : t.Fits)
    (hplain : Plain k) : Agrees c (c.meaning source) p t k ↔ Uncut t k := by
  obtain ⟨sc, l, h⟩ := hash_of_built hbuilt
  have hfull := h.full hbuilt hfits
  -- a key that agrees with the table if no other becomes the same
  have hagrees : (∀ e ∈ t.entries, e.1.conf = k.conf → e.1 = k) →
      Agrees c (c.meaning source) p t k := by
    intro hsame
    by_cases hthere : ∃ e ∈ t.entries, e.1.conf = k.conf
    · obtain ⟨e, he, hconf⟩ := hthere
      have hk := hsame e he hconf
      obtain ⟨e', he', hconf', x, hx, hshows⟩ := indexconf_present hbuilt hplain he hconf.symm
      refine ⟨[x], hx, ?_⟩
      rw [← hk, get_of_mem he, ← entry_inj hfits he' he hconf']
      exact ⟨x, rfl, hshows⟩
    · have habsent : ∀ e ∈ t.entries, e.1.conf ≠ k.conf := fun e he heq ↦ hthere ⟨e, he, heq⟩
      have hnone : t.get k = none := by
        cases hget : t.get k with
        | none => rfl
        | some v => exact (habsent _ (SourceTable.mem_of_get hget) rfl).elim
      rcases indexconf_absent hbuilt h hfull hplain habsent with hnil | hnil
      · refine ⟨[], hnil, ?_⟩
        rw [hnone]
        exact .inl rfl
      · refine ⟨[.nil], hnil, ?_⟩
        rw [hnone]
        exact .inr rfl
  cases k with
  | real n => exact hplain.elim
  | table ref => exact hplain.elim
  | other typename => exact hplain.elim
  | string s =>
    exact iff_of_true (hagrees fun e he heq ↦ conf_inj (hfits e he) trivial heq) trivial
  | integer d =>
    by_cases hfit : (LuaKey.integer d).Fits
    · exact iff_of_true (hagrees fun e he heq ↦ conf_inj (hfits e he) hfit heq) (.inl hfit)
    · obtain ⟨d', hd', hfit', hconf'⟩ := conf_cut d
      have hnone : t.get (.integer d) = none := by
        cases hget : t.get (.integer d) with
        | none => rfl
        | some v => exact (hfit (hfits _ (SourceTable.mem_of_get hget))).elim
      constructor
      · -- what is under the cut key would be found
        intro hagree
        refine .inr ?_
        rw [← hd']
        cases hget : t.get (.integer d') with
        | none => rfl
        | some v =>
          exact (not_agrees hbuilt hplain hnone (SourceTable.mem_of_get hget)
            hconf'.symm hagree).elim
      · rintro (hrange | hcut)
        · exact (hfit hrange).elim
        · refine hagrees fun e he heq ↦ ?_
          have hkey : e.1 = .integer d' := conf_inj (hfits e he) hfit' (heq.trans hconf'.symm)
          rw [← hd'] at hcut
          exact (SourceTable.get_eq_none hcut he hkey).elim

/-! ## Keys that do not -/

/-- The distance, in cuts, of the `i`th other key that is cut down to the same. -/
def offset (i : ℕ) : ℤ := if i < 2 ^ 30 then i + 1 else -(i - 2 ^ 30 + 1)

/-- Keys that become the same as `d`. -/
def aliasKey (d : Int64) (i : ℕ) : LuaKey :=
  .integer (Int64.ofInt (toInt32 d.toInt + offset i * 2 ^ 32))

private theorem offset_bounds {i : ℕ} (hi : i < 2 ^ 31) :
    -2 ^ 30 ≤ offset i ∧ offset i ≤ 2 ^ 30 ∧ offset i ≠ 0 := by
  rw [offset]
  split <;> omega

private theorem offset_inj {i j : ℕ} (h : offset i = offset j) : i = j := by
  rw [offset, offset] at h
  split at h <;> split at h <;> omega

private theorem aliasKey_toInt (d : Int64) {i : ℕ} (hi : i < 2 ^ 31) :
    (Int64.ofInt (toInt32 d.toInt + offset i * 2 ^ 32)).toInt
      = toInt32 d.toInt + offset i * 2 ^ 32 := by
  have hlo := toInt32_ge d.toInt
  have hhi := toInt32_lt d.toInt
  have hbounds := offset_bounds hi
  exact Int64.toInt_ofInt_of_le (by omega) (by omega)

private theorem conf_aliasKey (d : Int64) {i : ℕ} (hi : i < 2 ^ 31) :
    (aliasKey d i).conf = (LuaKey.integer d).conf := by
  rw [aliasKey, LuaKey.conf, LuaKey.conf, aliasKey_toInt d hi]
  congr 1
  have hlo := toInt32_ge d.toInt
  have hhi := toInt32_lt d.toInt
  generalize toInt32 d.toInt = x at hlo hhi
  rw [toInt32, Int.bmod]
  omega

/-- **The table does not have all keys that become the same.** -/
theorem exists_alias_absent (hbuilt : Built (c.meaning source) (c.tables p) t) (d : Int64) :
    ∃ i < 2 ^ 31, t.get (aliasKey d i) = none := by
  by_contra hall
  have hthere : ∀ i < 2 ^ 31, ∃ v, t.get (aliasKey d i) = some v := by
    intro i hi
    cases hget : t.get (aliasKey d i) with
    | none => exact (hall ⟨i, hi, hget⟩).elim
    | some v => exact ⟨v, rfl⟩
  have hlt := toInt32_lt t.length
  have hsize := hbuilt.sizearray
  have hsmall := hbuilt.small
  rw [hbuilt.sizehash] at hsmall
  have hlo := toInt32_ge d.toInt
  have hhi := toInt32_lt d.toInt
  obtain ⟨m, hm⟩ : ∃ m, m = 2 ^ 31 := ⟨_, rfl⟩
  rw [← hm] at hthere hsmall
  have hnodup : ((List.range m).map (aliasKey d)).Nodup := by
    refine List.Nodup.map_on (fun i hi j hj heq ↦ ?_) List.nodup_range
    have hint := congrArg Int64.toInt (LuaKey.integer.inj heq)
    rw [aliasKey_toInt d (hm ▸ List.mem_range.mp hi),
      aliasKey_toInt d (hm ▸ List.mem_range.mp hj)] at hint
    exact offset_inj (by omega)
  have hsub : (List.range m).map (aliasKey d)
      ⊆ (t.entries.filter (counted (c.tables p).sizearray)).map Prod.fst := by
    intro k hk
    obtain ⟨i, hi, rfl⟩ := List.mem_map.mp hk
    have hi := List.mem_range.mp hi
    obtain ⟨v, hv⟩ := hthere i hi
    refine List.mem_map.mpr ⟨_, List.mem_filter.mpr ⟨SourceTable.mem_of_get hv, ?_⟩, rfl⟩
    have hbounds := offset_bounds (hm ▸ hi)
    rw [aliasKey, counted_integer, aliasKey_toInt d (hm ▸ hi), decide_eq_false]
    · rfl
    · omega
  have hle := (List.subperm_of_subset hnodup hsub).length_le
  rw [List.length_map, List.length_map, List.length_range] at hle
  omega

/-- **Where a key of the table does not fit.** -/
theorem exists_not_agrees (hbuilt : Built (c.meaning source) (c.tables p) t)
    (hplain : ∀ e ∈ t.entries, Plain e.1) (hnot : ¬ t.Fits) :
    ∃ k, Plain k ∧ ¬ Agrees c (c.meaning source) p t k := by
  have hkey : ∃ e ∈ t.entries, ∃ d, e.1 = .integer d := by
    by_contra hnone
    refine hnot fun e he ↦ ?_
    have hp := hplain e he
    cases hk : e.1 with
    | integer d => exact (hnone ⟨e, he, d, hk⟩).elim
    | string s => exact trivial
    | real n => exact (hk ▸ hp : Plain (.real n)).elim
    | table ref => exact (hk ▸ hp : Plain (.table ref)).elim
    | other typename => exact (hk ▸ hp : Plain (.other typename)).elim
  obtain ⟨e, he, d, hd⟩ := hkey
  obtain ⟨i, hi, hnone⟩ := exists_alias_absent hbuilt d
  refine ⟨aliasKey d i, trivial, not_agrees hbuilt trivial hnone he ?_⟩
  rw [hd]
  exact conf_aliasKey d hi

end ConfContext

open ConfContext

/-- **Reading agrees with the Lua table** on the keys that are not cut down to one that is there, if
all keys of the table fit; if one does not, there is a key on which it does not agree. -/
theorem newconf_agrees {lua : ℕ → SourceTable} {junk : ℕ → ℕ → ConfNode} {calls stack ref : ℕ}
    {c : ConfContext} (h : newconf lua junk calls stack ref = .ok c) :
    ∃ source : ℕ → ℕ, source 0 = ref ∧ 0 < c.allocated ∧ ∀ p < c.allocated,
      (∀ e ∈ (lua (source p)).entries, Plain e.1) →
      ((lua (source p)).Fits → ∀ k, Plain k →
        (c.Agrees (c.meaning source) p (lua (source p)) k ↔ Uncut (lua (source p)) k)) ∧
      (¬ (lua (source p)).Fits → ∃ k, Plain k ∧
      ¬ c.Agrees (c.meaning source) p (lua (source p)) k) := by
  obtain ⟨source, hroot, hpos, -, hbuilt⟩ := newconf_built h
  exact ⟨source, hroot, hpos, fun p hp hplain ↦ ⟨fun hfits k ↦ agrees_iff (hbuilt p hp) hfits,
    exists_not_agrees (hbuilt p hp) hplain⟩⟩

theorem newconf_agrees_nested :
    ∃ c, newconf nestedTables (fun _ _ ↦ ⟨.nil, 5, 7, 0, .string, true⟩) 10 100 0
      = .ok c ∧ ∃ source : ℕ → ℕ, source 0 = 0 ∧ 0 < c.allocated ∧ ∀ p < c.allocated,
      (∀ e ∈ (nestedTables (source p)).entries, Plain e.1) →
      ((nestedTables (source p)).Fits → ∀ k, Plain k →
        (c.Agrees (c.meaning source) p (nestedTables (source p)) k ↔
        Uncut (nestedTables (source p)) k)) ∧
      (¬ (nestedTables (source p)).Fits →
        ∃ k, Plain k ∧ ¬ c.Agrees (c.meaning source) p (nestedTables (source p)) k) := by
  have hok : (newconf nestedTables (fun _ _ ↦ ⟨.nil, 5, 7, 0, .string, true⟩) 10 100 0).toBool =
      true := by
    decide +kernel
  cases h : newconf nestedTables (fun _ _ ↦ ⟨.nil, 5, 7, 0, .string, true⟩) 10 100 0 with
  | error e =>
    rw [h] at hok
    cases hok
  | ok c => exact ⟨c, rfl, newconf_agrees h⟩

/-- The table has 7 under 100 only, and reading has it under `2 ^ 32 + 100` too. -/
theorem not_newconf_agrees : ¬ ∀ (lua : ℕ → SourceTable) (junk : ℕ → ℕ → ConfNode)
    (calls stack ref : ℕ) (c : ConfContext), (∀ r, ∀ e ∈ (lua r).entries, Plain e.1) →
      newconf lua junk calls stack ref = .ok c → ∃ source : ℕ → ℕ, source 0 = ref ∧
        ∀ k, Plain k → c.Agrees (c.meaning source) 0 (lua ref) k := by
  intro h
  have hindex : (newconf (fun _ ↦ ⟨[(.integer 100, .integer 7)], 0, by decide⟩)
      (fun _ _ ↦ ⟨.nil, 0, 0, 0, .string, false⟩) 10 100 0).map
        (fun c ↦ c.indexconf 0 (.integer (2 ^ 32 + 100))) = .ok (.ok [.integer 7]) := by
    decide +kernel
  cases hc : newconf (fun _ ↦ ⟨[(.integer 100, .integer 7)], 0, by decide⟩)
      (fun _ _ ↦ ⟨.nil, 0, 0, 0, .string, false⟩) 10 100 0 with
  | error e =>
    rw [hc] at hindex
    cases hindex
  | ok c =>
    rw [hc] at hindex
    obtain ⟨source, -, hagrees⟩ := h _ _ 10 100 0 c (fun _ e he ↦ by
      rw [List.mem_singleton.mp he]
      exact trivial) hc
    obtain ⟨xs, hxs, hmatch⟩ := hagrees (.integer (2 ^ 32 + 100)) trivial
    have hindex' : c.indexconf 0 (.integer (2 ^ 32 + 100)) = .ok [.integer 7] :=
      Except.ok.inj hindex
    rw [hindex'] at hxs
    rw [← Except.ok.inj hxs] at hmatch
    rcases hmatch with hnil | hnil <;> cases hnil

end ZTask
