import ZTask.Sharedata.Built
import Mathlib.Data.List.Find

/-!
# The conversion builds

What one part of the conversion does to the context, with the tables that it has built on the way
(`Progress`); the two passes over the entries of a table are the two passes over a scatter table.
The induction for nested tables is on the C calls that are left.

## Two passes

`fillnocolliding` puts an entry into the slot of its hash if nothing is there, and `fillcolliding`
puts those that are left into free slots and links them into their chains. `Progress` says what each
entry adds, and leaves the other tables of the context alone.

## Nested tables

A value may be a table, which is converted while its entry is visited. `ConvertSpec` is what is
assumed of that call, so that the lemmas about one table do not mention the recursion;
`convtable_spec` is the induction.
-/

namespace ZTask

open Lib

namespace ConfContext

variable {lua : ℕ → SourceTable} {junk : ℕ → ℕ → ConfNode} {ctx ctx' ctx'' : ConfContext}
  {src src' src'' : ℕ → ℕ} {convert : ConfContext → ℕ → Except ConfError ConfContext}
  {s : List UInt8}
  {i : ℕ} {k : LuaKey} {v : LuaValue} {cv : ConfValue} {n : ConfNode} {e : LuaKey × LuaValue}
  {entries done : List (LuaKey × LuaValue)} {sc sc' : Scatter (LuaKey × LuaValue)}

/-- The strings and tables of a context. -/
def meaning (ctx : ConfContext) (src : ℕ → ℕ) : Meaning := ⟨ctx.strings, ctx.allocated, src⟩

/-- The table that is converted is allocated, and no string has two indices. -/
structure Ready (ctx : ConfContext) : Prop where
  tbl : ctx.tbl < ctx.allocated
  nodup : ctx.strings.Nodup

variable (lua) in
/-- From one context to a later one of the same table: other tables are as they have been, and new
ones are built. -/
structure Progress (ctx : ConfContext) (src : ℕ → ℕ) (ctx' : ConfContext) (src' : ℕ → ℕ) :
    Prop where
  strings : ctx.strings <+: ctx'.strings
  nodup : ctx'.strings.Nodup
  allocated : ctx.allocated ≤ ctx'.allocated
  tbl : ctx'.tbl = ctx.tbl
  others : ∀ q < ctx.allocated, q ≠ ctx.tbl → ctx'.tables q = ctx.tables q
  source : ∀ q < ctx.allocated, src' q = src q
  built : ∀ q, ctx.allocated ≤ q → q < ctx'.allocated →
    Built (ctx'.meaning src') (ctx'.tables q) (lua (src' q))

theorem Progress.le (h : Progress lua ctx src ctx' src') :
    (ctx.meaning src).Le (ctx'.meaning src') :=
  ⟨h.strings, h.allocated, h.source⟩

theorem Progress.ready (h : Progress lua ctx src ctx' src') (hready : ctx.Ready) : ctx'.Ready := by
  refine ⟨?_, h.nodup⟩
  rw [h.tbl]
  exact Nat.lt_of_lt_of_le hready.tbl h.allocated

theorem Progress.trans (hready : ctx.Ready) (h : Progress lua ctx src ctx' src')
    (h' : Progress lua ctx' src' ctx'' src'') : Progress lua ctx src ctx'' src'' := by
  refine ⟨h.strings.trans h'.strings, h'.nodup, Nat.le_trans h.allocated h'.allocated,
    h'.tbl.trans h.tbl, fun q hq hne ↦ ?_, fun q hq ↦ ?_, fun q hq hq' ↦ ?_⟩
  · rw [h'.others q (Nat.lt_of_lt_of_le hq h.allocated) (by rw [h.tbl]; exact hne)]
    exact h.others q hq hne
  · rw [h'.source q (Nat.lt_of_lt_of_le hq h.allocated)]
    exact h.source q hq
  · by_cases hlt : q < ctx'.allocated
    · -- the first part has built it, and the second left it
      have hne : q ≠ ctx'.tbl := by
        rw [h.tbl]
        exact Nat.ne_of_gt (Nat.lt_of_lt_of_le hready.tbl hq)
      rw [h'.others q hlt hne, h'.source q hlt]
      exact (h.built q hq hlt).mono h'.le
    · exact h'.built q (Nat.le_of_not_lt hlt) hq'

private theorem progress_refl (src : ℕ → ℕ) (hready : ctx.Ready) : Progress lua ctx src ctx src :=
  ⟨List.prefix_refl _, hready.nodup, Nat.le_refl _, rfl, fun _ _ _ ↦ rfl, fun _ _ ↦ rfl,
    fun _ hle hlt ↦ absurd hlt (Nat.not_lt_of_le hle)⟩

private theorem progress_setTable (lua : ℕ → SourceTable) (src : ℕ → ℕ) (hready : ctx.Ready)
    (t : ConfTable) :
    Progress lua ctx src (ctx.setTable t) src :=
  ⟨List.prefix_refl _, hready.nodup, Nat.le_refl _, rfl, fun _ _ hne ↦ Function.update_of_ne hne ..,
    fun _ _ ↦ rfl, fun _ hle hlt ↦ absurd hlt (Nat.not_lt_of_le hle)⟩

private theorem progress_setNode (lua : ℕ → SourceTable) (src : ℕ → ℕ) (hready : ctx.Ready) (i : ℕ)
    (n : ConfNode) :
    Progress lua ctx src (ctx.setNode i n) src :=
  progress_setTable lua src hready _

@[simp] theorem table_setTable (ctx : ConfContext) (t : ConfTable) : (ctx.setTable t).table = t :=
    Function.update_self ..

@[simp] theorem table_setNode :
    (ctx.setNode i n).table = { ctx.table with hash := Function.update ctx.table.hash i n } :=
  table_setTable ..

private theorem table_alloc : ctx.alloc.table =
    ⟨0, 0, fun _ ↦ .nil, fun _ ↦ ⟨.nil, 0, 0, 0, .integer, false⟩⟩ := Function.update_self ..

/-! ## Strings and keys -/

private theorem stringindex_spec (lua : ℕ → SourceTable) (src : ℕ → ℕ) (hready : ctx.Ready)
    (s : List UInt8) :
    Progress lua ctx src (ctx.stringindex s).2 src ∧ (ctx.stringindex s).2.table = ctx.table ∧
    ∃ j, (ctx.stringindex s).1 = j + 2 ∧ (ctx.stringindex s).2.strings[j]? = some s := by
  rw [stringindex]
  cases hfind : ctx.strings.findIdx? fun s' ↦ decide (s' = s) with
  | some j =>
    obtain ⟨hlt, hj, -⟩ := List.findIdx?_eq_some_iff_getElem.mp hfind
    refine ⟨⟨List.prefix_refl _, hready.nodup, Nat.le_refl _, rfl, fun _ _ _ ↦ rfl, fun _ _ ↦ rfl,
      fun _ hle hlt ↦ absurd hlt (Nat.not_lt_of_le hle)⟩, rfl, j, rfl, ?_⟩
    rw [List.getElem?_eq_getElem hlt, of_decide_eq_true hj]
  | none =>
    have hnew : s ∉ ctx.strings := by
      intro hmem
      have hnone := List.findIdx?_eq_none_iff.mp hfind s hmem
      exact absurd rfl (of_decide_eq_false hnone)
    refine ⟨⟨List.prefix_append .., ?_, Nat.le_refl _, rfl, fun _ _ _ ↦ rfl, fun _ _ ↦ rfl,
      fun _ hle hlt ↦ absurd hlt (Nat.not_lt_of_le hle)⟩, rfl, ctx.strings.length, rfl, ?_⟩
    · exact (List.perm_append_singleton s ctx.strings).nodup_iff.mpr
        (List.nodup_cons.mpr ⟨hnew, hready.nodup⟩)
    · dsimp only
      rw [List.getElem?_append_right (Nat.le_refl _), Nat.sub_self]
      rfl

/-- What `ishashkey` finds of a key. -/
inductive Placed (ctx : ConfContext) (src : ℕ → ℕ) (k : ConfKey) (sizearray : ℕ) : IsHashKey → Prop
  | array (key : ℤ) (hk : k = .integer key) (hkey : 0 < key ∧ key ≤ sizearray) :
      Placed ctx src k sizearray (.array key)
  | hash (key : ℤ) (keytype : KeyType) (hk : k.isArray sizearray = false)
      (hkey : ∀ n : ConfNode, n.key = key → n.keytype = keytype → IsKey (ctx.meaning src) n k) :
      Placed ctx src k sizearray (.hash key k.keyhash keytype)

theorem ishashkey_spec (lua : ℕ → SourceTable) (src : ℕ → ℕ) (hready : ctx.Ready) (k : LuaKey) :
    Progress lua ctx src (ctx.ishashkey k).2 src ∧ (ctx.ishashkey k).2.table = ctx.table ∧
    Placed (ctx.ishashkey k).2 src k.conf ctx.table.sizearray (ctx.ishashkey k).1 := by
  rw [ishashkey]
  cases hconf : k.conf with
  | integer key =>
    dsimp only
    by_cases hkey : 0 < key ∧ key ≤ ctx.table.sizearray
    · rw [if_pos hkey]
      exact ⟨progress_refl src hready, rfl, .array key rfl hkey⟩
    · rw [if_neg hkey]
      exact ⟨progress_refl src hready, rfl, .hash key .integer (decide_eq_false hkey)
          fun n hn htype ↦ ⟨htype, hn⟩⟩
  | string s =>
    obtain ⟨hprogress, htable, j, hindex, hj⟩ := stringindex_spec lua src hready s
    refine ⟨hprogress, htable, .hash _ .string rfl fun n hn htype ↦ ⟨htype, j, ?_, hj⟩⟩
    rw [hn, hindex]

/-! ## Values -/

variable (lua) in
/-- What the call of `convtable` does for the table that has just been allocated. -/
def ConvertSpec (convert : ConfContext → ℕ → Except ConfError ConfContext) : Prop :=
  ∀ {ctx ctx' : ConfContext} {src : ℕ → ℕ}, ctx.Ready → ctx.table.sizehash = 0 →
    convert ctx (src ctx.tbl) = .ok ctx' →
    ∃ src', Progress lua ctx src ctx' src' ∧
      Built (ctx'.meaning src') ctx'.table (lua (src ctx.tbl))

private theorem of_bind_ok {ε α β : Type} {x : Except ε α} {f : α → Except ε β} {b : β}
    (h : x >>= f = .ok b) : ∃ a, x = .ok a ∧ f a = .ok b := by
  cases x with
  | error e => exact (nomatch h)
  | ok a => exact ⟨a, rfl, h⟩

theorem setvalue_spec (src : ℕ → ℕ) (hconvert : ConvertSpec lua convert) (hready : ctx.Ready)
    (h : setvalue convert ctx (some v) = .ok (cv, ctx')) :
    ∃ src', Progress lua ctx src ctx' src' ∧ ctx'.table = ctx.table ∧
      Stands (ctx'.meaning src') cv v := by
  cases v with
  | boolean b =>
    obtain ⟨rfl, rfl⟩ := Prod.mk.inj (Except.ok.inj h)
    exact ⟨src, progress_refl src hready, rfl, .boolean b⟩
  | integer d =>
    obtain ⟨rfl, rfl⟩ := Prod.mk.inj (Except.ok.inj h)
    exact ⟨src, progress_refl src hready, rfl, .integer d⟩
  | real n =>
    obtain ⟨rfl, rfl⟩ := Prod.mk.inj (Except.ok.inj h)
    exact ⟨src, progress_refl src hready, rfl, .real n⟩
  | string s =>
    obtain ⟨hcv, hctx⟩ := Prod.mk.inj (Except.ok.inj h)
    obtain ⟨hprogress, htable, j, hindex, hj⟩ := stringindex_spec lua src hready s
    rw [hctx] at hprogress htable hj
    rw [← hcv, hindex]
    exact ⟨src, hprogress, htable, .string hj⟩
  | other typename => exact (nomatch h)
  | table ref =>
    obtain ⟨ctx₁, hcall, hrest⟩ := of_bind_ok h
    obtain ⟨hcv, hctx⟩ := Prod.mk.inj (Except.ok.inj hrest)
    -- the new table is from `ref`
    have hsrc : Function.update src ctx.allocated ref ctx.alloc.tbl = ref := Function.update_self ..
    have halloc : ctx.alloc.Ready := ⟨Nat.lt_succ_self _, hready.nodup⟩
    rw [← hsrc] at hcall
    have hzero : ctx.alloc.table.sizehash = 0 := by rw [table_alloc]
    obtain ⟨src', hprogress, hbuilt⟩ := hconvert halloc hzero hcall
    rw [hsrc] at hbuilt
    have hle : ctx.allocated + 1 ≤ ctx₁.allocated := hprogress.allocated
    have htbl : ctx₁.tbl = ctx.allocated := hprogress.tbl
    have hothers : ∀ q < ctx.allocated, ctx₁.tables q = ctx.tables q := by
      intro q hq
      have hne : q ≠ ctx.allocated := Nat.ne_of_lt hq
      exact (hprogress.others q (Nat.lt_succ_of_lt hq) hne).trans (Function.update_of_ne hne ..)
    have hsource : ∀ q < ctx.allocated, src' q = src q := by
      intro q hq
      rw [hprogress.source q (Nat.lt_succ_of_lt hq), Function.update_of_ne (Nat.ne_of_lt hq)]
    have hnew : src' ctx.allocated = ref :=
      (hprogress.source _ (Nat.lt_succ_self _)).trans (Function.update_self ..)
    rw [← hctx, ← hcv]
    refine ⟨src', ⟨hprogress.strings, hprogress.nodup, Nat.le_trans (Nat.le_succ _) hle, rfl,
      fun q hq _ ↦ hothers q hq, hsource, fun q hq hlt ↦ ?_⟩, hothers _ hready.tbl, ?_⟩
    · by_cases heq : q = ctx.allocated
      · rw [heq, hnew]
        rw [table, htbl] at hbuilt
        exact hbuilt
      · exact hprogress.built q (by change ctx.allocated + 1 ≤ q; omega) hlt
    · rw [htbl, ← hnew]
      exact .table (Nat.lt_of_succ_le hle)

theorem fillNode_spec (src : ℕ → ℕ) (hconvert : ConvertSpec lua convert) (hready : ctx.Ready)
    (h : fillNode convert ctx i n v = .ok ctx') :
    ∃ src' cv, Progress lua ctx src ctx' src' ∧ Stands (ctx'.meaning src') cv v ∧
      ctx'.table = { ctx.table
        with hash := Function.update ctx.table.hash i { n with v := cv } } := by
  obtain ⟨⟨cv, ctx₁⟩, hset, hrest⟩ := of_bind_ok h
  have hctx := Except.ok.inj hrest
  have hnode := progress_setNode lua src hready i { n with v := (ctx.table.hash i).v }
  obtain ⟨src', hprogress, htable, hstands⟩ :=
    setvalue_spec src hconvert (hnode.ready hready) hset
  have hready₁ := hprogress.ready (hnode.ready hready)
  have hlast := progress_setNode lua src' hready₁ i { ctx₁.table.hash i with v := cv }
  rw [← hctx]
  refine ⟨src', cv, (hnode.trans hready hprogress).trans hready hlast, hstands, ?_⟩
  rw [table_setNode, htable, table_setNode]
  dsimp only
  rw [Function.update_self, Function.update_idem]

private theorem setarray_spec {key : ℤ} (src : ℕ → ℕ) (hconvert : ConvertSpec lua convert)
    (hready : ctx.Ready) (h : setarray convert ctx (some v) key = .ok ctx') :
    ∃ src' cv, Progress lua ctx src ctx' src' ∧ Stands (ctx'.meaning src') cv v ∧
      ctx'.table = { ctx.table
        with array := Function.update ctx.table.array (key - 1).toNat cv } := by
  obtain ⟨⟨cv, ctx₁⟩, hset, hrest⟩ := of_bind_ok h
  have hctx := Except.ok.inj hrest
  obtain ⟨src', hprogress, htable, hstands⟩ := setvalue_spec src hconvert hready hset
  have hlast := progress_setTable lua src' (hprogress.ready hready)
    { ctx₁.table with array := Function.update ctx₁.table.array (key - 1).toNat cv }
  rw [← hctx]
  refine ⟨src', cv, hprogress.trans hready hlast, hstands, ?_⟩
  rw [table_setTable, htable]

/-! ## The array part -/

private theorem arrays_append {w : Meaning} {tb : ConfTable} (h : Arrays w tb done)
    (he : e.1.conf.isArray tb.sizearray = false) : Arrays w tb (done ++ [e]) := by
  intro i hi
  rcases h i hi with ⟨hnil, hnone⟩ | ⟨e', he', hkey, hstands⟩
  · refine .inl ⟨hnil, fun e' he' hkey ↦ ?_⟩
    rcases List.mem_append.mp he' with he' | he'
    · exact hnone e' he' hkey
    · rw [List.mem_singleton.mp he'] at hkey
      rw [hkey] at he
      have hnot := of_decide_eq_false he
      omega
  · exact .inr ⟨e', List.mem_append_left _ he', hkey, hstands⟩

private theorem arrays_set {w : Meaning} {tb : ConfTable} {key : ℤ} (h : Arrays w tb done)
    (hconf : e.1.conf = .integer key) (hkey : 0 < key ∧ key ≤ tb.sizearray)
    (hstands : Stands w cv e.2) :
    Arrays w { tb with array := Function.update tb.array (key - 1).toNat cv } (done ++ [e]) := by
  intro i hi
  by_cases heq : i = (key - 1).toNat
  · refine .inr ⟨e, List.mem_append_right _ (List.mem_singleton.mpr rfl), ?_, ?_⟩
    · rw [hconf, heq]
      congr 1
      omega
    · dsimp only
      rw [heq, Function.update_self]
      exact hstands
  · dsimp only
    rw [Function.update_of_ne heq]
    rcases h i hi with ⟨hnil, hnone⟩ | ⟨e', he', hkey', hstands'⟩
    · refine .inl ⟨hnil, fun e' he' hkey' ↦ ?_⟩
      rcases List.mem_append.mp he' with he' | he'
      · exact hnone e' he' hkey'
      · rw [List.mem_singleton.mp he', hconf] at hkey'
        have hint := ConfKey.integer.inj hkey'
        omega
    · exact .inr ⟨e', List.mem_append_left _ he', hkey', hstands'⟩

/-! ## The first pass -/

private theorem slots_put {w : Meaning} {tb : ConfTable} {q : Option ℕ} (h : Slots w tb sc)
    (hkeeps : HasEntry w n e q) :
    Slots w { tb with hash := Function.update tb.hash i n }
      ⟨Function.update sc.slot i (some e), Function.update sc.next i q⟩ := by
  intro j hj
  dsimp only
  by_cases heq : j = i
  · subst heq
    rw [Function.update_self, Function.update_self, Function.update_self]
    exact hkeeps
  · rw [Function.update_of_ne heq, Function.update_of_ne heq, Function.update_of_ne heq]
    exact h j hj

private theorem hashEntries_cons_array {sizearray : ℕ} (he : e.1.conf.isArray sizearray = true) :
    hashEntries sizearray (e :: entries) = hashEntries sizearray entries := by
  rw [hashEntries, List.filter_cons, he]
  rfl

private theorem hashEntries_cons_hash {sizearray : ℕ} (he : e.1.conf.isArray sizearray = false) :
    hashEntries sizearray (e :: entries) = e :: hashEntries sizearray entries := by
  rw [hashEntries, List.filter_cons, he]
  rfl

/-- The sizes of the parts stay. -/
def SameSizes (tb tb' : ConfTable) : Prop :=
  tb'.sizearray = tb.sizearray ∧ tb'.sizehash = tb.sizehash

/-- An entry in the first pass: it is put in the array part, or settles in the hash part. -/
theorem placeFirst_spec (hconvert : ConvertSpec lua convert) (hready : ctx.Ready)
    (hslots : Slots (ctx.meaning src) ctx.table sc)
    (harrays : Arrays (ctx.meaning src) ctx.table done)
    (hsize : 0 < ctx.table.sizehash) (h : placeFirst convert ctx k v = .ok ctx') :
    ∃ src', Progress lua ctx src ctx' src' ∧ SameSizes ctx.table ctx'.table ∧
      Slots (ctx'.meaning src') ctx'.table (if k.conf.isArray ctx.table.sizearray = true then sc
        else Scatter.settle (mainpos ctx.table.sizehash) sc (k, v)) ∧
      Arrays (ctx'.meaning src') ctx'.table (done ++ [(k, v)]) := by
  obtain ⟨hkey, htable, hplaced⟩ := ishashkey_spec lua src hready k
  rw [placeFirst] at h
  generalize ctx.ishashkey k = found at h hkey htable hplaced
  obtain ⟨place, ctx₁⟩ := found
  dsimp only at h hkey htable hplaced
  have hready₁ := hkey.ready hready
  have hslots₁ := hslots.mono hkey.le
  have harrays₁ := harrays.mono hkey.le
  rw [← htable] at hslots₁ harrays₁ hplaced hsize ⊢
  -- an entry of the array part is done; one of the hash part takes its main position if that is
  -- free
  cases hplaced with
  | array key hk hrange =>
    obtain ⟨src₂, cv, hprogress, hstands, htable₂⟩ :=
      setarray_spec src hconvert hready₁ h
    refine ⟨src₂, hkey.trans hready hprogress, ?_, ?_, ?_⟩
    · rw [htable₂]
      exact ⟨rfl, rfl⟩
    · have harray : k.conf.isArray ctx₁.table.sizearray = true := by
        rw [hk]
        exact decide_eq_true hrange
      rw [if_pos harray, htable₂]
      exact hslots₁.mono hprogress.le
    · rw [htable₂]
      exact arrays_set (e := (k, v)) (harrays₁.mono hprogress.le) hk hrange hstands
  | hash key keytype hk hkeep =>
    have hlt : mainpos ctx₁.table.sizehash (k, v) < ctx₁.table.sizehash := Nat.mod_lt _ hsize
    have hcond : ¬ k.conf.isArray ctx₁.table.sizearray = true := by
      rw [hk]
      exact fun heq ↦ (nomatch heq)
    rw [if_neg hcond, Scatter.settle]
    have hnil := hslots₁.nil_iff hlt
    have hmain : mainpos ctx₁.table.sizehash (k, v) =
        k.conf.keyhash.toNat % ctx₁.table.sizehash := rfl
    dsimp only at h
    rw [← hmain] at h
    by_cases hempty : (ctx₁.table.hash (mainpos ctx₁.table.sizehash (k, v))).v = .nil
    · rw [hnil.mp hempty]
      dsimp only
      rw [if_pos hempty] at h
      obtain ⟨src₂, cv, hprogress, hstands, htable₂⟩ :=
        fillNode_spec src hconvert hready₁ h
      refine ⟨src₂, hkey.trans hready hprogress, ?_, ?_, ?_⟩
      · rw [htable₂]
        exact ⟨rfl, rfl⟩
      · rw [htable₂]
        refine slots_put (hslots₁.mono hprogress.le) ⟨?_, rfl, hstands, ?_, fun _ ↦ rfl⟩
        · exact (hkeep _ rfl rfl).mono hprogress.le
        · exact (by decide : (-1 : ℤ) < 0)
      · rw [htable₂]
        exact arrays_append (e := (k, v)) (harrays₁.mono hprogress.le) hk
    · rw [if_neg hempty] at h
      obtain rfl := Except.ok.inj h
      cases hslot : sc.slot (mainpos ctx₁.table.sizehash (k, v)) with
      | none => exact absurd (hnil.mpr hslot) hempty
      | some b => exact ⟨src, hkey, ⟨rfl, rfl⟩, hslots₁, arrays_append (e := (k, v)) harrays₁ hk⟩

private theorem fillnocolliding_spec (hconvert : ConvertSpec lua convert) (hready : ctx.Ready)
    (hslots : Slots (ctx.meaning src) ctx.table sc)
    (harrays : Arrays (ctx.meaning src) ctx.table done)
    (hsize : 0 < ctx.table.sizehash) (h : fillnocolliding convert entries ctx = .ok ctx') :
    ∃ src', Progress lua ctx src ctx' src' ∧ SameSizes ctx.table ctx'.table ∧
      Slots (ctx'.meaning src') ctx'.table ((hashEntries ctx.table.sizearray entries).foldl
        (Scatter.settle (mainpos ctx.table.sizehash)) sc) ∧
      Arrays (ctx'.meaning src') ctx'.table (done ++ entries) := by
  induction entries generalizing ctx src sc done with
  | nil =>
    obtain rfl := Except.ok.inj h
    refine ⟨src, progress_refl src hready, ⟨rfl, rfl⟩, hslots, ?_⟩
    rw [List.append_nil]
    exact harrays
  | cons e rest ih =>
    obtain ⟨k, v⟩ := e
    obtain ⟨ctx₁, hplace, hrest⟩ := of_bind_ok h
    obtain ⟨src₁, hprogress, ⟨hsizearray, hsizehash⟩, hslots₁, harrays₁⟩ :=
      placeFirst_spec hconvert hready hslots harrays hsize hplace
    obtain ⟨src₂, hprogress₂, ⟨hsizearray₂, hsizehash₂⟩, hslots₂, harrays₂⟩ :=
      ih (hprogress.ready hready) hslots₁ harrays₁ (by rw [hsizehash]; exact hsize) hrest
    refine ⟨src₂, hprogress.trans hready hprogress₂, ⟨hsizearray₂.trans hsizearray,
      hsizehash₂.trans hsizehash⟩, ?_, ?_⟩
    · rw [hsizearray, hsizehash] at hslots₂
      cases hk : k.conf.isArray ctx.table.sizearray with
      | true =>
        rw [hashEntries_cons_array (e := (k, v)) hk]
        rw [if_pos hk] at hslots₂
        exact hslots₂
      | false =>
        rw [hashEntries_cons_hash (e := (k, v)) hk, List.foldl_cons]
        rw [hk, if_neg (fun heq ↦ (nomatch heq))] at hslots₂
        exact hslots₂
    · rw [List.append_assoc] at harrays₂
      exact harrays₂

/-! ## The second pass -/

private theorem emptySlot_eq {w : Meaning} {tb : ConfTable} (h : Slots w tb sc) :
    emptySlot tb = sc.free tb.sizehash := by
  rw [emptySlot, Scatter.free]
  refine List.find?_congr fun s hs ↦ ?_
  have hnil := h.nil_iff (List.mem_range.mp hs)
  cases hslot : sc.slot s with
  | none => exact decide_eq_true (hnil.mpr hslot)
  | some e =>
    refine decide_eq_false fun heq ↦ ?_
    have hnone := hnil.mp heq
    rw [hslot] at hnone
    cases hnone

private theorem insert_eq {p : ℕ} {b : LuaKey × LuaValue} (hp : sc.slot p = some b) (hne : p ≠ i)
    (hpos : p = mainpos ctx.table.sizehash e) :
    sc.insert (mainpos ctx.table.sizehash) e i
      = ⟨Function.update (Function.update sc.slot p (some b)) i (some e),
        Function.update (Function.update sc.next p (some i)) i (sc.next p)⟩ := by
  rw [Scatter.insert, ← hpos, ← hp, Function.update_eq_self, Function.update_comm hne]

private theorem placeColliding_spec (hconvert : ConvertSpec lua convert) (hready : ctx.Ready)
    (hslots : Slots (ctx.meaning src) ctx.table sc)
    (harrays : Arrays (ctx.meaning src) ctx.table entries) (hsize : 0 < ctx.table.sizehash)
    (hcollide : k.conf.isArray ctx.table.sizearray = false →
      Scatter.collide (mainpos ctx.table.sizehash) (fun e ↦ e.1.conf) ctx.table.sizehash sc (k, v)
        = some sc')
    (hsame : k.conf.isArray ctx.table.sizearray = true → sc = sc')
    (h : placeColliding convert ctx k v = .ok ctx') :
    ∃ src', Progress lua ctx src ctx' src' ∧ SameSizes ctx.table ctx'.table ∧
      Slots (ctx'.meaning src') ctx'.table sc' ∧ Arrays (ctx'.meaning src') ctx'.table entries := by
  obtain ⟨hkey, htable, hplaced⟩ := ishashkey_spec lua src hready k
  rw [placeColliding] at h
  generalize ctx.ishashkey k = found at h hkey htable hplaced
  obtain ⟨place, ctx₁⟩ := found
  dsimp only at h hkey htable hplaced
  have hready₁ := hkey.ready hready
  have hslots₁ := hslots.mono hkey.le
  have harrays₁ := harrays.mono hkey.le
  rw [← htable] at hslots₁ harrays₁ hplaced hsize hcollide hsame ⊢
  cases hplaced with
  | array key hk hrange =>
    obtain rfl := Except.ok.inj h
    have harray : k.conf.isArray ctx₁.table.sizearray = true := by
      rw [hk]
      exact decide_eq_true hrange
    rw [← hsame harray]
    exact ⟨src, hkey, ⟨rfl, rfl⟩, hslots₁, harrays₁⟩
  | hash key keytype hk hkeep =>
    have hcollide' := hcollide hk
    have hmain : mainpos ctx₁.table.sizehash (k, v) =
        k.conf.keyhash.toNat % ctx₁.table.sizehash := rfl
    have hlt : mainpos ctx₁.table.sizehash (k, v) < ctx₁.table.sizehash := Nat.mod_lt _ hsize
    dsimp only at h
    rw [← hmain] at h
    rw [Scatter.collide] at hcollide'
    generalize hp : mainpos ctx₁.table.sizehash (k, v) = p at h hcollide' hlt
    cases hslot : sc.slot p with
    | none =>
      rw [hslot] at hcollide'
      cases hcollide'
    | some b =>
      rw [hslot] at hcollide'
      dsimp only at hcollide'
      have hkeeps := hslots₁.keeps hlt hslot
      -- the keys are compared by type and number
      have hsamekey : (ctx₁.table.hash p).keytype = keytype ∧ (ctx₁.table.hash p).key = key ↔
          b.1.conf = k.conf := by
        constructor
        · rintro ⟨htype, hnum⟩
          exact hkeeps.key.unique (hkeep _ hnum htype)
        · intro heq
          have hkey := hkeeps.key
          rw [heq] at hkey
          exact hkey.same hready₁.nodup (hkeep ⟨.nil, key, 0, 0, keytype, false⟩ rfl rfl)
      by_cases hcode : b.1.conf = k.conf
      · rw [if_pos hcode] at hcollide'
        rw [if_pos (hsamekey.mpr hcode)] at h
        obtain rfl := Except.ok.inj h
        obtain rfl := Option.some.inj hcollide'
        exact ⟨src, hkey, ⟨rfl, rfl⟩, hslots₁, harrays₁⟩
      · rw [if_neg hcode] at hcollide'
        rw [if_neg (fun hboth ↦ hcode (hsamekey.mp hboth)), emptySlot_eq hslots₁] at h
        cases hfree : sc.free ctx₁.table.sizehash with
        | none =>
          rw [hfree] at h
          cases h
        | some i =>
          rw [hfree] at h hcollide'
          dsimp only at h
          obtain ⟨hnone, hi⟩ := Scatter.mem_free hfree
          have hne : p ≠ i := by
            rintro rfl
            rw [hslot] at hnone
            cases hnone
          obtain rfl := Option.some.inj hcollide'
          rw [insert_eq hslot hne hp.symm]
          have hlink := progress_setNode lua src hready₁ p
            { ctx₁.table.hash p with next := i, nocolliding := false }
          obtain ⟨src₂, cv, hprogress, hstands, htable₂⟩ :=
            fillNode_spec src hconvert (hlink.ready hready₁) h
          refine ⟨src₂, hkey.trans hready (hlink.trans hready₁ hprogress), ?_, ?_, ?_⟩
          · rw [htable₂, table_setNode]
            exact ⟨rfl, rfl⟩
          · rw [htable₂, table_setNode]
            refine slots_put (slots_put (hslots₁.mono (hlink.trans hready₁ hprogress).le) ?_) ?_
            · exact ⟨(hkeeps.mono (hlink.trans hready₁ hprogress).le).key, hkeeps.keyhash,
                (hkeeps.mono (hlink.trans hready₁ hprogress).le).value, rfl, fun heq ↦ by cases heq⟩
            · exact ⟨(hkeep _ rfl rfl).mono (hlink.trans hready₁ hprogress).le, rfl, hstands,
                hkeeps.link, fun heq ↦ by cases heq⟩
          · rw [htable₂, table_setNode]
            exact harrays₁.mono (hlink.trans hready₁ hprogress).le

private theorem fillcolliding_spec (hconvert : ConvertSpec lua convert) (hready : ctx.Ready)
    {all : List (LuaKey × LuaValue)} (hslots : Slots (ctx.meaning src) ctx.table sc)
    (harrays : Arrays (ctx.meaning src) ctx.table all) (hsize : 0 < ctx.table.sizehash)
    (hfold : (hashEntries ctx.table.sizearray entries).foldlM
      (Scatter.collide (mainpos ctx.table.sizehash) (fun e ↦ e.1.conf) ctx.table.sizehash)
      sc = some sc')
    (h : fillcolliding convert entries ctx = .ok ctx') :
    ∃ src', Progress lua ctx src ctx' src' ∧ SameSizes ctx.table ctx'.table ∧
      Slots (ctx'.meaning src') ctx'.table sc' ∧ Arrays (ctx'.meaning src') ctx'.table all := by
  induction entries generalizing ctx src sc with
  | nil =>
    obtain rfl := Except.ok.inj h
    obtain rfl := Option.some.inj hfold
    exact ⟨src, progress_refl src hready, ⟨rfl, rfl⟩, hslots, harrays⟩
  | cons e rest ih =>
    obtain ⟨k, v⟩ := e
    obtain ⟨ctx₁, hplace, hrest⟩ := of_bind_ok h
    -- the scatter table after this entry
    have hstep : ∃ sc₁, (k.conf.isArray ctx.table.sizearray = false →
        Scatter.collide (mainpos ctx.table.sizehash) (fun e ↦ e.1.conf) ctx.table.sizehash sc (k, v)
          = some sc₁) ∧ (k.conf.isArray ctx.table.sizearray = true → sc = sc₁) ∧
        (hashEntries ctx.table.sizearray rest).foldlM
          (Scatter.collide (mainpos ctx.table.sizehash) (fun e ↦ e.1.conf) ctx.table.sizehash) sc₁
            = some sc' := by
      cases hk : k.conf.isArray ctx.table.sizearray with
      | true =>
        rw [hashEntries_cons_array (e := (k, v)) hk] at hfold
        exact ⟨sc, fun heq ↦ (nomatch heq), fun _ ↦ rfl, hfold⟩
      | false =>
        rw [hashEntries_cons_hash (e := (k, v)) hk, List.foldlM_cons] at hfold
        obtain ⟨sc₁, hcollide, hfold⟩ := Option.bind_eq_some_iff.mp hfold
        exact ⟨sc₁, fun _ ↦ hcollide, fun heq ↦ (nomatch heq), hfold⟩
    obtain ⟨sc₁, hcollide, hsame, hfold₁⟩ := hstep
    obtain ⟨src₁, hprogress, ⟨hsizearray, hsizehash⟩, hslots₁, harrays₁⟩ :=
      placeColliding_spec hconvert hready hslots harrays hsize hcollide hsame hplace
    obtain ⟨src₂, hprogress₂, ⟨hsizearray₂, hsizehash₂⟩, hslots₂, harrays₂⟩ :=
      ih (hprogress.ready hready) hslots₁ harrays₁ (by rw [hsizehash]; exact hsize)
        (by rw [hsizearray, hsizehash]; exact hfold₁) hrest
    exact ⟨src₂, hprogress.trans hready hprogress₂, ⟨hsizearray₂.trans hsizearray,
      hsizehash₂.trans hsizehash⟩, hslots₂, harrays₂⟩

end ConfContext

/-! ## Counting -/

section

variable {t : SourceTable} {k : LuaKey} {v : LuaValue} {e : LuaKey × LuaValue} {sizearray : ℕ}
  {entries : List (LuaKey × LuaValue)}

theorem SourceTable.mem_of_get (h : t.get k = some v) : (k, v) ∈ t.entries := by
  obtain ⟨e, hfind, hv⟩ := Option.map_eq_some_iff.mp h
  have hmem := List.mem_of_find?_eq_some hfind
  have hk := List.find?_some hfind
  rw [← of_decide_eq_true hk, ← hv]
  exact hmem

theorem SourceTable.get_eq_none (h : t.get k = none) (he : e ∈ t.entries) : e.1 ≠ k := by
  have hfind := Option.map_eq_none_iff.mp h
  exact of_decide_eq_true (p := e.1 ≠ k) (by
    have hnot := List.find?_eq_none.mp hfind e he
    exact decide_eq_true fun heq ↦ hnot (decide_eq_true heq))

theorem counted_integer (d : Int64) (v : LuaValue) : counted sizearray (.integer d, v)
    = !decide (0 < d.toInt ∧ d.toInt ≤ sizearray) := rfl

theorem countsize_spec {n m : ℕ} (hn : n < 2 ^ 31) (h : countsize sizearray entries n = .ok m) :
    m = n + (entries.filter (counted sizearray)).length ∧ m < 2 ^ 31 := by
  induction entries generalizing n with
  | nil =>
    obtain rfl := Except.ok.inj h
    exact ⟨rfl, hn⟩
  | cons e rest ih =>
    obtain ⟨k, v⟩ := e
    rw [countsize.eq_def] at h
    dsimp only at h
    split at h
    next hsmall =>
      have hcounted : counted sizearray (k, v) = true → countsize sizearray rest (n + 1) = .ok m →
          m = n + (((k, v) :: rest).filter (counted sizearray)).length ∧ m < 2 ^ 31 := by
        intro hk hrest
        obtain ⟨hm, hlt⟩ := ih hsmall hrest
        rw [List.filter_cons, if_pos hk, List.length_cons]
        exact ⟨by omega, hlt⟩
      cases k with
      | integer nkey =>
        dsimp only at h
        by_cases hrange : 0 < nkey.toInt ∧ nkey.toInt ≤ sizearray
        · rw [if_pos hrange] at h
          have hnot : ¬ counted sizearray (LuaKey.integer nkey, v) = true := by
            rw [counted_integer, decide_eq_true hrange]
            exact fun heq ↦ (nomatch heq)
          rw [List.filter_cons, if_neg hnot]
          exact ih hn h
        · rw [if_neg hrange] at h
          refine hcounted ?_ h
          rw [counted_integer, decide_eq_false hrange]
          rfl
      | string s => exact hcounted rfl h
      | table ref => exact hcounted rfl h
      | real n => exact (nomatch h)
      | other typename => exact (nomatch h)
    next => cases h

/-- A key that is not counted is one of the array part. -/
theorem isArray_of_not_counted (hsize : (sizearray : ℤ) < 2 ^ 31)
    (h : counted sizearray e = false) :
    ∃ d : Int64, e.1 = .integer d ∧ 0 < d.toInt ∧ d.toInt ≤ sizearray ∧
      e.1.conf = .integer d.toInt ∧ e.1.conf.isArray sizearray = true := by
  obtain ⟨k, v⟩ := e
  cases k with
  | integer d =>
    have hrange : 0 < d.toInt ∧ d.toInt ≤ sizearray := by
      rw [counted, Bool.not_eq_false'] at h
      exact of_decide_eq_true h
    have hconf : (LuaKey.integer d).conf = .integer d.toInt := by
      rw [LuaKey.conf, toInt32_of_lt (by omega) (by omega)]
    refine ⟨d, rfl, hrange.1, hrange.2, hconf, ?_⟩
    dsimp only
    rw [hconf]
    exact decide_eq_true hrange
  | string s => cases h
  | real n => cases h
  | table ref => cases h
  | other typename => cases h

theorem length_hashEntries_le (hsize : (sizearray : ℤ) < 2 ^ 31) :
    (hashEntries sizearray entries).length ≤ (entries.filter (counted sizearray)).length := by
  rw [hashEntries, ← List.countP_eq_length_filter, ← List.countP_eq_length_filter]
  refine List.countP_mono_left fun e _ harray ↦ ?_
  cases hcounted : counted sizearray e with
  | true => rfl
  | false =>
    obtain ⟨-, -, -, -, -, hisArray⟩ := isArray_of_not_counted hsize hcounted
    rw [hisArray] at harray
    cases harray

end

namespace ConfContext

variable {lua : ℕ → SourceTable}
    {junk : ℕ → ℕ → ConfNode} {ctx ctx' : ConfContext} {src src' : ℕ → ℕ}
  {convert : ConfContext → ℕ → Except ConfError ConfContext} {t : SourceTable} {w w' : Meaning}
  {tb : ConfTable} {i : ℕ}

/-! ## Without a hash part -/

/-- The array part as far as it is filled. -/
def ArrayTo (w : Meaning) (tb : ConfTable) (t : SourceTable) (i : ℕ) : Prop :=
  ∀ j < i, match t.get (.integer (Int64.ofNat (j + 1))) with
    | none => tb.array j = .nil
    | some v => Stands w (tb.array j) v

theorem ArrayTo.mono (h : ArrayTo w tb t i) (hle : w.Le w') : ArrayTo w' tb t i := by
  intro j hj
  have hentry := h j hj
  split
  next hget =>
    rw [hget] at hentry
    exact hentry
  next v hget =>
    rw [hget] at hentry
    exact hentry.mono hle

/-- One more element. -/
theorem ArrayTo.succ {cv : ConfValue} (h : ArrayTo w tb t i)
    (hcv : match t.get (.integer (Int64.ofNat (i + 1))) with
      | none => cv = .nil
      | some v => Stands w cv v) :
    ArrayTo w { tb with array := Function.update tb.array i cv } t (i + 1) := by
  intro j hj
  by_cases heq : j = i
  · subst heq
    dsimp only
    rw [Function.update_self]
    exact hcv
  · have hentry := h j (by omega)
    dsimp only
    rw [Function.update_of_ne heq]
    exact hentry

private theorem fillarray_spec (hconvert : ConvertSpec lua convert) {c : ℕ} (hready : ctx.Ready)
    (harray : ArrayTo (ctx.meaning src) ctx.table t i)
    (h : fillarray convert t c (i + 1) ctx = .ok ctx') :
    ∃ src', Progress lua ctx src ctx' src' ∧ SameSizes ctx.table ctx'.table ∧
      ArrayTo (ctx'.meaning src') ctx'.table t (i + c) := by
  induction c generalizing ctx src i with
  | zero =>
    obtain rfl := Except.ok.inj h
    exact ⟨src, progress_refl src hready, ⟨rfl, rfl⟩, harray⟩
  | succ c ih =>
    obtain ⟨ctx₁, hset, hrest⟩ := of_bind_ok h
    have hkey : (((i + 1 : ℕ) : ℤ) - 1).toNat = i := by omega
    have hstep : ∃ src₁ cv, Progress lua ctx src ctx₁ src₁ ∧
        ctx₁.table = { ctx.table with array := Function.update ctx.table.array i cv } ∧
        match t.get (.integer (Int64.ofNat (i + 1))) with
        | none => cv = .nil
        | some v => Stands (ctx₁.meaning src₁) cv v := by
      cases hget : t.get (.integer (Int64.ofNat (i + 1))) with
      | none =>
        rw [hget] at hset
        obtain rfl := Except.ok.inj hset
        refine ⟨src, .nil, progress_setTable lua src hready _, ?_, rfl⟩
        rw [table_setTable, hkey]
      | some v =>
        rw [hget] at hset
        obtain ⟨src₁, cv, hprogress, hstands, htable⟩ := setarray_spec src hconvert hready hset
        rw [hkey] at htable
        exact ⟨src₁, cv, hprogress, htable, hstands⟩
    obtain ⟨src₁, cv, hprogress, htable, hcv⟩ := hstep
    have harray₁ := (harray.mono hprogress.le).succ hcv
    rw [← htable] at harray₁
    obtain ⟨src₂, hprogress₂, ⟨hsizearray, hsizehash⟩, harray₂⟩ :=
      ih (hprogress.ready hready) harray₁ hrest
    rw [htable] at hsizearray hsizehash
    refine ⟨src₂, hprogress.trans hready hprogress₂, ⟨hsizearray, hsizehash⟩, ?_⟩
    rw [show i + (c + 1) = i + 1 + c by omega]
    exact harray₂

/-- All entries are in the array part. -/
theorem arrays_of_arrayTo (h : ArrayTo w tb t tb.sizearray) (hsize : (tb.sizearray : ℤ) < 2 ^ 31)
    (hnone : ∀ e ∈ t.entries, counted tb.sizearray e = false) : Arrays w tb t.entries := by
  intro i hi
  have hentry := h i hi
  have hint : (Int64.ofNat (i + 1)).toInt = (i + 1 : ℕ) := Int64.toInt_ofNat_of_lt (by omega)
  cases hget : t.get (.integer (Int64.ofNat (i + 1))) with
  | none =>
    rw [hget] at hentry
    refine .inl ⟨hentry, fun e he hconf ↦ ?_⟩
    obtain ⟨d, hd, -, -, hconf', -⟩ := isArray_of_not_counted hsize (hnone e he)
    refine SourceTable.get_eq_none hget he ?_
    rw [hd]
    congr 1
    refine Int64.toInt_inj.mp ?_
    rw [hint]
    exact ConfKey.integer.inj (hconf'.symm.trans hconf)
  | some v =>
    rw [hget] at hentry
    refine .inr ⟨_, SourceTable.mem_of_get hget, ?_, hentry⟩
    rw [LuaKey.conf, hint, toInt32_of_lt (by omega) (by omega)]

/-! ## Tables -/

theorem nodup_hashEntries (t : SourceTable) (sizearray : ℕ) :
    (hashEntries sizearray t.entries).Nodup :=
  (List.Nodup.of_map _ t.nodup).filter _

/-- A table without a hash part. -/
theorem built_of_fillarray (src : ℕ → ℕ) (hconvert : ConvertSpec lua convert) (hready : ctx.Ready)
    (hsizearray : (ctx.table.sizearray : ℤ) = toInt32 t.length) (hzero : ctx.table.sizehash = 0)
    (hcount : (t.entries.filter (counted ctx.table.sizearray)).length = 0)
    (h : fillarray convert t ctx.table.sizearray 1 ctx = .ok ctx') :
    ∃ src', Progress lua ctx src ctx' src' ∧ Built (ctx'.meaning src') ctx'.table t := by
  have hlt := toInt32_lt t.length
  have harray : ArrayTo (ctx.meaning src) ctx.table t 0 := fun j hj ↦ (nomatch hj)
  obtain ⟨src', hprogress, ⟨hsizearray', hsizehash'⟩, harray'⟩ :=
    fillarray_spec hconvert hready harray h
  have hnone : ∀ e ∈ t.entries, counted ctx.table.sizearray e = false := by
    intro e he
    cases hcounted : counted ctx.table.sizearray e with
    | false => rfl
    | true =>
      have hmem := List.mem_filter.mpr ⟨he, hcounted⟩
      rw [List.length_eq_zero_iff.mp hcount] at hmem
      exact (nomatch hmem)
  have hnil : hashEntries ctx.table.sizearray t.entries = [] := by
    refine List.length_eq_zero_iff.mp (Nat.le_zero.mp ?_)
    rw [← hcount]
    exact length_hashEntries_le (by omega)
  refine ⟨src', hprogress, ?_, ?_, ?_, ?_, ?_⟩
  · rw [hsizearray']
    exact hsizearray
  · rw [hsizehash', hsizearray', hcount]
    exact hzero
  · rw [hsizehash', hzero]
    decide
  · rw [Nat.zero_add] at harray'
    refine arrays_of_arrayTo ?_ ?_ ?_ <;> rw [hsizearray']
    · exact harray'
    · exact hsizearray ▸ hlt
    · exact hnone
  · rw [hsizearray', hnil]
    refine ⟨_, _, fun s hs ↦ ?_, Scatter.chained_nil []⟩
    rw [hsizehash', hzero] at hs
    exact (nomatch hs)

/-- A table with a hash part: both passes, with nothing in it before. -/
theorem built_of_fill {ctx₁ : ConfContext} (src : ℕ → ℕ) (hconvert : ConvertSpec lua convert)
    (hready : ctx.Ready)
    (hsizearray : (ctx.table.sizearray : ℤ) = toInt32 t.length)
    (hsizehash : ctx.table.sizehash = (t.entries.filter (counted ctx.table.sizearray)).length)
    (hpos : 0 < ctx.table.sizehash) (hsmall : ctx.table.sizehash < 2 ^ 31)
    (hslots : Slots (ctx.meaning src) ctx.table Scatter.empty)
    (harrays : Arrays (ctx.meaning src) ctx.table [])
    (hfirst : fillnocolliding convert t.entries ctx = .ok ctx₁)
    (hsecond : fillcolliding convert t.entries ctx₁ = .ok ctx') :
    ∃ src', Progress lua ctx src ctx' src' ∧ Built (ctx'.meaning src') ctx'.table t := by
  have hlt := toInt32_lt t.length
  obtain ⟨src₁, hprogress₁, ⟨hsizearray₁, hsizehash₁⟩, hslots₁, harrays₁⟩ :=
    fillnocolliding_spec hconvert hready hslots harrays hpos hfirst
  have hle : (hashEntries ctx.table.sizearray t.entries).length ≤ ctx.table.sizehash := by
    rw [hsizehash]
    exact length_hashEntries_le (by omega)
  obtain ⟨sc, l, hfill, hchained⟩ := Scatter.fill_spec (mainpos ctx.table.sizehash)
    (fun e ↦ e.1.conf) (nodup_hashEntries t ctx.table.sizearray) hle
  rw [Scatter.fill] at hfill
  obtain ⟨src₂, hprogress₂, ⟨hsizearray₂, hsizehash₂⟩, hslots₂, harrays₂⟩ :=
    fillcolliding_spec hconvert (hprogress₁.ready hready) hslots₁ harrays₁
      (by rw [hsizehash₁]; exact hpos)
      (by rw [hsizearray₁, hsizehash₁]; exact hfill) hsecond
  have hsizearray' := hsizearray₂.trans hsizearray₁
  have hsizehash' := hsizehash₂.trans hsizehash₁
  refine ⟨src₂, hprogress₁.trans hready hprogress₂, ?_, ?_, ?_, harrays₂, sc, l, hslots₂, ?_⟩
  · rw [hsizearray']
    exact hsizearray
  · rw [hsizehash', hsizearray']
    exact hsizehash
  · rw [hsizehash']
    exact hsmall
  · rw [hsizehash', hsizearray']
    exact hchained

/-- **One table**, if the nested ones are as they should be. -/
theorem convtableWith_spec (hconvert : ConvertSpec lua convert) (hready : ctx.Ready)
    (hzero : ctx.table.sizehash = 0) (h : convtableWith convert junk t ctx = .ok ctx') :
    ∃ src', Progress lua ctx src ctx' src' ∧ Built (ctx'.meaning src') ctx'.table t := by
  rw [convtableWith] at h
  dsimp only at h
  by_cases hneg : toInt32 t.length < 0
  · rw [if_pos hneg] at h
    cases h
  · rw [if_neg hneg] at h
    obtain ⟨sizehash, hcount, hrest⟩ := of_bind_ok h
    obtain ⟨hsizehash, hsmall⟩ := countsize_spec (by decide) hcount
    rw [Nat.zero_add] at hsizehash
    have hsize : ((toInt32 t.length).toNat : ℤ) = toInt32 t.length := by omega
    generalize (toInt32 t.length).toNat = sizearray at hrest hsizehash hsize
    have hprogress := progress_setTable lua src hready
      { ctx.table with sizearray := sizearray, array := fun _ ↦ .nil }
    have hready₁ := hprogress.ready hready
    have htable := table_setTable ctx
      { ctx.table with sizearray := sizearray, array := fun _ ↦ .nil }
    generalize ctx.setTable { ctx.table with sizearray := sizearray, array := fun _ ↦ .nil } = ctx₁
      at hrest hprogress hready₁ htable
    have hsizearray₁ : ctx₁.table.sizearray = sizearray := by rw [htable]
    -- a table without a hash part is filled in one pass, any other in two
    by_cases hempty : sizehash = 0
    · rw [if_pos hempty, ← hsizearray₁] at hrest
      rw [hempty] at hsizehash
      obtain ⟨src', hprogress', hbuilt⟩ := built_of_fillarray src hconvert hready₁
        (by rw [hsizearray₁]; exact hsize) (by rw [htable]; exact hzero)
        (by rw [hsizearray₁]; exact hsizehash.symm) hrest
      exact ⟨src', hprogress.trans hready hprogress', hbuilt⟩
    · rw [if_neg hempty] at hrest
      obtain ⟨ctx₃, hfirst, hsecond⟩ := of_bind_ok hrest
      have hprogress₂ := progress_setTable lua src hready₁ { ctx₁.table with
        sizehash := sizehash
        hash := fun i ↦ { junk ctx₁.tbl i with v := .nil, nocolliding := false } }
      have htable₂ := table_setTable ctx₁ { ctx₁.table with
        sizehash := sizehash
        hash := fun i ↦ { junk ctx₁.tbl i with v := .nil, nocolliding := false } }
      obtain ⟨src', hprogress', hbuilt⟩ := built_of_fill (t := t) src hconvert
        (hprogress₂.ready hready₁) (by rw [htable₂]; exact hsizearray₁ ▸ hsize)
        (by rw [htable₂, hsizearray₁]; exact hsizehash)
        (by rw [htable₂]; exact Nat.pos_of_ne_zero hempty) (by rw [htable₂]; exact hsmall)
        (by rw [htable₂]; exact fun _ _ ↦ rfl)
        (by
          rw [htable₂]
          exact fun i _ ↦ .inl ⟨by rw [htable], fun e he ↦ (nomatch he)⟩)
        hfirst hsecond
      exact ⟨src', hprogress.trans hready (hprogress₂.trans hready₁ hprogress'), hbuilt⟩

/-- **`convtable`**, by induction on the C calls that are left. -/
theorem convtable_spec (lua : ℕ → SourceTable) (junk : ℕ → ℕ → ConfNode) (calls : ℕ) :
    ConvertSpec lua (convtable lua junk calls) := by
  induction calls with
  | zero => exact fun _ _ h ↦ (nomatch h)
  | succ calls ih => exact fun hready hzero h ↦ convtableWith_spec ih hready hzero h

end ConfContext

/-- **All tables that `lnewconf` has made are built**, from the table that it is called with and
from those nested in it. -/
theorem newconf_built {lua : ℕ → SourceTable} {junk : ℕ → ℕ → ConfNode} {calls stack ref : ℕ}
    {c : ConfContext} (h : newconf lua junk calls stack ref = .ok c) :
    ∃ source : ℕ → ℕ, source 0 = ref ∧ 0 < c.allocated ∧ c.strings.Nodup ∧
      ∀ p < c.allocated, Built (c.meaning source) (c.tables p) (lua (source p)) := by
  obtain ⟨ctx, hconv, hrest⟩ := ConfContext.of_bind_ok h
  have hctx : ctx = c := by
    split at hrest
    · cases hrest
    · exact Except.ok.inj hrest
  subst hctx
  have hready : (ConfContext.alloc
      ⟨[], fun _ ↦ ⟨0, 0, fun _ ↦ .nil, junk 0⟩, 0, 0⟩).Ready := ⟨Nat.lt_succ_self 0,
        List.nodup_nil⟩
  obtain ⟨source, hprogress, hbuilt⟩ :=
    @ConfContext.convtable_spec lua junk calls _ _ (fun _ ↦ ref) hready
      (by rw [ConfContext.table_alloc]) hconv
  have hallocated : 1 ≤ ctx.allocated := hprogress.allocated
  refine ⟨source, hprogress.source 0 (Nat.lt_succ_self 0), hallocated, hprogress.nodup,
    fun p hp ↦ ?_⟩
  by_cases hzero : p = 0
  · have htbl : ctx.tbl = 0 := hprogress.tbl
    rw [ConfContext.table, htbl] at hbuilt
    rw [hzero, hprogress.source 0 (Nat.lt_succ_self 0)]
    exact hbuilt
  · exact hprogress.built p (Nat.one_le_iff_ne_zero.mpr hzero) hp

end ZTask
