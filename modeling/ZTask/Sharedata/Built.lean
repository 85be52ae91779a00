import ZTask.Lib.Scatter
import ZTask.Sharedata.Convert

/-!
# What is built

A converted table stands for the Lua table that it is from: the array part has the entries whose
keys are within its size, and the hash part is a scatter table of all others, main positions first.
Nested tables are built the same way while the outer one is, and whatever the conversion of one does
leaves the others as they are; strings are only added. So a table that is built stays what it is.
-/

namespace ZTask

open Lib

/-! ## Meaning -/

/-- What strings and tables stand for. -/
structure Meaning where
  strings : List (List UInt8)
  /-- The tables so far. -/
  allocated : ℕ
  /-- The Lua tables that they are from. -/
  source : ℕ → ℕ

/-- More strings and more tables. -/
structure Meaning.Le (w w' : Meaning) : Prop where
  strings : w.strings <+: w'.strings
  allocated : w.allocated ≤ w'.allocated
  source : ∀ q < w.allocated, w'.source q = w.source q

/-- The values are the same. -/
inductive Stands (w : Meaning) : ConfValue → LuaValue → Prop
  | boolean (b) : Stands w (.boolean b) (.boolean b)
  | integer (d) : Stands w (.integer d) (.integer d)
  | real (n) : Stands w (.real n) (.real n)
  | string {j s} (h : w.strings[j]? = some s) : Stands w (.string (j + 2)) (.string s)
  | table {q} (h : q < w.allocated) : Stands w (.table q) (.table (w.source q))

/-- The node has this key. -/
def IsKey (w : Meaning) (n : ConfNode) : ConfKey → Prop
  | .integer key => n.keytype = .integer ∧ n.key = key
  | .string s => n.keytype = .string ∧ ∃ j : ℕ, n.key = (j + 2 : ℕ) ∧ w.strings[j]? = some s

/-- The link as a slot. -/
def IsLink (next : ℤ) : Option ℕ → Prop
  | none => next < 0
  | some i => next = i

/-- The node has this entry, and this link. -/
structure HasEntry (w : Meaning) (n : ConfNode) (e : LuaKey × LuaValue) (next : Option ℕ) :
    Prop where
  key : IsKey w n e.1.conf
  keyhash : n.keyhash = e.1.conf.keyhash
  value : Stands w n.v e.2
  link : IsLink n.next next
  flag : n.nocolliding = true → next = none

/-- The hash part as a scatter table. -/
def Slots (w : Meaning) (t : ConfTable) (sc : Scatter (LuaKey × LuaValue)) : Prop :=
  ∀ s < t.sizehash,
    match sc.slot s with
    | none => (t.hash s).v = .nil
    | some e => HasEntry w (t.hash s) e (sc.next s)

/-- The array part has an entry for each of its keys, if there is one. -/
def Arrays (w : Meaning) (t : ConfTable) (entries : List (LuaKey × LuaValue)) : Prop :=
  ∀ i < t.sizearray,
    t.array i = .nil ∧ (∀ e ∈ entries, e.1.conf ≠ .integer (i + 1 : ℕ)) ∨
    ∃ e ∈ entries, e.1.conf = .integer (i + 1 : ℕ) ∧ Stands w (t.array i) e.2

/-- The entries of the hash part. -/
def hashEntries (sizearray : ℕ) (entries : List (LuaKey × LuaValue)) : List (LuaKey × LuaValue) :=
  entries.filter fun e ↦ !e.1.conf.isArray sizearray

/-- The entry is counted by `countsize`, which does not cut down its key. -/
def counted (sizearray : ℕ) (e : LuaKey × LuaValue) : Bool :=
  match e.1 with
  | .integer nkey => !decide (0 < nkey.toInt ∧ nkey.toInt ≤ sizearray)
  | _ => true

/-- The main position of an entry. -/
def mainpos (sizehash : ℕ) (e : LuaKey × LuaValue) : ℕ := e.1.conf.keyhash.toNat % sizehash

/-- **A table that is built.** -/
structure Built (w : Meaning) (tb : ConfTable) (t : SourceTable) : Prop where
  sizearray : (tb.sizearray : ℤ) = toInt32 t.length
  sizehash : tb.sizehash = (t.entries.filter (counted tb.sizearray)).length
  small : tb.sizehash < 2 ^ 31
  array : Arrays w tb t.entries
  hash : ∃ sc l, Slots w tb sc ∧
    Scatter.Chained (mainpos tb.sizehash) (fun e ↦ e.1.conf) tb.sizehash
      (hashEntries tb.sizearray t.entries) (hashEntries tb.sizearray t.entries) sc l

section

variable {w w' : Meaning} {cv : ConfValue} {v : LuaValue} {n : ConfNode} {k k' : ConfKey}
  {e : LuaKey × LuaValue} {next : Option ℕ} {tb tb' : ConfTable} {t : SourceTable}
  {sc : Scatter (LuaKey × LuaValue)} {entries : List (LuaKey × LuaValue)} {s : ℕ}

theorem Meaning.Le.refl (w : Meaning) : w.Le w :=
  ⟨List.prefix_refl _, Nat.le_refl _, fun _ _ ↦ rfl⟩

theorem getElem?_of_starts {α : Type*} {l l' : List α} {j : ℕ} {x : α} (h : l <+: l')
    (hj : l[j]? = some x) : l'[j]? = some x := by
  obtain ⟨r, rfl⟩ := h
  rw [List.getElem?_append_left (List.getElem?_eq_some_iff.mp hj).1]
  exact hj

theorem Stands.mono (h : Stands w cv v) (hle : w.Le w') : Stands w' cv v := by
  cases h with
  | boolean b => exact .boolean b
  | integer d => exact .integer d
  | real n => exact .real n
  | string h => exact .string (getElem?_of_starts hle.strings h)
  | table h =>
    rw [← hle.source _ h]
    exact .table (Nat.lt_of_lt_of_le h hle.allocated)

theorem Stands.ne_nil (h : Stands w cv v) : cv ≠ .nil := by
  cases h <;> exact fun heq ↦ (nomatch heq)

theorem IsKey.mono (h : IsKey w n k) (hle : w.Le w') : IsKey w' n k := by
  cases k with
  | integer key => exact h
  | string s =>
    obtain ⟨htype, j, hkey, hj⟩ := h
    exact ⟨htype, j, hkey, getElem?_of_starts hle.strings hj⟩

theorem HasEntry.mono (h : HasEntry w n e next) (hle : w.Le w') : HasEntry w' n e next :=
  ⟨h.key.mono hle, h.keyhash, h.value.mono hle, h.link, h.flag⟩

theorem Slots.mono (h : Slots w tb sc) (hle : w.Le w') : Slots w' tb sc := by
  intro s hs
  have hslot := h s hs
  cases hcase : sc.slot s with
  | none =>
    rw [hcase] at hslot
    exact hslot
  | some e =>
    rw [hcase] at hslot
    exact hslot.mono hle

theorem Arrays.mono (h : Arrays w tb entries) (hle : w.Le w') : Arrays w' tb entries := by
  intro i hi
  rcases h i hi with hnil | ⟨e, he, hkey, hstands⟩
  · exact .inl hnil
  · exact .inr ⟨e, he, hkey, hstands.mono hle⟩

theorem Built.mono (h : Built w tb t) (hle : w.Le w') : Built w' tb t := by
  obtain ⟨sc, l, hslots, hchained⟩ := h.hash
  exact ⟨h.sizearray, h.sizehash, h.small, h.array.mono hle, sc, l, hslots.mono hle, hchained⟩

theorem Slots.keeps (h : Slots w tb sc) (hs : s < tb.sizehash) (he : sc.slot s = some e) :
    HasEntry w (tb.hash s) e (sc.next s) := by
  have hslot := h s hs
  rw [he] at hslot
  exact hslot

theorem Slots.nil_iff (h : Slots w tb sc) (hs : s < tb.sizehash) :
    (tb.hash s).v = .nil ↔ sc.slot s = none := by
  have hslot := h s hs
  cases hcase : sc.slot s with
  | none =>
    rw [hcase] at hslot
    exact ⟨fun _ ↦ rfl, fun _ ↦ hslot⟩
  | some e =>
    rw [hcase] at hslot
    exact ⟨fun hnil ↦ (hslot.value.ne_nil hnil).elim, fun heq ↦ (nomatch heq)⟩

/-- A node has one key. -/
theorem IsKey.unique (h : IsKey w n k) (h' : IsKey w n k') : k = k' := by
  cases k with
  | integer key =>
    cases k' with
    | integer key' => rw [← h.2, ← h'.2]
    | string s' => exact (nomatch h.1.symm.trans h'.1)
  | string s =>
    obtain ⟨htype, j, hkey, hj⟩ := h
    cases k' with
    | integer key' => exact (nomatch htype.symm.trans h'.1)
    | string s' =>
      obtain ⟨-, j', hkey', hj'⟩ := h'
      have heq : j = j' := by omega
      subst heq
      rw [hj] at hj'
      rw [Option.some.inj hj']

theorem IsKey.same {n' : ConfNode} (hnodup : w.strings.Nodup)
    (h : IsKey w n k) (h' : IsKey w n' k) :
    n.keytype = n'.keytype ∧ n.key = n'.key := by
  cases k with
  | integer key => exact ⟨h.1.trans h'.1.symm, h.2.trans h'.2.symm⟩
  | string s =>
    obtain ⟨htype, j, hkey, hj⟩ := h
    obtain ⟨htype', j', hkey', hj'⟩ := h'
    obtain ⟨hlt, hget⟩ := List.getElem?_eq_some_iff.mp hj
    obtain ⟨hlt', hget'⟩ := List.getElem?_eq_some_iff.mp hj'
    have heq : j = j' := hnodup.getElem_inj_iff.mp (hget.trans hget'.symm)
    exact ⟨htype.trans htype'.symm, by rw [hkey, hkey', heq]⟩

end

end ZTask
