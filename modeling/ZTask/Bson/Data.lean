import ZTask.Bson.Entries
import ZTask.Bson.Fields

/-!
# What a value holds

The values that the encoder supports, without metamethods (`Supported`), and what they hold. A table
that is written as a document is read with the texts of its keys (`BsonObject.view`). That is what
it holds unless an array is among it whose length is not the last key (`view_eq_data_iff`).
-/

namespace ZTask

open Lib

variable {pairs : List (LuaScalar × BsonObject)} {elements : List BsonObject} {v : BsonObject}

/-! ## Tables of fields -/

section Fill

variable {xs ys : List (LuaScalar × LuaData)} {k : LuaScalar} {w : LuaData} {t : LuaTable}

theorem LuaTable.fill_keyed (t : LuaTable) (xs : List (LuaScalar × LuaData)) :
    (t.fill xs).keyed = t.keyed := by
  induction xs generalizing t with
  | nil => rfl
  | cons x xs ih => exact ih _

theorem LuaTable.fill_get_of_notMem (h : k ∉ xs.map Prod.fst) : (t.fill xs).get k = t.get k := by
  induction xs generalizing t with
  | nil => rfl
  | cons x xs ih =>
    rw [List.map_cons, List.mem_cons, not_or] at h
    rw [LuaTable.fill_cons, ih h.2]
    exact Function.update_of_ne h.1 _ _

theorem LuaTable.fill_get_of_mem (hnodup : (xs.map Prod.fst).Nodup) (hmem : (k, w) ∈ xs) :
    (t.fill xs).get k = w := by
  induction xs generalizing t with
  | nil => cases hmem
  | cons x xs ih =>
    rw [List.map_cons, List.nodup_cons] at hnodup
    rw [LuaTable.fill_cons]
    rcases List.mem_cons.mp hmem with rfl | hbehind
    · rw [LuaTable.fill_get_of_notMem hnodup.1]
      exact Function.update_self _ _ _
    · exact ih hnodup.2 hbehind

theorem tableOf_eq (xs : List (LuaScalar × LuaData)) :
    tableOf xs = .table (LuaTable.empty.fill xs).get [] := by
  rw [tableOf, LuaTable.data, LuaTable.fill_keyed]
  rfl

/-- The order of fields with different keys does not matter. -/
theorem tableOf_eq_of_mem (hxs : (xs.map Prod.fst).Nodup) (hys : (ys.map Prod.fst).Nodup)
    (h : ∀ x, x ∈ xs ↔ x ∈ ys) : tableOf xs = tableOf ys := by
  rw [tableOf_eq, tableOf_eq]
  congr 1
  funext k
  by_cases hk : k ∈ xs.map Prod.fst
  · obtain ⟨x, hx, rfl⟩ := List.mem_map.mp hk
    rw [LuaTable.fill_get_of_mem hxs hx, LuaTable.fill_get_of_mem hys ((h x).mp hx)]
  · have hk' : k ∉ ys.map Prod.fst := by
      intro hmem
      obtain ⟨y, hy, rfl⟩ := List.mem_map.mp hmem
      exact hk (List.mem_map.mpr ⟨y, (h y).mpr hy, rfl⟩)
    rw [LuaTable.fill_get_of_notMem hk, LuaTable.fill_get_of_notMem hk']

end Fill

/-! ## Supported values -/

/-- The strings with a tag that the library makes. -/
inductive Tagged : List UInt8 → Prop
  | binary (subtype : UInt8) (bytes : List UInt8) :
    Tagged (0 :: BsonType.binary.code :: subtype :: bytes)
  | objectId {id : List UInt8} : id.length = 12 → Tagged (0 :: BsonType.objectId.code :: id)
  | date {d : List UInt8} : d.length = 4 → Tagged (0 :: BsonType.date.code :: d)
  | timestamp {ts : List UInt8} : ts.length = 8 → Tagged (0 :: BsonType.timestamp.code :: ts)
  | regex {pattern options : List UInt8} : 0 ∉ pattern → 0 ∉ options →
      Tagged (0 :: BsonType.regex.code :: (pattern ++ 0 :: (options ++ [0])))
  | null : Tagged [0, BsonType.null.code]

/-- The keys are strings. -/
def IsNamed (pairs : List (LuaScalar × BsonObject)) : Prop :=
  ∀ pair ∈ pairs, ∃ key, pair.1 = .string key

/-- A boolean, a number, a string that does not begin with a zero byte, a string with a tag, or a
table of such values with names for keys, or an array of them. -/
inductive Supported : BsonObject → Prop
  | boolean (b : Bool) : Supported (.boolean b)
  | integer (i : Int64) : Supported (.integer i)
  | real (bits : UInt64) : Supported (.real bits)
  | text {bytes : List UInt8} : bytes.head? ≠ some 0 → Supported (.string bytes)
  | tagged {bytes : List UInt8} : Tagged bytes → Supported (.string bytes)
  | table {pairs : List (LuaScalar × BsonObject)} {elements : List BsonObject} :
      RawTable pairs elements → IsNamed pairs ∨ IsSequence pairs elements.length →
      (∀ pair ∈ pairs, Supported pair.2) → Supported (.table pairs elements none none)

/-- The tables in a value are all such. -/
inductive Throughout (P : List (LuaScalar × BsonObject) → List BsonObject → Prop) :
    BsonObject → Prop
  | scalar {v : BsonObject} : (∀ pairs elements metalen metapairs,
      v ≠ .table pairs elements metalen metapairs) → Throughout P v
  | table {pairs : List (LuaScalar × BsonObject)} {elements : List BsonObject} :
      P pairs elements → (∀ pair ∈ pairs, Throughout P pair.2) →
      Throughout P (.table pairs elements none none)

theorem throughout_table {P : List (LuaScalar × BsonObject) → List BsonObject → Prop} :
    Throughout P (.table pairs elements none none) ↔
      P pairs elements ∧ ∀ pair ∈ pairs, Throughout P pair.2 := by
  constructor
  · intro h
    cases h with
    | scalar hno => exact absurd rfl (hno _ _ _ _)
    | table hP h => exact ⟨hP, h⟩
  · rintro ⟨hP, h⟩
    exact .table hP h

/-- No zero byte is in a key. -/
def KeysNulFree (pairs : List (LuaScalar × BsonObject)) (_ : List BsonObject) : Prop :=
  ∀ pair ∈ pairs, ∀ key, pair.1 = .string key → 0 ∉ key

/-- `lua_next` comes to the length last, if the table has one. -/
def EndsWithLength (pairs : List (LuaScalar × BsonObject)) (elements : List BsonObject) : Prop :=
  elements.length = 0 ∨ ∃ v, pairs.getLast? = some (.integer (.ofNat elements.length), v)

/-! ## What is held -/

mutual

/-- What a value holds, when the keys of each table are taken as `f` says. -/
def BsonObject.dataBy (f : List (LuaScalar × BsonObject) → List BsonObject →
    LuaScalar → LuaScalar) :
    BsonObject → LuaData
  | .boolean b => .scalar (.boolean b)
  | .integer i => .scalar (.integer i)
  | .real bits => .scalar (.real bits)
  | .string bytes => .scalar (.string bytes)
  | .userdata _ => .scalar (.other "userdata")
  | .other typename => .scalar (.other typename)
  | .table pairs elements _ _ => tableOf (pairsBy f (f pairs elements) pairs)

def pairsBy (f : List (LuaScalar × BsonObject) → List BsonObject → LuaScalar → LuaScalar)
    (g : LuaScalar → LuaScalar) : List (LuaScalar × BsonObject) → List (LuaScalar × LuaData)
  | [] => []
  | (k, v) :: pairs => (g k, v.dataBy f) :: pairsBy f g pairs

end

/-- What a value holds. -/
def BsonObject.data (v : BsonObject) : LuaData := v.dataBy fun _ _ k ↦ k

/-- The key that is read where a key is written as its text. -/
def nameKey : LuaScalar → LuaScalar
  | .integer i => .string (decimalInt i.toInt)
  | k => k

/-- The keys that are read where a table is written. -/
def readKey (pairs : List (LuaScalar × BsonObject)) (elements : List BsonObject) (k : LuaScalar) :
    LuaScalar :=
  match isRawarray pairs elements.length with
  | .ok true => k
  | _ => nameKey k

/-- What is read where a value is written. -/
def BsonObject.view (v : BsonObject) : LuaData := v.dataBy readKey

theorem pairsBy_eq (f : List (LuaScalar × BsonObject) → List BsonObject → LuaScalar → LuaScalar)
    (g : LuaScalar → LuaScalar) (pairs : List (LuaScalar × BsonObject)) :
    pairsBy f g pairs = pairs.map fun pair ↦ (g pair.1, pair.2.dataBy f) := by
  induction pairs with
  | nil => rfl
  | cons pair pairs ih =>
    obtain ⟨k, v⟩ := pair
    rw [pairsBy, ih, List.map_cons]

/-- The fields of a table whose keys stay. -/
def dataPairsOf (pairs : List (LuaScalar × BsonObject)) : List (LuaScalar × LuaData) :=
  pairs.map fun pair ↦ (pair.1, pair.2.data)

theorem data_table (metalen : Option (Option (List BsonObject)))
    (metapairs : Option (List (LuaScalar × BsonObject))) :
    (BsonObject.table pairs elements metalen metapairs).data = tableOf (dataPairsOf pairs) := by
  rw [BsonObject.data, BsonObject.dataBy, pairsBy_eq]
  rfl

theorem view_table (metalen : Option (Option (List BsonObject)))
    (metapairs : Option (List (LuaScalar × BsonObject))) :
    (BsonObject.table pairs elements metalen metapairs).view =
      tableOf (pairs.map fun pair ↦ (readKey pairs elements pair.1, pair.2.view)) := by
  rw [BsonObject.view, BsonObject.dataBy, pairsBy_eq]
  rfl

theorem nodup_dataPairsOf (h : (pairs.map Prod.fst).Nodup) :
    ((dataPairsOf pairs).map Prod.fst).Nodup := by
  rw [dataPairsOf, List.map_map]
  exact h

theorem Supported.data_ne_nil (h : Supported v) : v.data ≠ .nil := by
  cases h with
  | table =>
    rw [data_table, tableOf_eq]
    intro heq
    cases heq
  | boolean | integer | real | text | tagged =>
    intro heq
    cases heq

/-! ## What is read is what is held -/

theorem readKey_named (hnamed : IsNamed pairs) {pair : LuaScalar × BsonObject}
    (hmem : pair ∈ pairs) :
    readKey pairs elements pair.1 = pair.1 := by
  obtain ⟨key, hkey⟩ := hnamed pair hmem
  rw [readKey, hkey]
  split <;> rfl

/-- Where the keys stay, it is on the values whether the same is read. -/
theorem tableOf_view_eq (hnodup : (pairs.map Prod.fst).Nodup)
    (hkeys : ∀ pair ∈ pairs, readKey pairs elements pair.1 = pair.1) :
    tableOf (pairs.map fun pair ↦ (readKey pairs elements pair.1, pair.2.view)) =
        tableOf (dataPairsOf pairs) ↔ ∀ pair ∈ pairs, pair.2.view = pair.2.data := by
  have hread : (pairs.map fun pair ↦ (readKey pairs elements pair.1, pair.2.view)) =
      pairs.map fun pair ↦ (pair.1, pair.2.view) := by
    refine List.map_congr_left fun pair hmem ↦ ?_
    rw [hkeys pair hmem]
  rw [hread]
  constructor
  · intro heq pair hmem
    rw [tableOf_eq, tableOf_eq] at heq
    injection heq with hget
    have hview := @LuaTable.fill_get_of_mem (pairs.map fun pair ↦ (pair.1, pair.2.view)) pair.1
      pair.2.view .empty (by rw [List.map_map]; exact hnodup) (List.mem_map.mpr ⟨pair, hmem, rfl⟩)
    have hdata := @LuaTable.fill_get_of_mem (dataPairsOf pairs) pair.1 pair.2.data .empty
      (nodup_dataPairsOf hnodup) (List.mem_map.mpr ⟨pair, hmem, rfl⟩)
    rw [← hview, hget, hdata]
  · intro hall
    congr 1
    exact List.map_congr_left fun pair hmem ↦ by rw [hall pair hmem]

/-- What is read of a supported value is what it holds, unless there is an array in it whose length
is not the last key. -/
theorem view_eq_data_iff (h : Supported v) : v.view = v.data ↔ Throughout EndsWithLength v := by
  induction h with
  | boolean | integer | real | text | tagged =>
    exact ⟨fun _ ↦ .scalar fun _ _ _ _ heq ↦ (nomatch heq), fun _ ↦ rfl⟩
  | @table pairs elements hraw hkind hsupported ih =>
    rw [data_table, view_table, throughout_table]
    have hvalues : (∀ pair ∈ pairs, pair.2.view = pair.2.data) ↔
        ∀ pair ∈ pairs, Throughout EndsWithLength pair.2 :=
      forall₂_congr fun pair hmem ↦ ih pair hmem
    by_cases hends : EndsWithLength pairs elements
    · -- The keys stay, in an array as in a document.
      have hkeys : ∀ pair ∈ pairs, readKey pairs elements pair.1 = pair.1 := by
        intro pair hmem
        rcases hkind with hnamed | hseq
        · exact readKey_named hnamed hmem
        · rcases hends with hzero | hlast
          · obtain ⟨i, hi, -⟩ := (hseq pair.1).mp (List.mem_map.mpr ⟨pair, hmem, rfl⟩)
            omega
          · have hpos : 0 < elements.length := by
              obtain ⟨i, hi, -⟩ := (hseq pair.1).mp (List.mem_map.mpr ⟨pair, hmem, rfl⟩)
              omega
            rw [readKey, (isRawarray_eq_true hraw.nodup).mpr ⟨hpos, hlast⟩]
      rw [tableOf_view_eq hraw.nodup hkeys, hvalues]
      exact (and_iff_right hends).symm
    · -- The key 1 is read as a string.
      refine iff_of_false (fun heq ↦ ?_) (fun hall ↦ hends hall.1)
      have hpos : 0 < elements.length := Nat.pos_of_ne_zero fun hzero ↦ hends (.inl hzero)
      have hkind' : IsSequence pairs elements.length := by
        rcases hkind with hnamed | hseq
        · obtain ⟨pair, hmem, hkey⟩ := List.mem_map.mp (hraw.border hpos)
          obtain ⟨key, hstring⟩ := hnamed pair hmem
          rw [hkey] at hstring
          cases hstring
        · exact hseq
      obtain ⟨pair, hmem, hone⟩ := List.mem_map.mp ((hkind' _).mpr ⟨0, hpos, rfl⟩)
      have hnot : isRawarray pairs elements.length ≠ .ok true := fun htrue ↦
        hends (.inr ((isRawarray_eq_true hraw.nodup).mp htrue).2)
      have hread : ∀ k, readKey pairs elements k = nameKey k := fun k ↦ by
        rw [readKey]
        split
        · exact absurd ‹_› hnot
        · rfl
      have hnotMem : pair.1 ∉
          (pairs.map fun pair ↦ (readKey pairs elements pair.1, pair.2.view)).map Prod.fst := by
        intro hin
        obtain ⟨field, hfield, hkey⟩ := List.mem_map.mp hin
        obtain ⟨pair', -, rfl⟩ := List.mem_map.mp hfield
        rw [hone, hread] at hkey
        cases hk : pair'.1 <;> rw [hk] at hkey <;> cases hkey
      rw [tableOf_eq, tableOf_eq] at heq
      injection heq with hget
      have hdata := @LuaTable.fill_get_of_mem (dataPairsOf pairs) pair.1 pair.2.data .empty
        (nodup_dataPairsOf hraw.nodup) (List.mem_map.mpr ⟨pair, hmem, rfl⟩)
      rw [← hget, LuaTable.fill_get_of_notMem hnotMem] at hdata
      exact (hsupported pair hmem).data_ne_nil hdata.symm

end ZTask
