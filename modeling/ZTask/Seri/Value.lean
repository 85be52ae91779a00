import ZTask.Lib.Reading
import ZTask.Lib.Word
import Mathlib.Logic.Function.Basic

/-!
# Lua values, to pack and to unpack

The values that `lua-seri.c` is about, as the functions of the Lua API give and take them. A value
to pack is what these functions tell of it (`LuaObject`): for a table the pairs in the order of
`lua_next`, what `lua_rawlen` returns, and what the iterator of `__pairs` returns if there is one.
What a value holds (`LuaData`) does not depend on the order in which it is held.
-/

namespace ZTask

open Lib

/-- The values that are not tables. Reals and pointers are their bits; a function, a thread or a
full userdata is only the name of its type. -/
inductive LuaScalar
  | nil
  | boolean (b : Bool)
  | integer (i : Int64)
  | real (bits : UInt64)
  | string (bytes : List UInt8)
  | userdata (p : UInt64)
  | other (typename : String)
deriving DecidableEq, Repr

/-- What a value holds. A table has a value for every key that is not a table, nil where there is
none, and the pairs whose key is a table. -/
inductive LuaData
  | scalar (s : LuaScalar)
  | table (get : LuaScalar → LuaData) (keyed : List (LuaData × LuaData))

/-- A value on the stack. -/
inductive LuaObject
  | scalar (s : LuaScalar)
  | table (pairs : List (LuaObject × LuaObject)) (rawlen : ℕ)
      (metapairs : Option (List (LuaObject × LuaObject)))

def LuaData.nil : LuaData := .scalar .nil

/-- `lua_isnil`. -/
def LuaData.isNil : LuaData → Bool
  | .scalar .nil => true
  | _ => false

/-- What counts as true. -/
def LuaData.truthy : LuaData → Bool
  | .scalar .nil => false
  | .scalar (.boolean false) => false
  | _ => true

theorem LuaData.isNil_iff {v : LuaData} : v.isNil = true ↔ v = .nil := by
  constructor
  · intro h
    unfold LuaData.isNil at h
    split at h
    · rfl
    · cases h
  · rintro rfl
    rfl

/-! ## Numbers -/

/-- The exponent field of a double. -/
def realExponent (bits : UInt64) : ℕ := bits.toNat / 2 ^ 52 % 2 ^ 11

/-- The fraction field of a double. -/
def realFraction (bits : UInt64) : ℕ := bits.toNat % 2 ^ 52

/-- `luai_numisnan`. -/
def realIsNaN (bits : UInt64) : Bool := realExponent bits = 2047 && realFraction bits ≠ 0

/-- The absolute value of a double, if it is a whole number. -/
def realWhole (bits : UInt64) : Option ℕ :=
  let e := realExponent bits
  let m := 2 ^ 52 + realFraction bits
  if e = 2047 then none
  else if e = 0 then if realFraction bits = 0 then some 0 else none
  else if 1075 ≤ e then some (m * 2 ^ (e - 1075))
  else if m % 2 ^ (1075 - e) = 0 then some (m / 2 ^ (1075 - e)) else none

/-- `luaV_tointeger` of a double, without rounding. -/
def realToInteger (bits : UInt64) : Option Int64 :=
  (realWhole bits).bind fun n ↦
    let i : Int := if 2 ^ 63 ≤ bits.toNat then -n else n
    if -2 ^ 63 ≤ i ∧ i < 2 ^ 63 then some (.ofInt i) else none

/-! ## Keys -/

/-- The key under which `luaH_newkey` files a key; none if it raises an error. -/
def LuaScalar.toKey : LuaScalar → Option LuaScalar
  | .nil => none
  | .real bits =>
    match realToInteger bits with
    | some i => some (.integer i)
    | none => if realIsNaN bits then none else some (.real bits)
  | k => some k

/-- A key of a pair that the table has. -/
def LuaScalar.IsKey (k : LuaScalar) : Prop := k.toKey = some k

instance LuaScalar.decidableIsKey (k : LuaScalar) : Decidable k.IsKey :=
  inferInstanceAs (Decidable (k.toKey = some k))

/-! ## Values to pack -/

mutual

/-- How deep tables are nested. -/
def LuaObject.depth : LuaObject → ℕ
  | .scalar _ => 0
  | .table pairs _ _ => depthPairs pairs + 1

def depthPairs : List (LuaObject × LuaObject) → ℕ
  | [] => 0
  | (k, v) :: pairs => max (max k.depth v.depth) (depthPairs pairs)

end

/-- The value that the pairs have for a key that is not a table. -/
def getOf : List (LuaData × LuaData) → LuaScalar → LuaData
  | [], _ => .nil
  | (.scalar k', v) :: pairs, k => if k' = k then v else getOf pairs k
  | (.table _ _, _) :: pairs, k => getOf pairs k

/-- The pairs whose key is a table. -/
def keyedOf (pairs : List (LuaData × LuaData)) : List (LuaData × LuaData) :=
  pairs.filter fun p ↦
    match p.1 with
    | .scalar _ => false
    | .table _ _ => true

mutual

/-- What the value holds. -/
def LuaObject.data : LuaObject → LuaData
  | .scalar s => .scalar s
  | .table pairs _ _ => .table (getOf (dataPairs pairs)) (keyedOf (dataPairs pairs))

def dataPairs : List (LuaObject × LuaObject) → List (LuaData × LuaData)
  | [] => []
  | (k, v) :: pairs => (k.data, v.data) :: dataPairs pairs

end

/-- The keys that are not tables. -/
def keysOf (pairs : List (LuaObject × LuaObject)) : List LuaScalar :=
  pairs.filterMap fun p ↦
    match p.1 with
    | .scalar k => some k
    | .table _ _ _ => none

def LuaObject.isNil : LuaObject → Bool
  | .scalar .nil => true
  | _ => false

/-- `lua_rawgeti`. -/
def rawgeti : List (LuaObject × LuaObject) → ℕ → LuaObject
  | [], _ => .scalar .nil
  | (.scalar k, v) :: pairs, i => if k = .integer (.ofNat i) then v else rawgeti pairs i
  | (.table _ _ _, _) :: pairs, i => rawgeti pairs i

/-- Neither of a type that is not packed, nor too long a string. -/
def LuaScalar.Plain : LuaScalar → Prop
  | .string bytes => bytes.length < 2 ^ 31
  | .other _ => False
  | _ => True

instance LuaScalar.decidablePlain : ∀ s : LuaScalar, Decidable s.Plain
  | .string bytes => inferInstanceAs (Decidable (bytes.length < 2 ^ 31))
  | .other _ => .isFalse id
  | .nil | .boolean _ | .integer _ | .real _ | .userdata _ => .isTrue trivial

mutual

/-- A value to pack whose tables have no `__pairs` and no keys that are tables. `lua_next` goes over
keys as a table files them, over each once, and not over nil; `luaH_getn` returns an `int`. -/
def LuaObject.Plain : LuaObject → Prop
  | .scalar s => s.Plain
  | .table pairs rawlen metapairs => PlainPairs pairs ∧ rawlen < 2 ^ 31 ∧ metapairs.isNone = true

def PlainPairs : List (LuaObject × LuaObject) → Prop
  | [] => True
  | (.scalar k, v) :: pairs =>
    (k.IsKey ∧ k.Plain ∧ k ∉ keysOf pairs) ∧ (v.Plain ∧ v.isNil = false) ∧ PlainPairs pairs
  | (.table _ _ _, _) :: _ => False

end

mutual

instance LuaObject.decidablePlain : ∀ v : LuaObject, Decidable v.Plain
  | .scalar s => inferInstanceAs (Decidable s.Plain)
  | .table pairs rawlen metapairs =>
    have := decidablePlainPairs pairs
    inferInstanceAs
      (Decidable (PlainPairs pairs ∧ rawlen < 2 ^ 31 ∧ metapairs.isNone = true))

instance decidablePlainPairs : ∀ pairs, Decidable (PlainPairs pairs)
  | [] => .isTrue trivial
  | (.scalar k, v) :: pairs =>
    have := LuaObject.decidablePlain v
    have := decidablePlainPairs pairs
    inferInstanceAs (Decidable ((k.IsKey ∧ k.Plain ∧ k ∉ keysOf pairs) ∧
      (v.Plain ∧ v.isNil = false) ∧ PlainPairs pairs))
  | (.table _ _ _, _) :: _ => .isFalse id

end

/-! ## Tables that are being filled -/

/-- A table. -/
structure LuaTable where
  get : LuaScalar → LuaData
  keyed : List (LuaData × LuaData)

namespace LuaTable

/-- `lua_createtable`. -/
def empty : LuaTable := ⟨fun _ ↦ .nil, []⟩

def data (t : LuaTable) : LuaData := .table t.get t.keyed

def set (t : LuaTable) (k : LuaScalar) (v : LuaData) : LuaTable :=
  { t with get := Function.update t.get k v }

/-- `lua_rawseti`. -/
def rawseti (t : LuaTable) (i : ℕ) (v : LuaData) : LuaTable := t.set (.integer (.ofNat i)) v

/-- `lua_rawset`; none if it raises an error. A table that is a key is no other than itself. -/
def rawset (t : LuaTable) (k v : LuaData) : Option LuaTable :=
  match k with
  | .scalar s => s.toKey.map fun key ↦ t.set key v
  | .table _ _ => some (if v.isNil then t else { t with keyed := t.keyed ++ [(k, v)] })

end LuaTable

end ZTask
