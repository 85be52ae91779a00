import ZTask.Seri.Unpack
import Mathlib.Tactic.MkIffOfInductiveProp

/-!
# The serialized format

Which bytes mean which value (`Encodes`), independently of the program, and where a string length of
`2^31` or more stands in the place of a value (`Oversized`). `unpackOne` reads the format and breaks
on the latter, which is all it breaks on (`unpackOne_reads`).
-/

namespace ZTask

open Lib

/-! ## Parts -/

def kindOf (t : UInt8) : ℕ := t.toNat % 8

def cookieOf (t : UInt8) : ℕ := t.toNat / 8

/-- The bytes of an integer behind its type byte. -/
@[mk_iff]
inductive IntegerBytes : ℕ → List UInt8 → Int64 → Prop
  | zero : IntegerBytes typeNumberZero [] 0
  | byte {e : List UInt8} : e.length = 1 → IntegerBytes typeNumberByte e (.ofNat (ofLittle e))
  | word {e : List UInt8} : e.length = 2 → IntegerBytes typeNumberWord e (.ofNat (ofLittle e))
  | dword {e : List UInt8} :
      e.length = 4 → IntegerBytes typeNumberDword e (.ofInt (toInt32 (ofLittle e)))
  | qword {e : List UInt8} : e.length = 8 → IntegerBytes typeNumberQword e (.ofNat (ofLittle e))

/-- The size of the array part, in the cookie or behind it. -/
@[mk_iff]
inductive ArraySize : ℕ → List UInt8 → Int → Prop
  | short {c : ℕ} : c ≠ maxCookie - 1 → ArraySize c [] c
  | long {t : UInt8} {e : List UInt8} {i : Int64} : kindOf t = typeNumber →
      cookieOf t ≠ typeNumberReal → IntegerBytes (cookieOf t) e i →
      ArraySize (maxCookie - 1) (t :: e) (toInt32 i.toInt)

/-! ## Tables -/

/-- A key that a table takes. -/
def LuaData.IsIndex : LuaData → Prop
  | .scalar k => k.toKey.isSome = true
  | .table _ _ => True

/-- A key and its value. -/
inductive PairOf (R : List UInt8 → LuaData → Prop) : List UInt8 → LuaData × LuaData → Prop
  | mk {e e' : List UInt8} {k v : LuaData} :
      R e k → k.IsIndex → R e' v → PairOf R (e ++ e') (k, v)

namespace LuaTable

/-- `rawset` of a key that the table takes. -/
def put (t : LuaTable) (p : LuaData × LuaData) : LuaTable := (t.rawset p.1 p.2).getD t

/-- Fill in the elements from `i` on. -/
def putArray (t : LuaTable) : ℕ → List LuaData → LuaTable
  | _, [] => t
  | i, v :: vs => (t.rawseti i v).putArray (i + 1) vs

/-- The table with these elements and pairs. -/
def of (values : List LuaData) (pairs : List (LuaData × LuaData)) : LuaTable :=
  pairs.foldl put (empty.putArray 1 values)

end LuaTable

/-! ## Values -/

/-- **The format**: the bytes mean the value. -/
@[mk_iff]
inductive Encodes : List UInt8 → LuaData → Prop
  | nil {t : UInt8} : kindOf t = typeNil → Encodes [t] .nil
  | boolean {t : UInt8} : kindOf t = typeBoolean → Encodes [t] (.scalar (.boolean (cookieOf t ≠ 0)))
  | integer {t : UInt8} {e : List UInt8} {i : Int64} : kindOf t = typeNumber →
      IntegerBytes (cookieOf t) e i → Encodes (t :: e) (.scalar (.integer i))
  | real {t : UInt8} {e : List UInt8} : kindOf t = typeNumber → cookieOf t = typeNumberReal →
      e.length = 8 → Encodes (t :: e) (.scalar (.real (.ofNat (ofLittle e))))
  | userdata {t : UInt8} {e : List UInt8} : kindOf t = typeUserdata → e.length = 8 →
      Encodes (t :: e) (.scalar (.userdata (.ofNat (ofLittle e))))
  | shortString {t : UInt8} {e : List UInt8} : kindOf t = typeShortString →
      e.length = cookieOf t → Encodes (t :: e) (.scalar (.string e))
  | wordString {t : UInt8} {n e : List UInt8} : kindOf t = typeLongString → cookieOf t = 2 →
      n.length = 2 → e.length = ofLittle n → Encodes (t :: (n ++ e)) (.scalar (.string e))
  | dwordString {t : UInt8} {n e : List UInt8} : kindOf t = typeLongString → cookieOf t = 4 →
      n.length = 4 → e.length = ofLittle n → ofLittle n < 2 ^ 31 →
      Encodes (t :: (n ++ e)) (.scalar (.string e))
  | table {t : UInt8} {h a q z : List UInt8} {n : Int} {values : List LuaData}
      {pairs : List (LuaData × LuaData)} : kindOf t = typeTable → ArraySize (cookieOf t) h n →
      Concat Encodes a values → values.length = n.toNat → Concat (PairOf Encodes) q pairs →
      Encodes z .nil → Encodes (t :: (h ++ (a ++ (q ++ z)))) (LuaTable.of values pairs).data

/-! ## Tables that end with the stream -/

/-- **What the format has no place for**: a string length of `2^31` or more stands where a value is
expected, behind whole values and what begins a table. -/
@[mk_iff]
inductive Oversized : List UInt8 → Prop
  | size {t : UInt8} {n rest : List UInt8} : kindOf t = typeLongString → cookieOf t = 4 →
      n.length = 4 → 2 ^ 31 ≤ ofLittle n → Oversized (t :: (n ++ rest))
  | element {t : UInt8} {h a rest : List UInt8} {n : Int} {values : List LuaData} :
      kindOf t = typeTable → ArraySize (cookieOf t) h n → Concat Encodes a values →
      values.length < n.toNat → Oversized rest → Oversized (t :: (h ++ (a ++ rest)))
  | key {t : UInt8} {h a q rest : List UInt8} {n : Int} {values : List LuaData}
      {pairs : List (LuaData × LuaData)} : kindOf t = typeTable → ArraySize (cookieOf t) h n →
      Concat Encodes a values → values.length = n.toNat → Concat (PairOf Encodes) q pairs →
      Oversized rest → Oversized (t :: (h ++ (a ++ (q ++ rest))))
  | value {t : UInt8} {h a q e rest : List UInt8} {n : Int} {values : List LuaData}
      {pairs : List (LuaData × LuaData)} {k : LuaData} : kindOf t = typeTable →
      ArraySize (cookieOf t) h n → Concat Encodes a values → values.length = n.toNat →
      Concat (PairOf Encodes) q pairs → Encodes e k → k.isNil = false → Oversized rest →
      Oversized (t :: (h ++ (a ++ (q ++ (e ++ rest)))))

/-- Such a length stands behind some values of a list. -/
def OversizedStream (bytes : List UInt8) : Prop :=
  ∃ e values rest, bytes = e ++ rest ∧ Concat Encodes e values ∧ Oversized rest

end ZTask
