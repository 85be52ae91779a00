import ZTask.Sharedata.Convert

/-!
# Reading converted tables

`lookup_key` follows the chain from the main position of a key; `index` and `nextkey` use it for the
hash part.
-/

namespace ZTask

open Lib

/-! ## Results -/

/-- What a lookup runs into. -/
inductive ConfFault
  /-- A node is read that the hash part does not have. -/
  | outOfBounds
  /-- A chain does not end. -/
  | endless
  /-- The index of a string is none. -/
  | noString
  /-- `"Invalid key %f"` -/
  | invalidKey (n : UInt64)
  /-- The argument is no string. -/
  | argument
deriving DecidableEq, Repr

/-- What is pushed for a value: a table is pushed as a light userdata. -/
inductive Pushed
  | nil
  | boolean (b : Bool)
  | integer (d : Int64)
  | real (n : UInt64)
  | string (s : List UInt8)
  | table (tbl : ℕ)
deriving DecidableEq, Repr

namespace ConfContext

/-! ## Keys -/

/-- `lua_tolstring` of an index of the state. -/
def toLString (c : ConfContext) (index : ℤ) : Except ConfFault (List UInt8) :=
  if 2 ≤ index then
    match c.strings[(index - 2).toNat]? with
    | some s => .ok s
    | none => .error .noString
  else .error .noString

/-- `pushvalue` -/
def pushvalue (c : ConfContext) : ConfValue → Except ConfFault Pushed
  | .nil => .ok .nil
  | .real n => .ok (.real n)
  | .integer d => .ok (.integer d)
  | .string string => (c.toLString string).map .string
  | .boolean b => .ok (.boolean b)
  | .table tbl => .ok (.table tbl)

/-- The key of a node is the one that is looked for; `keyhash` is the same. -/
def sameKey (c : ConfContext) (n : ConfNode) : ConfKey → Except ConfFault Bool
  | .integer key => .ok (match n.keytype with
    | .integer => decide (n.key = key)
    | .string => false)
  | .string str =>
    match n.keytype with
    | .integer => .ok false
    | .string => (c.toLString n.key).map fun str2 ↦ decide (str = str2)

/-! ## Lookup -/

/-- The loop of `lookup_key`, from a slot on. -/
def lookupLoop (c : ConfContext) (t : ConfTable) (keyhash : UInt32) (k : ConfKey) :
    ℕ → ℕ → Except ConfFault (Option ℕ)
  | 0, _ => .error .endless
  | fuel + 1, i =>
    if i < t.sizehash then do
      let n := t.hash i
      let found ← (if keyhash = n.keyhash then c.sameKey n k else .ok false)
      if found = true then .ok (some i)
      else if n.next < 0 then .ok none
      else lookupLoop c t keyhash k fuel n.next.toNat
    else .error .outOfBounds

/-- `lookup_key`; a chain has no more nodes than the hash part. -/
def lookupKey (c : ConfContext) (t : ConfTable) (keyhash : UInt32) (k : ConfKey) :
    Except ConfFault (Option ℕ) :=
  if t.sizehash = 0 then .ok none
  else
    let n := t.hash (keyhash.toNat % t.sizehash)
    if keyhash ≠ n.keyhash ∧ n.nocolliding = true then .ok none
    else lookupLoop c t keyhash k (t.sizehash + 1) (keyhash.toNat % t.sizehash)

/-- The key that an argument is looked up by. -/
def argument : LuaKey → Except ConfFault ConfKey
  | .integer d => .ok (.integer (toInt32 d.toInt))
  | .real n => .error (.invalidKey n)
  | .string s => .ok (.string s)
  | .table _ | .other _ => .error .argument

/-- The end of `lindexconf`: the value of the node that is found. -/
def indexHash (c : ConfContext) (t : ConfTable) (keyhash : UInt32) (k : ConfKey) :
    Except ConfFault (List Pushed) := do
  match ← c.lookupKey t keyhash k with
  | some n => (c.pushvalue (t.hash n).v).map fun v ↦ [v]
  | none => .ok []

/-- `lindexconf`: the values it returns. -/
def indexconf (c : ConfContext) (tbl : ℕ) (k : LuaKey) : Except ConfFault (List Pushed) := do
  let t := c.tables tbl
  match ← argument k with
  | .integer key =>
    if 0 < key ∧ key ≤ t.sizearray then (c.pushvalue (t.array (key - 1).toNat)).map fun v ↦ [v]
    else c.indexHash t (UInt32.ofInt key) (.integer key)
  | .string str => c.indexHash t (calchash str) (.string str)

/-! ## Visits -/

/-- `pushkey` -/
def pushkey (c : ConfContext) (n : ConfNode) : Except ConfFault LuaKey :=
  match n.keytype with
  | .integer => .ok (.integer (Int64.ofInt n.key))
  | .string => (c.toLString n.key).map .string

/-- `pushfirsthash` -/
def pushfirsthash (c : ConfContext) (t : ConfTable) : Except ConfFault (Option LuaKey) :=
  if t.sizehash = 0 then .ok none else (c.pushkey (t.hash 0)).map some

/-- The loops of `lnextkey` over the array part: the first key from a position on. -/
def nextArray (t : ConfTable) (i : ℕ) : Option ℕ :=
  (List.range' i (t.sizearray - i)).find? fun j ↦ decide (t.array j ≠ .nil)

/-- The key of a position of the array part. -/
def arrayKey (i : ℕ) : LuaKey := .integer (Int64.ofNat (i + 1))

/-- The next key from a position of the array part on. -/
def nextFrom (c : ConfContext) (t : ConfTable) (i : ℕ) : Except ConfFault (Option LuaKey) :=
  match nextArray t i with
  | some j => .ok (some (arrayKey j))
  | none => c.pushfirsthash t

/-- The end of `lnextkey`: the key behind the node that is found. -/
def nextHash (c : ConfContext) (t : ConfTable) (keyhash : UInt32) (k : ConfKey) :
    Except ConfFault (Option LuaKey) := do
  match ← c.lookupKey t keyhash k with
  | some n => if n + 1 = t.sizehash then .ok none else (c.pushkey (t.hash (n + 1))).map some
  | none => .ok none

/-- `lnextkey`: the next key, or none. -/
def nextkey (c : ConfContext) (tbl : ℕ) : Option LuaKey → Except ConfFault (Option LuaKey)
  | none => c.nextFrom (c.tables tbl) 0
  | some (.real _) => .ok none
  | some k => do
    let t := c.tables tbl
    match ← argument k with
    | .integer key =>
      if 0 < key ∧ key ≤ t.sizearray then c.nextFrom t key.toNat
      else c.nextHash t (UInt32.ofInt key) (.integer key)
    | .string str => c.nextHash t (calchash str) (.string str)

/-- The keys that `nextkey` visits from one on, until `nil`. -/
def visit (c : ConfContext) (tbl : ℕ) : ℕ → Option LuaKey → Except ConfFault (List LuaKey)
  | 0, _ => .error .endless
  | fuel + 1, k => do
    match ← c.nextkey tbl k with
    | none => .ok []
    | some k => (visit c tbl fuel (some k)).map fun ks ↦ k :: ks

end ConfContext

end ZTask
