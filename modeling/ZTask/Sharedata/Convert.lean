import ZTask.Lib.Word
import Mathlib.Data.Int.Notation
import Mathlib.Logic.Function.Basic

/-!
# Conversion of tables

`lua-sharedata.c`. A Lua table is converted to a `struct table`, with an array part for the keys up
to the length of the table and a hash part for all others; nested tables are converted on the way.
Strings become indices, of the stack of a state that keeps them.

The tables of Lua, and the memory that `malloc` hands out, are what the conversion finds: the first
are numbered, and so are the tables that it allocates, in their order. A table that contains itself
is converted until the stack of C calls is at its end.
-/

namespace ZTask

open Lib

/-! ## Lua tables -/

/-- A key of a Lua table. A `lua_Number` is given by its bits. -/
inductive LuaKey
  | integer (d : Int64)
  | string (s : List UInt8)
  | real (n : UInt64)
  | table (ref : ℕ)
  | other (typename : String)
deriving DecidableEq, Repr

/-- A value of a Lua table, other than `nil`. -/
inductive LuaValue
  | boolean (b : Bool)
  | integer (d : Int64)
  | real (n : UInt64)
  | string (s : List UInt8)
  | table (ref : ℕ)
  | other (typename : String)
deriving DecidableEq, Repr

/-- A Lua table: its entries in the order of `lua_next`, and what `lua_rawlen` is. -/
structure SourceTable where
  entries : List (LuaKey × LuaValue)
  length : ℕ
  nodup : (entries.map Prod.fst).Nodup

/-- `t[k]` -/
def SourceTable.get (t : SourceTable) (k : LuaKey) : Option LuaValue :=
  (t.entries.find? fun e ↦ decide (e.1 = k)).map Prod.snd

/-! ## Converted tables -/

/-- `union value`, with `VALUETYPE` -/
inductive ConfValue
  | nil
  | real (n : UInt64)
  | string (string : ℕ)
  | boolean (b : Bool)
  | table (tbl : ℕ)
  | integer (d : Int64)
deriving DecidableEq, Repr

/-- `KEYTYPE` -/
inductive KeyType
  | integer
  | string
deriving DecidableEq, Repr

/-- `struct node` -/
structure ConfNode where
  v : ConfValue
  key : ℤ
  next : ℤ
  keyhash : UInt32
  keytype : KeyType
  nocolliding : Bool
deriving DecidableEq, Repr

/-- `struct table` -/
structure ConfTable where
  sizearray : ℕ
  sizehash : ℕ
  array : ℕ → ConfValue
  hash : ℕ → ConfNode

/-- `struct context`, with the strings of its state and all the tables. -/
structure ConfContext where
  /-- The keys of the string map, by their index; the first index is 2. -/
  strings : List (List UInt8)
  tables : ℕ → ConfTable
  /-- The tables allocated so far. -/
  allocated : ℕ
  tbl : ℕ

/-- How a conversion fails. -/
inductive ConfError
  /-- `"Invalid key %f"` -/
  | invalidKey (n : UInt64)
  /-- `"Invalid key type %s"` -/
  | invalidKeyType (typename : String)
  /-- `"Unsupport value type %s"` -/
  | unsupportedValue (typename : String)
  /-- `"memory error"` -/
  | memory
  /-- The stack of C calls, or that of the state, is at its end. -/
  | stack
  /-- An assertion fails. -/
  | assertion
  /-- An `int` is counted up beyond its range. -/
  | overflow
deriving DecidableEq, Repr

/-- `countsize` -/
def countsize (sizearray : ℕ) : List (LuaKey × LuaValue) → ℕ → Except ConfError ℕ
  | [], n => .ok n
  | (k, _) :: rest, n =>
    if n + 1 < 2 ^ 31 then
      match k with
      | .integer nkey =>
        if 0 < nkey.toInt ∧ nkey.toInt ≤ sizearray then countsize sizearray rest n
        else countsize sizearray rest (n + 1)
      | .real x => .error (.invalidKey x)
      | .string _ | .table _ => countsize sizearray rest (n + 1)
      | .other typename => .error (.invalidKeyType typename)
    else .error .overflow

/-- The loop of `calchash`; it is at most as long as the string. -/
def calchashLoop (str : List UInt8) (step : ℕ) : ℕ → ℕ → UInt32 → UInt32
  | 0, _, h => h
  | k + 1, l1, h =>
    if step ≤ l1 then
      calchashLoop str step k (l1 - step)
        (h ^^^ ((h <<< 5) + (h >>> 2) + (str.getD (l1 - 1) 0).toUInt32))
    else h

/-- `calchash` -/
def calchash (str : List UInt8) : UInt32 :=
  calchashLoop str ((str.length >>> 5) + 1) str.length str.length (UInt32.ofNat str.length)

/-- What becomes of a key: an integer is cut down to an `int`. A key that is no number is taken for
a string, and one that is no string has the bytes of the empty one. -/
inductive ConfKey
  | integer (key : ℤ)
  | string (s : List UInt8)
deriving DecidableEq, Repr

def LuaKey.conf : LuaKey → ConfKey
  | .integer d => .integer (toInt32 d.toInt)
  | .real _ => .integer 0
  | .string s => .string s
  | .table _ | .other _ => .string []

/-- The key is one of the array part. -/
def ConfKey.isArray (sizearray : ℕ) : ConfKey → Bool
  | .integer key => decide (0 < key ∧ key ≤ sizearray)
  | .string _ => false

/-- The hash of a key. -/
def ConfKey.keyhash : ConfKey → UInt32
  | .integer key => UInt32.ofInt key
  | .string s => calchash s

namespace ConfContext

/-- The table that is converted. -/
def table (ctx : ConfContext) : ConfTable := ctx.tables ctx.tbl

def setTable (ctx : ConfContext) (t : ConfTable) : ConfContext :=
  { ctx with tables := Function.update ctx.tables ctx.tbl t }

/-- A node of the table is written. -/
def setNode (ctx : ConfContext) (i : ℕ) (n : ConfNode) : ConfContext :=
  ctx.setTable { ctx.table with hash := Function.update ctx.table.hash i n }

/-- `stringindex` -/
def stringindex (ctx : ConfContext) (s : List UInt8) : ℕ × ConfContext :=
  match ctx.strings.findIdx? fun s' ↦ decide (s' = s) with
  | some i => (i + 2, ctx)
  | none => (ctx.strings.length + 2, { ctx with strings := ctx.strings ++ [s] })

/-- What `ishashkey` finds: a key of the array part, or one of the hash part. -/
inductive IsHashKey
  | array (key : ℤ)
  | hash (key : ℤ) (keyhash : UInt32) (keytype : KeyType)

/-- `ishashkey` -/
def ishashkey (ctx : ConfContext) (k : LuaKey) : IsHashKey × ConfContext :=
  match k.conf with
  | .integer key =>
    if 0 < key ∧ key ≤ ctx.table.sizearray then (.array key, ctx)
    else (.hash key (UInt32.ofInt key) .integer, ctx)
  | .string s =>
    let (index, ctx) := ctx.stringindex s
    (.hash index (calchash s) .string, ctx)

/-- A table is allocated, and cleared. -/
def alloc (ctx : ConfContext) : ConfContext := { ctx with
  tables := Function.update ctx.tables ctx.allocated
    ⟨0, 0, fun _ ↦ .nil, fun _ ↦ ⟨.nil, 0, 0, 0, .integer, false⟩⟩
  allocated := ctx.allocated + 1
  tbl := ctx.allocated }

section

variable (convert : ConfContext → ℕ → Except ConfError ConfContext)

/-- `setvalue`; `convert` is the call of `convtable`. -/
def setvalue (ctx : ConfContext) : Option LuaValue → Except ConfError (ConfValue × ConfContext)
  | none => .ok (.nil, ctx)
  | some (.integer d) => .ok (.integer d, ctx)
  | some (.real n) => .ok (.real n, ctx)
  | some (.string s) => .ok (.string (ctx.stringindex s).1, (ctx.stringindex s).2)
  | some (.boolean b) => .ok (.boolean b, ctx)
  | some (.table ref) => do
    let tbl := ctx.tbl
    let ctx ← convert ctx.alloc ref
    .ok (.table ctx.tbl, { ctx with tbl := tbl })
  | some (.other typename) => .error (.unsupportedValue typename)

/-- `setarray` -/
def setarray (ctx : ConfContext) (v : Option LuaValue) (key : ℤ) :
    Except ConfError ConfContext := do
  let (v, ctx) ← setvalue convert ctx v
  .ok (ctx.setTable { ctx.table with array := Function.update ctx.table.array (key - 1).toNat v })

/-- The fields of a node but for its value, and then the value. -/
def fillNode (ctx : ConfContext) (i : ℕ) (n : ConfNode) (v : LuaValue) :
    Except ConfError ConfContext := do
  let ctx := ctx.setNode i { n with v := (ctx.table.hash i).v }
  let (v, ctx) ← setvalue convert ctx (some v)
  .ok (ctx.setNode i { ctx.table.hash i with v := v })

/-- The body of the loop of `fillnocolliding`. -/
def placeFirst (ctx : ConfContext) (k : LuaKey) (v : LuaValue) : Except ConfError ConfContext :=
  let (place, ctx) := ctx.ishashkey k
  match place with
  | .array key => setarray convert ctx (some v) key
  | .hash key keyhash keytype =>
    let i := keyhash.toNat % ctx.table.sizehash
    if (ctx.table.hash i).v = .nil then
      fillNode convert ctx i ⟨.nil, key, -1, keyhash, keytype, true⟩ v
    else .ok ctx

/-- `fillnocolliding` -/
def fillnocolliding : List (LuaKey × LuaValue) → ConfContext → Except ConfError ConfContext
  | [], ctx => .ok ctx
  | (k, v) :: rest, ctx => do
    let ctx ← placeFirst convert ctx k v
    fillnocolliding rest ctx

/-- The first slot with nothing in it. -/
def emptySlot (t : ConfTable) : Option ℕ :=
  (List.range t.sizehash).find? fun i ↦ decide ((t.hash i).v = .nil)

/-- The body of the loop of `fillcolliding`. -/
def placeColliding (ctx : ConfContext) (k : LuaKey) (v : LuaValue) : Except ConfError ConfContext :=
  let (place, ctx) := ctx.ishashkey k
  match place with
  | .array _ => .ok ctx
  | .hash key keyhash keytype =>
    let p := keyhash.toNat % ctx.table.sizehash
    let mainpos := ctx.table.hash p
    if mainpos.keytype = keytype ∧ mainpos.key = key then .ok ctx
    else
      match emptySlot ctx.table with
      | none => .error .assertion
      | some i =>
        let ctx := ctx.setNode p { mainpos with next := i, nocolliding := false }
        fillNode convert ctx i ⟨.nil, key, mainpos.next, keyhash, keytype, false⟩ v

/-- `fillcolliding` -/
def fillcolliding : List (LuaKey × LuaValue) → ConfContext → Except ConfError ConfContext
  | [], ctx => .ok ctx
  | (k, v) :: rest, ctx => do
    let ctx ← placeColliding convert ctx k v
    fillcolliding rest ctx

/-- The loop of `convtable` for a table without a hash part. -/
def fillarray (t : SourceTable) : ℕ → ℕ → ConfContext → Except ConfError ConfContext
  | 0, _, ctx => .ok ctx
  | c + 1, i, ctx => do
    let ctx ← setarray convert ctx (t.get (.integer (Int64.ofNat i))) i
    fillarray t c (i + 1) ctx

end

/-- `convtable`, without the calls for nested tables. -/
def convtableWith (convert : ConfContext → ℕ → Except ConfError ConfContext)
    (junk : ℕ → ℕ → ConfNode)
    (t : SourceTable) (ctx : ConfContext) : Except ConfError ConfContext := do
  let sizearray := toInt32 t.length
  if sizearray < 0 then .error .memory
  else
    let ctx := ctx.setTable
      { ctx.table with sizearray := sizearray.toNat, array := fun _ ↦ .nil }
    let sizehash ← countsize sizearray.toNat t.entries 0
    if sizehash = 0 then fillarray convert t sizearray.toNat 1 ctx
    else
      let ctx := ctx.setTable { ctx.table with
        sizehash := sizehash
        hash := fun i ↦ { junk ctx.tbl i with v := .nil, nocolliding := false } }
      let ctx ← fillnocolliding convert t.entries ctx
      fillcolliding convert t.entries ctx

/-- `convtable`; the first argument is how many C calls are left. -/
def convtable (lua : ℕ → SourceTable) (junk : ℕ → ℕ → ConfNode) :
    ℕ → ConfContext → ℕ → Except ConfError ConfContext
  | 0, _, _ => .error .stack
  | calls + 1, ctx, ref => convtableWith (convtable lua junk calls) junk (lua ref) ctx

end ConfContext

/-- `lnewconf`: the tables of Lua, what is in fresh memory, how deep C calls may be nested, the size
of the stack for the strings, and the table that is converted. The result is the table 0. -/
def newconf (lua : ℕ → SourceTable) (junk : ℕ → ℕ → ConfNode) (calls stack ref : ℕ) :
    Except ConfError ConfContext := do
  let ctx ← ConfContext.convtable lua junk calls
    (ConfContext.alloc ⟨[], fun _ ↦ ⟨0, 0, fun _ ↦ .nil, junk 0⟩, 0, 0⟩) ref
  if stack < ctx.strings.length + 1 + 3 then .error .stack else .ok ctx

end ZTask
