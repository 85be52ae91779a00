import ZTask.Lib.Machine
import ZTask.Seri.Value

/-!
# The datacenter

`datacenterd`: a tree of values, addressed by paths of keys, and a second tree of the requests that
wait for a value. Requests to wait are numbered as they come (`requests`); the number stands for the
closure that `ztask.response` returns.

A key of a path can be any value. A table has no field under `nil` or `NaN`: to read it is no error
and gives `nil`, to write it is one (`PathKey`). A command that comes to such a key raises an error
when the tables above it are created already, and leaves them behind; so the functions say what the
tree is like after an error too. `QUERY` and `WAIT` take a `nil` for the end of the path, and a path
without a key is one that begins with `nil`. A table that comes in a message is a key of its own,
under which nothing is ever found.

Whether `ztask.pack` packs a value is a parameter: it raises an error for functions, which the
string library has, and for tables that are nested too deep.
-/

namespace ZTask

open Lib

/-! ## Values -/

/-- A key that a table can have. -/
abbrev DataKey := { k : LuaScalar // k.IsKey }

/-- A key of a path, as it comes. -/
inductive PathKey
  | key (k : DataKey)
  | nil
  | nan

theorem LuaScalar.isKey_of_toKey {s k : LuaScalar} (h : s.toKey = some k) : k.IsKey := by
  rw [LuaScalar.IsKey]
  unfold LuaScalar.toKey at h
  split at h
  next => cases h
  next =>
    split at h
    · rw [← Option.some.inj h]
      rfl
    · split at h
      next => cases h
      next hint hnan =>
        rw [← Option.some.inj h, LuaScalar.toKey]
        simp only [hint, hnan]
        rfl
  next hnil hreal =>
    rw [← Option.some.inj h]
    unfold LuaScalar.toKey
    split
    next => exact absurd rfl hnil
    next bits => exact absurd rfl (hreal bits)
    next => rfl

namespace LuaData

/-- The key that a value is looked up as, if anything can be found under it. -/
def asKey : LuaData → Option DataKey
  | .scalar s =>
    match h : s.toKey with
    | some k => some ⟨k, LuaScalar.isKey_of_toKey h⟩
    | none => none
  | .table _ _ => none

def emptyTable : LuaData := .table (fun _ ↦ .nil) []

/-- The functions that a string has as fields. -/
def stringLibrary : List (List UInt8) :=
  ["byte", "char", "dump", "find", "format", "gmatch", "gsub", "len", "lower", "match", "rep",
    "reverse", "sub", "upper", "pack", "packsize", "unpack"].map ascii

/-- `db[key]` for a key that a table can have; an error is raised if `db` is neither a table nor a
string. -/
def index : LuaData → DataKey → Option LuaData
  | .table get _, key => some (get key.1)
  | .scalar (.string _), key =>
    some (if ∃ name ∈ stringLibrary, key.1 =
      .string name then .scalar (.other "function") else .nil)
  | _, _ => none

/-- `db[key] = value` for such a key. -/
def setindex : LuaData → DataKey → LuaData → Option LuaData
  | .table get keyed, key, value => some (.table (Function.update get key.1 value) keyed)
  | _, _, _ => none

/-- `db[key]`. -/
def read : LuaData → PathKey → Option LuaData
  | db, .key key => db.index key
  | .table _ _, _ => some .nil
  | .scalar (.string _), _ => some .nil
  | _, _ => none

/-- `db[key] = value`. -/
def write : LuaData → PathKey → LuaData → Option LuaData
  | db, .key key, value => db.setindex key value
  | _, _, _ => none

end LuaData

/-! ## Requests that wait -/

/-- A node of `wait_queue`. -/
inductive WaitNode (K : Type)
  | nil
  | queue (responses : List ℕ)
  | branch (get : K → WaitNode K)

/-- The nodes below a node, which becomes a branch if there is none; nothing if it is a queue. -/
def WaitNode.branch? {K : Type} : WaitNode K → Option (K → WaitNode K)
  | .nil => some fun _ ↦ .nil
  | .branch q => some q
  | .queue _ => none

/-- What `wakeup` does: the responses that it calls with `false`, the queue that it returns, and
what is left. -/
structure WokenUp (K : Type) where
  failed : List ℕ
  found : Option (List ℕ)
  db : K → WaitNode K

structure Datacenter where
  database : LuaData
  waitQueue : DataKey → WaitNode DataKey
  requests : ℕ

inductive DatacenterInput
  | query (key : PathKey) (keys : List PathKey)
  | update (key : PathKey) (keys : List PathKey) (value : LuaData)
  | wait (key : PathKey) (keys : List PathKey)

/-- What the others get to see; no value stands for an error. -/
inductive DatacenterEffect
  /-- A command that is not `WAIT` is answered. -/
  | ret (value : Option LuaData)
  /-- The request to wait of this number is answered. -/
  | response (k : ℕ) (value : Option LuaData)

namespace Datacenter

def init : Datacenter := ⟨.emptyTable, fun _ ↦ .nil, 0⟩

/-- The end of `waitfor`: the request is pushed to the queue at the key. -/
def pushResponse (db : DataKey → WaitNode DataKey) (key1 : DataKey) (k : ℕ) :
    Bool × (DataKey → WaitNode DataKey) :=
  match db key1 with
  | .nil => (true, Function.update db key1 (.queue [k]))
  | .queue q => (true, Function.update db key1 (.queue (q ++ [k])))
  | .branch _ => (false, db)

/-- `waitfor`, of the request `k`: whether it raises no error, and the tree afterwards. -/
def waitfor : (DataKey → WaitNode DataKey) → PathKey → List PathKey → ℕ →
    Bool × (DataKey → WaitNode DataKey)
  | db, .key key1, [], k | db, .key key1, .nil :: _, k => pushResponse db key1 k
  | db, .key key1, key2 :: keys, k =>
    match (db key1).branch? with
    | none => (false, db)
    | some q =>
      let r := waitfor q key2 keys k
      (r.1, Function.update db key1 (.branch r.2))
  | db, _, _, _ => (false, db)

section

variable {K : Type} [DecidableEq K]

/-- `wakeup`. Its arguments are the keys of a path and, behind them, the value that is stored there.
-/
def wakeup : (K → WaitNode K) → List (Option K) → WokenUp K
  | db, [] => ⟨[], none, db⟩
  | db, none :: _ => ⟨[], none, db⟩
  | db, some key1 :: rest =>
    match db key1 with
    | .nil => ⟨[], none, db⟩
    | .queue q =>
      let db := Function.update db key1 .nil
      if rest.length ≠ 1 then ⟨q, none, db⟩ else ⟨[], some q, db⟩
    | .branch q =>
      let r := wakeup q rest
      { r with db := Function.update db key1 (.branch r.db) }

end

/-! ## The commands -/

/-- `query`; none if an index operation raises an error. -/
def query : LuaData → List PathKey → Option LuaData
  | db, [] => some db
  | db, .nil :: _ => some db
  | db, key :: keys => (db.read key).bind fun d ↦ query d keys

/-- `command.QUERY`. -/
def commandQuery (database : LuaData) (key : PathKey) (keys : List PathKey) : Option LuaData :=
  match database.read key with
  | none => none
  | some d => if d.truthy then query d keys else some .nil

/-- `update`: the value that was there before, none if an error is raised, and the tree afterwards.
Tables are changed in place. -/
def update : LuaData → PathKey → List PathKey → LuaData → Option LuaData × LuaData
  | db, key, [], value =>
    match db.read key, db.write key value with
    | some ret, some db' => (some ret, db')
    | _, _ => (none, db)
  | db, key, key2 :: keys, value =>
    match db.read key with
    | none => (none, db)
    | some d =>
      if d.isNil then
        match db.write key .emptyTable with
        | none => (none, db)
        | some db' =>
          let r := update .emptyTable key2 keys value
          (r.1, (db'.write key r.2).getD db')
      else
        let r := update d key2 keys value
        (r.1, (db.write key r.2).getD db)

section

variable (packs : LuaData → Bool)

/-- `ztask.ret(ztask.pack(value))`. -/
def packed (value : LuaData) : Option LuaData := if packs value then some value else none

/-- An argument of `wakeup`, which finds nothing under a value that no table has for a key. -/
def wakeupKey : PathKey → Option DataKey
  | .key key => some key
  | .nil | .nan => none

/-- `command.UPDATE` and its answer. -/
def commandUpdate (m : Datacenter) (key : PathKey) (keys : List PathKey) (value : LuaData) :
    Datacenter × List DatacenterEffect :=
  let r := update m.database key keys value
  let m := { m with database := r.2 }
  match r.1 with
  | none => (m, [.ret none])
  | some ret =>
    if ret.truthy ∨ value.isNil then (m, [.ret (packed packs ret)])
    else
      let r := wakeup m.waitQueue ((key :: keys).map wakeupKey ++ [value.asKey])
      ({ m with waitQueue := r.db },
        r.failed.map (.response · none) ++ (r.found.getD []).map (.response · (some value)) ++
          [.ret (packed packs .nil)])

/-- `WAIT`. -/
def commandWait (m : Datacenter) (key : PathKey) (keys : List PathKey) :
    Datacenter × List DatacenterEffect :=
  let k := m.requests
  let m := { m with requests := k + 1 }
  match commandQuery m.database key keys with
  | none => (m, [.response k none])
  | some ret =>
    if ret.truthy then (m, [.response k (packed packs ret)])
    else
      let r := waitfor m.waitQueue key keys k
      ({ m with waitQueue := r.2 }, if r.1 then [] else [.response k none])

end

end Datacenter

/-- The service. -/
def datacenter (packs : LuaData → Bool) :
    Machine Datacenter DatacenterInput (List DatacenterEffect) Empty := fun m i ↦
  match i with
  | .query key keys =>
    .ok (m, [.ret ((Datacenter.commandQuery m.database key keys).bind (Datacenter.packed packs))])
  | .update key keys value => .ok (m.commandUpdate packs key keys value)
  | .wait key keys => .ok (m.commandWait packs key keys)

end ZTask
