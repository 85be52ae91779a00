import ZTask.Datacenter.Service
import Mathlib.Data.List.Infix

/-!
# The two trees

What an update does to the tree of values: below its path is the new value, above it are tables, and
besides it nothing appears that was not there (`update_spec`). An update that raises an error
changes nothing, or it has come to a key that no table has and has created tables up to there, which
is the update of an empty table for the keys before (`update_cases`). What `waitfor` and `wakeup` do
to the tree of requests: one puts a request at its path, the other takes away what waits at one
place, and leaves nothing waiting along its path (`wakeup_spec`, `wakeup_clears`).
-/

namespace ZTask

open Lib

namespace LuaData

variable {db db' v w d : LuaData} {key key' : DataKey}

def IsTable (v : LuaData) : Prop := ∃ get keyed, v = .table get keyed

private theorem setindex_spec (h : db.setindex key v = some db') :
    db.IsTable ∧ db'.IsTable ∧ db'.index key = some v ∧
      ∀ key', key' ≠ key → db'.index key' = db.index key' := by
  cases db with
  | scalar s => cases h
  | table get keyed =>
    obtain rfl := Option.some.inj h
    refine ⟨⟨_, _, rfl⟩, ⟨_, _, rfl⟩, ?_, fun key' hne ↦ ?_⟩
    · rw [index, Function.update_self]
    · have hval : key'.1 ≠ key.1 := fun heq ↦ hne (Subtype.ext heq)
      rw [index, Function.update_of_ne hval]
      rfl

theorem truthy_of_index (h : v.index key = some d) : v.truthy = true := by
  unfold index at h
  split at h
  · rfl
  · rfl
  · cases h

theorem ne_nil_of_truthy (h : v.truthy = true) : v ≠ .nil := by
  rintro rfl
  exact nomatch h

private theorem index_emptyTable : emptyTable.index key = some .nil := rfl

end LuaData

namespace Datacenter

open LuaData

variable {db db' v w ret : LuaData} {key : DataKey} {keys p : List DataKey}

/-! ## Values -/

/-- The keys up to the first one that no table has. -/
def pathOf : List PathKey → List DataKey
  | .key key :: keys => key :: pathOf keys
  | _ => []

/-- The value at a path of keys that a table can have. -/
def queryPath (db : LuaData) (p : List DataKey) : Option LuaData := query db (p.map .key)

theorem query_cons :
    queryPath db (key :: keys) = (db.index key).bind fun d ↦ queryPath d keys := rfl

private theorem query_nil_value (h : queryPath .nil p = some w) : w = .nil := by
  cases p with
  | nil => exact (Option.some.inj h).symm
  | cons key keys => cases h

theorem query_emptyTable (hp : p ≠ []) (h : queryPath emptyTable p = some w) : w = .nil := by
  obtain ⟨key, keys, rfl⟩ := List.exists_cons_of_ne_nil hp
  rw [query_cons, index_emptyTable] at h
  exact query_nil_value h

theorem read_improper {key : PathKey} (hkey : ∀ k, key ≠ .key k) (h : db.read key = some v) :
    v = .nil := by
  cases key with
  | key k => exact absurd rfl (hkey k)
  | nil | nan =>
    cases db with
    | table => exact (Option.some.inj h).symm
    | scalar s =>
      cases s with
      | string => exact (Option.some.inj h).symm
      | nil | boolean | integer | real | userdata | other => cases h

/-- What is found is at the path of the keys before the first one that no table has. -/
theorem queryPath_of_query {keys : List PathKey} (h : query db keys = some w) (hw : w ≠ .nil) :
    queryPath db (pathOf keys) = some w := by
  induction keys generalizing db with
  | nil => exact h
  | cons key keys ih =>
    cases key with
    | nil => exact h
    | key key =>
      obtain ⟨d, hd, hq⟩ := Option.bind_eq_some_iff.mp h
      rw [pathOf, query_cons, show db.index key = some d from hd]
      exact ih hq
    | nan =>
      -- there is nothing under it
      obtain ⟨d, hd, hq⟩ := Option.bind_eq_some_iff.mp h
      rw [read_improper (fun _ h ↦ by cases h) hd] at hq
      cases keys with
      | nil => exact absurd (Option.some.inj hq).symm hw
      | cons key2 keys =>
        cases key2 with
        | nil => exact absurd (Option.some.inj hq).symm hw
        | key | nan => cases hq

/-- `QUERY` finds what is there. -/
theorem query_of_command {key : PathKey} {keys : List PathKey}
    (h : commandQuery db key keys = some w)
    (hw : w ≠ .nil) : queryPath db (pathOf (key :: keys)) = some w := by
  rw [commandQuery] at h
  cases hd : db.read key with
  | none =>
    rw [hd] at h
    cases h
  | some d =>
    rw [hd] at h
    dsimp only at h
    by_cases htrue : d.truthy = true
    · rw [if_pos htrue] at h
      cases key with
      | key key =>
        rw [pathOf, query_cons, show db.index key = some d from hd]
        exact queryPath_of_query h hw
      | nil | nan =>
        rw [read_improper (fun _ h ↦ by cases h) hd] at htrue
        cases htrue
    · rw [if_neg htrue] at h
      exact absurd (Option.some.inj h).symm hw

/-- It finds everything but a false value under a path of one key. -/
theorem command_of_query (h : queryPath db (key :: keys) = some w)
    (hw : w.truthy = true ∨ keys ≠ []) :
    commandQuery db (.key key) (keys.map .key) = some w := by
  rw [query_cons] at h
  obtain ⟨d, hd, hq⟩ := Option.bind_eq_some_iff.mp h
  have htrue : d.truthy = true := by
    cases keys with
    | nil =>
      rw [Option.some.inj hq]
      exact hw.resolve_right fun hne ↦ hne rfl
    | cons key2 keys =>
      obtain ⟨d', hd', -⟩ := Option.bind_eq_some_iff.mp hq
      exact truthy_of_index hd'
  rw [commandQuery, show db.read (.key key) = some d from hd]
  dsimp only
  rw [if_pos htrue]
  exact hq

/-- **An update** is a command that puts the value under its path, with tables above it; what it
returns was there before, and besides the path there is nothing new. -/
structure Updated (db : LuaData) (path : List DataKey) (v ret db' : LuaData) : Prop where
  below : ∀ r, queryPath db' (path ++ r) = queryPath v r
  above : ∀ q, q <+: path → q ≠ path → ∃ d, queryPath db' q = some d ∧ d.IsTable
  before : ret ≠ .nil → queryPath db path = some ret
  besides : ∀ p w, ¬path <+: p → ¬p <+: path → queryPath db' p = some w → w ≠ .nil →
    queryPath db p = some w

private theorem prefix_cons_cases {q : List DataKey} (h : q <+: key :: keys) :
    q = [] ∨ ∃ q', q = key :: q' ∧ q' <+: keys := by
  cases q with
  | nil => exact Or.inl rfl
  | cons k q' =>
    obtain ⟨rfl, hq'⟩ := List.cons_prefix_cons.mp h
    exact Or.inr ⟨q', rfl, hq'⟩

/-- An update for keys that tables can have, if it raises no error. -/
def updatePath : LuaData → DataKey → List DataKey → LuaData → Option (LuaData × LuaData)
  | db, key, [], value =>
    match db.index key with
    | none => none
    | some ret => (db.setindex key value).map fun db ↦ (ret, db)
  | db, key, key2 :: keys, value =>
    match db.index key with
    | none => none
    | some d =>
      match updatePath (if d.isNil then .emptyTable else d) key2 keys value with
      | none => none
      | some (ret, d) => (db.setindex key d).map fun db ↦ (ret, db)

theorem update_spec (h : updatePath db key keys v = some (ret, db')) :
    Updated db (key :: keys) v ret db' := by
  induction keys generalizing db key ret db' with
  | nil =>
    rw [updatePath] at h
    cases hold : db.index key with
    | none =>
      rw [hold] at h
      cases h
    | some old =>
      rw [hold] at h
      obtain ⟨db₁, hset, heq⟩ := Option.map_eq_some_iff.mp h
      obtain ⟨rfl, rfl⟩ := Prod.mk.inj heq
      obtain ⟨-, htable, hkey, hothers⟩ := setindex_spec hset
      refine ⟨fun r ↦ ?_, fun q hq hne ↦ ?_, fun _ ↦ ?_, fun p w hp hp' hw _ ↦ ?_⟩
      · rw [List.singleton_append, query_cons, hkey]
        rfl
      · rcases prefix_cons_cases hq with rfl | ⟨q', rfl, hq'⟩
        · exact ⟨db₁, rfl, htable⟩
        · exact absurd (congrArg (key :: ·) (List.prefix_nil.mp hq')) hne
      · rw [query_cons, hold]
        rfl
      · cases p with
        | nil => exact absurd List.nil_prefix hp'
        | cons key' p =>
          have hne : key' ≠ key :=
            fun heq ↦ hp (heq ▸ List.cons_prefix_cons.mpr ⟨rfl, List.nil_prefix⟩)
          rw [query_cons, hothers key' hne] at hw
          exact hw
  | cons key2 keys ih =>
    rw [updatePath] at h
    split at h
    next => cases h
    next d hd =>
      split at h
      next => cases h
      next ret₁ d' hsub =>
        obtain ⟨db₁, hset, heq⟩ := Option.map_eq_some_iff.mp h
        obtain ⟨rfl, rfl⟩ := Prod.mk.inj heq
        obtain ⟨-, htable, hkey, hothers⟩ := setindex_spec hset
        have hchild := ih hsub
        -- a child that is created has nothing in it
        have hcreated : ∀ p w, queryPath (if d.isNil then .emptyTable else d) p = some w → p ≠ [] →
            w ≠ .nil → queryPath d p = some w := by
          intro p w hq hp hw
          split at hq
          · exact absurd (query_emptyTable hp hq) hw
          · exact hq
        refine ⟨fun r ↦ ?_, fun q hq hne ↦ ?_, fun hret ↦ ?_, fun p w hp hp' hw hnil ↦ ?_⟩
        · rw [List.cons_append, query_cons, hkey]
          exact hchild.below r
        · rcases prefix_cons_cases hq with rfl | ⟨q', rfl, hq'⟩
          · exact ⟨db₁, rfl, htable⟩
          · rw [query_cons, hkey]
            exact hchild.above q' hq' fun heq ↦ hne (congrArg (key :: ·) heq)
        · rw [query_cons, hd]
          exact hcreated _ _ (hchild.before hret) (List.cons_ne_nil _ _) hret
        · cases p with
          | nil => exact absurd List.nil_prefix hp'
          | cons key' p =>
            by_cases hk : key' = key
            · subst hk
              have hne : p ≠ [] := by
                rintro rfl
                exact hp' (List.cons_prefix_cons.mpr ⟨rfl, List.nil_prefix⟩)
              rw [query_cons, hkey] at hw
              rw [query_cons, hd]
              refine hcreated p w
                (hchild.besides p w (fun hpre ↦ ?_) (fun hpre ↦ ?_) hw hnil) hne hnil
              · exact hp (List.cons_prefix_cons.mpr ⟨rfl, hpre⟩)
              · exact hp' (List.cons_prefix_cons.mpr ⟨rfl, hpre⟩)
            · rw [query_cons, hothers key' hk] at hw
              exact hw

/-! ### Updates that raise an error -/

/-- What an update comes to: its path has only keys that tables have, and it is done; or an error is
raised, when tables have been created for the keys in front, or, if `P`, nothing has been changed.
-/
inductive Comes (P : Prop) (db : LuaData) (key : PathKey) (keys : List PathKey) (v : LuaData) :
    Option LuaData × LuaData → Prop
  | done {k : DataKey} {path : List DataKey} {ret db' : LuaData} :
      key :: keys = (k :: path).map .key → updatePath db k path v = some (ret, db') →
      Comes P db key keys v (some ret, db')
  | created {k : DataKey} {path : List DataKey} {db' : LuaData} : pathOf (key :: keys) = k :: path →
      updatePath db k path .emptyTable = some (.nil, db') → Comes P db key keys v (none, db')
  | unchanged : P → Comes P db key keys v (none, db)

section Comes

variable {key1 key2 : PathKey} {rest : List PathKey} {d : LuaData} {r : Option LuaData × LuaData}

theorem isTable_of_updatePath (h : updatePath db key keys v = some (ret, db')) : db.IsTable := by
  have hset : ∀ {w : LuaData} {f : LuaData → LuaData × LuaData} {x : LuaData × LuaData},
      (db.setindex key w).map f = some x → db.IsTable := by
    intro w f x hx
    obtain ⟨db₁, hdb, -⟩ := Option.map_eq_some_iff.mp hx
    exact (setindex_spec hdb).1
  cases hindex : db.index key with
  | none =>
    cases keys with
    | nil | cons =>
      rw [updatePath, hindex] at h
      cases h
  | some d =>
    cases keys with
    | nil =>
      rw [updatePath, hindex] at h
      exact hset h
    | cons key2 keys =>
      rw [updatePath, hindex] at h
      dsimp only at h
      cases hsub : updatePath (if d.isNil then .emptyTable else d) key2 keys v with
      | none =>
        rw [hsub] at h
        cases h
      | some p =>
        rw [hsub] at h
        exact hset h

private theorem isTable_of_index (h : db.index key = some d) (hd : d.IsTable) : db.IsTable := by
  obtain ⟨get, keyed, rfl⟩ := hd
  cases db with
  | table get keyed => exact ⟨_, _, rfl⟩
  | scalar s =>
    cases s with
    | string bytes =>
      have heq := Option.some.inj h
      split at heq <;> cases heq
    | nil | boolean | integer | real | userdata | other => cases h

private theorem updatePath_below {k : DataKey} (hdb : db.IsTable) (hindex : db.index key = some d)
    (h : updatePath (if d.isNil then .emptyTable else d) k keys v = some (ret, w)) :
    ∃ db', db.setindex key w = some db' ∧ updatePath db key (k :: keys) v = some (ret, db') := by
  obtain ⟨get, keyed, rfl⟩ := hdb
  refine ⟨_, rfl, ?_⟩
  rw [updatePath, hindex]
  dsimp only
  rw [h]
  rfl

private theorem setindex_index (h : db.index key = some d) : (db.setindex key d).getD db = db := by
  cases db with
  | scalar s => rfl
  | table get keyed =>
    obtain rfl := Option.some.inj h
    show LuaData.table (Function.update get key.1 (get key.1)) keyed = _
    rw [Function.update_eq_self]

/-- What is done in an empty table is done where there is nothing, when the table has been stored.
-/
theorem Comes.create {P : Prop} (h : Comes (pathOf (key2 :: rest) = []) .emptyTable key2 rest v r)
    (hindex : db.index key = some d) (hnil : d.isNil = true)
    (hdb : db.setindex key .emptyTable = some db') :
    Comes P db (.key key) (key2 :: rest) v (r.1, (db'.setindex key r.2).getD db') := by
  have htable := (setindex_spec hdb).1
  have hagain : ∀ {w db''}, db.setindex key w = some db'' → db'.setindex key w = some db'' := by
    intro w db'' hw
    obtain ⟨get, keyed, rfl⟩ := htable
    obtain rfl := Option.some.inj hdb
    rw [← hw]
    show some (LuaData.table (Function.update _ key.1 w) keyed) = _
    rw [Function.update_idem]
    rfl
  have hempty : (if d.isNil = true then emptyTable else d) = emptyTable := if_pos hnil
  cases h with
  | done hkeys hupdate =>
    obtain ⟨db'', hset, hpath⟩ := updatePath_below htable hindex (by rw [hempty]; exact hupdate)
    rw [hagain hset]
    exact .done (congrArg (PathKey.key key :: ·) hkeys) hpath
  | created hpath hupdate =>
    obtain ⟨db'', hset, hupdate'⟩ := updatePath_below htable hindex (by rw [hempty]; exact hupdate)
    rw [hagain hset]
    exact .created (congrArg (key :: ·) hpath) hupdate'
  | unchanged hpath =>
    rw [hagain hdb]
    refine .created (congrArg (key :: ·) hpath) ?_
    rw [updatePath, hindex]
    dsimp only
    rw [hdb, LuaData.isNil_iff.mp hnil]
    rfl

/-- What is done in a value is done below its key. -/
theorem Comes.below {P : Prop} (h : Comes True d key2 rest v r) (hindex : db.index key = some d)
    (hnil : d.isNil = false) (hP : P) :
    Comes P db (.key key) (key2 :: rest) v (r.1, (db.setindex key r.2).getD db) := by
  have hsame : (if d.isNil = true then emptyTable else d) = d := if_neg (by rw [hnil]; decide)
  cases h with
  | done hkeys hupdate =>
    have htable := isTable_of_index hindex (isTable_of_updatePath hupdate)
    obtain ⟨db', hset, hpath⟩ := updatePath_below htable hindex (by rw [hsame]; exact hupdate)
    rw [hset]
    exact .done (congrArg (PathKey.key key :: ·) hkeys) hpath
  | created hpath hupdate =>
    have htable := isTable_of_index hindex (isTable_of_updatePath hupdate)
    obtain ⟨db', hset, hupdate'⟩ := updatePath_below htable hindex (by rw [hsame]; exact hupdate)
    rw [hset]
    exact .created (congrArg (key :: ·) hpath) hupdate'
  | unchanged =>
    rw [setindex_index hindex]
    exact .unchanged hP

theorem update_improper (hkey : ∀ k, key1 ≠ .key k) : update db key1 rest v = (none, db) := by
  have hwrite : ∀ w, db.write key1 w = none := fun w ↦ by
    cases key1 with
    | key k => exact absurd rfl (hkey k)
    | nil | nan => rfl
  cases hread : db.read key1 with
  | none =>
    cases rest with
    | nil | cons =>
      rw [update, hread]
  | some d =>
    rw [read_improper hkey hread] at hread
    cases rest with
    | nil => rw [update, hread, hwrite]
    | cons key2 rest =>
      rw [update, hread]
      dsimp only
      rw [if_pos (show LuaData.nil.isNil = true from rfl), hwrite]

private theorem update_emptyTable (key1 : PathKey) (rest : List PathKey) (v : LuaData) :
    Comes (pathOf (key1 :: rest) = []) .emptyTable key1 rest v
      (update .emptyTable key1 rest v) := by
  induction rest generalizing key1 with
  | nil =>
    cases key1 with
    | key key =>
      have hpath : [PathKey.key key] = [key].map .key := rfl
      exact .done hpath rfl
    | nil | nan => exact .unchanged rfl
  | cons key2 rest ih =>
    cases key1 with
    | key key => exact (ih key2).create index_emptyTable rfl rfl
    | nil | nan => exact .unchanged rfl

theorem update_cases (db : LuaData) (key1 : PathKey) (rest : List PathKey) (v : LuaData) :
    Comes True db key1 rest v (update db key1 rest v) := by
  induction rest generalizing db key1 with
  | nil =>
    cases key1 with
    | key key =>
      cases hindex : db.index key with
      | none =>
        rw [update, show db.read (.key key) = none from hindex]
        exact .unchanged trivial
      | some ret =>
        rw [update, show db.read (.key key) = some ret from hindex]
        cases hset : db.setindex key v with
        | none =>
          rw [show db.write (.key key) v = none from hset]
          exact .unchanged trivial
        | some db' =>
          rw [show db.write (.key key) v = some db' from hset]
          refine .done (show [PathKey.key key] = [key].map .key from rfl) ?_
          rw [updatePath, hindex]
          dsimp only
          rw [hset]
          rfl
    | nil | nan =>
      rw [update_improper fun _ h ↦ by cases h]
      exact .unchanged trivial
  | cons key2 rest ih =>
    cases key1 with
    | key key =>
      cases hindex : db.index key with
      | none =>
        rw [update, show db.read (.key key) = none from hindex]
        exact .unchanged trivial
      | some d =>
        rw [update, show db.read (.key key) = some d from hindex]
        dsimp only
        cases hnil : d.isNil with
        | true =>
          rw [if_pos rfl]
          cases hset : db.setindex key .emptyTable with
          | none =>
            rw [show db.write (.key key) .emptyTable = none from hset]
            exact .unchanged trivial
          | some db' =>
            rw [show db.write (.key key) .emptyTable = some db' from hset]
            exact (update_emptyTable key2 rest v).create hindex hnil hset
        | false =>
          rw [if_neg (by decide)]
          exact (ih d key2).below hindex hnil trivial
    | nil | nan =>
      rw [update_improper fun _ h ↦ by cases h]
      exact .unchanged trivial

end Comes

end Datacenter

/-! ## Requests that wait -/

namespace WaitNode

variable {K : Type}

/-- What waits at a path, in the order in which it is answered. -/
def waiting : WaitNode K → List K → List ℕ
  | node, [] =>
    match node with
    | .queue q => q
    | _ => []
  | node, key :: keys =>
    match node with
    | .branch get => (get key).waiting keys
    | _ => []

variable {db db' : K → WaitNode K} {key : K} {keys p : List K} {node : WaitNode K}
    {q : List ℕ} {k : ℕ}

theorem waiting_nil (p : List K) : (nil : WaitNode K).waiting p = [] := by
  cases p <;> rfl

theorem waiting_unit : (branch fun _ ↦ (nil : WaitNode K)).waiting =
    (nil : WaitNode K).waiting := by
  funext p
  cases p with
  | nil => rfl
  | cons key keys => exact waiting_nil keys

variable [DecidableEq K]

private theorem waiting_queue (q : List ℕ) :
    (queue q : WaitNode K).waiting = Function.update (nil : WaitNode K).waiting [] q := by
  funext p'
  cases p' with
  | nil =>
    rw [Function.update_self]
    rfl
  | cons key keys =>
    rw [Function.update_of_ne (List.cons_ne_nil key keys)]
    rfl

private theorem waiting_removed (q : List ℕ) :
    (nil : WaitNode K).waiting = Function.update (queue q : WaitNode K).waiting [] [] := by
  rw [waiting_queue, Function.update_idem]
  exact (Function.update_eq_self (f := (nil : WaitNode K).waiting) []).symm

/-- A subtree that changes at one path changes the tree at that path. -/
theorem waiting_update (hnode : node.waiting = Function.update ((db key).waiting) p q) :
    (branch (Function.update db key node)).waiting =
      Function.update ((branch db).waiting) (key :: p) q := by
  funext p'
  cases p' with
  | nil =>
    rw [Function.update_of_ne (List.cons_ne_nil key p).symm]
    rfl
  | cons key' keys' =>
    show (Function.update db key node key').waiting keys' = _
    by_cases hkey : key' = key
    · subst hkey
      rw [Function.update_self, hnode]
      by_cases hp : keys' = p
      · rw [hp, Function.update_self, Function.update_self]
      · rw [Function.update_of_ne hp, Function.update_of_ne fun heq ↦ hp (List.cons.inj heq).2]
        rfl
    · rw [Function.update_of_ne hkey, Function.update_of_ne fun heq ↦ hkey (List.cons.inj heq).1]
      rfl

/-! ### Waking -/

/-- What waits at the path is taken away, and nothing else. -/
def Cleared (db db' : K → WaitNode K) (p : List K) : Prop :=
  (branch db').waiting = Function.update ((branch db).waiting) p []

theorem Cleared.congr (h : Cleared db db' p) (hp : (branch db).waiting p = [])
    {p' : List K} (hp' : (branch db).waiting p' = []) : Cleared db db' p' := by
  rw [Cleared, ← hp', Function.update_eq_self]
  rw [Cleared, ← hp, Function.update_eq_self] at h
  exact h

private theorem cleared_self (db : K → WaitNode K) : Cleared db db [] :=
  (Function.update_eq_self (f := (branch db).waiting) []).symm

theorem Cleared.lift {get sub : K → WaitNode K} (h : Cleared get sub p)
    (hkey : db key = branch get) :
    Cleared db (Function.update db key (branch sub)) (key :: p) :=
  waiting_update (hkey ▸ h)

/-- **What `wakeup` does**: it fails what waits at one place above the path, or finds what waits at
the path, or fails what waits under the value below it. -/
inductive Woke (db : K → WaitNode K) (path : List K) (value : Option K) : WokenUp K → Prop
  | above {p : List K} {db' : K → WaitNode K} : p <+: path → p ≠ path → Cleared db db' p →
      Woke db path value ⟨(branch db).waiting p, none, db'⟩
  | found {db' : K → WaitNode K} : Cleared db db' path →
      Woke db path value ⟨[], some ((branch db).waiting path), db'⟩
  | below {k : K} {db' : K → WaitNode K} : value = some k → Cleared db db' (path ++ [k]) →
      Woke db path value ⟨(branch db).waiting (path ++ [k]), none, db'⟩

theorem Woke.lift {get : K → WaitNode K} {path : List K} {value : Option K} {r : WokenUp K}
    (h : Woke get path value r) (hkey : db key = branch get) :
    Woke db (key :: path) value { r with db := Function.update db key (branch r.db) } := by
  have hwaiting : ∀ p, (branch get).waiting p = (branch db).waiting (key :: p) := fun p ↦ by
    show _ = (db key).waiting p
    rw [hkey]
  cases h with
  | above hp hne hc =>
    rw [hwaiting]
    exact .above (List.cons_prefix_cons.mpr ⟨rfl, hp⟩) (fun heq ↦ hne (List.cons.inj heq).2)
      (hc.lift hkey)
  | found hc =>
    rw [hwaiting]
    exact .found (hc.lift hkey)
  | below hk hc =>
    rw [hwaiting]
    exact .below hk (hc.lift hkey)

theorem wakeup_spec (db : K → WaitNode K) (key : K) (keys : List K) (value : Option K) :
    Woke db (key :: keys) value (Datacenter.wakeup db ((key :: keys).map some ++ [value])) := by
  -- on the path of the update, of which each key leads one level down
  induction keys generalizing db key with
  | nil =>
    show Woke db [key] value (Datacenter.wakeup db [some key, value])
    have hnothing : ∀ {db'}, Cleared db db' [] → Woke db [key] value ⟨[], none, db'⟩ := fun hc ↦
      .above List.nil_prefix (List.cons_ne_nil key []).symm hc
    rw [Datacenter.wakeup]
    split
    next => exact hnothing (cleared_self db)
    next q hqueue =>
      have hwaits : q = (branch db).waiting [key] := by
        show q = (db key).waiting []
        rw [hqueue]
        rfl
      rw [if_neg (by exact fun h ↦ h rfl), hwaits]
      exact .found (waiting_update (hqueue ▸ waiting_removed q))
    next get hbranch =>
      have hempty : ∀ {sub}, Cleared get sub [] →
          Woke db [key] value ⟨[], none, Function.update db key (branch sub)⟩ := fun hc ↦
        hnothing ((hc.lift hbranch).congr (by show (db key).waiting [] = []; rw [hbranch]; rfl) rfl)
      -- the value itself may be the key of a request that waits below
      cases value with
      | none => exact hempty (cleared_self get)
      | some k =>
        rw [Datacenter.wakeup]
        cases hget : get k with
        | nil => exact hempty (cleared_self get)
        | queue q =>
          have hwaits : q = (branch db).waiting [key, k] := by
            show q = (db key).waiting [k]
            rw [hbranch]
            show q = (get k).waiting []
            rw [hget]
            rfl
          dsimp only
          rw [if_pos (by simp), hwaits]
          exact .below rfl (Cleared.lift (waiting_update (hget ▸ waiting_removed q)) hbranch)
        | branch get' =>
          refine hempty (((cleared_self get').lift hget).congr ?_ rfl)
          show (get k).waiting [] = []
          rw [hget]
          rfl
  | cons key2 keys ih =>
    show Woke db _ value (Datacenter.wakeup db (some key :: ((key2 :: keys).map some ++ [value])))
    rw [Datacenter.wakeup]
    split
    next => exact .above List.nil_prefix (List.cons_ne_nil key _).symm (cleared_self db)
    next q hqueue =>
      have hwaits : q = (branch db).waiting [key] := by
        show q = (db key).waiting []
        rw [hqueue]
        rfl
      rw [if_pos (by simp), hwaits]
      exact .above (List.cons_prefix_cons.mpr ⟨rfl, List.nil_prefix⟩)
        (fun heq ↦ nomatch (List.cons.inj heq).2) (waiting_update (hqueue ▸ waiting_removed q))
    next get hbranch => exact (ih get key2).lift hbranch

/-- What is left at the first key. -/
theorem wakeup_db (db : K → WaitNode K) (key : K) (rest : List (Option K)) :
    (∀ p, ((Datacenter.wakeup db (some key :: rest)).db key).waiting p = []) ∨
      ∃ get, (Datacenter.wakeup db (some key :: rest)).db key =
        branch (Datacenter.wakeup get rest).db := by
  rw [Datacenter.wakeup]
  split
  next hnil =>
    refine Or.inl fun p ↦ ?_
    dsimp only
    rw [hnil]
    exact waiting_nil p
  next =>
    left
    intro p
    dsimp only
    have hgone : (Function.update db key nil key).waiting p = [] := by
      rw [Function.update_self]
      exact waiting_nil p
    split <;> exact hgone
  next get hbranch =>
    exact Or.inr ⟨get, Function.update_self key _ _⟩

/-- Nothing waits along the path any more. -/
theorem wakeup_clears (db : K → WaitNode K) (key : K) (keys : List K) (value : Option K)
    (hp : p <+: key :: keys) :
    (branch (Datacenter.wakeup db ((key :: keys).map some ++ [value])).db).waiting p = [] := by
  induction p generalizing db key keys with
  | nil => rfl
  | cons key' p ih =>
    obtain ⟨rfl, hp'⟩ := List.cons_prefix_cons.mp hp
    show ((Datacenter.wakeup db (some key' :: (keys.map some ++ [value]))).db key').waiting p = []
    rcases wakeup_db db key' (keys.map some ++ [value]) with hnone | ⟨get, hget⟩
    · exact hnone p
    · rw [hget]
      cases keys with
      | nil =>
        rw [List.prefix_nil.mp hp']
        rfl
      | cons key2 keys => exact ih get key2 keys hp'

end WaitNode

namespace WaitNode

variable {db db' : DataKey → WaitNode DataKey} {k : ℕ}

theorem pushResponse_spec {key1 : DataKey} (h : Datacenter.pushResponse db key1 k = (true, db')) :
    (branch db').waiting = Function.update ((branch db).waiting) [key1]
      ((branch db).waiting [key1] ++ [k]) := by
  have hwaits : (branch db).waiting [key1] = (db key1).waiting [] := rfl
  rw [hwaits]
  rw [Datacenter.pushResponse] at h
  cases hnode : db key1 with
  | nil =>
    rw [hnode] at h
    obtain ⟨-, rfl⟩ := Prod.mk.inj h
    refine waiting_update ?_
    rw [hnode]
    exact waiting_queue [k]
  | queue q =>
    rw [hnode] at h
    obtain ⟨-, rfl⟩ := Prod.mk.inj h
    refine waiting_update ?_
    rw [hnode, waiting_queue, waiting_queue, Function.update_idem]
    rfl
  | branch get =>
    rw [hnode] at h
    cases h

theorem waiting_branch? {node : WaitNode DataKey} {sub : DataKey → WaitNode DataKey}
    (h : node.branch? = some sub) : (branch sub).waiting = node.waiting := by
  cases node with
  | nil =>
    obtain rfl := Option.some.inj h
    exact waiting_unit
  | branch get => rw [Option.some.inj h]
  | queue q => cases h

section Down

variable {key1 : DataKey} {key2 : PathKey} {keys : List PathKey}

private theorem waitfor_none (hkey : key2 ≠ .nil) (h : (db key1).branch? = none) :
    Datacenter.waitfor db (.key key1) (key2 :: keys) k = (false, db) := by
  rw [Datacenter.waitfor, h]
  exact hkey

private theorem waitfor_some (hkey : key2 ≠ .nil) {sub : DataKey → WaitNode DataKey}
    (h : (db key1).branch? = some sub) :
    Datacenter.waitfor db (.key key1) (key2 :: keys) k =
      ((Datacenter.waitfor sub key2 keys k).1,
        Function.update db key1 (.branch (Datacenter.waitfor sub key2 keys k).2)) := by
  rw [Datacenter.waitfor, h]
  exact hkey

end Down

/-- **`waitfor`** puts the request at its path, behind those that wait there; the path ends at the
first `nil`. -/
theorem waitfor_spec {key : PathKey} {keys : List PathKey}
    (h : Datacenter.waitfor db key keys k = (true, db')) :
    ∃ key1 path, Datacenter.pathOf (key :: keys) = key1 :: path ∧
      (∀ d, Datacenter.query d keys = Datacenter.queryPath d path) ∧ key = .key key1 ∧
      (branch db').waiting = Function.update ((branch db).waiting) (key1 :: path)
        ((branch db).waiting (key1 :: path) ++ [k]) := by
  induction keys generalizing db db' key with
  | nil =>
    cases key with
    | key key1 => exact ⟨key1, [], rfl, fun _ ↦ rfl, rfl, pushResponse_spec h⟩
    | nil | nan => cases h
  | cons key2 keys ih =>
    cases key with
    | nil | nan => cases h
    | key key1 =>
      by_cases hend : key2 = .nil
      · subst hend
        exact ⟨key1, [], rfl, fun _ ↦ rfl, rfl, pushResponse_spec h⟩
      · cases hsub : (db key1).branch? with
        | none => cases (waitfor_none hend hsub).symm.trans h
        | some sub =>
          obtain ⟨hok, rfl⟩ := Prod.mk.inj ((waitfor_some hend hsub).symm.trans h)
          obtain ⟨k1, path, hpath, hquery, rfl, hwaiting⟩ := ih (Prod.ext hok rfl)
          refine ⟨key1, k1 :: path, congrArg (key1 :: ·) hpath, fun d ↦ ?_, rfl, ?_⟩
          · rw [Datacenter.query_cons]
            exact congrArg _ (funext hquery)
          · have hbelow : (branch sub).waiting = (db key1).waiting := waiting_branch? hsub
            have hwaits : (branch db).waiting (key1 :: k1 :: path) = (branch sub).waiting
                (k1 :: path) := by
              rw [hbelow]
              rfl
            rw [hwaits]
            refine waiting_update ?_
            rw [← hbelow]
            exact hwaiting

end WaitNode

end ZTask
