import ZTask.Datacenter.Trees
import ZTask.Lib.Tickets

/-!
# Every request to wait is answered

An update wakes the requests that wait at its path and fails those that wait above it. It does not
look for requests that wait below the path, although its value may be a table that has what they
wait for; it leaves out those above the path if it stores `nil` and creates tables on the way; it
leaves out all of them if it raises an error at a key that is `nil` or `NaN`, when it has created
the tables above; and it goes on to look for the value itself as one more key. A request to wait
fails by itself if a value cannot be indexed or if other requests are in its way, and waits for ever
behind a value that is `false`.

In runs without these steps (`Untangled`) nothing waits for a value that is there, and every request
is answered once, with the value at its path or because there is one below it
(`datacenter_answers`).
-/

namespace ZTask

open Lib

abbrev DatacenterEvent := Event Datacenter DatacenterInput (List DatacenterEffect)

namespace Datacenter

/-! ## What is claimed -/

/-- The requests that wait at a path. -/
def waits (m : Datacenter) : List DataKey → List ℕ := (WaitNode.branch m.waitQueue).waiting

/-- The requests to wait that are answered, with their answers. -/
def answers (effects : List DatacenterEffect) : List (ℕ × Option LuaData) :=
  effects.filterMap fun
    | .response k value => some (k, value)
    | .ret _ => none

def answered (tr : List DatacenterEvent) : List ℕ :=
  tr.flatMap fun e ↦ (answers e.output).map Prod.fst

/-- The request `k` was made for this path, which ends at the first key that no table has. -/
def Asked (tr : List DatacenterEvent) (path : List DataKey) (k : ℕ) : Prop :=
  ∃ e ∈ tr, ∃ key keys, e.input = .wait key keys ∧ path = pathOf (key :: keys) ∧ e.pre.requests = k

/-- Something is stored below a value. -/
def HasBelow (v : LuaData) : Prop := ∃ r, r ≠ [] ∧ ∃ w, queryPath v r = some w ∧ w ≠ .nil

/-- A value is the one at the path; an error is due to a value below it. -/
def Right (database : LuaData) (path : List DataKey) : Option LuaData → Prop
  | some v => queryPath database path = some v
  | none => ∃ v, queryPath database path = some v ∧ HasBelow v

/-- The steps of which nothing goes wrong. A request to wait finds a value that can be packed, or no
value and no other requests above or below its path. An update leaves nothing behind: nothing waits
below its path for a part of its value; if it stores `nil`, nothing waits above its path; nothing
waits under its value as a key; and if it raises an error when it has created tables, nothing waits
where they are. -/
def Untangled (packs : LuaData → Bool) (m : Datacenter) : DatacenterInput → Prop
  | .query _ _ => True
  | .wait key keys => ∃ v, commandQuery m.database key keys = some v ∧
      (v.truthy = true ∧ (packs v = true ∨ HasBelow v) ∨
        v = .nil ∧ (waitfor m.waitQueue key keys m.requests).1 = true)
  | .update key keys value =>
      (∀ ret db, update m.database key keys value = (some ret, db) →
        (∀ r v, r ≠ [] → m.waits (pathOf (key :: keys) ++ r) ≠ [] → queryPath value r = some v →
          v = .nil) ∧
        (value = .nil → ∀ q, q <+: pathOf (key :: keys) → q ≠ pathOf (key :: keys) →
          m.waits q = []) ∧
        (ret.truthy = false → value ≠ .nil → ∀ k, value.asKey = some k →
          m.waits (pathOf (key :: keys) ++ [k]) = [])) ∧
      ∀ db, update m.database key keys value = (none, db) → db ≠ m.database →
        ∀ q, q <+: pathOf (key :: keys) → m.waits q = []

/-- Nothing waits for a value that is there. -/
def Absent (database : LuaData) (waits : List DataKey → List ℕ) : Prop :=
  ∀ key keys, waits (key :: keys) ≠ [] →
    ∀ v, commandQuery database (.key key) (keys.map .key) = some v → v = .nil

section

variable {packs : LuaData → Bool} {m m' : Datacenter} {db db' v w ret : LuaData} {key : DataKey}
  {keys p path : List DataKey} {waits waits' : List DataKey → List ℕ} {tr : List DatacenterEvent}
  {e : DatacenterEvent} {k : ℕ} {effects : List DatacenterEffect} {first : PathKey}
  {rest : List PathKey}

/-! ## Values that appear -/

private theorem query_append (db : LuaData) (p r : List DataKey) :
    queryPath db (p ++ r) = (queryPath db p).bind fun d ↦ queryPath d r := by
  induction p generalizing db with
  | nil => rfl
  | cons key p ih =>
    rw [List.cons_append, query_cons, query_cons, Option.bind_assoc]
    exact congrArg _ (funext fun d ↦ ih d)

/-- What `QUERY` finds is true or in a table. -/
theorem truthy_of_command (h : commandQuery db (.key key) (keys.map .key) = some w)
    (hw : w ≠ .nil) :
    w.truthy = true ∨ keys ≠ [] := by
  rw [commandQuery] at h
  cases hread : db.read (.key key) with
  | none =>
    rw [hread] at h
    cases h
  | some d =>
    rw [hread] at h
    dsimp only at h
    by_cases htrue : d.truthy = true
    · rw [if_pos htrue] at h
      cases keys with
      | nil => exact Or.inl (Option.some.inj h ▸ htrue)
      | cons key2 keys => exact Or.inr (List.cons_ne_nil _ _)
    · rw [if_neg htrue] at h
      exact absurd (Option.some.inj h).symm hw

private theorem pathOf_map (p : List DataKey) : pathOf (p.map .key) = p := by
  induction p with
  | nil => rfl
  | cons key p ih => exact congrArg (key :: ·) ih

/-- **Absence is kept** by an update: what waits along its path is woken, unless the update removes
a value or replaces one, and the rest waits for what is not there. -/
theorem Absent.update (h : Absent db waits) (hu : Updated db path v ret db')
    (hless : ∀ p, waits' p ≠ [] → waits p ≠ [])
    (hwoken : v = .nil ∨ ret.truthy = true ∨ ∀ q, q <+: path → waits' q = [])
    (hbelow : ∀ r w, r ≠ [] → waits (path ++ r) ≠ [] → queryPath v r = some w → w = .nil)
    (habove : v = .nil → ∀ q, q <+: path → q ≠ path → waits q = []) : Absent db' waits' := by
  intro key keys hwait w hcommand
  by_contra hw
  have hq := query_of_command hcommand hw
  rw [pathOf, pathOf_map] at hq
  have hwaits := hless _ hwait
  by_cases hstarts : key :: keys <+: path
  · rcases hwoken with rfl | hret | hnone
    · by_cases heq : key :: keys = path
      · have hnil := hu.below []
        rw [List.append_nil, ← heq, hq] at hnil
        exact hw (Option.some.inj hnil)
      · exact hwaits (habove rfl _ hstarts heq)
    · have hbefore := hu.before (LuaData.ne_nil_of_truthy hret)
      obtain ⟨r, rfl⟩ := hstarts
      rw [query_append] at hbefore
      obtain ⟨d, hd, hr⟩ := Option.bind_eq_some_iff.mp hbefore
      have htrue : d.truthy = true := by
        cases r with
        | nil => exact Option.some.inj hr ▸ hret
        | cons key2 r =>
          obtain ⟨d', hd', -⟩ := Option.bind_eq_some_iff.mp hr
          exact LuaData.truthy_of_index hd'
      exact LuaData.ne_nil_of_truthy htrue
        (h key keys hwaits d (command_of_query hd (Or.inl htrue)))
    · exact hwait (hnone _ hstarts)
  · by_cases hover : path <+: key :: keys
    · obtain ⟨r, hr⟩ := hover
      have hne : r ≠ [] := by
        rintro rfl
        rw [List.append_nil] at hr
        exact hstarts (hr ▸ List.prefix_rfl)
      rw [← hr, hu.below r] at hq
      exact hw (hbelow r w hne (hr ▸ hwaits) hq)
    · have hbefore := hu.besides _ w hover hstarts hq hw
      exact hw (h key keys hwaits w (command_of_query hbefore (truthy_of_command hcommand hw)))

/-! ## The ledger -/

/-- The requests made so far and the answers given. -/
structure Sound (tr : List DatacenterEvent) (m : Datacenter) : Prop where
  served : Served m.waits m.requests (answered tr)
  absent : Absent m.database m.waits
  asked : ∀ p k, k ∈ m.waits p → Asked tr p k
  numbered : ∀ p k, Asked tr p k → k < m.requests
  one : ∀ p p' k, Asked tr p k → Asked tr p' k → p = p'
  right : ∀ e ∈ tr, ∀ k v, (k, v) ∈ answers e.output →
    ∃ p, Asked tr p k ∧ Right e.post.database p v

private theorem waits_init : init.waits = fun _ ↦ [] := by
  funext p
  exact (congrFun WaitNode.waiting_unit p).trans (WaitNode.waiting_nil p)

theorem sound_init : Sound [] init where
  served := by
    rw [waits_init]
    exact .start
  absent key keys h := by
    rw [waits_init] at h
    exact absurd rfl h
  asked p k h := by
    rw [waits_init] at h
    exact nomatch h
  numbered _ _ h := by
    obtain ⟨e, he, -⟩ := h
    exact nomatch he
  one _ _ _ h := by
    obtain ⟨e, he, -⟩ := h
    exact nomatch he
  right _ h := nomatch h

private theorem answered_concat : answered (tr ++ [e]) = answered tr ++
    (answers e.output).map Prod.fst := by
  rw [answered, answered, List.flatMap_append, List.flatMap_singleton]

theorem Asked.mono (h : Asked tr p k) : Asked (tr ++ [e]) p k := by
  obtain ⟨e', he', hasked⟩ := h
  exact ⟨e', List.mem_append_left _ he', hasked⟩

theorem Asked.of_other (hother : ∀ key keys, e.input ≠ .wait key keys) (h : Asked (tr ++ [e]) p k) :
    Asked tr p k := by
  obtain ⟨e', he', key, keys, hin, hp, hk⟩ := h
  rcases List.mem_append.mp he' with he' | he'
  · exact ⟨e', he', key, keys, hin, hp, hk⟩
  · rw [List.mem_singleton.mp he'] at hin
    exact absurd hin (hother key keys)

theorem Asked.of_wait (hwait : e.input = .wait first rest) (h : Asked (tr ++ [e]) p k) :
    Asked tr p k ∨ p = pathOf (first :: rest) ∧ k = e.pre.requests := by
  obtain ⟨e', he', key', keys', hin, hp, hk⟩ := h
  rcases List.mem_append.mp he' with he' | he'
  · exact Or.inl ⟨e', he', key', keys', hin, hp, hk⟩
  · rw [List.mem_singleton.mp he'] at hin hk
    obtain ⟨rfl, rfl⟩ := DatacenterInput.wait.inj (hwait.symm.trans hin)
    exact Or.inr ⟨hp, hk.symm⟩

/-- A step of another kind: what it answers are requests that were waiting. -/
theorem Sound.other (h : Sound tr m) (hother : ∀ key keys, e.input ≠ .wait key keys)
    (hserved : Served m'.waits m.requests (answered tr ++ (answers e.output).map Prod.fst))
    (hrequests : m'.requests = m.requests) (habsent : Absent m'.database m'.waits)
    (hless : ∀ p k, k ∈ m'.waits p → k ∈ m.waits p)
    (hright : ∀ k v, (k, v) ∈ answers e.output → ∃ p, k ∈ m.waits p ∧ Right e.post.database p v) :
    Sound (tr ++ [e]) m' where
  served := by
    rw [answered_concat, hrequests]
    exact hserved
  absent := habsent
  asked p k hk := (h.asked p k (hless p k hk)).mono
  numbered p k hk := hrequests ▸ h.numbered p k (hk.of_other hother)
  one p p' k hk hk' := h.one p p' k (hk.of_other hother) (hk'.of_other hother)
  right e' he' k v hmem := by
    rcases List.mem_append.mp he' with he' | he'
    · obtain ⟨p, hp, hr⟩ := h.right e' he' k v hmem
      exact ⟨p, hp.mono, hr⟩
    · rw [List.mem_singleton.mp he'] at hmem ⊢
      obtain ⟨p, hp, hr⟩ := hright k v hmem
      exact ⟨p, (h.asked p k hp).mono, hr⟩

/-- A request to wait: it is answered at once, or waits. -/
theorem Sound.wait (h : Sound tr m) (hwait : e.input = .wait first rest) (hpre : e.pre = m)
    (hserved : Served m'.waits (m.requests + 1) (answered tr ++ (answers e.output).map Prod.fst))
    (hrequests : m'.requests = m.requests + 1) (habsent : Absent m'.database m'.waits)
    (hmore : ∀ p k, k ∈ m'.waits p → k ∈ m.waits p ∨ p = pathOf (first :: rest) ∧ k = m.requests)
    (hright : ∀ k v, (k, v) ∈ answers e.output → k = m.requests ∧
      Right e.post.database (pathOf (first :: rest)) v) : Sound (tr ++ [e]) m' := by
  have hnew : Asked (tr ++ [e]) (pathOf (first :: rest)) m.requests :=
    ⟨e, List.mem_append_right _ (List.mem_singleton_self e), first, rest, hwait, rfl, by rw [hpre]⟩
  have hcases : ∀ {p k}, Asked (tr ++ [e]) p k →
      Asked tr p k ∨ p = pathOf (first :: rest) ∧ k = m.requests :=
    fun hk ↦ hpre ▸ hk.of_wait hwait
  refine ⟨?_, habsent, fun p k hk ↦ ?_, fun p k hk ↦ ?_, fun p p' k hk hk' ↦ ?_,
    fun e' he' k v hmem ↦ ?_⟩
  · rw [answered_concat, hrequests]
    exact hserved
  · rcases hmore p k hk with hk | ⟨rfl, rfl⟩
    · exact (h.asked p k hk).mono
    · exact hnew
  · rw [hrequests]
    rcases hcases hk with hk | ⟨-, rfl⟩
    · exact Nat.lt_succ_of_lt (h.numbered p k hk)
    · exact Nat.lt_succ_self _
  · rcases hcases hk with hk | ⟨rfl, rfl⟩ <;> rcases hcases hk' with hk' | ⟨rfl, hnum⟩
    · exact h.one p p' k hk hk'
    · exact absurd (h.numbered p k hk) (hnum ▸ Nat.lt_irrefl _)
    · exact absurd (h.numbered p' _ hk') (Nat.lt_irrefl _)
    · rfl
  · rcases List.mem_append.mp he' with he' | he'
    · obtain ⟨p, hp, hr⟩ := h.right e' he' k v hmem
      exact ⟨p, hp.mono, hr⟩
    · rw [List.mem_singleton.mp he'] at hmem ⊢
      obtain ⟨rfl, hr⟩ := hright k v hmem
      exact ⟨_, hnew, hr⟩

/-! ## The steps -/

theorem answers_append (l l' : List DatacenterEffect) :
    answers (l ++ l') = answers l ++ answers l' := List.filterMap_append

private theorem answers_response (q : List ℕ) (v : Option LuaData) :
    answers (q.map (.response · v)) = q.map (·, v) := by
  induction q with
  | nil => rfl
  | cons k q ih => exact congrArg ((k, v) :: ·) ih

theorem map_fst_pairs (q : List ℕ) (v : Option LuaData) : (q.map (·, v)).map Prod.fst = q := by
  rw [List.map_map]
  exact List.map_id q

theorem Sound.quiet (h : Sound tr m) (hother : ∀ key keys, e.input ≠ .wait key keys)
    (hanswers : answers e.output = []) (hwaits : m'.waits = m.waits)
    (hrequests : m'.requests = m.requests) (habsent : Absent m'.database m.waits) :
    Sound (tr ++ [e]) m' := by
  refine h.other hother ?_ hrequests (hwaits ▸ habsent) (fun p k hk ↦ hwaits ▸ hk) fun k v hmem ↦ ?_
  · rw [hanswers, hwaits, List.map_nil, List.append_nil]
    exact h.served
  · rw [hanswers] at hmem
    exact nomatch hmem

/-- What is woken at one place is answered. -/
theorem Sound.wake (h : Sound tr m) (hother : ∀ key keys, e.input ≠ .wait key keys)
    (value : Option LuaData) (hanswers : answers e.output = (m.waits p).map (·, value))
    (hcleared : m'.waits = Function.update m.waits p []) (hrequests : m'.requests = m.requests)
    (habsent : Absent m'.database m'.waits)
    (hright : m.waits p ≠ [] → Right e.post.database p value) :
    Sound (tr ++ [e]) m' := by
  refine h.other hother ?_ hrequests habsent (fun p' k hk ↦ ?_) fun k v hmem ↦ ?_
  · rw [hanswers, map_fst_pairs, hcleared]
    exact h.served.flush p
  · rw [hcleared] at hk
    by_cases hp : p' = p
    · rw [hp, Function.update_self] at hk
      exact nomatch hk
    · rwa [Function.update_of_ne hp] at hk
  · rw [hanswers] at hmem
    obtain ⟨k', hk', heq⟩ := List.mem_map.mp hmem
    obtain ⟨rfl, rfl⟩ := Prod.mk.inj heq
    exact ⟨p, hk', hright (List.ne_nil_of_mem hk')⟩

/-- **An update that wakes** those that wait along its path, and fails those that wait above it. -/
theorem Sound.woken (h : Sound tr m) (hother : ∀ first rest, e.input ≠ .wait first rest)
    (hu : Updated m.database (key :: keys) v ret db') (hpost : e.post.database = db')
    (hdatabase : m'.database = db') (hrequests : m'.requests = m.requests) {r : WokenUp DataKey}
    (hr : wakeup m.waitQueue ((key :: keys).map some ++ [v.asKey]) = r)
    (hqueue : m'.waitQueue = r.db)
    (hanswers : answers e.output = r.failed.map (·, none) ++ (r.found.getD []).map (·, some v))
    (hvalue : v ≠ .nil)
    (hbelow : ∀ r w, r ≠ [] → m.waits (key :: keys ++ r) ≠ [] → queryPath v r = some w → w = .nil)
    (habove : v = .nil → ∀ q, q <+: key :: keys → q ≠ key :: keys → m.waits q = [])
    (hkey : ∀ k, v.asKey = some k → m.waits (key :: keys ++ [k]) = []) : Sound (tr ++ [e]) m' := by
  have hclears : ∀ q, q <+: key :: keys → m'.waits q = [] := by
    intro q hq
    have hclear := WaitNode.wakeup_clears m.waitQueue key keys v.asKey hq
    rwa [hr, ← hqueue] at hclear
  have habsent : ∀ {q}, m'.waits = Function.update m.waits q [] → Absent m'.database m'.waits := by
    intro q hcleared
    rw [hdatabase]
    refine h.absent.update hu (fun p hp ↦ ?_) (Or.inr (Or.inr hclears)) hbelow habove
    rw [hcleared] at hp
    by_cases hpq : p = q
    · rw [hpq, Function.update_self] at hp
      exact absurd rfl hp
    · rwa [Function.update_of_ne hpq] at hp
  have hcleared : ∀ {db q}, WaitNode.Cleared m.waitQueue db q → r.db = db →
      m'.waits = Function.update m.waits q [] := by
    intro db q hc heq
    rw [Datacenter.waits, hqueue, heq]
    exact hc
  have hpath := hu.below []
  rw [List.append_nil] at hpath
  have hwoke := WaitNode.wakeup_spec m.waitQueue key keys v.asKey
  rw [hr] at hwoke
  cases hwoke with
  | @above p db hp hne hc =>
    have hgone := hcleared hc rfl
    rw [Option.getD_none, List.map_nil, List.append_nil] at hanswers
    refine h.wake hother none hanswers hgone hrequests (habsent hgone) fun _ ↦ ?_
    -- the value is below the request that is failed
    obtain ⟨r, hr⟩ := hp
    obtain ⟨d, hd, -⟩ := hu.above p ⟨r, hr⟩ hne
    rw [← hr, query_append, hd] at hpath
    rw [hpost]
    refine ⟨d, hd, r, ?_, v, hpath, hvalue⟩
    rintro rfl
    exact hne ((List.append_nil p).symm.trans hr)
  | @found db hc =>
    have hgone := hcleared hc rfl
    refine h.wake hother (some v) hanswers hgone hrequests (habsent hgone) fun _ ↦ ?_
    rw [hpost]
    exact hpath
  | @below k db hk hc =>
    have hgone := hcleared hc rfl
    rw [Option.getD_none, List.map_nil, List.append_nil] at hanswers
    exact h.wake hother none hanswers hgone hrequests (habsent hgone)
      fun hsome ↦ absurd (hkey k hk) hsome

private theorem answers_wokenUp (r : WokenUp DataKey) (value w : LuaData) :
    answers (r.failed.map (.response · none) ++ (r.found.getD []).map (.response · (some value)) ++
      [.ret (packed packs w)]) = r.failed.map (·, none) ++
      (r.found.getD []).map (·, some value) := by
  rw [answers_append, answers_append, answers_response, answers_response]
  exact List.append_nil _

theorem map_wakeupKey (p : List DataKey) : (p.map PathKey.key).map wakeupKey = p.map some := by
  rw [List.map_map]
  rfl

theorem Sound.update (h : Sound tr m) (first : PathKey) (rest : List PathKey) (value : LuaData)
    (hC : Untangled packs m (.update first rest value)) :
    Sound (tr ++ [⟨m, .update first rest value, (m.commandUpdate packs first rest value).2,
      (m.commandUpdate packs first rest value).1⟩]) (m.commandUpdate packs first rest value).1 := by
  have hother : ∀ first' rest', DatacenterInput.update first rest value ≠ .wait first' rest' :=
    fun _ _ heq ↦ by cases heq
  obtain ⟨hdone, hraised⟩ := hC
  have hcomes := update_cases m.database first rest value
  rw [commandUpdate]
  generalize Datacenter.update m.database first rest value = r at hdone hraised hcomes ⊢
  cases hcomes with
  | unchanged => exact h.quiet hother rfl rfl rfl h.absent
  | @created k path db hpath hupdate =>
    refine h.quiet hother rfl rfl rfl ?_
    by_cases hsame : db = m.database
    · rw [hsame]
      exact h.absent
    · have hnone := hraised db rfl hsame
      rw [hpath] at hnone
      refine h.absent.update (update_spec hupdate) (fun _ hp ↦ hp) (Or.inr (Or.inr hnone))
        (fun r w hne _ hq ↦ query_emptyTable hne hq) fun heq ↦ by cases heq
  | @done k path ret db hkeys hupdate =>
    obtain ⟨hbelow, habove, hkey⟩ := hdone ret db rfl
    rw [hkeys, pathOf_map] at hbelow habove hkey
    have hu := update_spec hupdate
    dsimp only
    by_cases hearly : ret.truthy = true ∨ value.isNil = true
    · rw [if_pos hearly]
      refine h.quiet hother rfl rfl rfl (h.absent.update hu (fun _ hp ↦ hp) ?_ hbelow habove)
      rcases hearly with hret | hnil
      · exact Or.inr (Or.inl hret)
      · exact Or.inl (LuaData.isNil_iff.mp hnil)
    · rw [if_neg hearly]
      obtain ⟨hret, hnil⟩ := not_or.mp hearly
      have hvalue : value ≠ .nil := fun heq ↦ hnil (LuaData.isNil_iff.mpr heq)
      refine h.woken hother hu rfl rfl rfl ?_ rfl (answers_wokenUp _ value _) hvalue hbelow habove
        (hkey (Bool.not_eq_true _ ▸ hret) hvalue)
      rw [hkeys, map_wakeupKey]

theorem Sound.commandWait (h : Sound tr m) (first : PathKey) (rest : List PathKey)
    (hC : Untangled packs m (.wait first rest)) :
    Sound (tr ++ [⟨m, .wait first rest, (m.commandWait packs first rest).2,
      (m.commandWait packs first rest).1⟩]) (m.commandWait packs first rest).1 := by
  obtain ⟨v, hv, hcases⟩ := hC
  rw [Datacenter.commandWait]
  dsimp only
  rw [hv]
  dsimp only
  -- the value is there and answered at once, or the request waits on its path
  rcases hcases with ⟨htrue, hpacks⟩ | ⟨rfl, hwaitfor⟩
  · rw [if_pos htrue]
    refine h.wait rfl rfl h.served.take rfl h.absent (fun p k hk ↦ Or.inl hk) fun k w hmem ↦ ?_
    obtain ⟨rfl, rfl⟩ := Prod.mk.inj (List.mem_singleton.mp hmem)
    have hq := query_of_command hv (LuaData.ne_nil_of_truthy htrue)
    refine ⟨rfl, ?_⟩
    by_cases hp : packs v = true
    · rw [packed, if_pos hp]
      exact hq
    · rw [packed, if_neg hp]
      exact ⟨v, hq, hpacks.resolve_left hp⟩
  · rw [if_neg (by decide), hwaitfor, if_pos rfl]
    obtain ⟨key, path, hpath, hquery, rfl, hwaits⟩ := WaitNode.waitfor_spec (Prod.ext hwaitfor rfl)
    refine h.wait rfl rfl ?_ rfl ?_ (fun p k hk ↦ ?_) fun k w hmem ↦ nomatch hmem
    · show Served (WaitNode.branch (waitfor m.waitQueue (.key key) rest m.requests).2).waiting _
        (answered tr ++ [])
      rw [hwaits, List.append_nil]
      exact h.served.enter (key :: path)
    · intro key' keys' hne w hw
      have hne : (WaitNode.branch (waitfor m.waitQueue (.key key) rest m.requests).2).waiting
        (key' :: keys') ≠ [] := hne
      rw [hwaits] at hne
      by_cases hp : key' :: keys' = key :: path
      · -- `QUERY` with the keys of the request has found nothing
        obtain ⟨rfl, rfl⟩ := List.cons.inj hp
        have hsame : commandQuery m.database (.key key') (keys'.map .key) =
            commandQuery m.database (.key key') rest := by
          rw [commandQuery, commandQuery]
          cases m.database.read (.key key') with
          | none => rfl
          | some d =>
            dsimp only
            rw [hquery]
            rfl
        exact (Option.some.inj (hv.symm.trans (hsame.symm.trans hw))).symm
      · rw [Function.update_of_ne hp] at hne
        exact h.absent key' keys' hne w hw
    · -- the request of `k` was on the path before, or it is the new one
      have hk : k ∈ (WaitNode.branch
          (waitfor m.waitQueue (.key key) rest m.requests).2).waiting p := hk
      rw [hwaits] at hk
      rw [hpath]
      by_cases hp : p = key :: path
      · rw [hp, Function.update_self] at hk
        rcases List.mem_append.mp hk with hk | hk
        · exact Or.inl (hp ▸ hk)
        · exact Or.inr ⟨hp, List.mem_singleton.mp hk⟩
      · rw [Function.update_of_ne hp] at hk
        exact Or.inl hk

end

end Datacenter

/-- **The datacenter.** In every run of steps of which nothing goes wrong, no request waits on a
path for which `QUERY` returns a value, every request is answered at most once, and only if it does
not wait, and an answer is the value then stored at the path of the request, or an error because
something is then stored below it. -/
theorem datacenter_answers {packs : LuaData → Bool} {tr : List DatacenterEvent} {m : Datacenter}
    (hrun : Run (datacenter packs) Datacenter.init tr m)
    (hC : Meets (Datacenter.Untangled packs) tr) :
    (∀ key keys, m.waits (key :: keys) ≠ [] →
      ∀ v, Datacenter.commandQuery m.database (.key key) (keys.map .key) = some v → v = .nil) ∧
    (Datacenter.answered tr).Nodup ∧ (∀ p k, k ∈ m.waits p → k ∉ Datacenter.answered tr) ∧
    (∀ p p' k, Datacenter.Asked tr p k → Datacenter.Asked tr p' k → p = p') ∧
    ∀ e ∈ tr, ∀ k v, (k, v) ∈ Datacenter.answers e.output →
      ∃ p, Datacenter.Asked tr p k ∧ Datacenter.Right e.post.database p v := by
  have hsound : Datacenter.Sound tr m := by
    refine hrun.ledger Datacenter.Sound Datacenter.sound_init ?_ hC
    rintro tr m i m' o - h hC hm
    -- a query leaves the waiting lists alone; update and wait are the two that move them
    cases i with
    | query key keys =>
      obtain ⟨rfl, rfl⟩ := Prod.mk.inj (Except.ok.inj hm)
      exact h.quiet (fun _ _ heq ↦ by cases heq) rfl rfl rfl h.absent
    | update key keys value =>
      obtain ⟨rfl, rfl⟩ := Prod.mk.inj (Except.ok.inj hm)
      exact h.update key keys value hC
    | wait key keys =>
      obtain ⟨rfl, rfl⟩ := Prod.mk.inj (Except.ok.inj hm)
      exact h.commandWait key keys hC
  exact ⟨hsound.absent, hsound.served.once, fun p k hk ↦ hsound.served.unserved hk, hsound.one,
    hsound.right⟩

/-- The key of one letter. -/
def Datacenter.letter (c : UInt8) : DataKey := ⟨.string [c], rfl⟩

/-- Requests wait for a value below `"a"`, and get it; an update that comes to `NaN` creates a table
at `"b"`, for which nothing waits. -/
def Datacenter.lettersRun : List DatacenterInput :=
  [.wait (.key (letter 97)) [.key (letter 98)],
    .wait (.key (letter 97)) [.key (letter 98), .nil, .nan],
    .update (.key (letter 98)) [.nan] (.scalar (.integer 7)),
    .update (.key (letter 97)) [.key (letter 98)] (.scalar (.integer 5))]

theorem datacenter_answers_wait : ∃ tr, ∃ m : Datacenter,
    Run (datacenter fun _ ↦ true) Datacenter.init tr m ∧
      (tr.flatMap fun e ↦ Datacenter.answers e.output) =
        [(0, some (.scalar (.integer 5))), (1, some (.scalar (.integer 5)))] ∧
      (∀ key keys, m.waits (key :: keys) ≠ [] →
        ∀ v, Datacenter.commandQuery m.database (.key key) (keys.map .key) = some v → v = .nil) ∧
      (Datacenter.answered tr).Nodup ∧
      (∀ p k, k ∈ m.waits p → k ∉ Datacenter.answered tr) := by
  have halong : Along (datacenter fun _ ↦ true) (Datacenter.Untangled fun _ ↦ true) Datacenter.init
      Datacenter.lettersRun := by
    refine ⟨⟨.nil, rfl, Or.inr ⟨rfl, rfl⟩⟩, ⟨.nil, rfl, Or.inr ⟨rfl, rfl⟩⟩,
      ⟨fun ret db hu ↦ ?_, fun db _ _ q hq ↦ ?_⟩,
      ⟨fun ret db hu ↦ ⟨fun r v hr _ hq ↦ ?_, ?_, ?_⟩, fun db hu ↦ ?_⟩, trivial⟩
    · cases hu
    · rcases List.prefix_cons_iff.mp hq with rfl | ⟨t, rfl, ht⟩
      · rfl
      · rw [List.prefix_nil.mp ht]
        rfl
    · obtain ⟨key, r, rfl⟩ := List.exists_cons_of_ne_nil hr
      exact nomatch hq
    · exact fun h ↦ nomatch h
    · exact fun _ _ k hk ↦ rfl
    · cases hu
  obtain ⟨tr, m, hexec⟩ := exec_total (m := datacenter fun _ ↦ true) Datacenter.init
    Datacenter.lettersRun
  have hrun := Run.of_exec hexec
  obtain ⟨habsent, hnodup, hserved, -⟩ := datacenter_answers hrun (exec_meets hexec halong)
  refine ⟨tr, m, hrun, ?_, habsent, hnodup, hserved⟩
  rw [← (Prod.mk.inj (Except.ok.inj hexec)).1]
  rfl

/-- **The claim fails**: an update that stores a table leaves a request behind that waits for what
the table holds. -/
theorem not_datacenter_answers : ∃ tr, ∃ m : Datacenter,
    Run (datacenter fun _ ↦ true) Datacenter.init tr m ∧
      m.waits [Datacenter.letter 97, Datacenter.letter 98] = [0] ∧
      Datacenter.commandQuery m.database (.key (Datacenter.letter 97))
        [.key (Datacenter.letter 98)] = some (.scalar (.integer 5)) := by
  have halong : Along (datacenter fun _ ↦ true) (fun _ _ ↦ True) Datacenter.init
      [.wait (.key (Datacenter.letter 97)) [.key (Datacenter.letter 98)],
        .update (.key (Datacenter.letter 97)) []
          (.table (Function.update (fun _ ↦ .nil) (.string [98]) (.scalar (.integer 5))) [])] :=
    ⟨trivial, trivial, trivial⟩
  obtain ⟨tr, hrun, -⟩ := (Reachable.refl _ _ _).foldl halong
  exact ⟨tr, _, hrun, rfl, rfl⟩

/-- An update that raises an error leaves a table behind, for which a request waits. -/
example : (Datacenter.update .emptyTable (.key (Datacenter.letter 97)) [.nan]
    (.scalar (.integer 5))).1 =
      none ∧
    Datacenter.queryPath (Datacenter.update .emptyTable (.key (Datacenter.letter 97)) [.nan]
      (.scalar (.integer 5))).2 [Datacenter.letter 97] = some .emptyTable :=
  ⟨rfl, rfl⟩

end ZTask
