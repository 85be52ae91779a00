import ZTask.LuaService.Dispatch
import Mathlib.Data.List.Nodup

/-!
# Which coroutine runs

At most one coroutine runs, and it is the one that the step function says (`Placed`). When it has
given way, `suspend` makes some other coroutine run, or none: `Hands` collects what is to be shown
of `coroutine_resume` to know what `suspend` leaves behind, however many calls of
`dispatch_error_queue` follow one another.

## What a step is

The cases of `luaService_cases` are what the step function can do: begin with a message, go on with
what has been forked, end a dispatch, or let the running coroutine act. The lemmas about runs go
through these cases and do not look at the functions that they are made of.
-/

namespace ZTask

open Lib

/-- The coroutine that runs. -/
def DispatchControl.who : DispatchControl → Option ℕ
  | .running co _ => some co
  | .idle | .forks => none

/-- Its function has returned, or it is dead. -/
def CoroutineState.over : CoroutineState → Bool
  | .pooled | .spoiled | .dead => true
  | .ready | .running | .sleeping _ | .waiting _ _ | .calling _ | .stuck => false

namespace LuaService

variable {m m' : LuaService} {co co' depth session : ℕ} {x : CoroutineState} {who who' : Option ℕ}
  {i : DispatchInput} {o : DispatchOutput}

/-! ## What `coroutine_resume` does -/

theorem coroutineResume_runs (h : m.coroutineResume co = .runs m') :
    m.state co ≠ .running ∧ (m.state co).over = false ∧
      ∃ sleep sessions watching, m' = { m.setState co .running with
        sleepSession := sleep, sessionIdCoroutine := sessions, watchingSession := watching } := by
  rw [coroutineResume] at h
  split at h
  case h_1 _ hstate | h_2 _ _ hstate | h_3 hstate | h_4 hstate | h_5 hstate =>
    obtain rfl := Resumed.runs.inj h
    rw [hstate]
    exact ⟨(fun hx ↦ nomatch hx), rfl, _, _, _, rfl⟩
  all_goals cases h

theorem coroutineResume_yields (h : m.coroutineResume co = .yields m') :
    m.state co = .pooled ∧ m' = m.setState co .spoiled := by
  rw [coroutineResume] at h
  split at h
  case h_6 hstate => exact ⟨hstate, (Resumed.yields.inj h).symm⟩
  all_goals cases h

theorem coroutineResume_fails (h : m.coroutineResume co = .fails m') :
    m.state co = .running ∧ m' = m ∨
      (m.state co = .spoiled ∨ m.state co = .dead) ∧ m' = m.setState co .dead := by
  rw [coroutineResume] at h
  split at h
  case h_7 hstate => exact Or.inr ⟨Or.inl hstate, (Resumed.fails.inj h).symm⟩
  case h_8 hstate => exact Or.inl ⟨hstate, (Resumed.fails.inj h).symm⟩
  case h_9 hstate =>
    refine Or.inr ⟨Or.inr hstate, ?_⟩
    rw [← Resumed.fails.inj h, setState, ← hstate, Function.update_eq_self]
  all_goals cases h

theorem coCreate_cases {reuse : Option ℕ} (h : m.coCreate reuse = some (co, m')) :
    (reuse = none ∧ co = m.coroutines ∧
      m' = { m.setState m.coroutines .ready with coroutines := m.coroutines + 1 }) ∨
    (reuse = some co ∧ co ∈ m.coroutinePool ∧
      m' = { m.setState co (if m.state co = .pooled then .ready else .dead) with
        coroutinePool := m.coroutinePool.erase co }) := by
  cases reuse with
  | none =>
    obtain ⟨rfl, rfl⟩ := Prod.mk.inj (Option.some.inj h)
    exact Or.inl ⟨rfl, rfl, rfl⟩
  | some c =>
    rw [coCreate] at h
    by_cases hmem : c ∈ m.coroutinePool
    · rw [if_pos hmem] at h
      obtain ⟨rfl, rfl⟩ := Prod.mk.inj (Option.some.inj h)
      exact Or.inr ⟨rfl, hmem, rfl⟩
    · rw [if_neg hmem] at h
      cases h

theorem control_of_coCreate {reuse : Option ℕ} (h : m.coCreate reuse = some (co, m')) :
    m'.control = m.control := by
  rcases coCreate_cases h with ⟨-, -, rfl⟩ | ⟨-, -, rfl⟩ <;> rfl

/-! ## What the other functions change -/

theorem releaseWatching_eq (m : LuaService) (address : ℕ) :
    ∃ watching, m.releaseWatching address = { m with watchingService := watching } := by
  rw [releaseWatching]
  split
  · exact ⟨m.watchingService, rfl⟩
  · exact ⟨_, rfl⟩

theorem testResponse_eq (m : LuaService) (k : ℕ) :
    ∃ watching response,
      m.testResponse k = { m with watchingService := watching, response := response } := by
  rw [testResponse]
  split
  · obtain ⟨watching, hw⟩ := m.releaseWatching_eq (m.response k).address
    rw [hw]
    exact ⟨watching, _, rfl⟩
  · exact ⟨m.watchingService, m.response, rfl⟩

theorem callResponse_eq (m : LuaService) (k : ℕ) (packs : Bool) :
    ∃ watching response,
      m.callResponse k packs = { m with watchingService := watching, response := response } := by
  rw [callResponse]
  split
  · exact ⟨m.watchingService, m.response, rfl⟩
  · exact ⟨m.watchingService, _, rfl⟩
  · split
    · obtain ⟨watching, hw⟩ := m.releaseWatching_eq (m.response k).address
      rw [hw]
      exact ⟨watching, _, rfl⟩
    · exact ⟨m.watchingService, m.response, rfl⟩

theorem refuseAll_eq (n : ℕ) (m : LuaService) :
    ∃ watching response,
      refuseAll n m = { m with watchingService := watching, response := response } := by
  induction n with
  | zero => exact ⟨m.watchingService, m.response, rfl⟩
  | succ n ih =>
    obtain ⟨watching, response, hall⟩ := ih
    rw [refuseAll, hall]
    dsimp only
    split
    · obtain ⟨watching', response', hcall⟩ := callResponse_eq
        { m with watchingService := watching, response := response } n true
      rw [hcall]
      exact ⟨watching', response', rfl⟩
    · exact ⟨watching, response, rfl⟩

theorem errorDispatch_eq (m : LuaService) (errorSession errorSource : ℕ) :
    ∃ dead errors,
      m.errorDispatch errorSession errorSource =
        { m with deadService := dead, errorQueue := errors } := by
  rw [errorDispatch]
  split
  · exact ⟨_, _, rfl⟩
  · split
    · exact ⟨m.deadService, _, rfl⟩
    · exact ⟨m.deadService, m.errorQueue, rfl⟩

/-- `"RETURN"` leads to an error in `suspend`. -/
def ReturnFails (m : LuaService) (co : ℕ) : Prop :=
  m.sessionCoroutineId co ≠ some 0 ∧
    (m.sessionResponse co = true ∨ m.sessionCoroutineAddress co = none)

instance decidableReturnFails (m : LuaService) (co : ℕ) : Decidable (m.ReturnFails co) :=
  inferInstanceAs (Decidable (_ ∧ _))

/-- `"RESPONSE"` leads to an error in `suspend`. -/
def ResponseFails (m : LuaService) (co : ℕ) : Prop :=
  m.sessionResponse co = true ∨ (m.sessionCoroutineAddress co).bind m.watchingService = none

instance decidableResponseFails (m : LuaService) (co : ℕ) : Decidable (m.ResponseFails co) :=
  inferInstanceAs (Decidable (_ ∨ _))

theorem commandReturn_cases (m : LuaService) (co : ℕ) :
    (¬ m.ReturnFails co ∧ ∃ answered, m.commandReturn co = { m with sessionResponse := answered }) ∨
    (m.ReturnFails co ∧ ∃ answered,
      m.commandReturn co = failed { m.setState co .stuck with sessionResponse := answered }) := by
  rw [commandReturn]
  by_cases hzero : m.sessionCoroutineId co = some 0
  · rw [if_pos hzero]
    exact Or.inl ⟨fun hfails ↦ hfails.1 hzero, m.sessionResponse, rfl⟩
  · rw [if_neg hzero]
    by_cases hanswered : m.sessionResponse co = true
    · rw [if_pos hanswered]
      exact Or.inr ⟨⟨hzero, Or.inl hanswered⟩, m.sessionResponse, rfl⟩
    · rw [if_neg hanswered]
      dsimp only
      cases haddress : m.sessionCoroutineAddress co with
      | some address =>
        refine Or.inl ⟨fun hfails ↦ ?_, _, rfl⟩
        rcases hfails.2 with h | h
        · exact hanswered h
        · exact nomatch haddress.symm.trans h
      | none => exact Or.inr ⟨⟨hzero, Or.inr haddress⟩, _, rfl⟩

theorem commandResponse_cases (m : LuaService) (co : ℕ) :
    (¬ m.ResponseFails co ∧ ∃ address ref, m.sessionCoroutineAddress co = some address ∧
      m.watchingService address = some ref ∧ m.commandResponse co = { m with
        watchingService := Function.update m.watchingService address (some (ref + 1))
        sessionResponse := Function.update m.sessionResponse co true
        response := Function.update m.response m.responses ⟨address, .pending⟩
        responses := m.responses + 1 }) ∨
    (m.ResponseFails co ∧ m.commandResponse co = (m.setState co .stuck).failed) := by
  rw [commandResponse]
  by_cases hanswered : m.sessionResponse co = true
  · rw [if_pos hanswered]
    exact Or.inr ⟨Or.inl hanswered, rfl⟩
  · rw [if_neg hanswered]
    cases haddress : m.sessionCoroutineAddress co with
    | none => exact Or.inr ⟨Or.inr (by rw [haddress]; rfl), rfl⟩
    | some address =>
      cases href : m.watchingService address with
      | none => exact Or.inr ⟨Or.inr (by rw [haddress]; exact href), by dsimp only; rw [href]⟩
      | some ref =>
        refine Or.inl ⟨fun hfails ↦ ?_, address, ref, rfl, href, by dsimp only; rw [href]⟩
        rcases hfails with h | h
        · exact hanswered h
        · rw [haddress] at h
          exact nomatch href.symm.trans h

/-- What a step is: a message, an entry of `fork_queue`, the end of `dispatch_message`, or something
that the running coroutine does. -/
theorem luaService_cases (h : luaService m i = .ok (m', o)) :
    (m.control = .idle ∧ o = .silent ∧ rawDispatchMessage { m with succ := true } i = some m') ∨
    (m.control = .forks ∧ o = .silent ∧ ∃ co, i = .forked co ∧ co ∈ m.forkQueue ∧
      m' = resume { m with forkQueue := m.forkQueue.erase co } co 0) ∨
    (m.control = .forks ∧ o = .returns m.succ ∧ i = .returns ∧ m.forkQueue = [] ∧
      m' = { m with control := .idle }) ∨
    ∃ co depth, m.control = .running co depth ∧ m.act co depth i = some (m', o) := by
  unfold luaService at h
  cases hcontrol : m.control with
  | idle =>
    rw [hcontrol] at h
    dsimp only at h
    split at h
    next m₁ hraw =>
      obtain ⟨rfl, rfl⟩ := Prod.mk.inj (Except.ok.inj h)
      exact Or.inl ⟨rfl, rfl, hraw⟩
    next => cases h
  | forks =>
    rw [hcontrol] at h
    dsimp only at h
    split at h
    next co =>
      by_cases hmem : co ∈ m.forkQueue
      · rw [if_pos hmem] at h
        obtain ⟨rfl, rfl⟩ := Prod.mk.inj (Except.ok.inj h)
        exact Or.inr (Or.inl ⟨rfl, rfl, co, rfl, hmem, rfl⟩)
      · rw [if_neg hmem] at h
        cases h
    next =>
      by_cases hnil : m.forkQueue = []
      · rw [if_pos hnil] at h
        obtain ⟨rfl, rfl⟩ := Prod.mk.inj (Except.ok.inj h)
        exact Or.inr (Or.inr (Or.inl ⟨rfl, rfl, rfl, hnil, rfl⟩))
      · rw [if_neg hnil] at h
        cases h
    next => cases h
  | running co depth =>
    rw [hcontrol] at h
    dsimp only at h
    cases hact : m.act co depth i with
    | some p =>
      rw [hact] at h
      obtain rfl := Except.ok.inj h
      exact Or.inr (Or.inr (Or.inr ⟨co, depth, rfl, hact⟩))
    | none =>
      rw [hact] at h
      cases h

/-! ## What `suspend` leaves behind -/

/-- From `P`, which is to hold when a coroutine has given way, `suspend` leads to `Q`: it does not
matter to `P` which sessions there are, and `coroutine_resume` leads from `P` to `Q`, or the
coroutine yields at once and `P` still holds. -/
structure Hands (P Q : LuaService → Prop) : Prop where
  tables : ∀ {m : LuaService} sessions errors, P m →
    P { m with sessionIdCoroutine := sessions, errorQueue := errors }
  finished : ∀ {m : LuaService}, P m → Q m.finished
  failed : ∀ {m : LuaService}, P m → Q m.failed
  runs : ∀ {m m' : LuaService} {co : ℕ} depth, P m → m.coroutineResume co = .runs m' →
    Q { m' with control := .running co depth }
  yields : ∀ {m m' : LuaService} {co : ℕ}, P m → m.coroutineResume co = .yields m' → P m'
  fails : ∀ {m m' : LuaService} {co : ℕ}, P m → m.coroutineResume co = .fails m' → Q (m'.fail co)

namespace Hands

variable {P Q : LuaService → Prop}

theorem dispatchErrorQueue (h : Hands P Q) (depth : ℕ) (hm : P m) :
    Q (m.dispatchErrorQueue depth) := by
  induction depth generalizing m with
  | zero =>
    rw [LuaService.dispatchErrorQueue]
    split
    next => exact h.finished hm
    next session rest _ =>
      have htables := h.tables (Function.update m.sessionIdCoroutine session none) rest hm
      dsimp only
      split
      · cases hres : LuaService.coroutineResume _ _ with
        | runs m' => exact h.runs 0 htables hres
        | fails m' => exact h.fails htables hres
        | yields m' => exact h.finished (h.yields htables hres)
      · exact h.failed htables
  | succ depth ih =>
    rw [LuaService.dispatchErrorQueue]
    split
    next => exact h.finished hm
    next session rest _ =>
      have htables := h.tables (Function.update m.sessionIdCoroutine session none) rest hm
      dsimp only
      split
      · cases hres : LuaService.coroutineResume _ _ with
        | runs m' => exact h.runs (depth + 1) htables hres
        | fails m' => exact h.fails htables hres
        | yields m' => exact ih (h.yields htables hres)
      · exact h.failed htables

theorem leave (h : Hands P Q) (depth : ℕ) (hm : P m) : Q (m.leave depth) := by
  cases depth with
  | zero => exact h.finished hm
  | succ depth => exact h.dispatchErrorQueue depth hm

theorem resume (h : Hands P Q) (co depth : ℕ) (hm : P m) : Q (m.resume co depth) := by
  rw [LuaService.resume]
  cases hres : m.coroutineResume co with
  | runs m' => exact h.runs depth hm hres
  | fails m' => exact h.fails hm hres
  | yields m' => exact h.leave depth (h.yields hm hres)

theorem dispatchWakeup (h : Hands P Q)
    (hqueue : ∀ {m : LuaService} q, P m → P { m with wakeupQueue := q })
    (depth : ℕ) (hm : P m) : Q (m.dispatchWakeup depth).1 := by
  rw [LuaService.dispatchWakeup]
  split
  next => exact h.dispatchErrorQueue depth hm
  next co rest _ =>
    dsimp only
    split
    · exact h.dispatchErrorQueue depth (hqueue rest hm)
    · exact h.resume co (depth + 1) (h.tables _ m.errorQueue (hqueue rest hm))

end Hands

/-! ## One coroutine runs -/

/-- The coroutine `who` runs and no other one, and those in the pool do not wait for anything. -/
structure Placed (m : LuaService) (who : Option ℕ) : Prop where
  running : ∀ co, m.state co = .running ↔ who = some co
  pool : ∀ co ∈ m.coroutinePool, co < m.coroutines ∧ (m.state co).over = true
  nodup : m.coroutinePool.Nodup
  fresh : ∀ co, m.coroutines ≤ co → m.state co = .dead

namespace Placed

theorem init : Placed LuaService.init none where
  running co := by
    refine iff_of_false (fun h ↦ ?_) (fun h ↦ nomatch h)
    dsimp only [LuaService.init] at h
    by_cases hco : co = 0
    · rw [hco, Function.update_self] at h
      cases h
    · rw [Function.update_of_ne hco] at h
      cases h
  pool co h := nomatch h
  nodup := .nil
  fresh co h := by
    dsimp only [LuaService.init] at h ⊢
    rw [Function.update_of_ne (Nat.pos_iff_ne_zero.mp h)]

/-- One coroutine comes to be somewhere else. -/
theorem setState (h : Placed m who) (hothers : ∀ c ≠ co, who' = some c ↔ who = some c)
    (hx : x = .running ↔ who' = some co) (hpool : co ∈ m.coroutinePool → x.over = true)
    (hfresh : m.coroutines ≤ co → x = .dead) : Placed (m.setState co x) who' where
  running c := by
    dsimp only [LuaService.setState]
    by_cases hc : c = co
    · rw [hc, Function.update_self]
      exact hx
    · rw [Function.update_of_ne hc, h.running c]
      exact (hothers c hc).symm
  pool c hmem := by
    dsimp only [LuaService.setState]
    by_cases hc : c = co
    · rw [hc, Function.update_self]
      exact ⟨(h.pool co (hc ▸ hmem)).1, hpool (hc ▸ hmem)⟩
    · rw [Function.update_of_ne hc]
      exact h.pool c hmem
  nodup := h.nodup
  fresh c hle := by
    dsimp only [LuaService.setState]
    by_cases hc : c = co
    · rw [hc, Function.update_self]
      exact hfresh (hc ▸ hle)
    · rw [Function.update_of_ne hc]
      exact h.fresh c hle

theorem lt_coroutines (h : Placed m who) (hdead : m.state co ≠ .dead) : co < m.coroutines :=
  Nat.lt_of_not_le fun hle ↦ hdead (h.fresh co hle)

theorem notMem_pool (h : Placed m who) (hover : (m.state co).over = false) : co ∉ m.coroutinePool :=
  fun hmem ↦ nomatch hover.symm.trans (h.pool co hmem).2

theorem give (h : Placed m (some co)) (hx : x ≠ .running) : Placed (m.setState co x) none := by
  have hrun : m.state co = .running := (h.running co).mpr rfl
  refine h.setState (fun c hc ↦ ?_) ?_ (fun hmem ↦ ?_) (fun hle ↦ ?_)
  · exact iff_of_false (fun hn ↦ nomatch hn) fun hs ↦ hc (Option.some.inj hs).symm
  · exact iff_of_false hx fun hn ↦ nomatch hn
  · exact absurd hmem (h.notMem_pool (by rw [hrun]; rfl))
  · exact nomatch hrun.symm.trans (h.fresh co hle)

theorem run (h : Placed m none) (hover : (m.state co).over = false) :
    Placed (m.setState co .running) (some co) := by
  refine h.setState (fun c hc ↦ ?_) (iff_of_true rfl rfl) (fun hmem ↦ ?_) (fun hle ↦ ?_)
  · exact iff_of_false (fun hs ↦ hc (Option.some.inj hs).symm) fun hn ↦ nomatch hn
  · exact absurd hmem (h.notMem_pool hover)
  · rw [h.fresh co hle] at hover
    cases hover

private theorem spoil (h : Placed m none) (hx : x = .spoiled ∧ m.state co = .pooled ∨ x = .dead) :
    Placed (m.setState co x) none := by
  have hover : x.over = true ∧ x ≠ .running := by
    rcases hx with ⟨rfl, -⟩ | rfl
    · exact ⟨rfl, fun hn ↦ nomatch hn⟩
    · exact ⟨rfl, fun hn ↦ nomatch hn⟩
  refine h.setState (fun _ _ ↦ Iff.rfl) ?_ (fun _ ↦ hover.1) (fun hle ↦ ?_)
  · exact iff_of_false hover.2 fun hn ↦ nomatch hn
  · rcases hx with ⟨-, hstate⟩ | hdead
    · exact nomatch hstate.symm.trans (h.fresh co hle)
    · exact hdead

theorem fail (h : Placed m none) (co : ℕ) : Placed (m.fail co) (m.fail co).control.who := by
  rw [LuaService.fail]
  split <;> exact ⟨h.running, h.pool, h.nodup, h.fresh⟩

theorem hands : Hands (Placed · none) (fun m ↦ Placed m m.control.who) where
  tables _ _ h := ⟨h.running, h.pool, h.nodup, h.fresh⟩
  finished h := ⟨h.running, h.pool, h.nodup, h.fresh⟩
  failed h := ⟨h.running, h.pool, h.nodup, h.fresh⟩
  runs _ h hres := by
    obtain ⟨-, hover, _, _, _, rfl⟩ := coroutineResume_runs hres
    have hrun := h.run hover
    exact ⟨hrun.running, hrun.pool, hrun.nodup, hrun.fresh⟩
  yields h hres := by
    obtain ⟨hpooled, rfl⟩ := coroutineResume_yields hres
    exact h.spoil (Or.inl ⟨rfl, hpooled⟩)
  fails h hres := by
    rcases coroutineResume_fails hres with ⟨hrun, -⟩ | ⟨-, rfl⟩
    · exact nomatch (h.running _).mp hrun
    · exact (h.spoil (Or.inr rfl)).fail _

theorem over_of_coCreate (h : Placed m who) {reuse : Option ℕ}
    (hcreate : m.coCreate reuse = some (co, m')) : (m.state co).over = true := by
  rcases coCreate_cases hcreate with ⟨-, rfl, -⟩ | ⟨-, hmem, -⟩
  · rw [h.fresh m.coroutines (Nat.le_refl _)]
    rfl
  · exact (h.pool co hmem).2

theorem coCreate (h : Placed m who) {reuse : Option ℕ}
    (hcreate : m.coCreate reuse = some (co, m')) :
    Placed m' who := by
  have hover := h.over_of_coCreate hcreate
  have hwho : who ≠ some co := by
    intro hn
    rw [(h.running co).mpr hn] at hover
    cases hover
  rcases coCreate_cases hcreate with ⟨-, rfl, rfl⟩ | ⟨-, hmem, rfl⟩
  · refine ⟨fun c ↦ ?_, fun c hc ↦ ?_, h.nodup, fun c hle ↦ ?_⟩
    · dsimp only [LuaService.setState]
      by_cases hcm : c = m.coroutines
      · rw [hcm, Function.update_self]
        exact iff_of_false (fun hn ↦ nomatch hn) hwho
      · rw [Function.update_of_ne hcm]
        exact h.running c
    · obtain ⟨hlt, hc⟩ := h.pool c hc
      dsimp only [LuaService.setState]
      rw [Function.update_of_ne (Nat.ne_of_lt hlt)]
      exact ⟨Nat.lt_succ_of_lt hlt, hc⟩
    · dsimp only [LuaService.setState] at hle ⊢
      rw [Function.update_of_ne (Nat.ne_of_gt hle)]
      exact h.fresh c (Nat.le_of_succ_le hle)
  · refine ⟨fun c ↦ ?_, fun c hc ↦ ?_, h.nodup.erase co, fun c hle ↦ ?_⟩
    · dsimp only [LuaService.setState]
      by_cases hcm : c = co
      · rw [hcm, Function.update_self]
        refine iff_of_false (fun hn ↦ ?_) hwho
        split at hn <;> cases hn
      · rw [Function.update_of_ne hcm]
        exact h.running c
    · obtain ⟨hne, hc⟩ := (List.Nodup.mem_erase_iff h.nodup).mp hc
      dsimp only [LuaService.setState]
      rw [Function.update_of_ne hne]
      exact h.pool c hc
    · have hlt := (h.pool co hmem).1
      dsimp only [LuaService.setState] at hle ⊢
      rw [Function.update_of_ne (Nat.ne_of_gt (Nat.lt_of_lt_of_le hlt hle))]
      exact h.fresh c hle

/-- `h` is about the states of the coroutines, the pool and the number of coroutines only. -/
theorem congr (h : Placed m who) (hstate : m'.state = m.state)
    (hpool : m'.coroutinePool = m.coroutinePool) (hcoroutines : m'.coroutines = m.coroutines) :
    Placed m' who := by
  refine ⟨fun c ↦ ?_, fun c hc ↦ ?_, ?_, fun c hle ↦ ?_⟩
  · rw [hstate]
    exact h.running c
  · rw [hpool] at hc
    rw [hstate, hcoroutines]
    exact h.pool c hc
  · rw [hpool]
    exact h.nodup
  · rw [hcoroutines] at hle
    rw [hstate]
    exact h.fresh c hle

/-- The coroutine that runs goes to the pool. -/
theorem exit (h : Placed m (some co)) :
    Placed { m.setState co .pooled with coroutinePool := m.coroutinePool ++ [co] } none := by
  have hrun : m.state co = .running := (h.running co).mpr rfl
  have hgive := h.give (x := .pooled) fun hn ↦ nomatch hn
  have hnot : co ∉ m.coroutinePool := h.notMem_pool (by rw [hrun]; rfl)
  refine ⟨hgive.running, fun c hc ↦ ?_, ?_, hgive.fresh⟩
  · rcases List.mem_append.mp hc with hc | hc
    · exact hgive.pool c hc
    · rw [List.mem_singleton.mp hc]
      refine ⟨h.lt_coroutines (by rw [hrun]; exact fun hn ↦ nomatch hn), ?_⟩
      dsimp only [LuaService.setState]
      rw [Function.update_self]
      rfl
  · exact List.nodup_append.mpr ⟨h.nodup, List.pairwise_singleton _ _, fun c hc c' hc' heq ↦
      hnot (List.mem_singleton.mp hc' ▸ heq ▸ hc)⟩

theorem commandSleep (h : Placed m (some co)) (depth : ℕ) (hx : x ≠ .running) :
    Placed (m.commandSleep co depth x).1 (m.commandSleep co depth x).1.control.who :=
  hands.dispatchWakeup (fun _ h ↦ h.congr rfl rfl rfl) depth ((h.give hx).congr rfl rfl rfl)

theorem commandCall (h : Placed m (some co)) (depth address : ℕ) :
    Placed (m.commandCall co depth address).1 (m.commandCall co depth address).1.control.who :=
  hands.dispatchWakeup (fun _ h ↦ h.congr rfl rfl rfl) depth
    ((h.give (x := .calling m.sessions) fun hn ↦ nomatch hn).congr rfl rfl rfl)

theorem commandExit (h : Placed m (some co)) (depth : ℕ) :
    Placed (m.commandExit co depth).1 (m.commandExit co depth).1.control.who := by
  have hexit := h.exit
  rw [LuaService.commandExit]
  dsimp only
  split
  next => exact hands.dispatchWakeup (fun _ h ↦ h.congr rfl rfl rfl) depth hexit
  next address _ =>
    obtain ⟨watching, hw⟩ := releaseWatching_eq
      { m.setState co .pooled with coroutinePool := m.coroutinePool ++ [co] } address
    rw [hw]
    exact hands.dispatchWakeup (fun _ h ↦ h.congr rfl rfl rfl) depth (hexit.congr rfl rfl rfl)

/-- What the running coroutine does. -/
theorem act (h : Placed m m.control.who) (hcontrol : m.control = .running co depth)
    (hact : m.act co depth i = some (m', o)) : Placed m' m'.control.who := by
  -- the coroutine that acts is the one in control; what it does decides where it is placed next
  have hco : Placed m (some co) := by
    rw [hcontrol] at h
    exact h
  cases i with
  | wakeup co' =>
    rw [LuaService.act] at hact
    split at hact
    all_goals
      obtain ⟨rfl, rfl⟩ := Prod.mk.inj (Option.some.inj hact)
      exact h.congr rfl rfl rfl
  | fork reuse =>
    obtain ⟨⟨co', m₁⟩, hcreate, heq⟩ := Option.map_eq_some_iff.mp hact
    obtain ⟨rfl, rfl⟩ := Prod.mk.inj heq
    have hcreated := h.coCreate hcreate
    rw [← control_of_coCreate hcreate] at hcreated
    exact hcreated.congr rfl rfl rfl
  | timeout reuse =>
    obtain ⟨⟨co', m₁⟩, hcreate, heq⟩ := Option.map_eq_some_iff.mp hact
    obtain ⟨rfl, rfl⟩ := Prod.mk.inj heq
    have hcreated := h.coCreate hcreate
    rw [← control_of_coCreate hcreate] at hcreated
    exact hcreated.congr rfl rfl rfl
  | errorDispatch errorSession errorSource =>
    obtain ⟨rfl, rfl⟩ := Prod.mk.inj (Option.some.inj hact)
    obtain ⟨dead, errors, heq⟩ := m.errorDispatch_eq errorSession errorSource
    rw [heq]
    exact h.congr rfl rfl rfl
  | test k =>
    rw [LuaService.act] at hact
    split at hact
    · obtain ⟨rfl, rfl⟩ := Prod.mk.inj (Option.some.inj hact)
      obtain ⟨watching, response, heq⟩ := m.testResponse_eq k
      rw [heq]
      exact h.congr rfl rfl rfl
    · cases hact
  | respond k packs =>
    rw [LuaService.act] at hact
    split at hact
    · obtain ⟨rfl, rfl⟩ := Prod.mk.inj (Option.some.inj hact)
      obtain ⟨watching, response, heq⟩ := m.callResponse_eq k packs
      rw [heq]
      exact h.congr rfl rfl rfl
    · cases hact
  | sleep =>
    obtain rfl := congrArg Prod.fst (Option.some.inj hact)
    exact hco.commandSleep depth fun hn ↦ nomatch hn
  | wait co' =>
    obtain rfl := congrArg Prod.fst (Option.some.inj hact)
    exact hco.commandSleep depth fun hn ↦ nomatch hn
  | call address =>
    obtain rfl := congrArg Prod.fst (Option.some.inj hact)
    exact hco.commandCall depth address
  | ret =>
    obtain ⟨rfl, rfl⟩ := Prod.mk.inj (Option.some.inj hact)
    rcases m.commandReturn_cases co with ⟨-, answered, heq⟩ | ⟨-, answered, heq⟩
    · rw [heq]
      exact h.congr rfl rfl rfl
    · rw [heq]
      exact (hco.give (x := .stuck) fun hn ↦ nomatch hn).congr rfl rfl rfl
  | makeResponse =>
    obtain ⟨rfl, rfl⟩ := Prod.mk.inj (Option.some.inj hact)
    rcases m.commandResponse_cases co with ⟨-, address, ref, -, -, heq⟩ | ⟨-, heq⟩
    · rw [heq]
      exact h.congr rfl rfl rfl
    · rw [heq]
      exact (hco.give (x := .stuck) fun hn ↦ nomatch hn).congr rfl rfl rfl
  | exit =>
    obtain ⟨rfl, rfl⟩ := Prod.mk.inj (Option.some.inj hact)
    obtain ⟨watching, response, heq⟩ := refuseAll_eq m.responses { m with forkQueue := [] }
    rw [heq]
    exact hands.leave depth ((hco.give (x := .stuck) fun hn ↦ nomatch hn).congr rfl rfl rfl)
  | finish =>
    obtain rfl := congrArg Prod.fst (Option.some.inj hact)
    exact hco.commandExit depth
  | raise =>
    obtain ⟨rfl, rfl⟩ := Prod.mk.inj (Option.some.inj hact)
    exact (hco.give (x := .dead) fun hn ↦ nomatch hn).fail co
  | yield command =>
    obtain ⟨rfl, rfl⟩ := Prod.mk.inj (Option.some.inj hact)
    have hgive := hco.give (x := .stuck) fun hn ↦ nomatch hn
    cases command with
    | false => exact hands.leave depth hgive
    | true => exact hgive.congr rfl rfl rfl
  | response _ | request _ _ _ _ | unknown _ | forked _ | returns => cases hact

theorem rawDispatchMessage (h : Placed m none) (hraw : m.rawDispatchMessage i = some m') :
    Placed m' m'.control.who := by
  cases i with
  | response session =>
    rw [LuaService.rawDispatchMessage] at hraw
    split at hraw <;> obtain rfl := Option.some.inj hraw
    · exact h.congr rfl rfl rfl
    · exact h.congr rfl rfl rfl
    · exact hands.resume _ 0 (h.congr rfl rfl rfl)
  | request session source reuse unpacks =>
    rw [LuaService.rawDispatchMessage] at hraw
    dsimp only at hraw
    generalize Function.update m.watchingService source _ = watching at hraw
    have htables : Placed { m with watchingService := watching } none := h.congr rfl rfl rfl
    obtain ⟨⟨co, m₁⟩, hcreate, rfl⟩ := Option.map_eq_some_iff.mp hraw
    have hcreated := htables.coCreate hcreate
    dsimp only
    split
    · exact hands.resume co 0 (hcreated.congr rfl rfl rfl)
    · exact hcreated.congr rfl rfl rfl
  | unknown session =>
    obtain rfl := Option.some.inj hraw
    split
    · exact h.congr rfl rfl rfl
    · exact h.congr rfl rfl rfl
  | _ => cases hraw

theorem step (h : Placed m m.control.who) (hstep : luaService m i = .ok (m', o)) :
    Placed m' m'.control.who := by
  rcases luaService_cases hstep with ⟨hcontrol, -, hraw⟩ | ⟨hcontrol, -, co, -, -, rfl⟩ |
    ⟨hcontrol, -, -, -, rfl⟩ | ⟨co, depth, hcontrol, hact⟩
  · rw [hcontrol] at h
    have htables : Placed { m with succ := true } none := h.congr rfl rfl rfl
    exact htables.rawDispatchMessage hraw
  · rw [hcontrol] at h
    exact hands.resume co 0 (h.congr rfl rfl rfl)
  · rw [hcontrol] at h
    exact h.congr rfl rfl rfl
  · exact h.act hcontrol hact

theorem of_run {tr : List DispatchEvent} (hrun : Run luaService .init tr m) :
    Placed m m.control.who :=
  hrun.invariant (C := fun _ _ ↦ True) (fun m ↦ Placed m m.control.who) init
    (fun h _ hstep ↦ h.step hstep) fun _ _ ↦ trivial

end Placed

end LuaService

end ZTask
