import ZTask.LuaService.Scheduling
import Mathlib.Data.Nat.Count
import Mathlib.Tactic.SplitIfs

/-!
# The counts in `watching_service`

`watching_service` is to have, for each address, the number of the coroutines that handle a request
from there and of the closures of `ztask.response` for such requests that have not been called. A
request adds one and `ztask.response` another one; the end of the coroutine and the call of the
closure take them away.

Nothing is taken away when the coroutine raises an error, when `unpack` raises one, or when the
request has been given to a coroutine that cannot run any more, and a closure for a dead service is
counted down each time it is called with `"TEST"`. The count is right as long as none of this
happens (`Balanced`).
-/

namespace ZTask

open Lib

/-- Two predicates that differ at one number at most. -/
theorem count_add_ite (p q : ℕ → Prop) [DecidablePred p] [DecidablePred q] {k n : ℕ} (hk : k < n)
    (h : ∀ j ≠ k, p j ↔ q j) :
    Nat.count p n + (if q k then 1 else 0) = Nat.count q n + (if p k then 1 else 0) := by
  induction n with
  | zero => cases hk
  | succ n ih =>
    rw [Nat.count_succ, Nat.count_succ]
    by_cases hkn : k = n
    · subst hkn
      have hsame : Nat.count p k = Nat.count q k := by
        rw [Nat.count_eq_card_filter_range, Nat.count_eq_card_filter_range]
        congr 1
        exact Finset.filter_congr fun j hj ↦ h j (Nat.ne_of_lt (Finset.mem_range.mp hj))
      omega
    · have hih := ih (by omega)
      have hn : (if p n then 1 else 0) = if q n then 1 else 0 :=
        if_congr (h n fun heq ↦ hkn heq.symm) rfl rfl
      omega

private theorem count_congr {p q : ℕ → Prop} [DecidablePred p] [DecidablePred q] {n : ℕ}
    (h : ∀ j < n, p j ↔ q j) : Nat.count p n = Nat.count q n := by
  rw [Nat.count_eq_card_filter_range, Nat.count_eq_card_filter_range]
  congr 1
  exact Finset.filter_congr fun j hj ↦ h j (Finset.mem_range.mp hj)

namespace LuaService

variable {m m' : LuaService} {x : CoroutineState} {co depth session a : ℕ} {i : DispatchInput}
  {o : DispatchOutput}

/-- The coroutines that handle a request from this address. -/
def live (m : LuaService) (a : ℕ) : ℕ :=
  Nat.count (fun co ↦ m.sessionCoroutineAddress co = some a ∧
    (m.state co).started = true) m.coroutines

/-- The closures of `ztask.response` for this address that have not been called. -/
def outstanding (m : LuaService) (a : ℕ) : ℕ :=
  Nat.count (fun k ↦ m.response k = ⟨a, .pending⟩) m.responses

/-- There is no entry for the number 0. -/
def entry (n : ℕ) : Option ℕ := if n = 0 then none else some n

/-- What may happen. -/
def Balanced (m : LuaService) : DispatchInput → Prop
  | .request _ _ reuse unpacks => unpacks = true ∧ ∀ co ∈ reuse, m.state co = .pooled
  | .raise => ∀ co ∈ m.control.who, m.sessionCoroutineAddress co = none
  | .test k => m.deadService (m.response k).address = true →
      (m.response k).f = .pending ∨ m.watchingService (m.response k).address = none
  | _ => True

instance decidableBalanced (m : LuaService) : ∀ i, Decidable (m.Balanced i)
  | .request _ _ _ _ => inferInstanceAs (Decidable (_ ∧ _))
  | .raise => inferInstanceAs (Decidable
      (∀ co ∈ m.control.who, m.sessionCoroutineAddress co = none))
  | .test _ => inferInstanceAs (Decidable (_ → _))
  | .response _ | .unknown _ | .forked _ | .returns | .wakeup _ | .fork _ | .timeout _
  | .errorDispatch _ _ | .respond _ _ | .sleep | .wait _ | .call _ | .ret | .makeResponse | .exit
  | .finish | .yield _ => .isTrue trivial

/-! ## How the numbers change -/

private theorem live_update (hlt : co < m.coroutines) (hcoroutines : m'.coroutines = m.coroutines)
    (haddress : ∀ c ≠ co, m'.sessionCoroutineAddress c = m.sessionCoroutineAddress c)
    (hstate : ∀ c ≠ co, m'.state c = m.state c) (a : ℕ) :
    m'.live a +
        (if m.sessionCoroutineAddress co = some a ∧ (m.state co).started = true then 1 else 0) =
      m.live a +
        (if m'.sessionCoroutineAddress co = some a ∧
        (m'.state co).started = true then 1 else 0) := by
  rw [live, live, hcoroutines]
  exact count_add_ite (fun c ↦ m'.sessionCoroutineAddress c = some a ∧ (m'.state c).started = true)
    (fun c ↦ m.sessionCoroutineAddress c = some a ∧ (m.state c).started = true) hlt fun c hc ↦ by
      rw [haddress c hc, hstate c hc]

theorem outstanding_update {k : ℕ} (hlt : k < m.responses) (hresponses : m'.responses = m.responses)
    (hresponse : ∀ j ≠ k, m'.response j = m.response j) (a : ℕ) :
    m'.outstanding a + (if m.response k = ⟨a, .pending⟩ then 1 else 0) =
      m.outstanding a + (if m'.response k = ⟨a, .pending⟩ then 1 else 0) := by
  rw [outstanding, outstanding, hresponses]
  exact count_add_ite (fun j ↦ m'.response j = ⟨a, .pending⟩) (fun j ↦ m.response j = ⟨a, .pending⟩)
    hlt fun j hj ↦ by rw [hresponse j hj]

private theorem entry_succ (n : ℕ) :
    (some (match entry n with | some ref => ref + 1 | none => 1) : Option ℕ) = entry (n + 1) := by
  rw [entry, entry, if_neg (Nat.succ_ne_zero n)]
  split_ifs with hn
  · rw [hn]
  · rfl

private theorem releaseWatching_entry {n : ℕ} (h : m.watchingService a = entry (n + 1)) :
    m.releaseWatching a =
      { m with watchingService := Function.update m.watchingService a (entry n) } := by
  rw [entry, if_neg (Nat.succ_ne_zero n)] at h
  rw [releaseWatching, h]
  dsimp only
  rw [Nat.add_sub_cancel, entry]
  by_cases hn : n = 0
  · rw [if_neg (by omega), if_pos hn]
  · rw [if_pos (by omega), if_neg hn]

private theorem watching_of_coCreate {reuse : Option ℕ} (h : m.coCreate reuse = some (co, m')) :
    m'.watchingService = m.watchingService := by
  rcases coCreate_cases h with ⟨-, -, rfl⟩ | ⟨-, -, rfl⟩ <;> rfl

private theorem coCreate_ready {reuse : Option ℕ} (h : m.coCreate reuse = some (co, m'))
    (hpooled : ∀ c ∈ reuse, m.state c = .pooled) : m'.state co = .ready := by
  rcases coCreate_cases h with ⟨-, rfl, rfl⟩ | ⟨hreuse, -, rfl⟩
  · exact Function.update_self ..
  · dsimp only [setState]
    rw [Function.update_self, if_pos (hpooled co hreuse)]

private theorem coCreate_watching (m : LuaService) (watching : ℕ → Option ℕ) (reuse : Option ℕ) :
    coCreate { m with watchingService := watching } reuse =
      (m.coCreate reuse).map fun p ↦ (p.1, { p.2 with watchingService := watching }) := by
  cases reuse with
  | none => rfl
  | some co =>
    rw [coCreate, coCreate]
    dsimp only
    split <;> rfl

/-! ## The invariant -/

/-- The counts are right, and a coroutine that has the address of a request is in its function. -/
structure Watched (m : LuaService) : Prop where
  started : ∀ (co a : ℕ), m.sessionCoroutineAddress co = some a → (m.state co).started = true
  counts : ∀ a, m.watchingService a = entry (m.live a + m.outstanding a)

namespace Watched

theorem init : Watched LuaService.init where
  started _ _ h := nomatch h
  counts a := by
    have hlive : LuaService.init.live a = 0 :=
      Nat.count_iff_forall_not.mpr fun _ _ hc ↦ nomatch hc.1
    rw [hlive]
    rfl

/-- Nothing changes for the requests and the closures. -/
theorem congr (h : Watched m) (haddress : m'.sessionCoroutineAddress = m.sessionCoroutineAddress)
    (hstarted : ∀ (co a : ℕ), m.sessionCoroutineAddress co = some a → (m'.state co).started = true)
    (hwatching : m'.watchingService = m.watchingService) (hresponse : m'.response = m.response)
    (hresponses : m'.responses = m.responses) (hcoroutines : m'.coroutines = m.coroutines) :
    Watched m' where
  started co a hco := by
    rw [haddress] at hco
    exact hstarted co a hco
  counts a := by
    have hlive : m'.live a = m.live a := by
      rw [live, live, hcoroutines]
      refine count_congr fun co _ ↦ ?_
      rw [haddress]
      exact ⟨fun hco ↦ ⟨hco.1, h.started co a hco.1⟩, fun hco ↦ ⟨hco.1, hstarted co a hco.1⟩⟩
    rw [hwatching, h.counts a, hlive, outstanding, outstanding, hresponse, hresponses]

theorem setState (h : Watched m) (hx : x.started = true ∨ m.sessionCoroutineAddress co = none) :
    Watched (m.setState co x) := by
  refine h.congr rfl (fun c a hc ↦ ?_) rfl rfl rfl rfl
  dsimp only [LuaService.setState]
  by_cases hcc : c = co
  · rw [hcc, Function.update_self]
    rw [hcc] at hc
    exact hx.resolve_right fun hnone ↦ nomatch hnone.symm.trans hc
  · rw [Function.update_of_ne hcc]
    exact h.started c a hc

private theorem address_eq_none (h : Watched m) (hx : (m.state co).started = false) :
    m.sessionCoroutineAddress co = none := by
  cases ha : m.sessionCoroutineAddress co with
  | none => rfl
  | some a => exact nomatch hx.symm.trans (h.started co a ha)

theorem fail (h : Watched m) (hnone : m.sessionCoroutineAddress co = none) :
    Watched (m.fail co) := by
  rw [LuaService.fail]
  split
  · have hsame : Function.update m.sessionCoroutineAddress co none = m.sessionCoroutineAddress := by
      rw [← hnone, Function.update_eq_self]
    exact h.congr hsame h.started rfl rfl rfl rfl
  · exact h.congr rfl h.started rfl rfl rfl rfl

/-- What `suspend` leaves behind. -/
theorem hands : Hands (fun m ↦ m.Placed none ∧ m.Watched) Watched where
  tables _ _ h := ⟨h.1.congr rfl rfl rfl, h.2.congr rfl h.2.started rfl rfl rfl rfl⟩
  finished h := h.2.congr rfl h.2.started rfl rfl rfl rfl
  failed h := h.2.congr rfl h.2.started rfl rfl rfl rfl
  runs := by
    intro m m' co _ h hres
    obtain ⟨-, -, _, _, _, rfl⟩ := coroutineResume_runs hres
    have hrun : Watched (m.setState co .running) := h.2.setState (Or.inl rfl)
    exact hrun.congr rfl hrun.started rfl rfl rfl rfl
  yields h hres := by
    have hplaced := Placed.hands.yields h.1 hres
    obtain ⟨hpooled, rfl⟩ := coroutineResume_yields hres
    exact ⟨hplaced, h.2.setState (Or.inr (h.2.address_eq_none (by rw [hpooled]; rfl)))⟩
  fails h hres := by
    rcases coroutineResume_fails hres with ⟨hrun, -⟩ | ⟨hstate, rfl⟩
    · exact nomatch (h.1.running _).mp hrun
    · have hnone := h.2.address_eq_none (by rcases hstate with hx | hx <;> rw [hx] <;> rfl)
      exact (h.2.setState (Or.inr hnone)).fail hnone

/-- `co_create` -/
theorem coCreate (h : Watched m) {who : Option ℕ} (hplaced : m.Placed who) {reuse : Option ℕ}
    (hcreate : m.coCreate reuse = some (co, m')) :
    Watched m' ∧ m'.sessionCoroutineAddress co = none ∧ co < m'.coroutines := by
  have hover := hplaced.over_of_coCreate hcreate
  have hnone : m.sessionCoroutineAddress co = none := h.address_eq_none (by
    cases hstate : m.state co <;> first | rfl | (rw [hstate] at hover; cases hover))
  rcases coCreate_cases hcreate with ⟨-, rfl, rfl⟩ | ⟨-, hmem, rfl⟩
  · refine ⟨⟨fun c a hc ↦ ?_, fun a ↦ ?_⟩, hnone, Nat.lt_succ_self _⟩
    · exact (h.setState (Or.inr hnone)).started c a hc
    · have hset := (h.setState (x := .ready) (Or.inr hnone)).counts a
      rw [live] at hset ⊢
      dsimp only at hset ⊢
      rw [Nat.count_succ, if_neg fun hc ↦ Option.some_ne_none a (hc.1.symm.trans hnone)]
      exact hset
  · refine ⟨?_, hnone, (hplaced.pool co hmem).1⟩
    have hset := h.setState (x := if m.state co = .pooled then .ready else .dead) (Or.inr hnone)
    exact hset.congr rfl hset.started rfl rfl rfl rfl

private theorem recount {n : ℕ} (h : Watched m)
    (hstarted : ∀ (co b : ℕ), m'.sessionCoroutineAddress co = some b → (m'.state co).started = true)
    (hwatching : m'.watchingService = Function.update m.watchingService a (entry n))
    (hthis : m'.live a + m'.outstanding a = n)
    (hothers : ∀ b ≠ a, m'.live b + m'.outstanding b = m.live b + m.outstanding b) :
    Watched m' where
  started := hstarted
  counts b := by
    rw [hwatching]
    by_cases hb : b = a
    · rw [hb, Function.update_self, hthis]
    · rw [Function.update_of_ne hb, h.counts b, hothers b hb]

/-- A coroutine begins to handle a request. -/
theorem begin (h : Watched m) (hnone : m.sessionCoroutineAddress co = none)
    (hlt : co < m.coroutines)
    (haddress : m'.sessionCoroutineAddress = Function.update m.sessionCoroutineAddress co (some a))
    (hstate : m'.state = Function.update m.state co .running)
    (hwatching : m'.watchingService =
      Function.update m.watchingService a (entry (m.live a + m.outstanding a + 1)))
    (hresponse : m'.response = m.response) (hresponses : m'.responses = m.responses)
    (hcoroutines : m'.coroutines = m.coroutines) : Watched m' := by
  have hout : ∀ b, m'.outstanding b = m.outstanding b := fun b ↦ by
    rw [outstanding, outstanding, hresponse, hresponses]
  have hlive : ∀ b, m'.live b = m.live b + if b = a then 1 else 0 := by
    intro b
    have hupdate := live_update hlt hcoroutines
      (fun c hc ↦ by rw [haddress, Function.update_of_ne hc])
      (fun c hc ↦ by rw [hstate, Function.update_of_ne hc]) b
    rw [if_neg fun hc ↦ Option.some_ne_none b (hc.1.symm.trans hnone), haddress, hstate,
      Function.update_self, Function.update_self] at hupdate
    rw [Nat.add_zero] at hupdate
    rw [hupdate]
    by_cases hb : b = a
    · rw [if_pos hb, if_pos ⟨congrArg some hb.symm, rfl⟩]
    · rw [if_neg hb, if_neg fun hc ↦ hb (Option.some.inj hc.1).symm]
  refine h.recount (fun c b hc ↦ ?_) hwatching ?_ fun b hb ↦ ?_
  · rw [haddress] at hc
    rw [hstate]
    by_cases hcc : c = co
    · rw [hcc, Function.update_self]
      rfl
    · rw [Function.update_of_ne hcc] at hc ⊢
      exact h.started c b hc
  · rw [hlive, if_pos rfl, hout]
    omega
  · rw [hlive, if_neg hb, hout]
    rfl

/-- A coroutine that handles a request comes to its end. -/
theorem finish (h : Watched m) (hplaced : m.Placed (some co))
    (ha : m.sessionCoroutineAddress co = some a)
    (haddress : m'.sessionCoroutineAddress = Function.update m.sessionCoroutineAddress co none)
    (hstate : ∀ c ≠ co, m'.state c = m.state c)
    (hwatching : m'.watchingService = (m.releaseWatching a).watchingService)
    (hresponse : m'.response = m.response) (hresponses : m'.responses = m.responses)
    (hcoroutines : m'.coroutines = m.coroutines) : Watched m' := by
  have hrun := (hplaced.running co).mpr rfl
  have hlt : co < m.coroutines := hplaced.lt_coroutines (by rw [hrun]; exact fun hn ↦ nomatch hn)
  have hout : ∀ b, m'.outstanding b = m.outstanding b := fun b ↦ by
    rw [outstanding, outstanding, hresponse, hresponses]
  have hlive : ∀ b, m'.live b + (if b = a then 1 else 0) = m.live b := by
    intro b
    have hupdate := live_update hlt hcoroutines
      (fun c hc ↦ by rw [haddress, Function.update_of_ne hc]) hstate b
    have hgone : ¬ (m'.sessionCoroutineAddress co = some b ∧ (m'.state co).started = true) := by
      rw [haddress, Function.update_self]
      exact fun hc ↦ nomatch hc.1
    rw [if_neg hgone, Nat.add_zero, ha] at hupdate
    rw [← hupdate]
    by_cases hb : b = a
    · rw [if_pos hb, if_pos ⟨congrArg some hb.symm, h.started co a ha⟩]
    · rw [if_neg hb, if_neg fun hc ↦ hb (Option.some.inj hc.1).symm]
  have hone := hlive a
  rw [if_pos rfl] at hone
  have hentry : m.watchingService a = entry (m'.live a + m'.outstanding a + 1) := by
    rw [h.counts a, hout, ← hone, Nat.add_right_comm]
  rw [releaseWatching_entry hentry] at hwatching
  refine h.recount (fun c b hc ↦ ?_) hwatching rfl fun b hb ↦ ?_
  · rw [haddress] at hc
    by_cases hcc : c = co
    · rw [hcc, Function.update_self] at hc
      cases hc
    · rw [Function.update_of_ne hcc] at hc
      rw [hstate c hcc]
      exact h.started c b hc
  · have hsame := hlive b
    rw [if_neg hb, Nat.add_zero] at hsame
    rw [hsame, hout]

/-- A closure is called for the first time, or is found to be for a dead service. -/
theorem settle {k : ℕ} {f : ResponseState} (h : Watched m) (hk : k < m.responses)
    (hpending : (m.response k).f = .pending) (hf : f ≠ .pending) :
    Watched ((m.releaseWatching (m.response k).address).setResponse k f) := by
  obtain ⟨address, hresponse⟩ : ∃ address, m.response k = ⟨address, .pending⟩ :=
    ⟨(m.response k).address, by rw [← hpending]⟩
  rw [hresponse]
  have hset : ∀ b, (m.setResponse k f).outstanding b + (if b = address then 1 else 0) =
      m.outstanding b := by
    intro b
    have hupdate := @outstanding_update m (m.setResponse k f) k hk rfl
      (fun j hj ↦ Function.update_of_ne hj _ _) b
    have hgone : (m.setResponse k f).response k ≠ ⟨b, .pending⟩ := by
      dsimp only [setResponse]
      rw [Function.update_self]
      exact fun hc ↦ hf (congrArg ResponseClosure.f hc)
    rw [if_neg hgone, Nat.add_zero, hresponse] at hupdate
    rw [← hupdate]
    by_cases hb : b = address
    · rw [if_pos hb, if_pos (by rw [hb])]
    · rw [if_neg hb, if_neg fun hc ↦ hb (congrArg ResponseClosure.address hc).symm]
  have hone := hset address
  rw [if_pos rfl] at hone
  have hentry : m.watchingService address =
      entry (m.live address + (m.setResponse k f).outstanding address + 1) := by
    rw [h.counts address, ← hone]
    rfl
  rw [releaseWatching_entry hentry]
  refine h.recount h.started rfl rfl fun b hb ↦ ?_
  have hsame := hset b
  rw [if_neg hb, Nat.add_zero] at hsame
  exact congrArg (m.live b + ·) hsame

/-- A closure that has been called, or is refused, is so in another way. -/
theorem setOther {k : ℕ} {f : ResponseState} (h : Watched m) (hold : (m.response k).f ≠ .pending)
    (hf : f ≠ .pending) : Watched (m.setResponse k f) where
  started := h.started
  counts a := by
    refine (h.counts a).trans (congrArg entry (congrArg (m.live a + ·) ?_))
    rw [outstanding, outstanding]
    refine count_congr fun j _ ↦ ?_
    dsimp only [setResponse]
    by_cases hj : j = k
    · rw [hj, Function.update_self]
      exact iff_of_false (fun hc ↦ hold (congrArg ResponseClosure.f hc))
        fun hc ↦ hf (congrArg ResponseClosure.f hc)
    · rw [Function.update_of_ne hj]

/-- `ztask.response` -/
theorem respond {ref : ℕ} (h : Watched m) (href : m.watchingService a = some ref)
    (answered : ℕ → Bool) :
    Watched { m with
      watchingService := Function.update m.watchingService a (some (ref + 1))
      sessionResponse := answered
      response := Function.update m.response m.responses ⟨a, .pending⟩
      responses := m.responses + 1 } := by
  have hout : ∀ b, Nat.count
      (fun k ↦ Function.update m.response m.responses ⟨a, .pending⟩ k = ⟨b, .pending⟩)
        (m.responses + 1) =
        m.outstanding b + if b = a then 1 else 0 := by
    intro b
    rw [Nat.count_succ, Function.update_self, outstanding]
    refine congrArg₂ (· + ·) (count_congr fun k hk ↦ ?_) (if_congr ?_ rfl rfl)
    · rw [Function.update_of_ne (Nat.ne_of_lt hk)]
    · exact ⟨fun hc ↦ (congrArg ResponseClosure.address hc).symm, fun hb ↦ by rw [hb]⟩
  have hentry : some (ref + 1) = entry (m.live a + m.outstanding a + 1) := by
    rw [← entry_succ, ← h.counts a, href]
  rw [hentry]
  refine h.recount h.started rfl ?_ fun b hb ↦ ?_
  · have hnew := hout a
    rw [if_pos rfl] at hnew
    exact congrArg (m.live a + ·) hnew
  · have hold := hout b
    rw [if_neg hb] at hold
    exact congrArg (m.live b + ·) hold

/-! ## One step -/

theorem same (h : Watched m) (haddress : m'.sessionCoroutineAddress = m.sessionCoroutineAddress)
    (hstate : m'.state = m.state) (hwatching : m'.watchingService = m.watchingService)
    (hresponse : m'.response = m.response) (hresponses : m'.responses = m.responses)
    (hcoroutines : m'.coroutines = m.coroutines) : Watched m' :=
  h.congr haddress (by rw [hstate]; exact h.started) hwatching hresponse hresponses hcoroutines

theorem callResponse {k : ℕ} (h : Watched m) (hk : k < m.responses) (packs : Bool) :
    Watched (m.callResponse k packs) := by
  rw [LuaService.callResponse]
  split
  next => exact h
  next hrefused =>
    exact h.setOther (by rw [hrefused]; exact fun hn ↦ by cases hn) fun hn ↦ by cases hn
  next hpending =>
    split
    · exact h.settle hk hpending fun hn ↦ by cases hn
    · exact h

theorem testResponse {k : ℕ} (h : Watched m) (hk : k < m.responses)
    (htest : m.deadService (m.response k).address = true →
      (m.response k).f = .pending ∨ m.watchingService (m.response k).address = none) :
    Watched (m.testResponse k) := by
  rw [LuaService.testResponse]
  by_cases hdead : m.deadService (m.response k).address = true
  · rw [if_pos hdead]
    by_cases hpending : (m.response k).f = .pending
    · exact h.settle hk hpending fun hn ↦ by cases hn
    · -- there is nothing to take away
      have hnone := (htest hdead).resolve_left hpending
      rw [releaseWatching, hnone]
      exact h.setOther hpending fun hn ↦ by cases hn
  · rw [if_neg hdead]
    exact h

theorem refuseAll (h : Watched m) {n : ℕ} (hn : n ≤ m.responses) : Watched (refuseAll n m) := by
  induction n with
  | zero => exact h
  | succ n ih =>
    have hall := ih (Nat.le_of_succ_le hn)
    rw [LuaService.refuseAll]
    split
    · refine hall.callResponse ?_ true
      obtain ⟨_, _, heq⟩ := refuseAll_eq n m
      rw [heq]
      exact hn
    · exact hall

/-- `dispatch_wakeup`, with other tables than those of the requests changed before it. -/
theorem dispatchWakeup (h : Watched m) (hplaced : m.Placed none) (depth : ℕ) :
    Watched (m.dispatchWakeup depth).1 :=
  hands.dispatchWakeup (fun _ hm ↦ ⟨hm.1.congr rfl rfl rfl,
    hm.2.same rfl rfl rfl rfl rfl rfl⟩) depth
    ⟨hplaced, h⟩

theorem commandSleep (h : Watched m) (hco : m.Placed (some co)) (depth : ℕ) (hx : x.started = true)
    (hne : x ≠ .running) : Watched (m.commandSleep co depth x).1 := by
  rw [LuaService.commandSleep]
  refine dispatchWakeup ?_ ?_ depth
  · exact (h.setState (Or.inl hx)).same rfl rfl rfl rfl rfl rfl
  · exact (hco.give hne).congr rfl rfl rfl

theorem commandCall (h : Watched m) (hco : m.Placed (some co)) (depth address : ℕ) :
    Watched (m.commandCall co depth address).1 := by
  rw [LuaService.commandCall]
  refine dispatchWakeup ?_ ?_ depth
  · exact (h.setState (x := .calling m.sessions) (Or.inl rfl)).same rfl rfl rfl rfl rfl rfl
  · exact (hco.give (x := .calling m.sessions) fun hn ↦ nomatch hn).congr rfl rfl rfl

theorem commandReturn (h : Watched m) : Watched (m.commandReturn co) := by
  rcases m.commandReturn_cases co with ⟨-, answered, heq⟩ | ⟨-, answered, heq⟩
  · rw [heq]
    exact h.same rfl rfl rfl rfl rfl rfl
  · rw [heq]
    exact (h.setState (x := .stuck) (Or.inl rfl)).same rfl rfl rfl rfl rfl rfl

theorem commandResponse (h : Watched m) : Watched (m.commandResponse co) := by
  rcases m.commandResponse_cases co with ⟨-, address, ref, -, href, heq⟩ | ⟨-, heq⟩
  · rw [heq]
    exact h.respond href _
  · rw [heq]
    exact (h.setState (x := .stuck) (Or.inl rfl)).same rfl rfl rfl rfl rfl rfl

/-- `ztask.exit` -/
theorem exit (h : Watched m) (hco : m.Placed (some co)) (depth : ℕ) :
    Watched (((LuaService.refuseAll m.responses { m with forkQueue := [] }).setState co
      .stuck).leave depth) := by
  have hforks : Watched { m with forkQueue := [] } := h.same rfl rfl rfl rfl rfl rfl
  have hall := hforks.refuseAll (n := m.responses) (Nat.le_refl _)
  refine hands.leave depth ⟨?_, hall.setState (Or.inl rfl)⟩
  obtain ⟨watching, response, heq⟩ := refuseAll_eq m.responses { m with forkQueue := [] }
  rw [heq]
  have hplaced := hco.give (x := .stuck) fun hn ↦ by cases hn
  exact hplaced.congr rfl rfl rfl

/-- The coroutine goes back to the pool. -/
theorem commandExit (h : Watched m) (hco : m.Placed (some co)) (depth : ℕ) :
    Watched (m.commandExit co depth).1 := by
  have hexit := hco.exit
  rw [LuaService.commandExit]
  dsimp only
  split
  next hnone =>
    have hset := h.setState (x := .pooled) (Or.inr hnone)
    refine dispatchWakeup ?_ hexit depth
    exact hset.same rfl rfl rfl rfl rfl rfl
  next address ha =>
    have hsame : (LuaService.releaseWatching { m.setState co .pooled with
          coroutinePool := m.coroutinePool ++ [co] } address).watchingService =
        (m.releaseWatching address).watchingService := by
      rw [LuaService.releaseWatching, LuaService.releaseWatching]
      dsimp only [LuaService.setState]
      split <;> rfl
    obtain ⟨watching, hw⟩ := releaseWatching_eq
      { m.setState co .pooled with coroutinePool := m.coroutinePool ++ [co] } address
    rw [hw] at hsame ⊢
    refine dispatchWakeup ?_ ?_ depth
    · refine h.finish hco ha rfl (fun c hc ↦ ?_) hsame rfl rfl rfl
      exact Function.update_of_ne hc _ _
    · exact hexit.congr rfl rfl rfl

/-- What the running coroutine does. -/
theorem act (h : Watched m) (hplaced : m.Placed m.control.who)
    (hcontrol : m.control = .running co depth)
    (hbal : m.Balanced i) (hact : m.act co depth i = some (m', o)) : Watched m' := by
  have hwho : m.control.who = some co := by rw [hcontrol]; rfl
  have hco : m.Placed (some co) := hwho ▸ hplaced
  cases i with
  | wakeup co' =>
    rw [LuaService.act] at hact
    split at hact <;> cases hact <;> exact h.same rfl rfl rfl rfl rfl rfl
  | fork reuse | timeout reuse =>
    obtain ⟨⟨co', m₁⟩, hcreate, heq⟩ := Option.map_eq_some_iff.mp hact
    cases heq
    exact (h.coCreate hplaced hcreate).1.same rfl rfl rfl rfl rfl rfl
  | errorDispatch errorSession errorSource =>
    cases hact
    obtain ⟨dead, errors, heq⟩ := m.errorDispatch_eq errorSession errorSource
    rw [heq]
    exact h.same rfl rfl rfl rfl rfl rfl
  | test k =>
    rw [LuaService.act] at hact
    split at hact
    · cases hact
      exact h.testResponse ‹_› hbal
    · cases hact
  | respond k packs =>
    rw [LuaService.act] at hact
    split at hact
    · cases hact
      exact h.callResponse ‹_› packs
    · cases hact
  | sleep | wait co' =>
    obtain rfl := congrArg Prod.fst (Option.some.inj hact)
    exact h.commandSleep hco depth rfl (by rintro ⟨⟩)
  | call address =>
    obtain rfl := congrArg Prod.fst (Option.some.inj hact)
    exact h.commandCall hco depth address
  | ret =>
    cases hact
    exact h.commandReturn
  | makeResponse =>
    cases hact
    exact h.commandResponse
  | exit =>
    cases hact
    exact h.exit hco depth
  | finish =>
    obtain rfl := congrArg Prod.fst (Option.some.inj hact)
    exact h.commandExit hco depth
  | raise =>
    cases hact
    -- a coroutine that dies must not hold a watched address
    have hnone := hbal co hwho
    have hdead : (m.setState co .dead).Watched := h.setState (Or.inr hnone)
    exact hdead.fail hnone
  | yield command =>
    cases hact
    have hstuck : (m.setState co .stuck).Placed none ∧ (m.setState co .stuck).Watched :=
      ⟨hco.give fun hn ↦ (by cases hn), h.setState (Or.inl rfl)⟩
    cases command with
    | false => exact hands.leave depth hstuck
    | true => exact hands.failed hstuck
  | response _ | request _ _ _ _ | unknown _ | forked _ | returns => cases hact

theorem rawDispatchMessage (h : Watched m) (hplaced : m.Placed none) (hbal : m.Balanced i)
    (hraw : m.rawDispatchMessage i = some m') : Watched m' := by
  cases i with
  | response session =>
    rw [LuaService.rawDispatchMessage] at hraw
    split at hraw <;> obtain rfl := Option.some.inj hraw
    · exact h.same rfl rfl rfl rfl rfl rfl
    · exact h.same rfl rfl rfl rfl rfl rfl
    · exact hands.resume _ 0 ⟨hplaced.congr rfl rfl rfl, h.same rfl rfl rfl rfl rfl rfl⟩
  | request session source reuse unpacks =>
    obtain ⟨rfl, hpooled⟩ := hbal
    rw [LuaService.rawDispatchMessage] at hraw
    dsimp only at hraw
    rw [coCreate_watching, Option.map_map] at hraw
    obtain ⟨⟨co, m₁⟩, hcreate, rfl⟩ := Option.map_eq_some_iff.mp hraw
    dsimp only [Function.comp_apply]
    rw [if_pos rfl, resume, coroutineResume]
    dsimp only
    rw [coCreate_ready hcreate hpooled]
    obtain ⟨hcreated, hnone, hlt⟩ := h.coCreate hplaced hcreate
    refine hcreated.begin hnone hlt rfl rfl ?_ rfl rfl rfl
    have hcount := hcreated.counts source
    rw [watching_of_coCreate hcreate] at hcount ⊢
    rw [← entry_succ, ← hcount]
    rfl
  | unknown session =>
    obtain rfl := Option.some.inj hraw
    split
    · exact h.same rfl rfl rfl rfl rfl rfl
    · exact h.same rfl rfl rfl rfl rfl rfl
  | _ => cases hraw

/-- One step. -/
theorem step (h : Watched m) (hplaced : m.Placed m.control.who) (hbal : m.Balanced i)
    (hstep : luaService m i = .ok (m', o)) : Watched m' := by
  rcases luaService_cases hstep with ⟨hcontrol, -, hraw⟩ | ⟨hcontrol, -, co, -, -, rfl⟩ |
    ⟨-, -, -, -, rfl⟩ | ⟨co, depth, hcontrol, hact⟩
  · rw [hcontrol] at hplaced
    have hsucc : Watched { m with succ := true } := h.same rfl rfl rfl rfl rfl rfl
    have hplaced' : Placed { m with succ := true } none := hplaced.congr rfl rfl rfl
    refine hsucc.rawDispatchMessage hplaced' ?_ hraw
    cases i <;> exact hbal
  · rw [hcontrol] at hplaced
    exact hands.resume co 0 ⟨hplaced.congr rfl rfl rfl, h.same rfl rfl rfl rfl rfl rfl⟩
  · exact h.same rfl rfl rfl rfl rfl rfl
  · exact h.act hplaced hcontrol hbal hact

end Watched

/-! ## Every run -/

variable {tr : List DispatchEvent}

/-- **The counts are right** in every state that a run reaches whose steps are balanced. -/
theorem watchingService_eq (hrun : Run luaService .init tr m) (hbal : Meets Balanced tr) (a : ℕ) :
    m.watchingService a = entry (m.live a + m.outstanding a) := by
  have hboth : m.Placed m.control.who ∧ m.Watched :=
    hrun.invariant (fun m ↦ m.Placed m.control.who ∧ m.Watched) ⟨.init, .init⟩
      (fun h hbal hstep ↦ ⟨h.1.step hstep, h.2.step h.1 hbal hstep⟩) hbal
  exact hboth.2.counts a

/-- The coroutine that handles a request raises an error: nothing handles a request any more, and
the count is still 1. -/
theorem not_watchingService_eq : ∃ tr m, Run luaService .init tr m ∧
    ¬ ∀ a, m.watchingService a = entry (m.live a + m.outstanding a) := by
  have hpasses : Passes luaService .init [.request 1 7 none true, .raise]
      fun _ m ↦ m.watchingService 7 = some 1 ∧ m.live 7 + m.outstanding 7 = 0 := by
    decide +kernel
  obtain ⟨tr, m, hrun, hwatching, hzero⟩ := Run.of_passes hpasses
  refine ⟨tr, m, hrun, fun h ↦ ?_⟩
  have heq := h 7
  rw [hwatching, hzero] at heq
  cases heq

/-- A request whose coroutine has come to its end, and whose closure has not been called. -/
theorem watchingService_eq_one : ∃ tr m, Run luaService .init tr m ∧ m.live 7 = 0 ∧
    m.outstanding 7 = 1 ∧ m.watchingService 7 = entry (m.live 7 + m.outstanding 7) := by
  have hpasses : Passes luaService .init [.request 1 7 none true, .makeResponse, .finish]
      fun tr m ↦ Meets Balanced tr ∧ m.live 7 = 0 ∧ m.outstanding 7 = 1 := by
    decide +kernel
  obtain ⟨tr, m, hrun, hbal, hlive, hout⟩ := Run.of_passes hpasses
  exact ⟨tr, m, hrun, hlive, hout, watchingService_eq hrun hbal 7⟩

end LuaService

end ZTask
