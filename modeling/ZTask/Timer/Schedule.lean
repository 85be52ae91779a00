import ZTask.Timer.Cascade

/-!
# Every node fires once, on time

What the wheel is for, without the wheel: a node added with delay `d` after `n` updates is due at
tick `n + d`, and the update that reaches this tick dispatches it; a delay of zero makes it due
already, and the next update dispatches it before it moves the clock.

`Tracks` is the refinement relation between the wheel and the list of pending nodes, in insertion
order; the three parts of `timer_update` each keep it. `timer_fires` is the result, for every run.
-/

namespace ZTask

open Lib

variable {α : Type}

/-- A call of `timer_add` in a run: `clock` is the value of `T->time` it found, and `tick` the
number of updates before it. -/
structure Added (α : Type) where
  arg : α
  clock : ℕ
  tick : ℕ
  delay : ℕ

namespace Added

/-- The tick at which the node expires. -/
def due (a : Added α) : ℕ := a.tick + a.delay

/-- The number of the update that dispatches the node. -/
def fires (a : Added α) : ℕ := a.tick + max 1 a.delay

/-- The node the wheel holds for it, when its clock started at `t₀`. -/
def node (t₀ : ℕ) (a : Added α) : TimerNode α := ⟨(t₀ + a.due) % uint32Size, a.arg⟩

end Added

/-! ## The pending nodes -/

/-- After `n` updates the wheel holds the nodes `P`, each in its list, in this order. -/
structure Tracks (t₀ n : ℕ) (T : Timer α) (P : List (Added α)) : Prop where
  time : T.time = (t₀ + n) % uint32Size
  files : Files T.lists (fun x ↦ slotFor T.time x.expire) (P.map (Added.node t₀))
  le : ∀ a ∈ P, n ≤ a.due
  lt : ∀ a ∈ P, a.due < n + 2 ^ 28

namespace Tracks

variable {t₀ n : ℕ} {T : Timer α} {P : List (Added α)}

private theorem slotFor_node (h : Tracks t₀ n T P) {a : Added α} (ha : a ∈ P) :
    slotFor T.time (a.node t₀).expire = slotAt (t₀ + n) (t₀ + a.due) := by
  have hle := h.le a ha
  have hlt := h.lt a ha
  rw [h.time]
  exact slotFor_mod (by omega) (by omega)

theorem create {t₀ : ℕ} (ht : t₀ < uint32Size) : Tracks t₀ 0 (Timer.create α t₀) [] where
  time := (Nat.mod_eq_of_lt ht).symm
  files := files_nil _
  le := fun _ ha ↦ nomatch ha
  lt := fun _ ha ↦ nomatch ha

/-- `timer_add` puts the node last. -/
theorem timerAdd (h : Tracks t₀ n T P) (arg : α) {d : ℕ} (hd : d < 2 ^ 28) :
    Tracks t₀ n (T.timerAdd arg d) (P ++ [⟨arg, T.time, n, d⟩]) := by
  have hnode : Added.node t₀ ⟨arg, T.time, n, d⟩ = ⟨(d + T.time) % uint32Size, arg⟩ := by
    simp only [Added.node, Added.due, h.time, Nat.add_mod_mod]
    congr 2
    omega
  refine ⟨h.time, ?_, ?_, ?_⟩
  · rw [List.map_append, List.map_singleton, hnode]
    exact h.files.insert _
  · intro a ha
    rcases List.mem_append.mp ha with ha | ha
    · exact h.le a ha
    · rw [List.mem_singleton.mp ha]
      exact Nat.le_add_right n d
  · intro a ha
    rcases List.mem_append.mp ha with ha | ha
    · exact h.lt a ha
    · rw [List.mem_singleton.mp ha]
      exact Nat.add_lt_add_left hd n

/-! ## The parts of an update -/

private theorem slotAt_eq_near_iff {n e : ℕ} : slotAt n e = .near (n % 2 ^ 8) ↔ e = n := by
  constructor
  · intro h
    rcases slotAt_cases n e with ⟨hsame, hslot⟩ | ⟨j, -, -, -, hslot⟩
    · rw [hslot, Slot.near.injEq] at h
      simp only [SameBlock, blockShift] at hsame
      omega
    · rw [hslot] at h
      cases h
  · rintro rfl
    exact if_pos rfl

/-- `timer_execute` dispatches the nodes that are due now, and no others. -/
theorem timerExecute (h : Tracks t₀ n T P) :
    T.timerExecute.1 = (P.filter (·.due = n)).map Added.arg ∧
      Tracks t₀ n T.timerExecute.2 (P.filter (·.due ≠ n)) := by
  have hidx : T.time &&& timeNearMask = (t₀ + n) % 2 ^ 8 := by
    rw [and_timeNearMask, h.time]
    exact Nat.mod_mod_of_dvd _ (by decide)
  have hiff : ∀ a ∈ P, (slotFor T.time (a.node t₀).expire = .near ((t₀ + n) % 2 ^ 8)
      ↔ a.due = n) := by
    intro a ha
    rw [h.slotFor_node ha, slotAt_eq_near_iff]
    omega
  constructor
  · have hmap : ∀ l : List (Added α), (l.map (Added.node t₀)).map TimerNode.arg = l.map Added.arg :=
      fun l ↦ by rw [List.map_map]; rfl
    rw [Timer.timerExecute, Timer.linkClear, hidx, h.files, List.filter_map, hmap]
    refine congrArg _ (List.filter_congr fun a ha ↦ ?_)
    exact decide_eq_decide.mpr (hiff a ha)
  · refine ⟨h.time, ?_, fun a ha ↦ h.le a (List.mem_of_mem_filter ha),
      fun a ha ↦ h.lt a (List.mem_of_mem_filter ha)⟩
    have hclear := h.files.clear (.near ((t₀ + n) % 2 ^ 8))
    rw [List.filter_map] at hclear
    simp only [Timer.timerExecute, Timer.linkClear, hidx]
    refine (congrArg (Files _ _) (congrArg _ (List.filter_congr fun a ha ↦ ?_))).mp hclear
    exact decide_eq_decide.mpr (not_congr (hiff a ha))

/-- `timer_shift` keeps every node that is due later. -/
theorem timerShift (h : Tracks t₀ n T P) (hlate : ∀ a ∈ P, n < a.due) :
    ∃ T', T.timerShift = .ok T' ∧ Tracks t₀ (n + 1) T' P := by
  have hle : ∀ a ∈ P, n + 1 ≤ a.due := hlate
  have hlt : ∀ a ∈ P, a.due < n + 1 + 2 ^ 28 := fun a ha ↦ (h.lt a ha).trans (by omega)
  have hold : ∀ a ∈ P, slotFor T.time (a.node t₀).expire = slotAt (t₀ + n) (t₀ + a.due) :=
    fun a ha ↦ h.slotFor_node ha
  have hnew : ∀ a ∈ P, slotFor ((t₀ + n + 1) % uint32Size) (a.node t₀).expire
      = slotAt (t₀ + n + 1) (t₀ + a.due) := by
    intro a ha
    have h1 := hle a ha
    have h2 := hlt a ha
    exact slotFor_mod (by omega) (by omega)
  rcases timerShift_eq h.time with ⟨hmod, hshift⟩ | ⟨i, henter, hshift⟩
  · refine ⟨_, hshift, rfl, h.files.congr ?_, hle, hlt⟩
    intro x hx
    obtain ⟨a, ha, rfl⟩ := List.mem_map.mp hx
    simp only
    rw [hold a ha, hnew a ha, slotAt_succ_of_not_dvd hmod]
  · have hstep : ∀ a ∈ P, _ := fun a ha ↦
      slotAt_succ (n := t₀ + n) (e := t₀ + a.due) (by have := hlate a ha; omega)
        (by have := h.lt a ha; omega) henter
    refine ⟨_, hshift, ?_, ?_, hle, hlt⟩
    · rw [Timer.moveList, Timer.linkClear, foldl_addNode]
      rfl
    · rw [Timer.moveList, Timer.linkClear, foldl_addNode]
      refine h.files.cascade _ ?_ ?_
      · intro x hx hne
        obtain ⟨a, ha, rfl⟩ := List.mem_map.mp hx
        simp only at hne ⊢
        rw [hold a ha] at hne ⊢
        rw [hnew a ha]
        rcases hstep a ha with ⟨heq, -⟩ | ⟨-, -, hstay⟩
        · exact absurd heq hne
        · exact hstay
      · intro x hx y hy hxm hym
        obtain ⟨a, ha, rfl⟩ := List.mem_map.mp hx
        obtain ⟨b, hb, rfl⟩ := List.mem_map.mp hy
        simp only at hxm hym ⊢
        rw [hold a ha] at hxm
        rw [hold b hb] at hym ⊢
        rw [hnew a ha]
        -- the node that moves goes below level `i`, and nothing that stays is there
        intro heq
        rcases hstep a ha with ⟨-, hbelow⟩ | ⟨hne, -⟩
        · rcases hstep b hb with ⟨heq', -⟩ | ⟨-, hnot, -⟩
          · exact hym heq'
          · exact hnot (heq ▸ hbelow)
        · exact hne hxm

/-- **An update dispatches the nodes due now and those due at the tick it reaches.** -/
theorem timerUpdate (h : Tracks t₀ n T P) : ∃ T',
    T.timerUpdate = .ok (T', (P.filter (·.due = n)).map Added.arg,
      (P.filter (·.due = n + 1)).map Added.arg) ∧
      Tracks t₀ (n + 1) T' (P.filter (n + 1 < ·.due)) := by
  obtain ⟨hzero, h₁⟩ := h.timerExecute
  have hlate : ∀ a ∈ P.filter (·.due ≠ n), n < a.due := by
    intro a ha
    obtain ⟨ha, hne⟩ := List.mem_filter.mp ha
    exact Nat.lt_of_le_of_ne (h.le a ha) (Ne.symm (by simpa using hne))
  obtain ⟨T₂, hshift, h₂⟩ := h₁.timerShift hlate
  obtain ⟨hdue, h₃⟩ := h₂.timerExecute
  rw [List.filter_filter] at hdue h₃
  have hfilter : ∀ a ∈ P, (decide (a.due = n + 1) && decide (a.due ≠ n)) =
      decide (a.due = n + 1) := by
    intro a _
    by_cases ha : a.due = n + 1 <;> simp [ha]
  have hrest : ∀ a ∈ P, (decide (a.due ≠ n + 1) && decide (a.due ≠ n)) =
      decide (n + 1 < a.due) := by
    intro a ha
    have := h.le a ha
    rw [← Bool.decide_and]
    exact decide_eq_decide.mpr (by omega)
  rw [List.filter_congr hfilter] at hdue
  rw [List.filter_congr hrest] at h₃
  refine ⟨_, ?_, h₃⟩
  rw [Timer.timerUpdate]
  simp only [hshift, bind, Except.bind, pure, Except.pure]
  rw [← hzero, ← hdue]

end Tracks

/-! ## Runs -/

/-- The events of a run of the wheel. -/
abbrev TimerEvent (α : Type) := Event (Timer α) (TimerOp α) (List α × List α)

def TimerOp.isUpdate : TimerOp α → Bool
  | add _ _ => false
  | update => true

/-- The number of updates. -/
def ticks (tr : List (TimerEvent α)) : ℕ := tr.countP (·.input.isUpdate)

/-- The nodes added, in order, `n` updates having been made before the trace begins. -/
def additions : ℕ → List (TimerEvent α) → List (Added α)
  | _, [] => []
  | n, e :: tr =>
    match e.input with
    | .add arg time => ⟨arg, e.pre.time, n, time⟩ :: additions n tr
    | .update => additions (n + 1) tr

/-- How often `x` has been dispatched. -/
def dispatched [DecidableEq α] (x : α) (tr : List (TimerEvent α)) : ℕ :=
  (tr.map fun e ↦ e.output.1.count x + e.output.2.count x).sum

private theorem additions_concat (n : ℕ) (tr : List (TimerEvent α)) (e : TimerEvent α) :
    additions n (tr ++ [e]) = additions n tr ++ additions (n + ticks tr) [e] := by
  induction tr generalizing n with
  | nil => rfl
  | cons e' tr ih =>
    rw [List.cons_append]
    cases hi : e'.input with
    | add arg time =>
      have ht : ticks (e' :: tr) = ticks tr :=
        List.countP_cons_of_neg (by simp [hi, TimerOp.isUpdate])
      simp only [additions, hi, ih, ht, List.cons_append]
    | update =>
      have ht : ticks (e' :: tr) = ticks tr + 1 :=
        List.countP_cons_of_pos (by simp [hi, TimerOp.isUpdate])
      have hn : n + 1 + ticks tr = n + (ticks tr + 1) := by omega
      simp only [additions, hi, ih, ht, hn]

private theorem ticks_concat (tr : List (TimerEvent α)) (e : TimerEvent α) :
    ticks (tr ++ [e]) = ticks tr + if e.input.isUpdate then 1 else 0 := by
  rw [ticks, List.countP_append, List.countP_singleton]
  rfl

/-- The books: every node added so far is pending, or has been dispatched as often as it was
due. -/
structure Ledger [DecidableEq α] (t₀ : ℕ) (tr : List (TimerEvent α)) (T : Timer α) : Prop where
  tracks : Tracks t₀ (ticks tr) T ((additions 0 tr).filter (ticks tr < ·.fires))
  tick_le : ∀ a ∈ additions 0 tr, a.tick ≤ ticks tr
  delay_lt : ∀ a ∈ additions 0 tr, a.delay < 2 ^ 28
  clock : ∀ a ∈ additions 0 tr, a.clock = (t₀ + a.tick) % uint32Size
  count : ∀ x, dispatched x tr = (additions 0 tr).countP fun a ↦ a.arg = x ∧ a.fires ≤ ticks tr

theorem dispatched_concat [DecidableEq α] (x : α) (tr : List (TimerEvent α)) (e : TimerEvent α) :
    dispatched x (tr ++ [e]) = dispatched x tr + (e.output.1.count x + e.output.2.count x) := by
  rw [dispatched, List.map_append, List.sum_append, List.map_singleton, List.sum_singleton]
  rfl

private theorem countP_eq_add {β : Type} {p q r : β → Bool} {l : List β}
    (h : ∀ a ∈ l, p a = (q a || r a) ∧ (q a && r a) = false) :
    l.countP p = l.countP q + l.countP r := by
  induction l with
  | nil => rfl
  | cons a l ih =>
    obtain ⟨hp, hqr⟩ := h a List.mem_cons_self
    rw [List.countP_cons, List.countP_cons, List.countP_cons, hp,
      ih fun b hb ↦ h b (List.mem_cons_of_mem a hb)]
    cases hq : q a <;> cases hr : r a <;> simp_all <;> omega

namespace Ledger

variable [DecidableEq α] {t₀ : ℕ} {tr : List (TimerEvent α)} {T T' : Timer α}

theorem create (ht : t₀ < uint32Size) : Ledger t₀ [] (Timer.create α t₀) where
  tracks := Tracks.create ht
  tick_le := fun _ ha ↦ nomatch ha
  delay_lt := fun _ ha ↦ nomatch ha
  clock := fun _ ha ↦ nomatch ha
  count := fun _ ↦ rfl

/-- What an update will dispatch, in terms of the additions. -/
theorem update (h : Ledger t₀ tr T) : ∃ T',
    T.timerUpdate = .ok (T',
      ((additions 0 tr).filter fun a ↦ a.delay = 0 ∧ a.tick = ticks tr).map Added.arg,
      ((additions 0 tr).filter fun a ↦ 0 < a.delay ∧ a.tick + a.delay = ticks tr + 1).map
        Added.arg) ∧
      Tracks t₀ (ticks tr + 1) T' ((additions 0 tr).filter (ticks tr + 1 < ·.fires)) := by
  obtain ⟨T', hupdate, htracks⟩ := h.tracks.timerUpdate
  simp only [List.filter_filter] at hupdate htracks
  have hzero : ∀ a ∈ additions 0 tr, (decide (a.due = ticks tr) && decide (ticks tr < a.fires))
      = decide (a.delay = 0 ∧ a.tick = ticks tr) := by
    intro a ha
    have := h.tick_le a ha
    rw [← Bool.decide_and]
    refine decide_eq_decide.mpr ?_
    simp only [Added.due, Added.fires]
    omega
  have hdue : ∀ a ∈ additions 0 tr, (decide (a.due = ticks tr + 1) && decide (ticks tr < a.fires))
      = decide (0 < a.delay ∧ a.tick + a.delay = ticks tr + 1) := by
    intro a ha
    have := h.tick_le a ha
    rw [← Bool.decide_and]
    refine decide_eq_decide.mpr ?_
    simp only [Added.due, Added.fires]
    omega
  have hrest : ∀ a ∈ additions 0 tr, (decide (ticks tr + 1 < a.due) && decide (ticks tr < a.fires))
      = decide (ticks tr + 1 < a.fires) := by
    intro a ha
    have := h.tick_le a ha
    rw [← Bool.decide_and]
    refine decide_eq_decide.mpr ?_
    simp only [Added.due, Added.fires]
    omega
  rw [List.filter_congr hzero, List.filter_congr hdue] at hupdate
  rw [List.filter_congr hrest] at htracks
  exact ⟨T', hupdate, htracks⟩

/-- An addition keeps the books. -/
theorem concat_add (h : Ledger t₀ tr T) (arg : α) {d : ℕ} (hd : d < 2 ^ 28) :
    Ledger t₀ (tr ++ [⟨T, .add arg d, ([], []), T.timerAdd arg d⟩]) (T.timerAdd arg d) := by
  have hticks : ticks (tr ++ [⟨T, .add arg d, ([], []), T.timerAdd arg d⟩]) = ticks tr :=
    ticks_concat tr _
  have hadd : additions 0 (tr ++ [⟨T, .add arg d, ([], []), T.timerAdd arg d⟩])
      = additions 0 tr ++ [⟨arg, T.time, ticks tr, d⟩] := by
    rw [additions_concat, Nat.zero_add]
    rfl
  have hlast : ∀ {p : Added α → Prop}, (∀ a ∈ additions 0 tr, p a) →
      p ⟨arg, T.time, ticks tr, d⟩ → ∀ a ∈ additions 0 tr ++ [⟨arg, T.time, ticks tr, d⟩], p a := by
    intro p hall hp a ha
    rcases List.mem_append.mp ha with ha | ha
    · exact hall a ha
    · rw [List.mem_singleton.mp ha]
      exact hp
  have hpending : ticks tr < Added.fires ⟨arg, T.time, ticks tr, d⟩ := by
    simp only [Added.fires]
    omega
  constructor
  · rw [hticks, hadd, List.filter_append, List.filter_singleton, decide_eq_true hpending]
    exact h.tracks.timerAdd arg hd
  · rw [hticks, hadd]
    exact hlast h.tick_le le_rfl
  · rw [hadd]
    exact hlast h.delay_lt hd
  · rw [hadd]
    exact hlast h.clock h.tracks.time
  · intro x
    rw [dispatched_concat, hticks, hadd, List.countP_append, ← h.count,
      List.countP_singleton, if_neg]
    · rfl
    · simpa using fun _ ↦ hpending

/-- An update keeps the books. -/
theorem concat_update (h : Ledger t₀ tr T) {o : List α × List α}
    (hstep : T.timerUpdate = .ok (T', o)) : Ledger t₀ (tr ++ [⟨T, .update, o, T'⟩]) T' := by
  obtain ⟨T'', hupdate, htracks⟩ := h.update
  rw [hstep, Except.ok.injEq, Prod.mk.injEq] at hupdate
  obtain ⟨rfl, rfl⟩ := hupdate
  have hadd : ∀ o, additions 0 (tr ++ [⟨T, .update, o, T'⟩]) = additions 0 tr := by
    intro o
    rw [additions_concat]
    exact List.append_nil _
  have hticks : ∀ o, ticks (tr ++ [⟨T, .update, o, T'⟩]) = ticks tr + 1 :=
    fun o ↦ ticks_concat tr _
  constructor
  · rw [hticks, hadd]
    exact htracks
  · rw [hticks, hadd]
    exact fun a ha ↦ (h.tick_le a ha).trans (Nat.le_succ _)
  · rw [hadd]
    exact h.delay_lt
  · rw [hadd]
    exact h.clock
  · -- what fires now adds to what has fired before
    intro x
    rw [dispatched_concat, hticks, hadd, h.count]
    simp only [List.count_eq_countP, List.countP_map, List.countP_filter]
    rw [← countP_eq_add (p := fun a ↦ decide (a.arg = x ∧ a.fires = ticks tr + 1)),
      ← countP_eq_add (p := fun a ↦ decide (a.arg = x ∧ a.fires ≤ ticks tr + 1))]
    · intro a _
      grind
    · intro a ha
      have := h.tick_le a ha
      simp only [Function.comp_apply, Added.fires]
      grind

end Ledger

theorem timer_ledger [DecidableEq α] {t₀ : ℕ} (ht : t₀ < uint32Size) {tr : List (TimerEvent α)}
    {T : Timer α} (hrun : Run (timer α) (Timer.create α t₀) tr T)
    (hdelay : Meets (fun _ op ↦ op.delay < 2 ^ 28) tr) : Ledger t₀ tr T := by
  refine Run.ledger (Ledger t₀) (Ledger.create ht) ?_ hrun hdelay
  intro tr T op T' o _ hbooks hop hstep
  cases op with
  | add arg d =>
    rw [timer, Except.ok.injEq, Prod.mk.injEq] at hstep
    obtain ⟨rfl, rfl⟩ := hstep
    exact hbooks.concat_add arg hop
  | update => exact hbooks.concat_update hstep

/-- **Timer wheel correctness.** Take any run of calls from an empty wheel whose clock is `t₀`, with
delays below `2 ^ 28`. The clock is the number of updates past `t₀`, in 32 bits. The next update
does not fault; it dispatches first the nodes added with delay zero since the update before, and
then, having moved the clock to `T'.time`, the nodes whose delay `d` added to the clock they were
added at makes it `T'.time`, each group in the order in which it was added. And what has been
dispatched so far is each node once that was due for it, and no other. -/
theorem timer_fires [DecidableEq α] {t₀ : ℕ} (ht : t₀ < uint32Size) {tr : List (TimerEvent α)}
    {T : Timer α} (hrun : Run (timer α) (Timer.create α t₀) tr T)
    (hdelay : Meets (fun _ op ↦ op.delay < 2 ^ 28) tr) :
    T.time = (t₀ + ticks tr) % uint32Size ∧
      (∃ T', timer α T .update = .ok (T',
          ((additions 0 tr).filter fun a ↦ a.delay = 0 ∧ a.tick = ticks tr).map Added.arg,
          ((additions 0 tr).filter fun a ↦ 0 < a.delay ∧ a.tick + a.delay = ticks tr + 1).map
            Added.arg) ∧
        T'.time = (T.time + 1) % uint32Size ∧
        ∀ a ∈ additions 0 tr, 0 < a.delay → a.tick + a.delay = ticks tr + 1 →
          T'.time = (a.clock + a.delay) % uint32Size) ∧
      ∀ x, dispatched x tr
        = (additions 0 tr).countP fun a ↦ a.arg = x ∧ a.tick + max 1 a.delay ≤ ticks tr := by
  -- the ledger of additions and ticks is what the run keeps; the rest reads it
  have hbooks := timer_ledger ht hrun hdelay
  obtain ⟨T', hupdate, htracks⟩ := hbooks.update
  refine ⟨hbooks.tracks.time, ⟨T', hupdate, ?_, ?_⟩, hbooks.count⟩
  · rw [htracks.time, hbooks.tracks.time, Nat.mod_add_mod]
    rfl
  · intro a ha _ hdue
    rw [htracks.time, hbooks.clock a ha, Nat.mod_add_mod, ← hdue]
    congr 1
    omega

/-- Two nodes added just before the clock wraps. -/
def wrapTrace : List (TimerEvent ℕ) :=
  let T₀ := Timer.create ℕ (2 ^ 32 - 1)
  let T₁ := T₀.timerAdd 5 1
  [⟨T₀, .add 5 1, ([], []), T₁⟩, ⟨T₁, .add 6 0, ([], []), T₁.timerAdd 6 0⟩]

theorem timer_fires_wrap :
    ∃ T', timer ℕ (((Timer.create ℕ (2 ^ 32 - 1)).timerAdd 5 1).timerAdd 6 0) .update
      = .ok (T', [6], [5]) ∧ T'.time = 0 := by
  have hrun : Run (timer ℕ) (Timer.create ℕ (2 ^ 32 - 1)) wrapTrace
      (((Timer.create ℕ (2 ^ 32 - 1)).timerAdd 5 1).timerAdd 6 0) := .cons rfl (.cons rfl .nil)
  have hdelay : Meets (fun _ op ↦ op.delay < 2 ^ 28) wrapTrace := by
    simp [Meets, wrapTrace, TimerOp.delay]
  obtain ⟨-, ⟨T', hupdate, htime, -⟩, -⟩ := timer_fires (by decide) hrun hdelay
  exact ⟨T', hupdate, htime⟩

end ZTask
