import ZTask.Snc.Service
import ZTask.Timer.Cancellation

/-!
# The timers of a service on the wheel

In a run of a service, `ztask_timeout_del` is one step on the timers by their lists. This is what
the function does on the pointers of the wheel: where it returns there, the step leaves the timers
of the lists that it leaves, and where it goes round a list the step is a fault
(`timeoutDel_search`).

The timers of the two sides are compared list by list, as the events that the nodes carry. The nodes
themselves do not matter: two timers with the same handle and session are told apart by their place
in the list only, and both sides take the first one.
-/

namespace ZTask

open Lib

variable {α : Type} {W : TimerHeap α} {l : Slot → List α} {s : Snc}

/-- `struct timer_event` of a timer. -/
def SncTimer.event (t : SncTimer) : TimeoutEvent := ⟨t.handle, t.session⟩

namespace Snc

/-- The lists of the wheel are those of the timers. -/
def OnLists (s : Snc) (W : TimerHeap α) (l : Slot → List α) : Prop :=
  ∀ slot, (s.timers.filter (·.slot = slot)).map SncTimer.event = (l slot).map fun a ↦ (W.node a).arg

/-- What is looked for, in a list of events. -/
def wanted (handle session : ℕ) (e : TimeoutEvent) : Bool := e.session = session ∧ e.handle = handle

private theorem wanted_event (session : ℕ) (t : SncTimer) :
    wanted s.handle session t.event = decide (t.session = session ∧ t.handle = s.handle) := by
  simp only [wanted, SncTimer.event, Nat.cast_inj]

/-! ## One timer less -/

/-- In the list that is searched, the first timer that is looked for goes. -/
theorem filter_eraseP_self (ts : List SncTimer) (session : ℕ) (slot : Slot) :
    ((ts.eraseP (s.Sought session slot)).filter (·.slot = slot)).map SncTimer.event =
      ((ts.filter (·.slot = slot)).map SncTimer.event).eraseP (wanted s.handle session) := by
  induction ts with
  | nil => rfl
  | cons t ts ih =>
    by_cases hslot : t.slot = slot
    · by_cases hwant : t.session = session ∧ t.handle = s.handle
      · have hsought : s.Sought session slot t := ⟨hslot, hwant⟩
        have hwanted : wanted s.handle session t.event = true := by
          rw [wanted_event]
          exact decide_eq_true hwant
        simp only [List.eraseP_cons, List.filter_cons, decide_eq_true hsought, decide_eq_true hslot,
          cond_true, if_true, List.map_cons, hwanted]
      · have hsought : ¬s.Sought session slot t := fun h ↦ hwant h.2
        have hwanted : wanted s.handle session t.event = false := by
          rw [wanted_event]
          exact decide_eq_false hwant
        simp only [List.eraseP_cons, List.filter_cons, decide_eq_false hsought,
          decide_eq_true hslot, cond_false, if_true, List.map_cons, hwanted, ih]
    · have hsought : ¬s.Sought session slot t := fun h ↦ hslot h.1
      simp only [List.eraseP_cons, List.filter_cons, decide_eq_false hsought, decide_eq_false hslot,
        cond_false, Bool.false_eq_true, if_false, ih]

private theorem filter_eraseP_of_ne (ts : List SncTimer) (session : ℕ) {slot slot' : Slot}
    (hne : slot' ≠ slot) :
    (ts.eraseP (s.Sought session slot)).filter (·.slot = slot') = ts.filter (·.slot = slot') := by
  induction ts with
  | nil => rfl
  | cons t ts ih =>
    by_cases hsought : s.Sought session slot t
    · have hout : t.slot ≠ slot' := fun h ↦ hne (h.symm.trans hsought.1)
      simp only [List.eraseP_cons, List.filter_cons, decide_eq_true hsought, decide_eq_false hout,
        cond_true, Bool.false_eq_true, if_false]
    · simp only [List.eraseP_cons, List.filter_cons, decide_eq_false hsought, cond_false, ih]

/-! ## The search -/

theorem OnLists.any_slot (hs : s.OnLists W l) (slot : Slot) :
    s.timers.any (·.slot = slot) = true ↔ l slot ≠ [] := by
  have hlen := congrArg List.length (hs slot)
  rw [List.length_map, List.length_map] at hlen
  rw [← List.length_pos_iff, ← hlen, List.length_pos_iff_exists_mem, List.any_eq_true]
  exact ⟨fun ⟨t, ht, h⟩ ↦ ⟨t, List.mem_filter.mpr ⟨ht, h⟩⟩, fun ⟨t, ht⟩ ↦
    ⟨t, (List.mem_filter.mp ht).1, (List.mem_filter.mp ht).2⟩⟩

theorem OnLists.any_sought (hs : s.OnLists W l) (session : ℕ) (slot : Slot) :
    s.timers.any (s.Sought session slot) = true ↔ ∃ a ∈ l slot, W.Matches s.handle session a := by
  rw [List.any_eq_true]
  constructor
  · rintro ⟨t, ht, hsought⟩
    obtain ⟨hslot, hsession, hhandle⟩ := of_decide_eq_true hsought
    have hmem : t.event ∈ (l slot).map fun a ↦ (W.node a).arg := by
      rw [← hs slot]
      exact List.mem_map_of_mem (List.mem_filter.mpr ⟨ht, decide_eq_true hslot⟩)
    obtain ⟨a, ha, harg⟩ := List.mem_map.mp hmem
    refine ⟨a, ha, ?_, ?_⟩
    · rw [harg, ← hsession]
      rfl
    · rw [harg, ← hhandle]
      rfl
  · rintro ⟨a, ha, hsession, hhandle⟩
    have hmem : (W.node a).arg ∈ (s.timers.filter (·.slot = slot)).map SncTimer.event := by
      rw [hs slot]
      exact List.mem_map_of_mem ha
    obtain ⟨t, ht, harg⟩ := List.mem_map.mp hmem
    obtain ⟨ht, hslot⟩ := List.mem_filter.mp ht
    rw [← harg] at hsession hhandle
    exact ⟨t, ht, decide_eq_true ⟨of_decide_eq_true hslot, Int.ofNat_inj.mp hsession, hhandle⟩⟩

variable [DecidableEq α]

/-- **The step is what the function does.** It returns on the lists of the wheel if and only if the
step is no fault, and leaves the lists that the step leaves. -/
theorem timeoutDel_search (h : W.Represents l) (hs : s.OnLists W l) (session : ℕ) :
    (s.timeoutDel session = .error .spins ∧
        ∀ n, (ZTask.timeoutDel s.handle session W n).pc ≠ .returned) ∨
      ∃ s' n l', s.timeoutDel session = .ok s' ∧
        (ZTask.timeoutDel s.handle session W n).pc = .returned ∧
        (ZTask.timeoutDel s.handle session W n).heap.Represents l' ∧
        s'.OnLists (ZTask.timeoutDel s.handle session W n).heap l' := by
  rcases timerSlots_cases l with hempty | ⟨pre, slot, rest, heq, hpre, hne⟩
  · -- nothing is on the lists
    obtain ⟨n, hn, ⟨l', hcancelled, hl', hnode⟩, -⟩ :=
      @ends_of_empty _ _ W l s.handle session h hempty
    have hnone : s.firstSlot = none :=
      List.find?_eq_none.mpr fun slot hslot ↦
        mt (hs.any_slot slot).mp (not_not_intro (hempty slot hslot))
    refine .inr ⟨s, n, l', by rw [timeoutDel, hnone], hn, hl', fun slot ↦ ?_⟩
    rcases hcancelled with ⟨slot', hslot', a, ha, -⟩ | ⟨-, rfl, -⟩
    · rw [hempty slot' hslot'] at ha
      cases ha
    · rw [hnode]
      exact hs slot
  -- both levels walk the lists in one order, and find the same first one that is not empty
  have hfirst : s.firstSlot = some slot := by
    refine List.find?_eq_some_iff_append.mpr ⟨(hs.any_slot slot).mpr hne, pre, rest, heq, ?_⟩
    intro slot' hslot'
    rw [Bool.not_eq_true', ← Bool.not_eq_true, hs.any_slot]
    exact not_not_intro (hpre slot' hslot')
  have hstep : s.timeoutDel session =
      if s.timers.any (s.Sought session slot) then
        .ok { s with timers := s.timers.eraseP (s.Sought session slot) }
      else .error .spins := by rw [timeoutDel, hfirst]
  by_cases hsought : ∃ a ∈ l slot, W.Matches s.handle session a
  · -- the first of the nodes in the first list
    obtain ⟨mid, a, post, hl, hnot, ha⟩ := exists_first_match hsought
    obtain ⟨n, log, hn, -, -⟩ := returned_of_first h heq hpre hl hnot ha
    rw [if_pos ((hs.any_sought session slot).mpr hsought)] at hstep
    refine .inr ⟨_, n, Function.update l slot (mid ++ post), hstep, ?_, ?_, ?_⟩
    · rw [hn]
    · rw [hn]
      exact h.unlink hl
    · rw [hn]
      intro slot'
      dsimp only
      rw [TimerHeap.unlink_node]
      by_cases hslot : slot' = slot
      · rw [hslot, Function.update_self, filter_eraseP_self, hs slot, hl, List.map_append,
          List.map_append, List.map_cons, List.eraseP_append_right, List.eraseP_cons_of_pos]
        · exact decide_eq_true ha
        · intro e he
          obtain ⟨c, hc, rfl⟩ := List.mem_map.mp he
          exact fun hwanted ↦ hnot c hc (of_decide_eq_true hwanted)
      · rw [Function.update_of_ne hslot, filter_eraseP_of_ne _ _ hslot, hs slot']
  · -- it comes to the end of the list, and begins again
    rw [if_neg (mt (hs.any_sought session slot).mp hsought)] at hstep
    exact .inl ⟨hstep, not_returned_of_stuck h heq hpre hne fun a ha hmatch ↦
      hsought ⟨a, ha, hmatch⟩⟩

end Snc

end ZTask
