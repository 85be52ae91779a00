import ZTask.Timer.Cancel

/-!
# Which cancellations return

Empty lists are passed over. In the first list that is not empty the search stays: either it finds
the node, takes it out and returns, or it comes to the end of the list and begins again. On the way
to the node the lock is given up and never taken.

## The search as a machine

`ztask_timeout_del` goes over the lists, with a `while` inside that asks whether a list has a node,
so it is followed step by step. `Searches` says what a number of steps comes to: which nodes have
been freed, and that the lock has not been taken. `Searches.skip` passes an empty list, and
`Searches.find` walks to a node and takes it out.

## Searches that do not end

`Stuck` is kept by every step: the walk is at a list that is not empty and does not have the node,
and it stays there, as the end of the list only begins the walk again (`Stuck.step`). By
`timerSlots_cases` the lists are all empty, or there is a first one that is not, and this one
decides between `ends_of_first` and `not_returned_of_stuck`. So the lists in which a search returns
are known exactly.
-/

namespace ZTask

open Lib

/-! ## The lists -/

namespace TimerHeap

variable {α : Type} [DecidableEq α] {W : TimerHeap α} {l : Slot → List α} {slot : Slot} {a : α}

theorem setNext_tail (slot : Slot) (node x : Option α) : (W.setNext slot node x).tail = W.tail := by
  cases node <;> rfl

theorem setNext_node (slot : Slot) (node x : Option α) : (W.setNext slot node x).node = W.node := by
  cases node <;> rfl

private theorem unlink_head (old : Option α) :
    (W.unlink slot old a).head = (W.setNext slot old (W.next a)).head := by
  rw [unlink]
  split <;> rfl

private theorem unlink_next (old : Option α) :
    (W.unlink slot old a).next = (W.setNext slot old (W.next a)).next := by
  rw [unlink]
  split <;> rfl

theorem unlink_node (old : Option α) : (W.unlink slot old a).node = W.node := by
  rw [unlink]
  split <;> exact setNext_node slot old _

private theorem unlink_tail (old : Option α) : (W.unlink slot old a).tail =
    if W.tail slot = some a then Function.update W.tail slot old else W.tail := by
  rw [unlink]
  rw [setNext_tail]
  split
  · rfl
  · exact setNext_tail slot old _

omit [DecidableEq α] in
theorem create_represents (node : α → TimerNode TimeoutEvent) :
    (create node).Represents fun _ ↦ [] :=
  ⟨fun _ ↦ rfl, fun _ ↦ rfl, fun _ ↦ List.nodup_nil, fun _ _ _ _ ha ↦ nomatch ha⟩

namespace Represents

/-- A list with one of its nodes taken out. -/
theorem unlink (h : W.Represents l) {pre post : List α} (hl : l slot = pre ++ a :: post) :
    (W.unlink slot pre.getLast? a).Represents (Function.update l slot (pre ++ post)) := by
  have hnodup : (pre ++ a :: post).Nodup := hl ▸ h.nodup slot
  have hchain := h.chain slot
  rw [hl] at hchain
  have hsublist : (pre ++ post).Sublist (pre ++ a :: post) :=
    List.Sublist.append_left (List.sublist_cons_self a post) pre
  have hsub : ∀ slot' b, b ∈ Function.update l slot (pre ++ post) slot' → b ∈ l slot' := by
    intro slot' b hb
    by_cases hs : slot' = slot
    · rw [hs, Function.update_self] at hb
      rw [hs, hl]
      exact hsublist.subset hb
    · rwa [Function.update_of_ne hs] at hb
  refine ⟨fun slot' ↦ ?_, fun slot' ↦ ?_, fun slot' ↦ ?_, fun s s' hss' b hb hb' ↦
    h.disjoint s s' hss' b (hsub s b hb) (hsub s' b hb')⟩
  · rw [unlink_head, unlink_next]
    -- the node is the first of its list, or the one before it is linked past it
    cases hpre : pre.getLast? with
    | none =>
      obtain rfl := List.getLast?_eq_none_iff.mp hpre
      by_cases hs : slot' = slot
      · rw [hs, Function.update_self, setNext]
        dsimp only
        rw [Function.update_self]
        exact hchain.2
      · rw [Function.update_of_ne hs, setNext]
        dsimp only
        rw [Function.update_of_ne hs]
        exact h.chain slot'
    | some t =>
      rw [setNext]
      dsimp only
      by_cases hs : slot' = slot
      · rw [hs, Function.update_self]
        exact LinkQueue.chain_unlink hchain hnodup hpre
      · rw [Function.update_of_ne hs]
        have ht : t ∈ l slot := by
          rw [hl]
          exact List.mem_append_left _ (List.mem_of_getLast? hpre)
        -- the lists are disjoint, so no other chain goes through the changed node
        have hne : ∀ b ∈ l slot', b ≠ t := fun b hb heq ↦ h.disjoint slot' slot hs b hb (heq ▸ ht)
        exact (LinkQueue.chain_congr fun b hb ↦ Function.update_of_ne (hne b hb) _ _).mpr
          (h.chain slot')
  · rw [unlink_tail]
    have htail := h.tail slot
    rw [hl, List.getLast?_append] at htail
    by_cases hs : slot' = slot
    · rw [hs, Function.update_self, htail]
      cases post with
      | nil =>
        have hlast : [a].getLast?.or pre.getLast? = some a := rfl
        rw [if_pos hlast, Function.update_self, List.append_nil]
      | cons b post =>
        have hlast : ((a :: b :: post).getLast?.or pre.getLast?) = (b :: post).getLast? := by
          rw [List.getLast?_cons_cons]
          exact Option.or_of_isSome (by simp)
        have ha : a ∉ b :: post := (List.nodup_cons.mp (List.nodup_append.mp hnodup).2.1).1
        rw [hlast, if_neg fun heq ↦ ha (List.mem_of_getLast? heq), htail, hlast,
          List.getLast?_append]
        exact (Option.or_of_isSome (by simp)).symm
    · rw [Function.update_of_ne hs]
      split
      · exact (Function.update_of_ne hs _ _).trans (h.tail slot')
      · exact h.tail slot'
  · by_cases hs : slot' = slot
    · rw [hs, Function.update_self]
      exact hnodup.sublist hsublist
    · rw [Function.update_of_ne hs]
      exact h.nodup slot'

/-- A node that is on no list goes to the end of one. -/
theorem link (h : W.Represents l) (ha : ∀ slot, a ∉ l slot) :
    (W.link slot a).Represents (Function.update l slot (l slot ++ [a])) := by
  have hmem : ∀ slot' b, b ∈ Function.update l slot (l slot ++ [a]) slot' →
      b ∈ l slot' ∨ b = a ∧ slot' = slot := by
    intro slot' b hb
    by_cases hs : slot' = slot
    · rw [hs, Function.update_self, List.mem_append, List.mem_singleton] at hb
      exact hb.imp (fun hb ↦ hs ▸ hb) fun hb ↦ ⟨hb, hs⟩
    · rw [Function.update_of_ne hs] at hb
      exact Or.inl hb
  -- the new node is on no list, so clearing its link breaks no chain
  have hclear : ∀ slot' p, LinkQueue.Chain W.next p (l slot') →
      LinkQueue.Chain (Function.update W.next a none) p (l slot') := by
    intro slot' p hp
    have hne : ∀ b ∈ l slot', b ≠ a := fun b hb heq ↦ ha slot' (heq ▸ hb)
    exact (LinkQueue.chain_congr fun b hb ↦ Function.update_of_ne (hne b hb) _ _).mpr hp
  refine ⟨fun slot' ↦ ?_, fun slot' ↦ ?_, fun slot' ↦ ?_, fun s s' hss' b hb hb' ↦ ?_⟩
  · rw [TimerHeap.link, h.tail slot]
    dsimp only
    -- an empty list gets its head, any other a link from its last node
    cases hlast : (l slot).getLast? with
    | none =>
      have hnil := List.getLast?_eq_none_iff.mp hlast
      rw [setNext]
      dsimp only
      by_cases hs : slot' = slot
      · rw [hs, Function.update_self, Function.update_self, hnil]
        exact ⟨rfl, Function.update_self _ _ _⟩
      · rw [Function.update_of_ne hs, Function.update_of_ne hs]
        exact hclear slot' _ (h.chain slot')
    | some t =>
      have ht := List.mem_of_getLast? hlast
      have hta : t ≠ a := fun heq ↦ ha slot (heq ▸ ht)
      rw [setNext]
      dsimp only
      rw [Function.update_comm hta]
      by_cases hs : slot' = slot
      · rw [hs, Function.update_self]
        exact LinkQueue.chain_concat (hclear slot _ (h.chain slot)) (h.nodup slot) hlast (ha slot)
          (Function.update_self _ _ _)
      · rw [Function.update_of_ne hs]
        have hne : ∀ b ∈ l slot', b ≠ t := fun b hb heq ↦ h.disjoint slot' slot hs b hb (heq ▸ ht)
        exact (LinkQueue.chain_congr fun b hb ↦ Function.update_of_ne (hne b hb) _ _).mpr
          (hclear slot' _ (h.chain slot'))
  · rw [TimerHeap.link]
    dsimp only
    rw [setNext_tail]
    by_cases hs : slot' = slot
    · rw [hs, Function.update_self, Function.update_self, List.getLast?_concat]
    · rw [Function.update_of_ne hs, Function.update_of_ne hs]
      exact h.tail slot'
  · by_cases hs : slot' = slot
    · rw [hs, Function.update_self]
      exact List.nodup_append.mpr ⟨h.nodup slot, List.pairwise_singleton _ a, fun b hb c hc heq ↦
        ha slot (List.mem_singleton.mp hc ▸ heq ▸ hb)⟩
    · rw [Function.update_of_ne hs]
      exact h.nodup slot'
  · rcases hmem s b hb with hold | ⟨rfl, rfl⟩
    · rcases hmem s' b hb' with hold' | ⟨rfl, -⟩
      · exact h.disjoint s s' hss' b hold hold'
      · exact ha s hold
    · rcases hmem s' b hb' with hold' | ⟨-, heq⟩
      · exact ha s' hold'
      · exact hss' heq.symm

end Represents

end TimerHeap

/-! ## The search -/

section Search

variable {α : Type} [DecidableEq α] {handle : ℕ} {session : ℤ}
    {W : TimerHeap α} {s s' s'' : DelState α}

/-- The search comes from `s` to `s'`; it has freed these nodes on the way, and has not taken the
lock. -/
structure Searches (handle : ℕ) (session : ℤ) (s s' : DelState α) (freed : List α) : Prop where
  steps : ∃ n, (delStep handle session)^[n] s = s'
  freed : s'.freed = s.freed ++ freed
  lock : .lock ∈ s'.log → .lock ∈ s.log

namespace Searches

theorem refl (s : DelState α) : Searches handle session s s [] :=
  ⟨⟨0, rfl⟩, (List.append_nil _).symm, id⟩

theorem trans {freed freed' : List α} (h : Searches handle session s s' freed)
    (h' : Searches handle session s' s'' freed') :
    Searches handle session s s'' (freed ++ freed') := by
  obtain ⟨n, hn⟩ := h.steps
  obtain ⟨n', hn'⟩ := h'.steps
  refine ⟨⟨n' + n, ?_⟩, ?_, fun hl ↦ h.lock (h'.lock hl)⟩
  · rw [Function.iterate_add_apply, hn, hn']
  · rw [h'.freed, h.freed, List.append_assoc]

private theorem of_step (acts : List (DelAction α)) (hstep : delStep handle session s = s')
    (hlog : s'.log = s.log ++ acts) (hlock : .lock ∉ acts) :
    Searches handle session s s' (DelState.freed ⟨s.heap, s.pc, acts⟩) := by
  refine ⟨⟨1, hstep⟩, ?_, fun hl ↦ ?_⟩
  · rw [DelState.freed, hlog, List.filterMap_append]
    rfl
  · rw [hlog, List.mem_append] at hl
    exact hl.resolve_right hlock

theorem skip {pre rest : List Slot} (hempty : ∀ slot ∈ pre, W.head slot = none)
    (log : List (DelAction α)) :
    ∃ log', Searches handle session ⟨W, .outer (pre ++ rest), log⟩ ⟨W, .outer rest, log'⟩ [] := by
  induction pre generalizing log with
  | nil => exact ⟨log, .refl _⟩
  | cons slot pre ih =>
    obtain ⟨log', hlog'⟩ := ih (fun slot' hs ↦ hempty slot' (List.mem_cons_of_mem _ hs))
        (log ++ [.touch slot])
    refine ⟨log', .trans (of_step [.touch slot] ?_ rfl (by simp)) hlog'⟩
    rw [delStep]
    dsimp only [List.cons_append]
    rw [hempty slot List.mem_cons_self]

/-- The walk comes to the node and takes it out. -/
theorem find {slot : Slot} {rest : List Slot} {a : α} (ha : W.Matches handle session a)
    {mid post : List α} (hmid : ∀ b ∈ mid, ¬ W.Matches handle session b) {node : Option α}
    (hchain : LinkQueue.Chain W.next node (mid ++ a :: post)) (done : List α)
    (log : List (DelAction α)) :
    ∃ log', Searches handle session ⟨W, .walk slot rest done.getLast? node, log⟩
      ⟨W.unlink slot (done ++ mid).getLast? a, .returned, log'⟩ [a] := by
  induction mid generalizing node done log with
  | nil =>
    obtain rfl : node = some a := hchain.1
    refine ⟨log ++ [.touch slot, .free a], of_step [.touch slot, .free a] ?_ rfl (by simp)⟩
    rw [delStep, List.append_nil]
    exact if_pos ha
  | cons b mid ih =>
    obtain ⟨rfl, hchain⟩ := hchain
    obtain ⟨log', hlog'⟩ := ih (fun c hc ↦ hmid c (List.mem_cons_of_mem b hc)) hchain (done ++ [b])
      (log ++ [.touch slot])
    rw [List.getLast?_concat, List.append_assoc] at hlog'
    refine ⟨log', .trans (of_step [.touch slot] ?_ rfl (by simp)) hlog'⟩
    rw [delStep]
    exact if_neg (hmid b List.mem_cons_self)

end Searches

/-- The search is at a list that is not empty and has no such node. -/
structure Stuck (W : TimerHeap α) (handle : ℕ) (session : ℤ) (slot : Slot) (s : DelState α) :
    Prop where
  heap : s.heap = W
  pc : (∃ rest, s.pc = .outer (slot :: rest)) ∨
    ∃ rest old node todo, s.pc = .walk slot rest old node ∧
    LinkQueue.Chain W.next node todo ∧ ∀ a ∈ todo, ¬ W.Matches handle session a

/-- It stays there. -/
theorem Stuck.step {slot : Slot} {todo : List α}
    (hchain : LinkQueue.Chain W.next (W.head slot) todo)
    (hnone : ∀ a ∈ todo, ¬ W.Matches handle session a) (hne : W.head slot ≠ none)
    (h : Stuck W handle session slot s) :
    Stuck W handle session slot (delStep handle session s) := by
  obtain ⟨heap, pc, log⟩ := s
  obtain ⟨rfl, ⟨rest, hpc⟩ | ⟨rest, old, node, todo', hpc, hchain', hnone'⟩⟩ := h
  · obtain rfl : pc = .outer (slot :: rest) := hpc
    obtain ⟨a, ha⟩ := Option.ne_none_iff_exists'.mp hne
    rw [delStep]
    dsimp only
    rw [ha]
    exact ⟨rfl, Or.inr ⟨rest, none, _, todo, rfl, ha ▸ hchain, hnone⟩⟩
  · obtain rfl : pc = .walk slot rest old node := hpc
    rw [delStep]
    dsimp only
    cases todo' with
    | nil =>
      obtain rfl : node = none := hchain'
      exact ⟨rfl, Or.inl ⟨rest, rfl⟩⟩
    | cons a todo' =>
      obtain ⟨rfl, hchain'⟩ := hchain'
      dsimp only
      rw [if_neg (hnone' a List.mem_cons_self)]
      exact ⟨rfl, Or.inr ⟨rest, _, _, todo', rfl, hchain',
        fun b hb ↦ hnone' b (List.mem_cons_of_mem a hb)⟩⟩

omit [DecidableEq α] in
theorem Stuck.not_returned {slot : Slot} (h : Stuck W handle session slot s) :
    s.pc ≠ .returned := by
  obtain ⟨-, ⟨rest, hpc⟩ | ⟨rest, old, node, todo, hpc, -⟩⟩ := h <;>
  · rw [hpc]
    exact nofun

theorem returned_iterate (hs : s.pc = .returned) (n : ℕ) : (delStep handle session)^[n] s = s := by
  refine Function.iterate_fixed ?_ n
  rw [delStep, hs]

private theorem returned_unique {n n' : ℕ} (h : ((delStep handle session)^[n] s).pc = .returned)
    (h' : ((delStep handle session)^[n'] s).pc = .returned) :
    (delStep handle session)^[n] s = (delStep handle session)^[n'] s := by
  rcases Nat.le_total n n' with hle | hle
  · rw [← Nat.sub_add_cancel hle, Function.iterate_add_apply, returned_iterate h]
  · rw [← Nat.sub_add_cancel hle, Function.iterate_add_apply, returned_iterate h']

end Search

/-! ## The whole search -/

section Whole

variable {α : Type} [DecidableEq α] {W : TimerHeap α} {l : Slot → List α} {handle : ℕ} {session : ℤ}

omit [DecidableEq α] in
theorem TimerHeap.Represents.head_eq_none_iff (h : W.Represents l) (slot : Slot) :
    W.head slot = none ↔ l slot = [] := by
  have hchain := h.chain slot
  cases hl : l slot with
  | nil =>
    rw [hl] at hchain
    exact iff_of_true hchain rfl
  | cons a rest =>
    rw [hl] at hchain
    rw [hchain.1]
    exact iff_of_false (Option.some_ne_none a) (List.cons_ne_nil a rest)

omit [DecidableEq α] in
/-- All lists are empty, or there is a first one that is not. -/
theorem timerSlots_cases (l : Slot → List α) : (∀ slot ∈ timerSlots, l slot = []) ∨
    ∃ pre slot rest, timerSlots = pre ++ slot :: rest ∧ (∀ slot' ∈ pre, l slot' = []) ∧
      l slot ≠ [] := by
  cases hfind : timerSlots.find? fun slot ↦ decide (l slot ≠ []) with
  | none =>
    refine Or.inl fun slot hs ↦ ?_
    have hnot := List.find?_eq_none.mp hfind slot hs
    rwa [decide_eq_true_eq, not_not] at hnot
  | some slot =>
    obtain ⟨hslot, pre, rest, heq, hpre⟩ := List.find?_eq_some_iff_append.mp hfind
    refine Or.inr ⟨pre, slot, rest, heq, fun slot' hs ↦ ?_, of_decide_eq_true hslot⟩
    have hnot := hpre slot' hs
    rw [Bool.not_eq_true'] at hnot
    exact not_not.mp (of_decide_eq_false hnot)

/-- How a search ends that ends: in this state. -/
structure Ends (W : TimerHeap α) (l : Slot → List α) (handle : ℕ) (session : ℤ) (s : DelState α) :
    Prop where
  returned : s.pc = .returned
  removes : ∃ l', Cancelled W handle session l l' s.freed ∧ s.heap.Represents l' ∧
    s.heap.node = W.node
  lock : .lock ∉ s.log

/-- Nothing is in the lists. -/
theorem ends_of_empty (h : W.Represents l) (hempty : ∀ slot ∈ timerSlots, l slot = []) :
    ∃ n, Ends W l handle session (timeoutDel handle session W n) := by
  have hheads : ∀ slot ∈ timerSlots, W.head slot = none :=
    fun slot hs ↦ (h.head_eq_none_iff slot).mpr (hempty slot hs)
  obtain ⟨log, hskip⟩ := @Searches.skip _ _ handle session W timerSlots [] hheads []
  rw [List.append_nil] at hskip
  have hlast : Searches handle session ⟨W, .outer [], log⟩ ⟨W, .returned, log⟩ [] :=
    .of_step [] rfl (List.append_nil log).symm List.not_mem_nil
  obtain ⟨⟨n, hn⟩, hfreed, hlock⟩ := hskip.trans hlast
  refine ⟨n, ?_⟩
  rw [timeoutDel, hn]
  refine ⟨rfl, ⟨l, Or.inr ⟨fun slot hs a ha ↦ ?_, rfl, hfreed⟩, h, rfl⟩, fun hmem ↦ ?_⟩
  · rw [hempty slot hs] at ha
    cases ha
  · cases hlock hmem

omit [DecidableEq α] in
theorem exists_first_match {as : List α} (h : ∃ a ∈ as, W.Matches handle session a) :
    ∃ mid a post, as = mid ++ a :: post ∧ (∀ c ∈ mid, ¬ W.Matches handle session c) ∧
      W.Matches handle session a := by
  obtain ⟨b, hb, hmatch⟩ := h
  obtain ⟨a, hfind⟩ := Option.isSome_iff_exists.mp
    (List.find?_isSome (p := fun a ↦ decide (W.Matches handle session a)) |>.mpr
      ⟨b, hb, decide_eq_true hmatch⟩)
  obtain ⟨ha, mid, post, hl, hmid⟩ := List.find?_eq_some_iff_append.mp hfind
  refine ⟨mid, a, post, hl, fun c hc ↦ ?_, of_decide_eq_true ha⟩
  have hc' := hmid c hc
  rw [Bool.not_eq_true'] at hc'
  exact of_decide_eq_false hc'

/-- The first list that is not empty has the node `a`, which is the first of those with this handle
and session. -/
theorem returned_of_first (h : W.Represents l) {pre rest : List Slot} {slot : Slot}
    (heq : timerSlots = pre ++ slot :: rest) (hpre : ∀ slot' ∈ pre, l slot' = [])
    {mid post : List α}
    {a : α} (hl : l slot = mid ++ a :: post) (hmid : ∀ c ∈ mid, ¬ W.Matches handle session c)
    (ha : W.Matches handle session a) :
    ∃ n log, timeoutDel handle session W n = ⟨W.unlink slot mid.getLast? a, .returned, log⟩ ∧
      (timeoutDel handle session W n).freed = [a] ∧ .lock ∉ log := by
  have hheads : ∀ slot' ∈ pre, W.head slot' = none :=
    fun slot' hs ↦ (h.head_eq_none_iff slot').mpr (hpre slot' hs)
  have hchain := h.chain slot
  rw [hl] at hchain
  obtain ⟨log, hskip⟩ := @Searches.skip _ _ handle session W pre (slot :: rest) hheads []
  have hne : W.head slot ≠ none := by
    rw [Ne, h.head_eq_none_iff slot, hl]
    exact List.append_ne_nil_of_right_ne_nil mid (List.cons_ne_nil a post)
  obtain ⟨c, hc⟩ := Option.ne_none_iff_exists'.mp hne
  have henter : Searches handle session ⟨W, .outer (slot :: rest), log⟩
      ⟨W, .walk slot rest none (W.head slot), log ++ [.touch slot, .unlock, .touch slot]⟩ [] := by
    refine .of_step [.touch slot, .unlock, .touch slot] ?_ rfl (by simp)
    rw [delStep]
    dsimp only
    rw [hc]
  obtain ⟨log', hwalk⟩ := Searches.find ha hmid hchain []
    (log ++ [.touch slot, .unlock, .touch slot])
  obtain ⟨⟨n, hn⟩, hfreed, hlock⟩ := (hskip.trans henter).trans hwalk
  rw [← heq] at hn
  refine ⟨n, log', hn, ?_, fun hmem ↦ ?_⟩
  · rw [timeoutDel, hn, hfreed]
    rfl
  · cases hlock hmem

/-- The first list that is not empty has the node. -/
theorem ends_of_first (h : W.Represents l) (hfirst : FirstListHas W handle session l) :
    ∃ n, Ends W l handle session (timeoutDel handle session W n) := by
  obtain ⟨pre, slot, rest, heq, hpre, b, hb, hmatch⟩ := hfirst
  obtain ⟨mid, a, post, hl, hnot, ha⟩ := exists_first_match ⟨b, hb, hmatch⟩
  obtain ⟨n, log, hn, hfreed, hlock⟩ := returned_of_first h heq hpre hl hnot ha
  refine ⟨n, ?_⟩
  have hslot : slot ∈ timerSlots := by
    rw [heq]
    exact List.mem_append_right pre List.mem_cons_self
  have hmem : a ∈ l slot := by
    rw [hl]
    exact List.mem_append_right mid List.mem_cons_self
  have herase : (l slot).erase a = mid ++ post := by
    have hmid' : a ∉ mid := fun ha' ↦ hnot a ha' ha
    rw [hl, List.erase_append_right _ hmid', List.erase_cons_head]
  rw [hn] at hfreed ⊢
  exact ⟨rfl, ⟨Function.update l slot (mid ++ post), Or.inl ⟨slot, hslot, a, hmem, ha,
    by rw [herase], hfreed⟩, h.unlink hl, TimerHeap.unlink_node _⟩, hlock⟩

/-- The first list that is not empty does not have the node. -/
theorem not_returned_of_stuck (h : W.Represents l) {pre rest : List Slot} {slot : Slot}
    (heq : timerSlots = pre ++ slot :: rest) (hpre : ∀ slot' ∈ pre, l slot' = [])
    (hne : l slot ≠ []) (hnone : ∀ a ∈ l slot, ¬ W.Matches handle session a) (n : ℕ) :
    (timeoutDel handle session W n).pc ≠ .returned := by
  have hheads : ∀ slot' ∈ pre, W.head slot' = none :=
    fun slot' hs ↦ (h.head_eq_none_iff slot').mpr (hpre slot' hs)
  have hhead : W.head slot ≠ none := fun hn ↦ hne ((h.head_eq_none_iff slot).mp hn)
  obtain ⟨log, ⟨⟨k, hk⟩, -, -⟩⟩ := @Searches.skip _ _ handle session W pre (slot :: rest) hheads []
  rw [← heq] at hk
  have hstuck : ∀ j, Stuck W handle session slot
      ((delStep handle session)^[j] ⟨W, .outer (slot :: rest), log⟩) := by
    intro j
    induction j with
    | zero => exact ⟨rfl, Or.inl ⟨rest, rfl⟩⟩
    | succ j ih =>
      rw [Function.iterate_succ_apply']
      exact ih.step (h.chain slot) hnone hhead
  intro hret
  -- it would still have returned some time later
  have hlater := @returned_iterate _ _ handle session _ hret k
  rw [timeoutDel, ← Function.iterate_add_apply, Nat.add_comm,
    Function.iterate_add_apply, hk] at hlater
  have hstuck' := hstuck n
  rw [hlater] at hstuck'
  exact hstuck'.not_returned hret

/-- **`ztask_timeout_del` never does what it is for.** Whatever the lists contain, it touches the
first of them without the lock. It returns exactly if all lists are empty or the first one that is
not has a node with this handle and session. If it returns, the node has been taken out, as it
should be, and the lock has not been taken at all. -/
theorem timeoutDel_never_cancels (h : W.Represents l) :
    ¬ Cancels W handle session l ∧
      ((∃ n, (timeoutDel handle session W n).pc = .returned) ↔
        (∀ slot ∈ timerSlots, l slot = []) ∨ FirstListHas W handle session l) ∧
      ∀ n, (timeoutDel handle session W n).pc = .returned → Ends W l handle session
          (timeoutDel handle session W n) := by
  refine ⟨fun hcancels ↦ ?_, ⟨?_, ?_⟩, fun n hn ↦ ?_⟩
  · -- the first thing the loop does is to look at `near[0]`, before any lock
    have hslots : timerSlots = .near 0 :: timerSlots.tail := rfl
    have hlog : ∃ log, (timeoutDel handle session W 1).log = .touch (.near 0) :: log := by
      rw [timeoutDel, Function.iterate_one, hslots, delStep]
      dsimp only
      split
      · exact ⟨_, rfl⟩
      · exact ⟨_, rfl⟩
    obtain ⟨log, hlog⟩ := hlog
    refine hcancels.locks 1 ?_
    rw [hlog]
    rfl
  · rintro ⟨n, hn⟩
    -- all lists empty, or a first one that is not; without a match there the walk turns in place
    rcases timerSlots_cases l with hempty | ⟨pre, slot, rest, heq, hpre, hne⟩
    · exact Or.inl hempty
    · by_contra hnot
      refine not_returned_of_stuck h heq hpre hne (fun a ha hmatch ↦ hnot (Or.inr ?_)) n hn
      exact ⟨pre, slot, rest, heq, hpre, a, ha, hmatch⟩
  · rintro (hempty | hfirst)
    · obtain ⟨n, hn⟩ := @ends_of_empty _ _ W l handle session h hempty
      exact ⟨n, hn.returned⟩
    · obtain ⟨n, hn⟩ := ends_of_first h hfirst
      exact ⟨n, hn.returned⟩
  · have hends : ∃ n, Ends W l handle session (timeoutDel handle session W n) := by
      rcases timerSlots_cases l with hempty | ⟨pre, slot, rest, heq, hpre, hne⟩
      · exact ends_of_empty h hempty
      · by_cases hfirst : FirstListHas W handle session l
        · exact ends_of_first h hfirst
        · refine absurd hn (not_returned_of_stuck h heq hpre hne (fun a ha hmatch ↦ hfirst ?_) n)
          exact ⟨pre, slot, rest, heq, hpre, a, ha, hmatch⟩
    obtain ⟨n', hn'⟩ := hends
    rw [timeoutDel, returned_unique hn hn'.returned]
    exact hn'

end Whole

/-- One timer, for session 1 of the service 1. -/
def oneTimeout : TimerHeap ℕ := (TimerHeap.create fun _ ↦ ⟨0, ⟨1, 1⟩⟩).link (.near 0) 0

def oneTimeoutNodes : Slot → List ℕ := Function.update (fun _ ↦ []) (.near 0) [0]

private theorem oneTimeout_represents : oneTimeout.Represents oneTimeoutNodes :=
  (TimerHeap.create_represents _).link fun _ ↦ List.not_mem_nil

/-- It is cancelled without the lock. -/
theorem timeoutDel_never_cancels_one : ∃ n, (timeoutDel 1 1 oneTimeout n).pc = .returned ∧
    ¬ Cancels oneTimeout 1 1 oneTimeoutNodes := by
  obtain ⟨hnot, hreturns, -⟩ := @timeoutDel_never_cancels _ _ oneTimeout _ 1 1 oneTimeout_represents
  obtain ⟨n, hn⟩ := hreturns.mpr
      (Or.inr ⟨[], .near 0, timerSlots.tail, rfl, fun _ hs ↦ (nomatch hs), 0,
    List.mem_singleton_self 0, rfl, rfl⟩)
  exact ⟨n, hn, hnot⟩

/-- A search for session 2 does not return. -/
theorem timeoutDel_spins : (∀ n, (timeoutDel 1 2 oneTimeout n).pc ≠ .returned) ∧
    ¬ Cancels oneTimeout 1 2 oneTimeoutNodes := by
  have hspins : ∀ n, (timeoutDel 1 2 oneTimeout n).pc ≠ .returned := by
    have hslots : timerSlots = [] ++ .near 0 :: timerSlots.tail := rfl
    refine not_returned_of_stuck oneTimeout_represents hslots (fun _ hs ↦ (nomatch hs))
        (List.cons_ne_nil 0 [])
      fun a _ hmatch ↦ ?_
    have hsession : (1 : ℤ) = 2 := hmatch.1
    exact absurd hsession (by decide)
  refine ⟨hspins, fun hcancels ↦ ?_⟩
  obtain ⟨n, hn⟩ := hcancels.returns
  exact hspins n hn

end ZTask
