import ZTask.Socket.Server

/-!
# Finding a free slot

A call of `reserve_id` while other threads go on: between any two of its accesses to `alloc_id` and
to a slot, anything may happen to the server. The call counts `alloc_id` up, looks at the slot of
the id that it gets, and takes the slot by a `ATOM_CAS16` if it is free. If another thread has been
faster, it tries the next id.

`alloc_id` is an `int`, and after `2 ^ 31 - 1` it is negative. Then `ATOM_AND` clears the sign, but
the call goes on with what `ATOM_AND` returns, the value that it has found. So a negative id is
given away if its slot is free (`Sound`); otherwise the call does what it should. Called alone, it
passes the slots one after the other from that of `alloc_id + 1` on, and it passes all of them
before it gives up.
-/

namespace ZTask

open Lib SocketServer

/-! ## The call -/

/-- Where a call is; `i` is the variable of its loop. -/
inductive ReservePc
  /-- At the test of the loop. -/
  | inc (i : ℕ)
  /-- At `ATOM_AND`. -/
  | mask (i : ℕ)
  /-- At the test of the slot. -/
  | check (i : ℕ) (id : ℤ)
  /-- At `ATOM_CAS16`. -/
  | cas (i : ℕ) (id : ℤ)
  /-- The slot is taken, and nothing has been written to it yet. -/
  | store (id : ℤ)
  | returned (id : ℤ)
deriving DecidableEq, Repr

/-- The id whose slot has been taken. -/
def ReservePc.taken : ReservePc → Option ℤ
  | .store id | .returned id => some id
  | _ => none

structure Reserving where
  server : SocketServer
  pc : ReservePc
  /-- No other thread has changed the type or the id of the slot that the call has taken. -/
  untouched : Bool

inductive ReserveInput
  /-- The call goes on. -/
  | step
  /-- Other threads leave the server like this. -/
  | others (server : SocketServer)

inductive ReserveOutput
  /-- The call has looked at a slot, which is free or not. -/
  | looked (slot : ℕ) (free : Bool)
  /-- `ATOM_CAS16` has taken a slot or not. -/
  | swapped (slot : ℕ) (won : Bool)
  | quiet
deriving DecidableEq, Repr

inductive ReserveFault
  | hasReturned
deriving DecidableEq, Repr

namespace Reserving

def start (s : SocketServer) : Reserving := ⟨s, .inc 0, false⟩

/-- The call goes on. -/
def step (w : Reserving) : Except ReserveFault (Reserving × ReserveOutput) :=
  let s := w.server
  match w.pc with
  | .inc i =>
    if i < maxSocket then
      let id := toInt32 (s.allocId + 1)
      let pc := if id < 0 then .mask i else .check i id
      .ok (⟨{ s with allocId := id }, pc, w.untouched⟩, .quiet)
    else .ok (⟨s, .returned (-1), w.untouched⟩, .quiet)
  | .mask i =>
    -- `_InterlockedAnd` returns what it has found
    .ok (⟨{ s with allocId := maskedId s.allocId }, .check i s.allocId, w.untouched⟩, .quiet)
  | .check i id =>
    if (s.slot (hashId id)).type = .invalid then
      .ok (⟨s, .cas i id, w.untouched⟩, .looked (hashId id) true)
    else .ok (⟨s, .inc (i + 1), w.untouched⟩, .looked (hashId id) false)
  | .cas i id =>
    let x := s.slot (hashId id)
    if x.type = .invalid then
      .ok (⟨s.setSlot (hashId id) { x with type := .reserve }, .store id, true⟩,
        .swapped (hashId id) true)
    -- `--i`, and the loop counts it up again
    else .ok (⟨s, .inc i, w.untouched⟩, .swapped (hashId id) false)
  | .store id =>
    .ok (⟨s.setSlot (hashId id) { s.slot (hashId id) with id := id, fd := -1 }, .returned id,
      w.untouched⟩, .quiet)
  | .returned _ => .error .hasReturned

/-- The slot that the call has taken stays as it is. -/
def leaves (w : Reserving) (s : SocketServer) : Bool :=
  decide (∀ id ∈ w.pc.taken, (s.slot (hashId id)).type = (w.server.slot (hashId id)).type ∧
    (s.slot (hashId id)).id = (w.server.slot (hashId id)).id)

end Reserving

/-- A call and the other threads. -/
def reserving : Machine Reserving ReserveInput ReserveOutput ReserveFault := fun w input ↦
  match input with
  | .step => w.step
  | .others s => .ok (⟨s, w.pc, w.untouched && w.leaves s⟩, .quiet)

abbrev ReserveEvent := Event Reserving ReserveInput ReserveOutput

/-! ## What it should do -/

namespace Reserving

/-- The call takes a slot. -/
def Claims (e : ReserveEvent) (j : ℕ) : Prop :=
  e.input = .step ∧ (e.pre.server.slot j).type = .invalid ∧ (e.post.server.slot j).type = .reserve

/-- The slots that the call has looked at, those that were free or those that were not. -/
def seen (free : Bool) (tr : List ReserveEvent) : List ℕ :=
  tr.filterMap fun e ↦
    match e.output with
    | .looked slot free' => if free' = free then some slot else none
    | _ => none

/-- The slots that were taken when the call came to `ATOM_CAS16`. -/
def lost (tr : List ReserveEvent) : List ℕ :=
  tr.filterMap fun e ↦
    match e.output with
    | .swapped slot false => some slot
    | _ => none

/-- The call has returned an id that is not negative, whose slot it has found free and has taken,
and no other, and which has the id in it, if nobody else has changed that. Or it has returned -1 and
has not taken a slot; then each slot that it has visited was taken, at the latest when it came to
`ATOM_CAS16`. -/
def Correct (tr : List ReserveEvent) (w : Reserving) (r : ℤ) : Prop :=
  (0 ≤ r ∧ (∃ e ∈ tr, Claims e (hashId r)) ∧ (∀ e ∈ tr, ∀ j, Claims e j → j = hashId r) ∧
    (w.untouched = true → (w.server.slot (hashId r)).type = .reserve ∧
      (w.server.slot (hashId r)).id = r)) ∨
  (r = -1 ∧ (∀ e ∈ tr, ∀ j, ¬ Claims e j) ∧ (seen false tr).length = maxSocket ∧
    seen true tr = lost tr)

/-- A slot that is free is not taken with a negative value of `alloc_id`. -/
def Sound (w : Reserving) : ReserveInput → Prop
  | .step =>
    match w.pc with
    | .cas _ id => id < 0 → (w.server.slot (hashId id)).type ≠ .invalid
    | _ => True
  | .others _ => True

instance decidableSound : ∀ (w : Reserving) (input : ReserveInput), Decidable (w.Sound input)
  | ⟨s, .cas _ id, _⟩, .step =>
    inferInstanceAs (Decidable (id < 0 → (s.slot (hashId id)).type ≠ .invalid))
  | ⟨_, .inc _, _⟩, .step | ⟨_, .mask _, _⟩, .step | ⟨_, .check _ _, _⟩, .step
  | ⟨_, .store _, _⟩, .step | ⟨_, .returned _, _⟩, .step | _, .others _ => .isTrue trivial

/-! ## The loop -/

variable {tr : List ReserveEvent} {w w' : Reserving} {s : SocketServer} {i : ℕ} {id r : ℤ}
  {input : ReserveInput} {out : ReserveOutput}

@[simp] theorem seen_append (free : Bool) (tr tr' : List ReserveEvent) :
    seen free (tr ++ tr') = seen free tr ++ seen free tr' := List.filterMap_append

@[simp] theorem lost_append (tr tr' : List ReserveEvent) : lost (tr ++ tr') = lost tr ++ lost tr' :=
  List.filterMap_append

/-- The call has taken no slot, has passed `i` slots that were not free, and has lost all free ones
but those that are left. -/
structure Searching (tr : List ReserveEvent) (i : ℕ) (left : List ℕ) : Prop where
  unclaimed : ∀ e ∈ tr, ∀ j, ¬ Claims e j
  passed : (seen false tr).length = i
  free : seen true tr = lost tr ++ left
  sound : Meets Sound tr

/-- The call has taken the slot of the id. -/
structure Claimed (tr : List ReserveEvent) (id : ℤ) : Prop where
  claimed : ∃ e ∈ tr, Claims e (hashId id)
  only : ∀ e ∈ tr, ∀ j, Claims e j → j = hashId id
  sound : Meets Sound tr ↔ 0 ≤ id

/-- What the call has done so far. -/
def Progress (tr : List ReserveEvent) (w : Reserving) : Prop :=
  match w.pc with
  | .inc i => i ≤ maxSocket ∧ Searching tr i []
  | .mask i | .check i _ => i < maxSocket ∧ Searching tr i []
  | .cas i id => i < maxSocket ∧ Searching tr i [hashId id]
  | .store id => Claimed tr id ∧
    (w.untouched = true → (w.server.slot (hashId id)).type = .reserve)
  | .returned r =>
    Claimed tr r ∧ (w.untouched = true → (w.server.slot (hashId r)).type = .reserve ∧
      (w.server.slot (hashId r)).id = r) ∨
    r = -1 ∧ Searching tr maxSocket []

private theorem not_claims {e : ReserveEvent} (h : e.post.server.slot = e.pre.server.slot) (j : ℕ) :
    ¬ Claims e j := by
  rintro ⟨-, hfree, htaken⟩
  rw [h, hfree] at htaken
  cases htaken

private theorem not_claims_others (j : ℕ) : ¬ Claims ⟨w, .others s, out, w'⟩ j := by
  rintro ⟨hinput, -⟩
  cases hinput

theorem Searching.concat {left left' : List ℕ} {i' : ℕ} {e : ReserveEvent} (h : Searching tr i left)
    (hclaims : ∀ j, ¬ Claims e j) (hsound : Sound e.pre e.input)
    (hpassed : i + (seen false [e]).length = i')
    (hfree : left ++ seen true [e] = lost [e] ++ left') : Searching (tr ++ [e]) i' left' where
  unclaimed := List.forall_mem_append.mpr ⟨h.unclaimed, List.forall_mem_singleton.mpr hclaims⟩
  passed := by rw [seen_append, List.length_append, h.passed, hpassed]
  free := by rw [seen_append, lost_append, h.free, List.append_assoc, hfree, List.append_assoc]
  sound := meets_concat.mpr ⟨h.sound, hsound⟩

theorem Searching.claim {left : List ℕ} {e : ReserveEvent} (h : Searching tr i left)
    (hclaims : ∀ j, Claims e j ↔ j = hashId id) (hsound : Sound e.pre e.input ↔ 0 ≤ id) :
    Claimed (tr ++ [e]) id where
  claimed := ⟨e, List.mem_append_right _ (List.mem_singleton.mpr rfl), (hclaims _).mpr rfl⟩
  only := by
    refine List.forall_mem_append.mpr ⟨fun e' he' j hj ↦ (h.unclaimed e' he' j hj).elim, ?_⟩
    exact List.forall_mem_singleton.mpr fun j ↦ (hclaims j).mp
  sound := by
    rw [meets_concat, hsound]
    exact and_iff_right h.sound

theorem Claimed.concat {e : ReserveEvent} (h : Claimed tr id) (hclaims : ∀ j, ¬ Claims e j)
    (hsound : Sound e.pre e.input) : Claimed (tr ++ [e]) id where
  claimed := by
    obtain ⟨e', he', hj⟩ := h.claimed
    exact ⟨e', List.mem_append_left _ he', hj⟩
  only := by
    refine List.forall_mem_append.mpr ⟨h.only, ?_⟩
    exact List.forall_mem_singleton.mpr fun j hj ↦ (hclaims j hj).elim
  sound := by
    rw [meets_concat, h.sound]
    exact and_iff_left hsound

/-- A slot that the call takes. -/
theorem claims_cas (hfree : (s.slot (hashId id)).type = .invalid) {b b' : Bool} {x : IoSocket}
    (hx : x.type = .reserve) (j : ℕ) :
    Claims ⟨⟨s, .cas i id, b⟩, .step, out, ⟨s.setSlot (hashId id) x, .store id, b'⟩⟩ j ↔
      j = hashId id := by
  rw [setSlot]
  constructor
  · rintro ⟨-, hinvalid, htaken⟩
    by_contra hj
    dsimp only at hinvalid htaken
    rw [Function.update_of_ne hj, hinvalid] at htaken
    cases htaken
  · rintro rfl
    refine ⟨rfl, hfree, ?_⟩
    dsimp only
    rw [Function.update_self, hx]

private theorem not_claims_store {b b' : Bool} {id' fd : ℤ} (j : ℕ) :
    ¬ Claims ⟨⟨s, .store id, b⟩, .step, out, ⟨s.setSlot (hashId id)
      { s.slot (hashId id) with id := id', fd := fd }, .returned id, b'⟩⟩ j := by
  rintro ⟨-, hinvalid, htaken⟩
  dsimp only [setSlot] at hinvalid htaken
  by_cases hj : j = hashId id
  · rw [hj, Function.update_self] at htaken
    rw [hj] at hinvalid
    exact nomatch hinvalid.symm.trans htaken
  · rw [Function.update_of_ne hj, hinvalid] at htaken
    cases htaken

/-- What the call does next. -/
theorem Progress.step (h : Progress tr w) (hm : w.step = .ok (w', out)) :
    Progress (tr ++ [⟨w, .step, out, w'⟩]) w' := by
  obtain ⟨s, pc, untouched⟩ := w
  -- the thread is at one of the atomic accesses; what it knows of the slot is from the last one
  cases pc with
  | inc i =>
    obtain ⟨hi, hsearch⟩ := h
    simp only [Reserving.step] at hm
    split at hm
    next hlt =>
      cases hm
      have hnext := hsearch.concat (e := ⟨⟨s, .inc i, untouched⟩, .step, .quiet,
        ⟨{ s with allocId := toInt32 (s.allocId + 1) }, if toInt32 (s.allocId + 1) < 0 then .mask i
          else .check i (toInt32 (s.allocId + 1)), untouched⟩⟩) (not_claims rfl) trivial rfl rfl
      by_cases hneg : toInt32 (s.allocId + 1) < 0
      · rw [if_pos hneg] at hnext ⊢
        exact ⟨hlt, hnext⟩
      · rw [if_neg hneg] at hnext ⊢
        exact ⟨hlt, hnext⟩
    next =>
      cases hm
      obtain rfl : i = maxSocket := by omega
      exact .inr ⟨rfl, hsearch.concat (not_claims rfl) trivial rfl rfl⟩
  | mask i =>
    cases hm
    exact ⟨h.1, h.2.concat (not_claims rfl) trivial rfl rfl⟩
  | check i id =>
    simp only [Reserving.step] at hm
    split at hm
    · cases hm
      exact ⟨h.1, h.2.concat (not_claims rfl) trivial rfl rfl⟩
    · cases hm
      exact ⟨h.1, h.2.concat (not_claims rfl) trivial rfl rfl⟩
  | cas i id =>
    simp only [Reserving.step] at hm
    split at hm
    next hfree =>
      cases hm
      refine ⟨h.2.claim (claims_cas hfree rfl) ?_, fun _ ↦ ?_⟩
      · simp only [Sound, hfree]
        simp
      · simp [setSlot]
    next hbusy =>
      cases hm
      exact ⟨Nat.le_of_lt h.1, h.2.concat (not_claims rfl) (fun _ ↦ hbusy) rfl rfl⟩
  | store id =>
    cases hm
    refine .inl ⟨h.1.concat not_claims_store trivial, fun huntouched ↦ ?_⟩
    dsimp only [setSlot]
    rw [Function.update_self]
    exact ⟨h.2 huntouched, rfl⟩
  | returned r => cases hm

/-- Other threads go on. -/
theorem Progress.others (h : Progress tr w) (s : SocketServer) :
    Progress (tr ++ [⟨w, .others s, .quiet, ⟨s, w.pc, w.untouched && w.leaves s⟩⟩])
      ⟨s, w.pc, w.untouched && w.leaves s⟩ := by
  obtain ⟨s₀, pc, untouched⟩ := w
  have hleaves : ∀ {id}, pc.taken = some id →
      (untouched && leaves ⟨s₀, pc, untouched⟩ s) = true → untouched = true ∧
        (s.slot (hashId id)).type = (s₀.slot (hashId id)).type ∧
        (s.slot (hashId id)).id = (s₀.slot (hashId id)).id := by
    intro id hid hboth
    obtain ⟨huntouched, hleaves⟩ := Bool.and_eq_true_iff.mp hboth
    exact ⟨huntouched, of_decide_eq_true hleaves id hid⟩
  cases pc with
  | inc i | mask i | check i _ | cas i _ =>
    exact ⟨h.1, h.2.concat not_claims_others trivial rfl (List.append_nil _)⟩
  | store id =>
    refine ⟨h.1.concat not_claims_others trivial, fun hboth ↦ ?_⟩
    obtain ⟨huntouched, htype, -⟩ := hleaves rfl hboth
    exact htype.trans (h.2 huntouched)
  | returned r =>
    rcases h with ⟨hclaimed, hslot⟩ | ⟨hr, hsearch⟩
    · refine .inl ⟨hclaimed.concat not_claims_others trivial, fun hboth ↦ ?_⟩
      obtain ⟨huntouched, htype, hid⟩ := hleaves rfl hboth
      exact ⟨htype.trans (hslot huntouched).1, hid.trans (hslot huntouched).2⟩
    · exact .inr ⟨hr, hsearch.concat not_claims_others trivial rfl rfl⟩

/-- **Progress** in every run. -/
theorem progress (hrun : Run reserving (start s) tr w) : Progress tr w := by
  refine hrun.ledger (C := fun _ _ ↦ True) Progress ?_ ?_ fun _ _ ↦ trivial
  · exact ⟨Nat.zero_le _, (fun e he ↦ (nomatch he)), rfl, rfl, meets_nil _⟩
  · rintro tr w input w' out - h - hm
    cases input with
    | step => exact h.step hm
    | others s =>
      cases hm
      exact h.others s

/-- A call that has returned has done what it should, or has taken a slot with a negative id. -/
theorem correct_iff (hrun : Run reserving (start s) tr w) (hpc : w.pc = .returned r) :
    Correct tr w r ↔ Meets Sound tr := by
  have hprogress := progress hrun
  rw [Progress, hpc] at hprogress
  rcases hprogress with ⟨hclaimed, hslot⟩ | ⟨rfl, hsearch⟩
  · rw [hclaimed.sound]
    constructor
    · rintro (⟨hr, -⟩ | ⟨-, hnone, -⟩)
      · exact hr
      · obtain ⟨e, he, hj⟩ := hclaimed.claimed
        exact (hnone e he _ hj).elim
    · exact fun hr ↦ .inl ⟨hr, hclaimed.claimed, hclaimed.only, hslot⟩
  · refine iff_of_true (.inr ⟨rfl, hsearch.unclaimed, hsearch.passed, ?_⟩) hsearch.sound
    rw [hsearch.free, List.append_nil]

/-! ## A call that is alone -/

/-- A run of the call without the other threads. -/
structure Alone (s : SocketServer) (tr : List ReserveEvent) (w : Reserving) : Prop where
  run : Run reserving (start s) tr w
  steps : ∀ e ∈ tr, e.input = .step

theorem Alone.start (s : SocketServer) : Alone s [] (start s) := ⟨.nil, fun _ he ↦ nomatch he⟩

theorem Alone.step (h : Alone s tr w) (hm : w.step = .ok (w', out)) :
    Alone s (tr ++ [⟨w, .step, out, w'⟩]) w' :=
  ⟨h.run.snoc hm, List.forall_mem_append.mpr ⟨h.steps, List.forall_mem_singleton.mpr rfl⟩⟩

variable {s₀ : SocketServer} {b : Bool}

/-- The next id. -/
theorem Alone.count (h : Alone s₀ tr ⟨s, .inc i, b⟩) (hi : i < maxSocket)
    (hid : toInt32 (s.allocId + 1) = id) :
    ∃ tr', Alone s₀ tr' ⟨{ s with allocId := maskedId id }, .check i id, b⟩ ∧
      seen false tr' = seen false tr := by
  by_cases hneg : id < 0
  · have hinc : Reserving.step ⟨s, .inc i, b⟩ =
        .ok (⟨{ s with allocId := id }, .mask i, b⟩, .quiet) := by
      simp only [Reserving.step, if_pos hi, hid, if_pos hneg]
    refine ⟨_, (h.step hinc).step rfl, ?_⟩
    rw [seen_append, seen_append]
    exact (List.append_nil _).trans (List.append_nil _)
  · have hinc : Reserving.step ⟨s, .inc i, b⟩ =
        .ok (⟨{ s with allocId := id }, .check i id, b⟩, .quiet) := by
      simp only [Reserving.step, if_pos hi, hid, if_neg hneg]
    rw [maskedId, if_neg hneg]
    refine ⟨_, h.step hinc, ?_⟩
    rw [seen_append]
    exact List.append_nil _

private theorem hashId_congr {x y : ℤ} (h : x % maxSocket = y % maxSocket) : hashId x = hashId y :=
  congrArg Int.toNat h

private theorem hashId_toInt32 (x : ℤ) : hashId (toInt32 x) = hashId x := by
  refine hashId_congr ?_
  rw [toInt32, Int.bmod, maxSocket]
  split <;> omega

private theorem hashId_maskedId (x y : ℤ) : hashId (maskedId (toInt32 x) + y) = hashId (x + y) := by
  refine hashId_congr ?_
  rw [maskedId, toInt32, Int.bmod, maxSocket]
  split <;> split <;> omega

/-- The slot that a call which is alone visits in its nth round. -/
def nth (s : SocketServer) (n : ℕ) : ℕ := hashId (s.allocId + 1 + n)

private theorem nth_succ (s : SocketServer) (n : ℕ) :
    nth { s with allocId := maskedId (toInt32 (s.allocId + 1)) } n = nth s (n + 1) := by
  rw [nth, nth, Int.add_assoc, hashId_maskedId]
  congr 1
  push_cast
  omega

private theorem nth_zero (s : SocketServer) : nth s 0 = hashId (toInt32 (s.allocId + 1)) := by
  rw [nth, hashId_toInt32]
  exact congrArg hashId (Int.add_zero _)

/-- **The call by itself** returns, as `reserveFrom` says. -/
theorem Alone.returns {k : ℕ} (h : Alone s₀ tr ⟨s, .inc i, b⟩) (hk : i + k = maxSocket) :
    ∃ tr' w, Alone s₀ tr' w ∧ w.pc = .returned ((s.reserveFrom k).1.getD (-1)) ∧
      w.server = (s.reserveFrom k).2 ∧ (Meets Sound tr' ↔ ∀ id ∈ (s.reserveFrom k).1, 0 ≤ id) ∧
      ((∃ e ∈ tr', ∃ j, Claims e j) ∨
        seen false tr' = seen false tr ++ (List.range k).map (nth s)) := by
  -- on the rounds that are left; alone, each round is `reserveFrom` on the counter
  induction k generalizing tr s i with
  | zero =>
    have hinc : Reserving.step ⟨s, .inc i, b⟩ = .ok (⟨s, .returned (-1), b⟩, .quiet) := by
      simp only [Reserving.step, if_neg (show ¬ i < maxSocket by omega)]
    obtain ⟨-, hsearch⟩ := progress h.run
    refine ⟨_, _, h.step hinc, rfl, rfl, ?_, .inr ?_⟩
    · exact iff_of_true (meets_concat.mpr ⟨hsearch.sound, trivial⟩) fun id hid ↦ nomatch hid
    · rw [seen_append]
      rfl
  | succ k ih =>
    obtain ⟨tr₁, h₁, hseen⟩ := h.count (show i < maxSocket by omega) rfl
    rw [reserveFrom]
    dsimp only
    by_cases hfree : (s.slot (hashId (toInt32 (s.allocId + 1)))).type = .invalid
    · rw [if_pos hfree]
      generalize hid : toInt32 (s.allocId + 1) = id at h₁ hfree ⊢
      have hcheck : Reserving.step ⟨{ s with allocId := maskedId id }, .check i id, b⟩ =
          .ok (⟨{ s with allocId := maskedId id }, .cas i id, b⟩, .looked (hashId id) true) := by
        simp only [Reserving.step, if_pos hfree]
      have hcas : Reserving.step ⟨{ s with allocId := maskedId id }, .cas i id, b⟩ =
          .ok (⟨{ s with allocId := maskedId id }.setSlot (hashId id)
            { s.slot (hashId id) with type := .reserve }, .store id, true⟩,
            .swapped (hashId id) true) := by
        simp only [Reserving.step, if_pos hfree]
      have h₂ := (h₁.step hcheck).step hcas
      obtain ⟨hclaimed, -⟩ := progress h₂.run
      refine ⟨_, _, h₂.step rfl, rfl, ?_, ?_, .inl ?_⟩
      · simp [setSlot]
      · rw [meets_concat, hclaimed.sound]
        simp [Sound]
      · obtain ⟨e, he, hj⟩ := hclaimed.claimed
        exact ⟨e, List.mem_append_left _ he, _, hj⟩
    · rw [if_neg hfree]
      have hcheck : Reserving.step ⟨{ s with allocId := maskedId (toInt32 (s.allocId + 1)) },
          .check i (toInt32 (s.allocId + 1)), b⟩ =
          .ok (⟨{ s with allocId := maskedId (toInt32 (s.allocId + 1)) }, .inc (i + 1), b⟩,
            .looked (hashId (toInt32 (s.allocId + 1))) false) := by
        simp only [Reserving.step, if_neg hfree]
      obtain ⟨tr', w, h', hpc, hserver, hsound, hvisits⟩ := ih (h₁.step hcheck) (by omega)
      refine ⟨tr', w, h', hpc, hserver, hsound, hvisits.imp_right fun hvisits ↦ ?_⟩
      have hshift : nth { s with allocId := maskedId (toInt32 (s.allocId + 1)) } =
          nth s ∘ Nat.succ :=
        funext fun n ↦ nth_succ s n
      rw [hvisits, seen_append, hseen, List.append_assoc, List.range_succ_eq_map, List.map_cons,
        List.map_map, hshift, nth_zero]
      rfl

/-- The first free slot that a call which is alone visits. -/
def FirstFree (s : SocketServer) (n : ℕ) : Prop :=
  (s.slot (nth s n)).type = .invalid ∧ ∀ m < n, (s.slot (nth s m)).type ≠ .invalid

/-- In its nth round `ATOM_INC` makes `alloc_id` negative: it wraps, or has been negative before. -/
def Wraps (allocId : ℤ) (n : ℕ) : Prop :=
  allocId + 1 + n = 2 ^ 31 ∨ allocId + 1 < 0 ∧ (n = 0 ∨ allocId + 1 + n = 0)

private theorem nonneg_iff_not_wraps {a : ℤ} (hlo : -2 ^ 31 ≤ a) (hhi : a < 2 ^ 31) :
    0 ≤ toInt32 (a + 1) ↔ ¬ Wraps a 0 := by
  rw [toInt32, Int.bmod, Wraps]
  split <;> omega

theorem wraps_succ {a : ℤ} {n : ℕ} (hlo : -2 ^ 31 ≤ a) (hhi : a < 2 ^ 31) (hn : n < maxSocket) :
    Wraps (maskedId (toInt32 (a + 1))) n ↔ Wraps a (n + 1) := by
  rw [maxSocket] at hn
  rw [maskedId, toInt32, Int.bmod, Wraps, Wraps]
  split <;> split <;> omega

private theorem maskedId_range (a : ℤ) :
    -2 ^ 31 ≤ maskedId (toInt32 a) ∧ maskedId (toInt32 a) < 2 ^ 31 := by
  have hlt := toInt32_lt a
  rw [maskedId]
  split <;> omega

private theorem firstFree_zero (hfree : (s.slot (nth s 0)).type = .invalid) (n : ℕ) :
    FirstFree s n ↔ n = 0 := by
  constructor
  · rintro ⟨-, hbefore⟩
    by_contra hn
    exact hbefore 0 (Nat.pos_of_ne_zero hn) hfree
  · rintro rfl
    exact ⟨hfree, fun m hm ↦ (nomatch hm)⟩

private theorem firstFree_succ (hbusy : (s.slot (nth s 0)).type ≠ .invalid) (n : ℕ) :
    FirstFree { s with allocId := maskedId (toInt32 (s.allocId + 1)) } n ↔ FirstFree s (n + 1) := by
  rw [FirstFree, FirstFree, nth_succ]
  refine and_congr_right fun _ ↦ ⟨fun h m hm ↦ ?_, fun h m hm ↦ ?_⟩
  · cases m with
    | zero => exact hbusy
    | succ m =>
      have hpassed := h m (Nat.lt_of_succ_lt_succ hm)
      rwa [nth_succ] at hpassed
  · rw [nth_succ]
    exact h (m + 1) (Nat.succ_lt_succ hm)

/-- The id that a call which is alone returns is negative if the first free slot is that of a
negative id.
-/
theorem reserveFrom_nonneg_iff {k : ℕ} (hk : k ≤ maxSocket) (hlo : -2 ^ 31 ≤ s.allocId)
    (hhi : s.allocId < 2 ^ 31) :
    (∀ id ∈ (s.reserveFrom k).1, 0 ≤ id) ↔ ∀ n < k, FirstFree s n → ¬ Wraps s.allocId n := by
  induction k generalizing s with
  | zero => exact iff_of_true (fun id hid ↦ nomatch hid) fun n hn ↦ nomatch hn
  | succ k ih =>
    rw [reserveFrom]
    dsimp only
    rw [← nth_zero]
    by_cases hfree : (s.slot (nth s 0)).type = .invalid
    · rw [if_pos hfree]
      simp only [Option.mem_some_iff, forall_eq', nonneg_iff_not_wraps hlo hhi,
        firstFree_zero hfree]
      constructor
      · rintro h n - rfl
        exact h
      · exact fun h ↦ h 0 (Nat.succ_pos k) rfl
    · obtain ⟨hlo', hhi'⟩ := maskedId_range (s.allocId + 1)
      rw [if_neg hfree, ih (by omega) hlo' hhi']
      constructor
      · intro h n hn hfirst
        cases n with
        | zero => exact (hfree hfirst.1).elim
        | succ n =>
          rw [← wraps_succ hlo hhi (by omega)]
          exact h n (by omega) ((firstFree_succ hfree n).mpr hfirst)
      · intro h n hn hfirst
        rw [wraps_succ hlo hhi (by omega)]
        exact h (n + 1) (by omega) ((firstFree_succ hfree n).mp hfirst)

private theorem exists_nth (s : SocketServer) {j : ℕ} (hj : j < maxSocket) :
    ∃ n < maxSocket, nth s n = j := by
  rw [maxSocket] at hj
  refine ⟨((j - s.allocId - 1) % 65536).toNat, ?_, ?_⟩
  · rw [maxSocket]
    omega
  · rw [nth, hashId, maxSocket]
    omega

/-- **A call of `reserve_id`** does what it should if it takes no free slot with a negative value of
`alloc_id`, and only then, whatever other threads do. If there are none, it returns; it has visited
all slots, if it has taken none; and it does what it should if the first free slot is not that of a
negative value. -/
theorem reserveId_correct_iff (s : SocketServer) :
    (∀ {tr : List ReserveEvent} {w : Reserving} {r : ℤ},
      Run reserving (start s) tr w → w.pc = .returned r → (Correct tr w r ↔ Meets Sound tr)) ∧
    (-2 ^ 31 ≤ s.allocId → s.allocId < 2 ^ 31 →
      ∃ tr w r, Alone s tr w ∧ w.pc = .returned r ∧
        ((∃ e ∈ tr, ∃ j, Claims e j) ∨ ∀ j < maxSocket, j ∈ seen false tr) ∧
        (Correct tr w r ↔ ∀ n < maxSocket, FirstFree s n → ¬ Wraps s.allocId n)) := by
  refine ⟨fun hrun hpc ↦ correct_iff hrun hpc, fun hlo hhi ↦ ?_⟩
  obtain ⟨tr, w, h, hpc, -, hsound, hvisits⟩ := (Alone.start s).returns (Nat.zero_add maxSocket)
  refine ⟨tr, w, _, h, hpc, hvisits.imp_right fun hvisits j hj ↦ ?_, ?_⟩
  · obtain ⟨n, hn, hnth⟩ := exists_nth s hj
    -- a search that claimed nothing has seen all the slots, each at one `n`
    rw [hvisits]
    exact List.mem_append_right _ (List.mem_map.mpr ⟨n, List.mem_range.mpr hn, hnth⟩)
  · rw [correct_iff h.run hpc, hsound, reserveFrom_nonneg_iff (Nat.le_refl _) hlo hhi]

/-- The slots of 1 and 2 are of two sockets. -/
def busy (s : SocketServer) : SocketServer :=
  (s.setSlot 1 ⟨5, 9, 1, .reserve, true⟩).setSlot 2 ⟨5, 10, 2, .reserve, true⟩

/-- The slot of the id 1 is in use, and another thread is faster in taking that of 2. Alone, the
call passes both. -/
theorem reserveId_correct_third :
    (∃ tr w, Run reserving (start (init.setSlot 1 ⟨5, 9, 1, .reserve, true⟩)) tr w ∧
      w.pc = .returned 3 ∧ seen false tr = [1] ∧ lost tr = [2] ∧ Correct tr w 3) ∧
    ∃ tr w r, Alone (busy init) tr w ∧ w.pc = .returned r ∧
      ((∃ e ∈ tr, ∃ j, Claims e j) ∨ ∀ j < maxSocket, j ∈ seen false tr) ∧
      (Correct tr w r ↔ ∀ n < maxSocket, FirstFree (busy init) n →
      ¬ Wraps (busy init).allocId n) := by
  refine ⟨?_, (reserveId_correct_iff (busy init)).2 (by decide) (by decide)⟩
  have hpasses : Passes reserving (start (init.setSlot 1 ⟨5, 9, 1, .reserve, true⟩))
      [.step, .step, .step, .step, .others { busy init with allocId := 2 }, .step,
        .step, .step, .step, .step]
      fun tr w ↦ w.pc = .returned 3 ∧ seen false tr = [1] ∧ lost tr = [2] ∧ Meets Sound tr := by
    decide +kernel
  obtain ⟨tr, w, hrun, hpc, hseen, hlost, hsound⟩ := Run.of_passes hpasses
  exact ⟨tr, w, hrun, hpc, hseen, hlost, ((reserveId_correct_iff _).1 hrun hpc).mpr hsound⟩

/-- The id after `2 ^ 31 - 1` is negative. -/
theorem not_reserveId_correct :
    ¬ ∀ {s : SocketServer} {tr : List ReserveEvent} {w : Reserving} {r : ℤ},
    Run reserving (start s) tr w → w.pc = .returned r → Correct tr w r := by
  intro hall
  have hpasses : Passes reserving (start { init with allocId := 2 ^ 31 - 1 })
      [.step, .step, .step, .step, .step] fun _ w ↦ w.pc = .returned (-2 ^ 31) := by decide +kernel
  obtain ⟨tr, w, hrun, hpc⟩ := Run.of_passes hpasses
  rcases hall hrun hpc with ⟨hnonneg, -⟩ | ⟨hminus, -⟩
  · exact absurd hnonneg (by decide)
  · exact absurd hminus (by decide)

end Reserving

end ZTask
