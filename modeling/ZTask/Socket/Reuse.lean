import ZTask.Socket.Server

/-!
# Slots that are used again

The first start of a socket posts a receive and sets `start`; later ones find it set. Nothing resets
it: not `reserve_id`, not `new_fd`, and not the close. So the start of a socket posts its receive if
and as long as the slot has not been started for an earlier socket (`Clean`), and a socket in a slot
that has is never read.

## What is known of an id

An id is fresh from when `reserve_id` has returned it until a packet starts or closes it. `Tracks`
relates the fresh ids to the slots: a fresh id has its slot, and a slot that is taken has a fresh id
or has been started. Every operation keeps this; most of them change slots only in ways that do not
concern ids (`Kin`).

## The flag of a slot

With `Clean` a slot with a fresh id has not been started, so the first start of the id finds the
flag unset and posts its receive, and a second one finds it set (`start_receives`). Without it the
flag is the one that an earlier socket has left. `not_start_receives` is a run of two sockets: the
second is given the slot of the first after all slots have been gone through.
-/

namespace ZTask

open Lib

namespace SocketServer

/-! ## Operations -/

/-- The operations on slots. -/
inductive ServerOp
  | reserve
  | newFd (id fd : ℤ) (owner : ℕ)
  | packet (packet : IoPacket) (replies : IoReplies)

inductive ServerFault
  /-- The assertion in `new_fd` fails. -/
  | notReserved
  /-- Nobody calls `new_fd` for an id that has not been reserved. -/
  | otherId
deriving DecidableEq, Repr

/-- The ids that a step has reserved, and what the loop has done. -/
abbrev ServerOutput := List ℤ × List IoEffect

def socketServer : Machine SocketServer ServerOp ServerOutput ServerFault := fun s op ↦
  match op with
  | .reserve => .ok (s.reserveId.2, s.reserveId.1.toList, [])
  | .newFd id fd owner =>
    if (s.slot (hashId id)).id = id then
      match s.newFd id fd owner with
      | some s' => .ok (s', [], [])
      | none => .error .notReserved
    else .error .otherId
  | .packet packet replies =>
    .ok ((s.poll packet replies).1, s.reserved packet, (s.poll packet replies).2)

abbrev ServerEvent := Event SocketServer ServerOp ServerOutput

/-- The handles that receives are posted on. -/
def receives (effects : List IoEffect) : List ℤ :=
  effects.filterMap fun effect ↦
    match effect with
    | .wsaRecv fd => some fd
    | _ => none

/-- The id that a packet starts or closes. -/
def consumes : ServerOp → Option ℤ
  | .packet ⟨true, .start _ id _, _⟩ _ | .packet ⟨true, .close id, _⟩ _ => some id
  | _ => none

/-- The ids that have been reserved, and neither started nor closed since, after one more step. -/
def freshStep (fresh : ℤ → Bool) (e : ServerEvent) : ℤ → Bool := fun id ↦
  decide (id ∈ e.output.1) || (fresh id && decide (consumes e.input ≠ some id))

/-- Newly returned by `reserve_id`: the next start is the first. -/
def fresh (tr : List ServerEvent) : ℤ → Bool := tr.foldl freshStep fun _ ↦ false

/-- A slot that is taken has not been started for another socket. -/
def Clean (s : SocketServer) : ServerOp → Prop
  | .reserve => ∀ id ∈ s.reserveId.1, (s.slot (hashId id)).start = false
  | .packet packet _ => ∀ id ∈ s.reserved packet, (s.slot (hashId id)).start = false
  | .newFd _ _ _ => True

instance decidableClean (s : SocketServer) : ∀ op, Decidable (s.Clean op)
  | .reserve => inferInstanceAs (Decidable (∀ id ∈ s.reserveId.1, _ = false))
  | .packet packet _ => inferInstanceAs (Decidable (∀ id ∈ s.reserved packet, _ = false))
  | .newFd _ _ _ => .isTrue trivial

/-! ## Slots and fresh ids -/

/-- An id that is fresh has its slot, and a slot that is taken has a fresh id or has been started.
-/
structure Tracks (f : ℤ → Bool) (s : SocketServer) : Prop where
  waiting : ∀ {id}, f id = true → (s.slot (hashId id)).id = id ∧
    (s.slot (hashId id)).type = .reserve ∧ (s.slot (hashId id)).start = false
  taken : ∀ {i}, (s.slot i).type = .reserve → hashId (s.slot i).id = i ∧
    (f (s.slot i).id = true ∨ (s.slot i).start = true)

/-- The slots are the same, as far as ids are concerned. -/
def Kin (s s' : SocketServer) : Prop :=
  ∀ i, (s'.slot i).type = (s.slot i).type ∧ (s'.slot i).id = (s.slot i).id ∧
    (s'.slot i).start = (s.slot i).start

variable {s s' : SocketServer} {f f' : ℤ → Bool} {i : ℕ} {id : ℤ}

theorem Kin.refl (s : SocketServer) : Kin s s := fun _ ↦ ⟨rfl, rfl, rfl⟩

theorem kin_setSlot {x : IoSocket} (htype : x.type = (s.slot i).type) (hid : x.id = (s.slot i).id)
    (hstart : x.start = (s.slot i).start) : Kin s (s.setSlot i x) := by
  intro j
  rw [setSlot]
  dsimp only
  by_cases hj : j = i
  · subst hj
    rw [Function.update_self]
    exact ⟨htype, hid, hstart⟩
  · rw [Function.update_of_ne hj]
    exact ⟨rfl, rfl, rfl⟩

theorem Tracks.kin (h : Tracks f s) (hkin : Kin s s') : Tracks f s' := by
  constructor
  · intro id hid
    obtain ⟨htype, hid', hstart⟩ := hkin (hashId id)
    rw [htype, hid', hstart]
    exact h.waiting hid
  · intro i hi
    obtain ⟨htype, hid', hstart⟩ := hkin i
    rw [htype] at hi
    rw [hid', hstart]
    exact h.taken hi

theorem slot_setSlot_self (x : IoSocket) : (s.setSlot i x).slot i = x := Function.update_self ..

theorem slot_setSlot_ne {j : ℕ} (x : IoSocket) (h : j ≠ i) : (s.setSlot i x).slot j = s.slot j :=
  Function.update_of_ne h ..

/-- A slot is taken for an id. -/
theorem Tracks.take (h : Tracks f s) {x : IoSocket}
    (hinvalid : (s.slot (hashId id)).type = .invalid) (hid : x.id = id)
    (hstart : x.start = false) (hf : ∀ id', f' id' = (decide (id' = id) || f id')) :
    Tracks f' (s.setSlot (hashId id) { x with type := .reserve }) := by
  constructor
  · intro id' hid'
    rw [hf, Bool.or_eq_true, decide_eq_true_iff] at hid'
    rcases hid' with rfl | hid'
    · rw [slot_setSlot_self]
      exact ⟨hid, rfl, hstart⟩
    · have hold := h.waiting hid'
      have hne : hashId id' ≠ hashId id := by
        intro heq
        rw [heq, hinvalid] at hold
        exact nomatch hold.2.1
      rw [slot_setSlot_ne _ hne]
      exact hold
  · intro j hj
    by_cases hsame : j = hashId id
    · subst hsame
      rw [slot_setSlot_self]
      refine ⟨congrArg hashId hid, .inl ?_⟩
      rw [hf, hid, decide_eq_true rfl, Bool.true_or]
    · rw [slot_setSlot_ne _ hsame] at hj ⊢
      refine ⟨(h.taken hj).1, (h.taken hj).2.imp_left fun hold ↦ ?_⟩
      rw [hf, hold, Bool.or_true]

/-- The slot of an id is started or closed, which is not fresh any more. -/
theorem Tracks.leave (h : Tracks f s) {x : IoSocket} (hid : (s.slot (hashId id)).id = id)
    (hid' : x.id = id) (hx : x.type = .reserve → x.start = true)
    (hf : ∀ id', f' id' = (f id' && decide (id ≠ id'))) :
    Tracks f' (s.setSlot (hashId id) x) := by
  constructor
  · intro id' hfresh
    rw [hf, Bool.and_eq_true, decide_eq_true_iff] at hfresh
    have hold := h.waiting hfresh.1
    have hne : hashId id' ≠ hashId id := by
      intro heq
      rw [heq, hid] at hold
      exact hfresh.2 hold.1
    rw [slot_setSlot_ne _ hne]
    exact hold
  · intro j hj
    by_cases hsame : j = hashId id
    · subst hsame
      rw [slot_setSlot_self] at hj ⊢
      exact ⟨congrArg hashId hid', .inr (hx hj)⟩
    · rw [slot_setSlot_ne _ hsame] at hj ⊢
      refine ⟨(h.taken hj).1, (h.taken hj).2.imp_left fun hold ↦ ?_⟩
      have hne : id ≠ (s.slot j).id := by
        intro heq
        have hhash := (h.taken hj).1
        rw [← heq] at hhash
        exact hsame hhash.symm
      rw [hf, hold, decide_eq_true hne]
      rfl

theorem Tracks.skip (h : Tracks f s) (hid : f id = false)
    (hf : ∀ id', f' id' = (f id' && decide (id ≠ id'))) : Tracks f' s := by
  have heq : f' = f := by
    funext id'
    rw [hf]
    by_cases hsame : id = id'
    · rw [← hsame, hid, Bool.false_and]
    · rw [decide_eq_true hsame, Bool.and_true]
  rw [heq]
  exact h

/-! ## The operations -/

private theorem reserveFrom_cases (k : ℕ) (s : SocketServer) :
    ((reserveFrom k s).1 = none ∧ ∃ a, (reserveFrom k s).2 = { s with allocId := a }) ∨
    ∃ id, (reserveFrom k s).1 = some id ∧ (s.slot (hashId id)).type = .invalid ∧
      ∃ a, (reserveFrom k s).2 = { s with allocId := a }.setSlot (hashId id)
        { s.slot (hashId id) with type := .reserve, id := id, fd := -1 } := by
  induction k generalizing s with
  | zero => exact .inl ⟨rfl, s.allocId, rfl⟩
  | succ k ih =>
    rw [reserveFrom]
    dsimp only
    split
    next hinvalid => exact .inr ⟨_, rfl, hinvalid, _, rfl⟩
    next => exact ih { s with allocId := maskedId (toInt32 (s.allocId + 1)) }

theorem Tracks.allocId (h : Tracks f s) (a : ℤ) : Tracks f { s with allocId := a } :=
  ⟨h.waiting, h.taken⟩

/-- `reserve_id` -/
theorem Tracks.reserveId (h : Tracks f s)
    (hclean : ∀ id ∈ s.reserveId.1, (s.slot (hashId id)).start = false)
    (hf : ∀ id', f' id' = (decide (id' ∈ s.reserveId.1.toList) || f id')) :
    Tracks f' s.reserveId.2 := by
  rcases reserveFrom_cases maxSocket s with ⟨hnone, a, hs'⟩ | ⟨id, hsome, hinvalid, a, hs'⟩
  · have heq : f' = f := by
      funext id'
      rw [hf, SocketServer.reserveId, hnone]
      rfl
    rw [heq, SocketServer.reserveId, hs']
    exact h.allocId a
  · rw [SocketServer.reserveId, hs']
    refine (h.allocId a).take (x := { s.slot (hashId id) with id := id, fd := -1 }) hinvalid rfl
      (hclean id hsome) fun id' ↦ ?_
    rw [hf, SocketServer.reserveId, hsome, Option.toList_some]
    simp only [List.mem_singleton]

private theorem newFd_kin {fd : ℤ} {owner : ℕ} (hid : (s.slot (hashId id)).id = id)
    (h : s.newFd id fd owner = some s') : Kin s s' := by
  rw [newFd] at h
  split at h
  · cases h
    exact kin_setSlot rfl hid.symm rfl
  · cases h

private theorem postRecv_kin (ns : ℕ) (fails : Bool) : Kin s (s.postRecv ns fails).1 := .refl s

private theorem postAcceptexes_kin (s : SocketServer) (ns : ℕ) (fails : ℕ → Bool) (n k : ℕ) :
    Kin s (s.postAcceptexes ns fails n k).1 := by
  induction k generalizing s n with
  | zero => exact .refl s
  | succ k ih => exact ih { s with blocks := s.blocks + 1, handles := s.handles + 1 } (n + 1)

private theorem poll_failed_fst {packet : IoPacket} {replies : IoReplies} (h : packet.ok = false) :
    (s.poll packet replies).1 = s := by
  rw [poll, if_pos h]
  split <;> rfl

@[simp] theorem poll_completed (request : IoRequest) (bytes : ℕ) (replies : IoReplies) :
    s.poll ⟨true, request, bytes⟩ replies = ((s.completed bytes replies request).2.1,
      (s.completed bytes replies request).2.2 ++
        deliver (s.completed bytes replies request).1 replies.delivered) := rfl

private theorem poll_start_fst {owner bytes : ℕ} {session : ℤ} {replies : IoReplies}
    (hstale : s.stale id = false) :
    (s.poll ⟨true, .start owner id session, bytes⟩ replies).1 =
      if (s.slot (hashId id)).start = true then
        s.setSlot (hashId id) { s.slot (hashId id) with owner := owner }
      else
        ((s.setSlot (hashId id) { s.slot (hashId id) with owner := owner, start := true }).postRecv
          (hashId id) replies.recvFails).1 := by
  have hnot : ¬ s.stale id = true := by simp [hstale]
  simp only [poll_completed, completed, if_neg hnot]
  split <;> rfl

/-- A packet that is about an id. -/
theorem Tracks.consume (h : Tracks f s) {packet : IoPacket} {replies : IoReplies}
    (hid : consumes (.packet packet replies) = some id)
    (hf : ∀ id', f' id' = (f id' && decide (id ≠ id'))) :
    Tracks f' (s.poll packet replies).1 := by
  -- an id that has lost its slot is not fresh
  have hlost : (s.slot (hashId id)).id ≠ id ∨ (s.slot (hashId id)).type = .invalid →
      f id = false := by
    intro hlost
    by_contra hfresh
    obtain ⟨hslot, htype, -⟩ := h.waiting (Bool.not_eq_false _ ▸ hfresh)
    rcases hlost with hne | hinvalid
    · exact hne hslot
    · rw [hinvalid] at htype
      cases htype
  obtain ⟨ok, request, bytes⟩ := packet
  cases ok with
  | false => cases hid
  | true =>
    cases request with
    | start owner _ session =>
      cases hid
      cases hstale : s.stale id with
      | true =>
        have hold := of_decide_eq_true hstale
        simp only [poll_completed, completed, if_pos hstale]
        exact h.skip (hlost hold.symm) hf
      | false =>
        have hold := of_decide_eq_false hstale
        rw [not_or, not_not] at hold
        rw [poll_start_fst hstale]
        split
        next hstart => exact h.leave hold.2 hold.2 (fun _ ↦ hstart) hf
        next =>
          exact (h.leave (x := { s.slot (hashId id) with owner := owner, start := true }) hold.2
            hold.2 (fun _ ↦ rfl) hf).kin (postRecv_kin _ _)
    | close _ =>
      cases hid
      by_cases hslot : (s.slot (hashId id)).id = id
      · have hkept : ¬ (s.slot (hashId id)).id ≠ id := not_not_intro hslot
        simp only [poll_completed, completed, if_neg hkept]
        exact h.leave hslot hslot (fun heq ↦ nomatch heq) hf
      · simp only [poll_completed, completed, if_pos hslot]
        exact h.skip (hlost (.inl hslot)) hf
    | connect _ _ _ | recv _ _ | send _ _ | sendto _ _ | recvfrom _ _ _ | acceptex _ _ _
    | accept _ _ _ | listen _ _ _ => cases hid

private theorem reserveId_id {nid : ℤ} (h : s.reserveId = (some nid, s')) :
    (s'.slot (hashId nid)).id = nid := by
  rcases reserveFrom_cases maxSocket s with ⟨hnone, -⟩ | ⟨id, hsome, -, a, hs'⟩
  · rw [← reserveId, h] at hnone
    cases hnone
  · rw [← reserveId, h] at hsome hs'
    cases hsome
    dsimp only at hs'
    rw [hs', slot_setSlot_self]

/-- The loop accepts a connection. -/
theorem poll_acceptex_kin {ns bytes : ℕ} {cfd : ℤ} {buf : ℕ} {replies : IoReplies} :
    Kin s.reserveId.2 (s.poll ⟨true, .acceptex ns cfd buf, bytes⟩ replies).1 := by
  rw [poll_completed]
  cases hr : s.reserveId with
  | mk r s' =>
    simp only [completed, hr]
    cases r with
    | none => exact .refl s'
    | some nid =>
      dsimp only
      split
      · exact .refl s'
      cases hnewFd : s'.newFd nid cfd (s'.slot ns).owner with
      | none => exact .refl s'
      | some s'' =>
        have hkin : Kin s' s'' := newFd_kin (reserveId_id hr) hnewFd
        exact hkin

/-- Any other packet. -/
theorem Tracks.packet (h : Tracks f s) {packet : IoPacket} {replies : IoReplies}
    (hclean : ∀ id ∈ s.reserved packet, (s.slot (hashId id)).start = false)
    (hid : consumes (.packet packet replies) = none)
    (hf : ∀ id', f' id' = (decide (id' ∈ s.reserved packet) || f id')) :
    Tracks f' (s.poll packet replies).1 := by
  -- a completion that reserves nothing leaves types, ids and flags of the slots as they are
  have hquiet : s.reserved packet = [] → Kin s (s.poll packet replies).1 →
      Tracks f' (s.poll packet replies).1 := by
    intro hnone hkin
    have heq : f' = f := by
      funext id'
      rw [hf, hnone]
      rfl
    rw [heq]
    exact h.kin hkin
  obtain ⟨ok, request, bytes⟩ := packet
  cases ok with
  | false =>
    refine hquiet (by cases request <;> rfl) ?_
    rw [poll_failed_fst rfl]
    exact .refl s
  | true =>
    cases request with
    | start _ _ _ | close _ => cases hid
    | connect _ _ _ | send _ _ | sendto _ _ | listen _ _ _ => exact hquiet rfl (.refl s)
    | recv ns buf =>
      refine hquiet rfl ?_
      simp only [poll_completed, completed]
      split_ifs <;> exact .refl s
    | recvfrom fd owner buf =>
      refine hquiet rfl ?_
      simp only [poll_completed, completed]
      split_ifs <;> exact .refl s
    | accept owner id session =>
      refine hquiet rfl ?_
      simp only [poll_completed, completed]
      split_ifs
      · exact .refl s
      · exact postAcceptexes_kin s _ _ _ _
    | acceptex ns cfd buf =>
      refine (h.reserveId (fun id hmem ↦ hclean id ?_) hf).kin poll_acceptex_kin
      exact Option.mem_toList.mpr hmem

/-- **A step** keeps track of the ids. -/
theorem Tracks.step (h : Tracks f s) {op : ServerOp} {out : ServerOutput} (hc : s.Clean op)
    (hm : socketServer s op = .ok (s', out)) : Tracks (freshStep f ⟨s, op, out, s'⟩) s' := by
  cases op with
  | reserve =>
    cases hm
    refine h.reserveId hc fun id' ↦ ?_
    simp [freshStep, consumes]
  | newFd id fd owner =>
    simp only [socketServer] at hm
    split at hm
    next hid =>
      split at hm
      next hnewFd =>
        cases hm
        have heq : freshStep f ⟨s, .newFd id fd owner, ([], []), s'⟩ = f := by
          funext id'
          simp [freshStep, consumes]
        rw [heq]
        exact h.kin (newFd_kin hid hnewFd)
      next => cases hm
    next => cases hm
  | packet packet replies =>
    cases hm
    cases hconsumes : consumes (.packet packet replies) with
    | none =>
      refine h.packet hc hconsumes fun id' ↦ ?_
      simp [freshStep, hconsumes]
    | some id =>
      refine h.consume hconsumes fun id' ↦ ?_
      have hreserved : s.reserved packet = [] := by
        obtain ⟨ok, request, bytes⟩ := packet
        cases ok <;> cases request <;> first | rfl | cases hconsumes
      simp [freshStep, hconsumes, hreserved]

/-! ## Runs -/

variable {tr : List ServerEvent}

theorem tracks (hrun : Run socketServer init tr s) (hC : Meets Clean tr) : Tracks (fresh tr) s := by
  refine hrun.ledger (fun tr s ↦ Tracks (fresh tr) s) ⟨?_, ?_⟩ ?_ hC
  · exact fun h ↦ (Bool.false_ne_true h).elim
  · exact fun h ↦ nomatch (show SlotType.invalid = .reserve from h)
  intro tr s op s' out _ h hc hm
  rw [fresh, List.foldl_append]
  exact h.step hc hm

@[simp] theorem receives_append (l l' : List IoEffect) :
    receives (l ++ l') = receives l ++ receives l' := List.filterMap_append

private theorem receives_deliver (answer : IoAnswer) (delivered : Bool) :
    receives (deliver answer delivered) = [] := by
  rw [deliver]
  split
  · cases delivered <;> rfl
  · rfl

private theorem receives_postRecv (ns : ℕ) (fails : Bool) :
    receives (s.postRecv ns fails).2 = [(s.slot ns).fd] := by
  cases fails <;> rfl

/-- **The first start of a socket posts a receive** on its handle, and no other does, if no slot is
taken that has been started for an earlier socket. -/
theorem start_receives (hrun : Run socketServer init tr s) (hC : Meets Clean tr) (owner : ℕ)
    (id session : ℤ) (bytes : ℕ) (replies : IoReplies) :
    receives (s.poll ⟨true, .start owner id session, bytes⟩ replies).2 =
      if fresh tr id = true then [(s.slot (hashId id)).fd] else [] := by
  have h := tracks hrun hC
  rw [poll_completed, receives_append, receives_deliver, List.append_nil, completed]
  -- a stale id finds the slot invalid or taken by another socket
  cases hstale : s.stale id with
  | true =>
    have hold := of_decide_eq_true hstale
    have hnot : ¬ fresh tr id = true := by
      intro hfresh
      obtain ⟨hid, htype, -⟩ := h.waiting hfresh
      rcases hold with hinvalid | hne
      · rw [hinvalid] at htype
        cases htype
      · exact hne hid
    rw [if_pos rfl, if_neg hnot]
    rfl
  | false =>
    have hold := of_decide_eq_false hstale
    rw [not_or, not_not] at hold
    rw [if_neg Bool.false_ne_true]
    by_cases hfresh : fresh tr id = true
    · have hstart : ¬ (s.slot (hashId id)).start = true := by simp [(h.waiting hfresh).2.2]
      simp only [if_pos hfresh, if_neg hstart]
      rw [receives_postRecv, slot_setSlot_self]
    · -- the slot is taken by this id, which is not fresh any more: it has been started before
      have htype : (s.slot (hashId id)).type = .reserve := by
        cases heq : (s.slot (hashId id)).type with
        | invalid => exact (hold.1 heq).elim
        | reserve => rfl
      have htaken := (h.taken htype).2
      rw [hold.2] at htaken
      simp only [if_neg hfresh, if_pos (htaken.resolve_left hfresh)]
      rfl

/-- What the system replies when nothing fails. -/
def noFailure : IoReplies := ⟨false, fun _ ↦ false, true⟩

/-- A socket that is started twice. -/
theorem start_receives_twice : ∃ tr s, Run socketServer init tr s ∧ fresh tr 1 = true ∧
    receives (s.poll ⟨true, .start 7 1 3, 0⟩ noFailure).2 = [5] := by
  have hpasses : Passes socketServer init [.reserve, .newFd 1 5 7]
      fun tr s ↦ Meets Clean tr ∧ fresh tr 1 = true ∧ (s.slot 1).fd = 5 := by decide +kernel
  obtain ⟨tr, s, hrun, hC, hfresh, hfd⟩ := Run.of_passes hpasses
  refine ⟨tr, s, hrun, hfresh, ?_⟩
  have hstart := start_receives hrun hC 7 1 3 0 noFailure
  rw [if_pos hfresh, show hashId 1 = 1 from rfl, hfd] at hstart
  exact hstart

/-! ## A slot that has been started -/

/-- All slots are free, and one has been started. -/
structure Reopened (s : SocketServer) (k : ℕ) : Prop where
  free : ∀ i, (s.slot i).type = .invalid
  allocId : s.allocId = k
  started : 0 < k → (s.slot 1).start = true

theorem setSlot_setSlot (x y : IoSocket) : (s.setSlot i x).setSlot i y = s.setSlot i y := by
  rw [setSlot, setSlot, setSlot, Function.update_idem]

private theorem reserveId_free {k : ℕ} (hfree : (s.slot (hashId (k + 1 : ℕ))).type = .invalid)
    (hk : s.allocId = k) (hlt : k + 1 < 2 ^ 31) :
    s.reserveId = (some ((k + 1 : ℕ) : ℤ),
      { s with allocId := (k + 1 : ℕ) }.setSlot (hashId (k + 1 : ℕ))
        { s.slot (hashId (k + 1 : ℕ)) with type := .reserve, id := (k + 1 : ℕ), fd := -1 }) := by
  have hnext : toInt32 (s.allocId + 1) = (k + 1 : ℕ) := by
    rw [hk]
    exact toInt32_of_lt (by omega) (by omega)
  have hmask : maskedId (k + 1 : ℕ) = (k + 1 : ℕ) := if_neg (by omega)
  unfold reserveId
  rw [show maxSocket = 65535 + 1 from rfl, reserveFrom]
  dsimp only
  rw [hnext, hmask, if_pos hfree]

theorem start_starts {owner : ℕ} {session : ℤ} {replies : IoReplies} (hstale : s.stale id = false) :
    (s.poll ⟨true, .start owner id session, 0⟩ replies).1.allocId = s.allocId ∧
    (s.poll ⟨true, .start owner id session, 0⟩ replies).1.slot = Function.update s.slot (hashId id)
      { s.slot (hashId id) with owner := owner, start := true } := by
  rw [poll_start_fst hstale]
  split
  next hstart => exact ⟨rfl, by simp [setSlot, hstart]⟩
  next => exact ⟨rfl, rfl⟩

/-- A socket is connected, started and closed. -/
theorem Reopened.next {k : ℕ} (hrun : Run socketServer init tr s) (h : Reopened s k)
    (hlt : k + 1 < 2 ^ 31) :
    ∃ tr' s', Run socketServer init tr' s' ∧ Reopened s' (k + 1) := by
  let id : ℤ := (k + 1 : ℕ)
  let x := s.slot (hashId id)
  let s₂ := { s with allocId := (k + 1 : ℕ) }.setSlot (hashId id)
    { x with type := .reserve, id := id, fd := 5, owner := 7 }
  have hreserve : socketServer s .reserve =
      .ok ({ s with allocId := (k + 1 : ℕ) }.setSlot (hashId id)
      { x with type := .reserve, id := id, fd := -1 }, [id], []) := by
    rw [socketServer, reserveId_free (h.free _) h.allocId hlt]
    rfl
  have hnewFd : socketServer ({ s with allocId := (k + 1 : ℕ) }.setSlot (hashId id)
      { x with type := .reserve, id := id, fd := -1 }) (.newFd id 5 7) = .ok (s₂, [], []) := by
    simp [s₂, socketServer, newFd, slot_setSlot_self, setSlot_setSlot]
  have hstale : s₂.stale id = false := by
    simp [s₂, stale, slot_setSlot_self]
  obtain ⟨halloc, hslot⟩ := @start_starts s₂ id 7 3 noFailure hstale
  let s₃ := (s₂.poll ⟨true, .start 7 id 3, 0⟩ noFailure).1
  have hself : s₃.slot (hashId id) = { x with
      type := .reserve, id := id, fd := 5, owner := 7, start := true } := by
    rw [hslot, Function.update_self, slot_setSlot_self]
  have hother : ∀ i, i ≠ hashId id → s₃.slot i = s.slot i := by
    intro i hi
    rw [hslot, Function.update_of_ne hi, slot_setSlot_ne _ hi]
  have hclose : (s₃.poll ⟨true, .close id, 0⟩ noFailure).1 =
      s₃.setSlot (hashId id) { s₃.slot (hashId id) with type := .invalid } := by
    have hkept : ¬ (s₃.slot (hashId id)).id ≠ id := by
      rw [hself]
      exact not_not_intro rfl
    simp only [poll_completed, completed, if_neg hkept]
  refine ⟨_, _, (((hrun.snoc hreserve).snoc hnewFd).snoc
    (i := .packet ⟨true, .start 7 id 3, 0⟩ noFailure) rfl).snoc
    (i := .packet ⟨true, .close id, 0⟩ noFailure) rfl, ?_⟩
  rw [hclose]
  constructor
  · intro i
    by_cases hi : i = hashId id
    · rw [hi, slot_setSlot_self]
    · rw [slot_setSlot_ne _ hi, hother i hi]
      exact h.free i
  · exact halloc
  · intro _
    by_cases hi : 1 = hashId id
    · rw [hi, slot_setSlot_self, hself]
    · rw [slot_setSlot_ne _ hi, hother 1 hi]
      -- the slot 1 is that of the first socket
      refine h.started (Nat.pos_of_ne_zero fun hzero ↦ hi ?_)
      simp [id, hzero, hashId, maxSocket]

private theorem reopened (n : ℕ) (hlt : n < 2 ^ 31) :
    ∃ tr s, Run socketServer init tr s ∧ Reopened s n := by
  induction n with
  | zero => exact ⟨[], init, .nil, fun _ ↦ rfl, rfl, fun h ↦ (Nat.lt_irrefl 0 h).elim⟩
  | succ n ih =>
    obtain ⟨tr, s, hrun, h⟩ := ih (by omega)
    exact h.next hrun hlt

/-- A socket in the slot of an earlier one: its first start posts nothing. -/
theorem not_start_receives : ¬ ∀ {tr : List ServerEvent} {s : SocketServer},
    Run socketServer init tr s → ∀ (owner : ℕ) (id session : ℤ) (bytes : ℕ) (replies : IoReplies),
      receives (s.poll ⟨true, .start owner id session, bytes⟩ replies).2 =
        if fresh tr id = true then [(s.slot (hashId id)).fd] else [] := by
  intro hall
  obtain ⟨tr, s, hrun, h⟩ := reopened 65536 (by decide)
  let id : ℤ := (65536 + 1 : ℕ)
  have hhash : hashId id = 1 := by decide
  let s' := { s with allocId := (65536 + 1 : ℕ) }.setSlot 1 { s.slot 1 with
    type := .reserve, id := id, fd := -1 }
  have hm : socketServer s .reserve = .ok (s', [id], []) := by
    rw [socketServer, reserveId_free (h.free _) h.allocId (by decide)]
    rfl
  have hstart := hall (hrun.snoc hm) 7 id 3 0 noFailure
  have hfresh : fresh (tr ++ [⟨s, .reserve, ([id], []), s'⟩]) id = true := by
    rw [fresh, List.foldl_append]
    simp [freshStep]
  have hnot : ¬ s'.stale id = true := by
    simp [s', stale, hhash, slot_setSlot_self]
  have hstarted : (s'.slot 1).start = true := by
    rw [slot_setSlot_self]
    exact h.started (by decide)
  rw [if_pos hfresh, poll_completed, receives_append, receives_deliver, completed, if_neg hnot,
    hhash] at hstart
  simp only [if_pos hstarted] at hstart
  cases hstart

end SocketServer

end ZTask
