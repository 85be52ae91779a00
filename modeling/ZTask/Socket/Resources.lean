import ZTask.Socket.World

/-!
# Handles and buffers

The loop closes the handle of a slot without regard to whether it has closed it before: a close that
follows an error, or a receive that fails since the socket has been closed, closes the handle again.
So each handle is closed once as long as nothing that ends a socket comes after its end. The buffer
of a request is freed or handed over, but for that of a receive whose data cannot be followed by
another receive, and those of sends that fail (`Orderly`).

A handle is in the slot of its socket, or, for a socket that waits for a client, in its request
(`Custody`).
-/

namespace ZTask

open Lib

/-- The handle that waits for a client. -/
def IoRequest.cfd : IoRequest → Option ℤ
  | .acceptex _ cfd _ => some cfd
  | _ => none

/-- The slot that a request uses the service of. -/
def IoRequest.uses : IoRequest → Option ℕ
  | .recv ns _ | .acceptex ns _ _ => some ns
  | _ => none

/-- The service that a slot is given to. -/
def IoRequest.gives : IoRequest → Option ℕ
  | .start owner _ _ => some owner
  | _ => none

/-- Requests on sockets that have no slot. -/
def IoRequest.isUdp : IoRequest → Bool
  | .sendto _ _ | .recvfrom _ _ _ => true
  | _ => false

namespace SocketWorld

/-- The handles that are closed. -/
def closes (effects : List IoEffect) : List ℤ :=
  effects.filterMap fun effect ↦
    match effect with
    | .closesocket fd => if 0 < fd then some fd else none
    | _ => none

/-- How often a buffer is freed. -/
def freed (buf : ℕ) (effects : List IoEffect) : ℕ := effects.count (.free (some buf))

def hands (buf : ℕ) : IoEffect → Bool
  | .push _ _ _ message delivered => delivered && decide (message.buffer = some buf)
  | _ => false

/-- How often a buffer is handed to a service. -/
def handed (buf : ℕ) (effects : List IoEffect) : ℕ := effects.countP (hands buf)

/-- The loop loses the buffer of a request, or closes a handle that it takes from the wrong request:
a send fails, or data has been received and the next receive fails at once. -/
def loses (packet : IoPacket) (replies : IoReplies) : Bool :=
  match packet.ok, packet.request with
  | false, .send _ _ => true
  | true, .recv _ _ => decide (0 < packet.bytes) && replies.recvFails
  | _, _ => false

/-- A packet that ends a socket finds it open, and no buffer is lost. -/
def Orderly (w : SocketWorld) : SocketInput → Prop
  | .packet packet replies =>
    (∀ i ∈ w.server.ends packet, 0 < (w.server.slot i).fd → w.ended i = false) ∧
      loses packet replies = false
  | _ => True

instance decidableOrderly (w : SocketWorld) : ∀ input, Decidable (w.Orderly input)
  | .packet packet replies => inferInstanceAs (Decidable ((∀ i ∈ w.server.ends packet, _ → _ = _) ∧
      loses packet replies = false))
  | .connect _ _ _ | .listen _ _ | .start _ _ _ | .accept _ _ _ | .send _ _ | .close _ =>
    .isTrue trivial

/-! ## The parts of a step -/

@[simp] theorem closes_append (l l' : List IoEffect) : closes (l ++ l') = closes l ++ closes l' :=
  List.filterMap_append

@[simp] theorem posts_append (l l' : List IoEffect) : posts (l ++ l') = posts l ++ posts l' :=
  List.filterMap_append

@[simp] theorem freed_append (buf : ℕ) (l l' : List IoEffect) :
    freed buf (l ++ l') = freed buf l + freed buf l' := List.count_append

@[simp] theorem handed_append (buf : ℕ) (l l' : List IoEffect) :
    handed buf (l ++ l') = handed buf l + handed buf l' := List.countP_append

@[simp] theorem closes_deliver (answer : IoAnswer) (delivered : Bool) :
    closes (SocketServer.deliver answer delivered) = [] := by
  rw [SocketServer.deliver]
  split
  · cases delivered <;> rfl
  · rfl

@[simp] theorem posts_deliver (answer : IoAnswer) (delivered : Bool) :
    posts (SocketServer.deliver answer delivered) = [] := by
  rw [SocketServer.deliver]
  split
  · cases delivered <;> rfl
  · rfl

private theorem deliver_buffer {answer : IoAnswer} {delivered : Bool} {buf : ℕ}
    (hhandle : answer.handle ≠ 0) (hbuffer : answer.message.buffer = some buf) :
    freed buf (SocketServer.deliver answer delivered) +
      handed buf (SocketServer.deliver answer delivered) = 1 := by
  rw [SocketServer.deliver, if_pos hhandle]
  cases delivered <;> simp [freed, handed, hands, hbuffer]

private theorem deliver_none {answer : IoAnswer} {delivered : Bool} {buf : ℕ}
    (hbuffer : answer.message.buffer = none) :
    freed buf (SocketServer.deliver answer delivered) = 0 ∧
      handed buf (SocketServer.deliver answer delivered) = 0 := by
  rw [SocketServer.deliver]
  split
  · cases delivered <;> simp [freed, handed, hands, hbuffer]
  · exact ⟨rfl, rfl⟩

section Server

variable {s : SocketServer} {buf : ℕ}

private theorem postRecv_effects (ns : ℕ) (fails : Bool) :
    closes (s.postRecv ns fails).2 = [] ∧ handed buf (s.postRecv ns fails).2 = 0 ∧
      (buf < s.blocks → freed buf (s.postRecv ns fails).2 = 0) := by
  refine ⟨by cases fails <;> rfl, by cases fails <;> rfl, fun hlt ↦ ?_⟩
  cases fails with
  | false => simp [SocketServer.postRecv, freed]
  | true =>
    have hne : s.blocks ≠ buf := by omega
    simp [SocketServer.postRecv, freed, hne]

private theorem postAcceptex_effects (ns : ℕ) (fails : Bool) :
    closes (s.postAcceptex ns fails).2 = [] ∧ handed buf (s.postAcceptex ns fails).2 = 0 ∧
      freed buf (s.postAcceptex ns fails).2 = 0 := by
  refine ⟨by cases fails <;> rfl, by cases fails <;> rfl, ?_⟩
  cases fails <;> simp [SocketServer.postAcceptex, freed]

private theorem postAcceptexes_closes (ns : ℕ) (fails : ℕ → Bool) (n k : ℕ) :
    closes (s.postAcceptexes ns fails n k).2 = [] := by
  induction k generalizing s n with
  | zero => rfl
  | succ k ih =>
    rw [SocketServer.postAcceptexes, closes_append, (@postAcceptex_effects s 0 ns _).1]
    exact ih (n + 1)

end Server

/-! ## Custody of the handles -/

end SocketWorld

namespace SocketServer

/-- The handle in a slot; there is none before a slot is given its first, and while it waits for
one. -/
def held (s : SocketServer) (i : ℕ) : Option ℤ :=
  if 0 < (s.slot i).fd then some (s.slot i).fd else none

/-- The handles that have been handed out. -/
def Known (s : SocketServer) (h : ℤ) : Prop := 0 < h ∧ h ≤ s.handles

end SocketServer

namespace SocketWorld

/-- The handles that wait for clients. -/
def loose (posted : List IoRequest) : List ℤ := posted.filterMap IoRequest.cfd

/-- The service of a slot. -/
def Serves (s : SocketServer) (i : ℕ) : Prop := (s.slot i).owner % 2 ^ 32 ≠ 0

/-- The slots that are taken have services. Only slot 0 may be taken without being given to one, by
an id that has wrapped; by then it has had one. -/
structure Attended (s : SocketServer) : Prop where
  taken : ∀ i, (s.slot i).type = .reserve → Serves s i
  nonneg : 0 ≤ s.allocId
  lt : s.allocId < 2 ^ 31
  wrapped : maxSocket ≤ s.allocId → Serves s 0

/-- The handles are in custody, the buffers have been handed out, and there is a service where a
message goes to. -/
structure Disciplined (back : List ℤ) (w : SocketWorld) : Prop where
  custody : Custody back w.server.held (loose w.posted) w.ended w.server.Known
  blocks : ∀ r ∈ w.posted, ∀ buf ∈ r.buffer, buf < w.server.blocks
  attended : Attended w.server
  served : ∀ r ∈ w.posted, ∀ i ∈ r.uses, Serves w.server i
  given : ∀ r ∈ w.posted, ∀ owner ∈ r.gives, owner % 2 ^ 32 ≠ 0
  slotted : ∀ r ∈ w.posted, r.isUdp = false

private theorem disciplined_init : Disciplined [] init where
  custody := Custody.empty
  blocks _ h := nomatch h
  attended := {
    taken := fun _ h ↦ nomatch (show SlotType.invalid = .reserve from h)
    nonneg := Int.le_refl 0
    lt := by decide
    wrapped := fun h ↦ absurd h (by decide) }
  served _ h := nomatch h
  given _ h := nomatch h
  slotted _ h := nomatch h

variable {back : List ℤ} {w : SocketWorld} {s s' : SocketServer} {spent : ℕ → Bool} {i : ℕ}
  {known : ℤ → Prop} {L L' : List ℤ}

private theorem held_congr (h : ∀ i, (s'.slot i).fd = (s.slot i).fd) : s'.held = s.held := by
  funext i
  rw [SocketServer.held, SocketServer.held, h]

/-- The handle of a slot is closed. -/
theorem custody_end (h : Custody back s.held L spent known)
    (hopen : 0 < (s.slot i).fd → spent i = false) :
    Custody (back ++ closes [.closesocket (s.slot i).fd]) s.held L (Function.update spent i true)
      known := by
  by_cases hpos : 0 < (s.slot i).fd
  · have hheld : s.held i = some (s.slot i).fd := if_pos hpos
    have hcloses : closes [.closesocket (s.slot i).fd] = [(s.slot i).fd] := by
      simp [closes, hpos]
    rw [hcloses]
    exact h.release hheld (hopen hpos)
  · have hheld : s.held i = none := if_neg hpos
    have hcloses : closes [.closesocket (s.slot i).fd] = [] := by
      simp [closes, hpos]
    rw [hcloses, List.append_nil]
    exact h.spend hheld true

private theorem held_take {x : IoSocket} (hfd : x.fd = -1) :
    (s.setSlot i x).held = Function.update s.held i none := by
  funext j
  rw [SocketServer.held]
  by_cases hj : j = i
  · rw [hj, Function.update_self, SocketServer.slot_setSlot_self, hfd]
    rfl
  · rw [Function.update_of_ne hj, SocketServer.slot_setSlot_ne _ hj]
    rfl

private theorem held_place {x : IoSocket} (hpos : 0 < x.fd) :
    (s.setSlot i x).held = Function.update s.held i (some x.fd) := by
  funext j
  rw [SocketServer.held]
  by_cases hj : j = i
  · rw [hj, Function.update_self, SocketServer.slot_setSlot_self, if_pos hpos]
  · rw [Function.update_of_ne hj, SocketServer.slot_setSlot_ne _ hj]
    rfl

/-- A socket is created for a client. -/
theorem custody_postAcceptex (h : Custody back s.held L spent s.Known) (ns : ℕ) (fails : Bool) :
    Custody back (s.postAcceptex ns fails).1.held (loose (posts (s.postAcceptex ns fails).2) ++ L)
      spent (s.postAcceptex ns fails).1.Known := by
  have hmono : ∀ a, s.Known a → (s.postAcceptex ns fails).1.Known a := by
    intro a ha
    have hle : a ≤ s.handles := ha.2
    refine ⟨ha.1, ?_⟩
    simp only [SocketServer.postAcceptex]
    omega
  cases fails with
  | true => exact h.mono hmono
  | false =>
    refine @Custody.obtain _ _ _ _ _ _ _ _ ((s.handles + 1 : ℕ) : ℤ) h (fun ha ↦ ?_) fun b ↦ ?_
    · have hle := ha.2
      omega
    · simp only [SocketServer.Known, SocketServer.postAcceptex]
      omega

private theorem custody_postAcceptexes (h : Custody back s.held L spent s.Known) (ns : ℕ)
    (fails : ℕ → Bool) (n k : ℕ) :
    Custody back (s.postAcceptexes ns fails n k).1.held
      (loose (posts (s.postAcceptexes ns fails n k).2) ++ L) spent
      (s.postAcceptexes ns fails n k).1.Known := by
  induction k generalizing s n L with
  | zero => exact h
  | succ k ih =>
    have hstep := ih (custody_postAcceptex h ns (fails n)) (n + 1)
    rw [SocketServer.postAcceptexes, posts_append, loose, List.filterMap_append, List.append_assoc]
    rw [← List.append_assoc] at hstep
    refine hstep.perm ?_
    rw [← List.append_assoc]
    exact List.perm_append_comm.append_right L

private theorem blocks_postAcceptexes (ns : ℕ) (fails : ℕ → Bool) (n k : ℕ) :
    (s.postAcceptexes ns fails n k).1.blocks = s.blocks + k := by
  induction k generalizing s n with
  | zero => rfl
  | succ k ih =>
    rw [SocketServer.postAcceptexes]
    dsimp only
    rw [ih, SocketServer.postAcceptex]
    dsimp only
    omega

private theorem slot_postAcceptexes (ns : ℕ) (fails : ℕ → Bool) (n k : ℕ) :
    (s.postAcceptexes ns fails n k).1.slot = s.slot := by
  induction k generalizing s n with
  | zero => rfl
  | succ k ih =>
    rw [SocketServer.postAcceptexes]
    exact ih (n + 1)

private theorem allocId_postAcceptexes (ns : ℕ) (fails : ℕ → Bool) (n k : ℕ) :
    (s.postAcceptexes ns fails n k).1.allocId = s.allocId := by
  induction k generalizing s n with
  | zero => rfl
  | succ k ih =>
    rw [SocketServer.postAcceptexes]
    exact ih (n + 1)

private theorem mem_posts_acceptex {ns : ℕ} {fails : Bool} {r : IoRequest}
    (h : r ∈ posts (s.postAcceptex ns fails).2) : ∃ cfd, r = .acceptex ns cfd s.blocks := by
  cases fails with
  | true => exact nomatch h
  | false => exact ⟨_, List.mem_singleton.mp h⟩

private theorem mem_posts_recv {ns : ℕ} {fails : Bool} {r : IoRequest}
    (h : r ∈ posts (s.postRecv ns fails).2) : r = .recv ns s.blocks := by
  cases fails with
  | true => exact nomatch h
  | false => exact List.mem_singleton.mp h

/-- The requests for clients. -/
theorem mem_posts_acceptexes {ns : ℕ} {fails : ℕ → Bool} {n k : ℕ} {r : IoRequest}
    (h : r ∈ posts (s.postAcceptexes ns fails n k).2) :
    ∃ cfd buf, r = .acceptex ns cfd buf ∧ buf < s.blocks + k := by
  induction k generalizing s n with
  | zero => exact nomatch h
  | succ k ih =>
    rw [SocketServer.postAcceptexes, posts_append] at h
    rcases List.mem_append.mp h with h | h
    · obtain ⟨cfd, rfl⟩ := mem_posts_acceptex h
      exact ⟨cfd, s.blocks, rfl, by omega⟩
    · obtain ⟨cfd, buf, rfl, hlt⟩ := ih h
      have hblocks : (s.postAcceptex ns (fails n)).1.blocks = s.blocks + 1 := rfl
      exact ⟨cfd, buf, rfl, by omega⟩

/-- A slot is reserved by an id. -/
def claim (s : SocketServer) (a id : ℤ) : SocketServer :=
  { s with allocId := a }.setSlot (hashId id) { s.slot (hashId id) with
    type := .reserve, id := id, fd := -1 }

/-- A slot that is reserved is given a handle and a service. -/
def claimFor (s : SocketServer) (a id fd : ℤ) (owner : ℕ) : SocketServer :=
  { s with allocId := a }.setSlot (hashId id) { s.slot (hashId id) with
    type := .reserve, id := id, fd := fd, owner := owner }

private theorem newFd_claim {a id fd : ℤ} {owner : ℕ} :
    (claim s a id).newFd id fd owner = some (claimFor s a id fd owner) := by
  rw [SocketServer.newFd, claim, SocketServer.slot_setSlot_self, if_pos rfl,
    SocketServer.setSlot_setSlot]
  rfl

/-- `alloc_id` after one more round: it is not negative, and the id wraps only after the slot 0 has
been passed. -/
theorem Attended.next (h : Attended s) {id : ℤ} (hid : toInt32 (s.allocId + 1) = id) :
    (0 ≤ SocketServer.maskedId id ∧ SocketServer.maskedId id < 2 ^ 31) ∧
      (id < 0 → hashId id = 0 ∧ Serves s 0) ∧
      (maxSocket ≤ SocketServer.maskedId id → Serves s 0 ∨ hashId id = 0) := by
  have hnonneg := h.nonneg
  have hlt := h.lt
  rw [maxSocket]
  by_cases hwrap : s.allocId + 1 = 2 ^ 31
  · rw [hwrap] at hid
    subst hid
    refine ⟨by decide, fun _ ↦ ⟨by decide, h.wrapped ?_⟩, fun hle ↦ absurd hle (by decide)⟩
    rw [maxSocket]
    omega
  · have heq : id = s.allocId + 1 := hid.symm.trans (toInt32_of_lt (by omega) (by omega))
    have hmask : SocketServer.maskedId id = s.allocId + 1 := by
      rw [SocketServer.maskedId, if_neg (by omega), heq]
    rw [hmask]
    refine ⟨by omega, fun hneg ↦ by omega, fun hle ↦ ?_⟩
    rcases Int.le_iff_lt_or_eq.mp hle with hle | hfirst
    · refine .inl (h.wrapped ?_)
      rw [maxSocket]
      omega
    · right
      rw [heq, ← hfirst]
      decide

/-- What `reserve_id` does, in a server whose slots have services. -/
theorem Attended.reserveFrom (h : Attended s) (k : ℕ) :
    ∃ a : ℤ, (0 ≤ a ∧ a < 2 ^ 31) ∧
      (s.reserveFrom k = (none, { s with allocId := a }) ∧ (maxSocket ≤ a → Serves s 0) ∨
      ∃ id, s.reserveFrom k = (some id, claim s a id) ∧ (id < 0 → hashId id = 0 ∧ Serves s 0) ∧
        (maxSocket ≤ a → Serves s 0 ∨ hashId id = 0)) := by
  induction k generalizing s with
  | zero => exact ⟨s.allocId, ⟨h.nonneg, h.lt⟩, .inl ⟨rfl, h.wrapped⟩⟩
  | succ k ih =>
    obtain ⟨hrange, hneg, hpast⟩ := h.next rfl
    rw [SocketServer.reserveFrom]
    dsimp only
    split
    next => exact ⟨_, hrange, .inr ⟨_, rfl, hneg, hpast⟩⟩
    next hbusy =>
      -- a slot that is passed has a service
      refine ih ⟨h.taken, hrange.1, hrange.2, fun hle ↦ (hpast hle).elim id fun hzero ↦ ?_⟩
      rw [hzero] at hbusy
      refine h.taken 0 ?_
      cases htype : (s.slot 0).type with
      | invalid => exact (hbusy htype).elim
      | reserve => rfl

/-- The loop accepts a client, and there is no slot for it, or the id of the slot is negative. -/
theorem poll_acceptex_unserved {ns buf bytes : ℕ} {cfd : ℤ} {replies : IoReplies}
    (hnone : ∀ id ∈ s.reserveId.1, id < 0) :
    s.poll ⟨true, .acceptex ns cfd buf, bytes⟩ replies = (s.reserveId.2, [.free (some buf)]) := by
  rw [SocketServer.poll_completed, SocketServer.completed]
  cases hreserve : s.reserveId with
  | mk r s' =>
    cases r with
    | none => rfl
    | some id =>
      rw [hreserve] at hnone
      dsimp only
      rw [if_pos (hnone id rfl)]
      rfl

/-- The client gets a slot. -/
theorem poll_acceptex_served {ns buf bytes : ℕ} {cfd a id : ℤ} {replies : IoReplies}
    (hreserve : s.reserveId = (some id, claim s a id)) (hnonneg : ¬ id < 0) :
    ∃ answer s₂, answer.message.buffer = none ∧ s₂ = claimFor s a id cfd (s.slot ns).owner ∧
      s.poll ⟨true, .acceptex ns cfd buf, bytes⟩ replies =
        ((s₂.postAcceptex ns (replies.acceptFails 0)).1,
          [.free (some buf)] ++ (s₂.postAcceptex ns (replies.acceptFails 0)).2 ++
            SocketServer.deliver answer replies.delivered) := by
  have howner : ((claim s a id).slot ns).owner = (s.slot ns).owner := by
    rw [claim]
    by_cases hns : ns = hashId id
    · rw [hns, SocketServer.slot_setSlot_self]
    · rw [SocketServer.slot_setSlot_ne _ hns]
  rw [SocketServer.poll_completed, SocketServer.completed]
  simp only [hreserve, howner, newFd_claim, if_neg hnonneg]
  exact ⟨_, _, rfl, rfl, rfl⟩

private theorem create_none {owner : ℕ} (hnone : ∀ id ∈ s.reserveId.1, id < 0) :
    s.create owner = (none, s.reserveId.2) := by
  rw [SocketServer.create]
  cases hreserve : s.reserveId with
  | mk r s' =>
    cases r with
    | none => rfl
    | some id =>
      rw [hreserve] at hnone
      dsimp only
      rw [if_pos (hnone id rfl)]

theorem create_some {a id : ℤ} {owner : ℕ} (hreserve : s.reserveId = (some id, claim s a id))
    (hnonneg : ¬ id < 0) :
    s.create owner = (some (hashId id),
      claimFor { s with handles := s.handles + 1 } a id (s.handles + 1 : ℕ) owner) := by
  have hhandles : (claim s a id).handles = s.handles := rfl
  have hgrow : { claim s a id with handles := s.handles + 1 } =
      claim { s with handles := s.handles + 1 } a id := rfl
  rw [SocketServer.create, hreserve]
  dsimp only
  rw [if_neg hnonneg, hhandles, hgrow, newFd_claim]

/-! ## Steps -/

/-- What a request that the loop posts is like. -/
structure Posts (s : SocketServer) (r : IoRequest) : Prop where
  blocks : ∀ buf ∈ r.buffer, buf < s.blocks
  served : ∀ i ∈ r.uses, Serves s i
  given : r.gives = none
  slotted : r.isUdp = false

/-- What the loop does with the slots, apart from their handles. -/
structure Moves (s s' : SocketServer) : Prop where
  blocks : s.blocks ≤ s'.blocks
  serves : ∀ {i}, Serves s i → Serves s' i
  attended : Attended s → Attended s'

theorem Moves.refl (s : SocketServer) : Moves s s := ⟨Nat.le_refl _, id, id⟩

theorem Moves.trans {s'' : SocketServer} (h : Moves s s') (h' : Moves s' s'') : Moves s s'' :=
  ⟨Nat.le_trans h.blocks h'.blocks, fun hi ↦ h'.serves (h.serves hi),
    fun hs ↦ h'.attended (h.attended hs)⟩

theorem Moves.of_slot (hblocks : s.blocks ≤ s'.blocks) (halloc : s'.allocId = s.allocId)
    (hslot : s'.slot = s.slot) : Moves s s' := by
  have hserves : ∀ i, Serves s' i ↔ Serves s i := fun i ↦ by rw [Serves, Serves, hslot]
  refine ⟨hblocks, (hserves _).mpr, fun hs ↦ ⟨fun i hi ↦ ?_, ?_, ?_, fun hle ↦ ?_⟩⟩
  · rw [hslot] at hi
    exact (hserves i).mpr (hs.taken i hi)
  · rw [halloc]
    exact hs.nonneg
  · rw [halloc]
    exact hs.lt
  · rw [halloc] at hle
    exact (hserves 0).mpr (hs.wrapped hle)

private theorem serves_setSlot_self {x : IoSocket} :
    Serves (s.setSlot i x) i ↔ x.owner % 2 ^ 32 ≠ 0 := by
  rw [Serves, SocketServer.slot_setSlot_self]

private theorem serves_setSlot_ne {x : IoSocket} {j : ℕ} (hj : j ≠ i) :
    Serves (s.setSlot i x) j ↔ Serves s j := by
  rw [Serves, SocketServer.slot_setSlot_ne _ hj, Serves]

theorem Serves.setSlot {x : IoSocket} (hx : Serves s i → x.owner % 2 ^ 32 ≠ 0) {j : ℕ}
    (hj : Serves s j) : Serves (s.setSlot i x) j := by
  by_cases hi : j = i
  · subst hi
    exact serves_setSlot_self.mpr (hx hj)
  · exact (serves_setSlot_ne hi).mpr hj

theorem Moves.setSlot {x : IoSocket} (hx : Serves s i → x.owner % 2 ^ 32 ≠ 0)
    (htype : x.type = .reserve → x.owner % 2 ^ 32 ≠ 0 ∨ (s.slot i).type = .reserve) :
    Moves s (s.setSlot i x) := by
  refine ⟨Nat.le_refl _, fun hj ↦ hj.setSlot hx, fun hs ↦ ⟨fun j hj ↦ ?_, hs.nonneg, hs.lt,
    fun hle ↦ (hs.wrapped hle).setSlot hx⟩⟩
  by_cases hi : j = i
  · subst hi
    rw [SocketServer.slot_setSlot_self] at hj
    exact serves_setSlot_self.mpr ((htype hj).elim id fun hold ↦ hx (hs.taken j hold))
  · rw [SocketServer.slot_setSlot_ne _ hi] at hj
    exact (serves_setSlot_ne hi).mpr (hs.taken j hj)

theorem Moves.alloc {a : ℤ} (hrange : 0 ≤ a ∧ a < 2 ^ 31) (hwrapped : maxSocket ≤ a → Serves s 0) :
    Moves s { s with allocId := a } :=
  ⟨Nat.le_refl _, id, fun hs ↦ ⟨hs.taken, hrange.1, hrange.2, hwrapped⟩⟩

theorem Moves.abandon {a id : ℤ} (hrange : 0 ≤ a ∧ a < 2 ^ 31)
    (hzero : hashId id = 0 ∧ Serves s 0) : Moves s (claim s a id) := by
  obtain ⟨hslot, hserves⟩ := hzero
  have hset : Moves { s with allocId := a } (claim s a id) := by
    refine .setSlot (fun h ↦ h) fun _ ↦ .inl ?_
    dsimp only
    rw [hslot]
    exact hserves
  exact (Moves.alloc hrange fun _ ↦ hserves).trans hset

/-- `alloc_id` moves, and a slot is taken that has a service from then on. -/
theorem Moves.take {a : ℤ} {n : ℕ} {x : IoSocket} (hrange : 0 ≤ a ∧ a < 2 ^ 31)
    (hwrapped : maxSocket ≤ a → Serves s 0 ∨ i = 0) (hx : x.owner % 2 ^ 32 ≠ 0) :
    Moves s ({ s with allocId := a, handles := n }.setSlot i x) := by
  have hserves : ∀ {j}, Serves s j →
      Serves ({ s with allocId := a, handles := n }.setSlot i x) j :=
    fun hj ↦ Serves.setSlot (s := { s with allocId := a, handles := n }) (fun _ ↦ hx) hj
  refine ⟨Nat.le_refl _, hserves, fun hs ↦ ⟨fun j hj ↦ ?_, hrange.1, hrange.2, fun hle ↦ ?_⟩⟩
  · by_cases hi : j = i
    · subst hi
      exact serves_setSlot_self.mpr hx
    · rw [SocketServer.slot_setSlot_ne _ hi] at hj
      exact hserves (hs.taken j hj)
  · rcases hwrapped hle with hzero | rfl
    · exact hserves hzero
    · exact serves_setSlot_self.mpr hx

section PostRecv

variable {ns : ℕ} {fails delivered : Bool} {answer : IoAnswer}

private theorem moves_postRecv (ns : ℕ) (fails : Bool) : Moves s (s.postRecv ns fails).1 :=
  .of_slot (Nat.le_succ _) rfl rfl

/-- A receive is posted into the newest block, on a slot that has a service. -/
private theorem posts_postRecv {r : IoRequest} (hserves : Serves s ns)
    (hr : r ∈ posts ((s.postRecv ns fails).2 ++ SocketServer.deliver answer delivered)) :
    Posts (s.postRecv ns fails).1 r ∧ r.cfd = none := by
  rw [posts_append, posts_deliver, List.append_nil] at hr
  rw [mem_posts_recv hr]
  refine ⟨⟨fun b hb ↦ ?_, fun j hj ↦ ?_, rfl, rfl⟩, rfl⟩
  · rw [← Option.some.inj hb]
    exact Nat.lt_succ_self _
  · rw [← Option.some.inj hj]
    exact (moves_postRecv ns fails).serves hserves

private theorem closes_postRecv :
    closes ((s.postRecv ns fails).2 ++ SocketServer.deliver answer delivered) = [] := by
  rw [closes_append, (@postRecv_effects s 0 ns fails).1, closes_deliver]
  rfl

end PostRecv

private theorem loose_append (l l' : List IoRequest) : loose (l ++ l') = loose l ++ loose l' :=
  List.filterMap_append

private theorem loose_erase {posted : List IoRequest} {r : IoRequest} (h : r ∈ posted) :
    (loose posted).Perm (loose [r] ++ loose (posted.erase r)) := by
  rw [← loose_append]
  exact (List.perm_cons_erase h).filterMap _

/-- **The loop** leaves everything in order that it leaves in custody. -/
theorem Disciplined.move (h : Disciplined back w) {packet : IoPacket} {replies : IoReplies}
    {back' : List ℤ} (hmoves : Moves w.server (w.complete packet replies).1.server)
    (hposts : ∀ r ∈ posts (w.complete packet replies).2,
      Posts (w.complete packet replies).1.server r)
    (hcustody : Custody back' (w.complete packet replies).1.server.held
      (loose (posts (w.complete packet replies).2) ++ loose (w.posted.erase packet.request))
      (w.endedAfter packet) (w.complete packet replies).1.server.Known) :
    Disciplined back' (w.complete packet replies).1 := by
  have hold : ∀ {r}, r ∈ (w.complete packet replies).1.posted →
      r ∈ w.posted ∨ r ∈ posts (w.complete packet replies).2 := by
    intro r hr
    exact (List.mem_append.mp hr).imp_left List.mem_of_mem_erase
  constructor
  · refine hcustody.perm ?_
    rw [complete, loose_append]
    exact List.perm_append_comm
  · intro r hr buf hbuf
    rcases hold hr with hr | hr
    · exact Nat.lt_of_lt_of_le (h.blocks r hr buf hbuf) hmoves.blocks
    · exact (hposts r hr).blocks buf hbuf
  · exact hmoves.attended h.attended
  · intro r hr i hi
    rcases hold hr with hr | hr
    · exact hmoves.serves (h.served r hr i hi)
    · exact (hposts r hr).served i hi
  · intro r hr owner howner
    rcases hold hr with hr | hr
    · exact h.given r hr owner howner
    · rw [(hposts r hr).given] at howner
      cases howner
  · intro r hr
    rcases hold hr with hr | hr
    · exact h.slotted r hr
    · exact (hposts r hr).slotted

section Packet

variable {packet : IoPacket} {replies : IoReplies}

private theorem custody_erase (h : Disciplined back w) (hposted : packet.request ∈ w.posted)
    (hcfd : packet.request.cfd = none) :
    Custody back w.server.held (loose (w.posted.erase packet.request)) w.ended w.server.Known := by
  have hnone : loose [packet.request] = [] := by
    rw [loose, List.filterMap_cons_none hcfd]
    rfl
  have hperm := loose_erase hposted
  rw [hnone] at hperm
  exact h.custody.perm hperm

/-- A packet that closes no handle. -/
theorem Disciplined.quiet (h : Disciplined back w) (hposted : packet.request ∈ w.posted)
    (hcfd : packet.request.cfd = none) (hends : w.server.ends packet = none)
    (hreserved : w.server.reserved packet = [])
    (hmoves : Moves w.server (w.server.poll packet replies).1)
    (hheld : (w.server.poll packet replies).1.held = w.server.held)
    (hhandles : (w.server.poll packet replies).1.handles = w.server.handles)
    (hposts : ∀ r ∈ posts (w.server.poll packet replies).2,
      Posts (w.server.poll packet replies).1 r ∧ r.cfd = none)
    (hcloses : closes (w.server.poll packet replies).2 = []) :
    Disciplined (back ++ closes (w.complete packet replies).2) (w.complete packet replies).1 := by
  have hloose : loose (posts (w.server.poll packet replies).2) = [] :=
    List.filterMap_eq_nil_iff.mpr fun r hr ↦ (hposts r hr).2
  have hknown : (w.server.poll packet replies).1.Known = w.server.Known := by
    funext a
    rw [SocketServer.Known, SocketServer.Known, hhandles]
  have hended : w.endedAfter packet = w.ended := by
    rw [endedAfter, hends, hreserved]
  refine h.move hmoves (fun r hr ↦ (hposts r hr).1) ?_
  rw [complete]
  dsimp only
  rw [hcloses, hloose, hheld, hknown, hended, List.append_nil]
  exact custody_erase h hposted hcfd

/-- A packet that closes the handle of a slot. -/
theorem Disciplined.close (h : Disciplined back w) (hposted : packet.request ∈ w.posted)
    (hcfd : packet.request.cfd = none) (hends : w.server.ends packet = some i)
    (hopen : 0 < (w.server.slot i).fd → w.ended i = false)
    (hmoves : Moves w.server (w.server.poll packet replies).1)
    (hheld : (w.server.poll packet replies).1.held = w.server.held)
    (hhandles : (w.server.poll packet replies).1.handles = w.server.handles)
    (hposts : posts (w.server.poll packet replies).2 = [])
    (hcloses : closes (w.server.poll packet replies).2 =
      closes [.closesocket (w.server.slot i).fd]) :
    Disciplined (back ++ closes (w.complete packet replies).2) (w.complete packet replies).1 := by
  have hknown : (w.server.poll packet replies).1.Known = w.server.Known := by
    funext a
    rw [SocketServer.Known, SocketServer.Known, hhandles]
  have hended : w.endedAfter packet = Function.update w.ended i true := by
    rw [endedAfter, hends]
  refine h.move hmoves (fun r hr ↦ ?_) ?_
  · rw [complete, hposts] at hr
    cases hr
  · rw [complete]
    dsimp only
    rw [hcloses, hposts, hheld, hknown, hended]
    exact custody_end (custody_erase h hposted hcfd) hopen

/-- A client has come, or the socket that waits for clients has failed. -/
theorem Disciplined.acceptex {ok : Bool} {bytes ns buf : ℕ} {cfd : ℤ} (h : Disciplined back w)
    (hposted : .acceptex ns cfd buf ∈ w.posted) :
    Disciplined (back ++ closes (w.complete ⟨ok, .acceptex ns cfd buf, bytes⟩ replies).2)
      (w.complete ⟨ok, .acceptex ns cfd buf, bytes⟩ replies).1 := by
  have hcustody : Custody back w.server.held
      (cfd :: loose (w.posted.erase (.acceptex ns cfd buf))) w.ended w.server.Known :=
    h.custody.perm (loose_erase hposted)
  have hpos : 0 < cfd := (hcustody.knownLoose List.mem_cons_self).1
  cases ok with
  | false =>
    have hcloses : closes (w.complete ⟨false, .acceptex ns cfd buf, bytes⟩ replies).2 = [cfd] := by
      simp [complete, SocketServer.poll, SocketServer.failed, closes, hpos, SocketServer.deliver,
        IoAnswer.silent]
    rw [hcloses]
    exact h.move (.refl _) (fun r hr ↦ by cases hr) hcustody.releaseLoose
  | true =>
    have hserved : Serves w.server ns := h.served _ hposted ns rfl
    obtain ⟨a, hrange, hcases⟩ := h.attended.reserveFrom maxSocket
    -- no id for the new connection, or one, which may still be negative
    rcases hcases with ⟨hreserve, hwrapped⟩ | ⟨id, hreserve, hneg, hwrapped⟩
    · have hnone : w.server.reserveId.1 = none := congrArg Prod.fst hreserve
      have hpoll : w.server.poll ⟨true, .acceptex ns cfd buf, bytes⟩ replies =
          ({ w.server with allocId := a }, [.free (some buf)]) := by
        rw [poll_acceptex_unserved (by simp [hnone])]
        exact congrArg (·, _) (congrArg Prod.snd hreserve)
      have hended : w.endedAfter ⟨true, .acceptex ns cfd buf, bytes⟩ = w.ended := by
        simp [endedAfter, SocketServer.ends, SocketServer.reserved, hnone]
      refine h.move ?_ ?_ ?_ <;> rw [complete, hpoll]
      · exact .alloc hrange hwrapped
      · exact fun r hr ↦ by cases hr
      · rw [hended]
        exact (List.append_nil back).symm ▸ hcustody.forget
    have hsome : w.server.reserveId.1 = some id := congrArg Prod.fst hreserve
    have hended : w.endedAfter ⟨true, .acceptex ns cfd buf, bytes⟩ =
        Function.update w.ended (hashId id) false := by
      simp [endedAfter, SocketServer.ends, SocketServer.reserved, hsome]
    by_cases hid : id < 0
    · have hpoll : w.server.poll ⟨true, .acceptex ns cfd buf, bytes⟩ replies =
          (claim w.server a id, [.free (some buf)]) := by
        rw [poll_acceptex_unserved (by simp [hsome, hid])]
        exact congrArg (·, _) (congrArg Prod.snd hreserve)
      have hheld : (claim w.server a id).held = Function.update w.server.held (hashId id) none :=
        held_take rfl
      refine h.move ?_ ?_ ?_ <;> rw [complete, hpoll]
      · exact .abandon hrange (hneg hid)
      · exact fun r hr ↦ by cases hr
      · rw [hended]
        dsimp only
        rw [hheld]
        exact (List.append_nil back).symm ▸
          (hcustody.forget.vacate _).spend (Function.update_self ..) false
    · obtain ⟨answer, s₂, -, hs₂, hpoll⟩ :=
        @poll_acceptex_served _ ns buf bytes cfd a id replies hreserve hid
      have hheld : s₂.held = Function.update w.server.held (hashId id) (some cfd) := by
        rw [hs₂, claimFor, held_place hpos]
        rfl
      have hknown : s₂.Known = w.server.Known := by
        rw [hs₂]
        rfl
      have hplaced : Custody back s₂.held (loose (w.posted.erase (.acceptex ns cfd buf)))
          (Function.update w.ended (hashId id) false) s₂.Known := by
        rw [hheld, hknown]
        exact hcustody.place (hashId id)
      have hmoves : Moves w.server s₂ := by
        rw [hs₂]
        exact .take hrange hwrapped hserved
      have hpost : Moves s₂ (s₂.postAcceptex ns (replies.acceptFails 0)).1 :=
        .of_slot (Nat.le_succ _) rfl rfl
      have hcloses : closes (w.complete ⟨true, .acceptex ns cfd buf, bytes⟩ replies).2 = [] := by
        rw [complete, hpoll]
        dsimp only
        rw [closes_append, closes_append, (@postAcceptex_effects s₂ 0 ns _).1, closes_deliver]
        rfl
      rw [hcloses, List.append_nil]
      refine h.move ?_ ?_ ?_ <;> rw [complete, hpoll]
      · exact hmoves.trans hpost
      · intro r hr
        dsimp only at hr
        rw [posts_append, posts_append, posts_deliver, List.append_nil] at hr
        obtain ⟨cfd', rfl⟩ := mem_posts_acceptex hr
        refine ⟨fun b hb ↦ ?_, fun j hj ↦ ?_, rfl, rfl⟩
        · rw [← Option.some.inj hb]
          exact Nat.lt_succ_self _
        · rw [← Option.some.inj hj]
          exact hpost.serves (hmoves.serves hserved)
      · dsimp only
        rw [posts_append, posts_append, posts_deliver, List.append_nil, hended]
        exact custody_postAcceptex hplaced ns _

/-- The first accepts are posted. -/
theorem Disciplined.accept {owner bytes : ℕ} {id session : ℤ} (h : Disciplined back w)
    (hposted : .accept owner id session ∈ w.posted) (hstale : w.server.stale id = false) :
    Disciplined (back ++ closes (w.complete ⟨true, .accept owner id session, bytes⟩ replies).2)
      (w.complete ⟨true, .accept owner id session, bytes⟩ replies).1 := by
  have hpoll : w.server.poll ⟨true, .accept owner id session, bytes⟩ replies =
      ((w.server.postAcceptexes (hashId id) replies.acceptFails 0 10).1,
        (w.server.postAcceptexes (hashId id) replies.acceptFails 0 10).2 ++ SocketServer.deliver
          (.response owner session ⟨.start, id, 0, none⟩) replies.delivered) := by
    rw [SocketServer.poll_completed, SocketServer.completed, hstale]
    rfl
  have hserved : Serves w.server (hashId id) := by
    refine h.attended.taken _ ?_
    have hold := of_decide_eq_false hstale
    rw [not_or] at hold
    cases htype : (w.server.slot (hashId id)).type with
    | invalid => exact (hold.1 htype).elim
    | reserve => rfl
  have hmoves : Moves w.server
      (w.server.postAcceptexes (hashId id) replies.acceptFails 0 10).1 :=
    .of_slot (by rw [blocks_postAcceptexes]; omega) (allocId_postAcceptexes _ _ _ _)
      (slot_postAcceptexes _ _ _ _)
  have hcloses : closes (w.complete ⟨true, .accept owner id session, bytes⟩ replies).2 = [] := by
    rw [complete, hpoll]
    dsimp only
    rw [closes_append, postAcceptexes_closes, closes_deliver]
    rfl
  rw [hcloses, List.append_nil]
  refine h.move ?_ ?_ ?_ <;> rw [complete, hpoll]
  · exact hmoves
  · intro r hr
    dsimp only at hr
    rw [posts_append, posts_deliver, List.append_nil] at hr
    obtain ⟨cfd, buf, rfl, hlt⟩ := mem_posts_acceptexes hr
    refine ⟨fun b hb ↦ ?_, fun j hj ↦ ?_, rfl, rfl⟩
    · rw [← Option.some.inj hb]
      dsimp only
      rw [blocks_postAcceptexes]
      exact hlt
    · rw [← Option.some.inj hj]
      exact hmoves.serves hserved
  · dsimp only
    rw [posts_append, posts_deliver, List.append_nil]
    exact custody_postAcceptexes (@custody_erase _ _ ⟨true, .accept owner id session, bytes⟩ h
      hposted rfl) _ _ _ _

/-- A socket is started. -/
theorem Disciplined.start {owner bytes : ℕ} {id session : ℤ} (h : Disciplined back w)
    (hposted : .start owner id session ∈ w.posted) (hstale : w.server.stale id = false) :
    Disciplined (back ++ closes (w.complete ⟨true, .start owner id session, bytes⟩ replies).2)
      (w.complete ⟨true, .start owner id session, bytes⟩ replies).1 := by
  have howner : owner % 2 ^ 32 ≠ 0 := h.given _ hposted owner rfl
  have hset : ∀ b, Moves w.server (w.server.setSlot (hashId id)
      { w.server.slot (hashId id) with owner := owner, start := b }) :=
    fun b ↦ .setSlot (fun _ ↦ howner) fun _ ↦ .inl howner
  have hheld : ∀ b, (w.server.setSlot (hashId id)
      { w.server.slot (hashId id) with owner := owner, start := b }).held = w.server.held := by
    intro b
    refine held_congr fun i ↦ ?_
    by_cases hi : i = hashId id
    · rw [hi, SocketServer.slot_setSlot_self]
    · rw [SocketServer.slot_setSlot_ne _ hi]
  have hnot : ¬ w.server.stale id = true := by simp [hstale]
  -- a second `start` finds the flag set and posts nothing
  by_cases hstart : (w.server.slot (hashId id)).start = true
  · have hpoll : w.server.poll ⟨true, .start owner id session, bytes⟩ replies =
        (w.server.setSlot (hashId id)
            { w.server.slot (hashId id) with owner := owner, start := true },
          SocketServer.deliver (.response owner session ⟨.start, id, 0, none⟩)
            replies.delivered) := by
      rw [SocketServer.poll_completed, SocketServer.completed, if_neg hnot]
      simp only [hstart, if_true]
      rfl
    refine h.quiet hposted rfl rfl rfl ?_ ?_ ?_ ?_ ?_ <;> rw [hpoll]
    · exact hset true
    · exact hheld true
    · rfl
    · intro r hr
      rw [posts_deliver] at hr
      cases hr
    · exact closes_deliver _ _
  · let s₁ := w.server.setSlot (hashId id)
      { w.server.slot (hashId id) with owner := owner, start := true }
    have hpoll : w.server.poll ⟨true, .start owner id session, bytes⟩ replies =
        ((s₁.postRecv (hashId id) replies.recvFails).1,
          (s₁.postRecv (hashId id) replies.recvFails).2 ++ SocketServer.deliver
            (.response owner session ⟨.start, id, 0, none⟩) replies.delivered) := by
      rw [SocketServer.poll_completed, SocketServer.completed, if_neg hnot]
      simp only [if_neg hstart]
      rfl
    refine h.quiet hposted rfl rfl rfl ?_ ?_ ?_ ?_ ?_ <;> rw [hpoll]
    · exact (hset true).trans (moves_postRecv (hashId id) replies.recvFails)
    · exact hheld true
    · rfl
    · intro r hr
      exact posts_postRecv (serves_setSlot_self.mpr howner) hr
    · exact closes_postRecv

/-- Data comes, and another receive is posted. -/
theorem Disciplined.recv {ns buf bytes : ℕ} (h : Disciplined back w)
    (hposted : .recv ns buf ∈ w.posted) (hbytes : bytes ≠ 0) (hrecv : replies.recvFails = false) :
    Disciplined (back ++ closes (w.complete ⟨true, .recv ns buf, bytes⟩ replies).2)
      (w.complete ⟨true, .recv ns buf, bytes⟩ replies).1 := by
  have hpoll : w.server.poll ⟨true, .recv ns buf, bytes⟩ replies =
      ((w.server.postRecv ns false).1, (w.server.postRecv ns false).2 ++ SocketServer.deliver
        (.socket (w.server.slot ns).owner ⟨.data, (w.server.slot ns).id, bytes, some buf⟩)
          replies.delivered) := by
    rw [SocketServer.poll_completed, SocketServer.completed, if_neg hbytes, hrecv]
    rfl
  have hends : w.server.ends ⟨true, .recv ns buf, bytes⟩ = none := if_neg hbytes
  refine h.quiet hposted rfl hends rfl ?_ ?_ ?_ ?_ ?_ <;> rw [hpoll]
  · exact moves_postRecv ns false
  · rfl
  · rfl
  · intro r hr
    exact posts_postRecv (h.served _ hposted ns rfl) hr
  · exact closes_postRecv

/-- A packet that closes nothing, posts nothing and changes no slot. -/
theorem Disciplined.answered (h : Disciplined back w) (hposted : packet.request ∈ w.posted)
    (answer : IoAnswer) (effects : List IoEffect)
    (hcfd : packet.request.cfd = none) (hends : w.server.ends packet = none)
    (hreserved : w.server.reserved packet = [])
    (hpoll : w.server.poll packet replies =
      (w.server, effects ++ SocketServer.deliver answer replies.delivered))
    (hcloses : closes effects = []) (hposts : posts effects = []) :
    Disciplined (back ++ closes (w.complete packet replies).2) (w.complete packet replies).1 := by
  refine h.quiet hposted hcfd hends hreserved ?_ ?_ ?_ ?_ ?_ <;> rw [hpoll]
  · exact .refl _
  · intro r hr
    rw [posts_append, posts_deliver, hposts] at hr
    cases hr
  · rw [closes_append, closes_deliver, hcloses]
    rfl

/-- A packet that closes the handle of a slot and changes no slot. -/
theorem Disciplined.closed (h : Disciplined back w) (hposted : packet.request ∈ w.posted)
    {answer : IoAnswer} {effects : List IoEffect}
    (hcfd : packet.request.cfd = none) (hends : w.server.ends packet = some i)
    (hopen : 0 < (w.server.slot i).fd → w.ended i = false)
    (hpoll : w.server.poll packet replies =
      (w.server, effects ++ SocketServer.deliver answer replies.delivered))
    (hcloses : closes effects = closes [.closesocket (w.server.slot i).fd])
    (hposts : posts effects = []) :
    Disciplined (back ++ closes (w.complete packet replies).2) (w.complete packet replies).1 := by
  refine h.close hposted hcfd hends hopen ?_ ?_ ?_ ?_ ?_ <;> rw [hpoll]
  · exact .refl _
  · rw [posts_append, posts_deliver, hposts]
    rfl
  · rw [closes_append, closes_deliver, hcloses, List.append_nil]

/-- The end of a receive. -/
theorem Disciplined.loop_recv {ns buf bytes : ℕ} {ok : Bool} (h : Disciplined back w)
    (hposted : .recv ns buf ∈ w.posted)
    (hc : w.Orderly (.packet ⟨ok, .recv ns buf, bytes⟩ replies)) :
    Disciplined (back ++ closes (w.complete ⟨ok, .recv ns buf, bytes⟩ replies).2)
      (w.complete ⟨ok, .recv ns buf, bytes⟩ replies).1 := by
  obtain ⟨hopen, hkind⟩ := hc
  cases ok with
  | false =>
    refine h.closed hposted rfl rfl (hopen ns rfl) rfl ?_ rfl
    exact (closes_append [.closesocket _] [.free _]).trans (List.append_nil _)
  | true =>
    by_cases hbytes : bytes = 0
    · -- the other side has closed the connection
      have hends : w.server.ends ⟨true, .recv ns buf, bytes⟩ = some ns := if_pos hbytes
      have hpoll : w.server.poll ⟨true, .recv ns buf, bytes⟩ replies = (w.server,
          [.free (some buf), .closesocket (w.server.slot ns).fd] ++ SocketServer.deliver
            (.socket (w.server.slot ns).owner (.error (w.server.slot ns).id))
              replies.delivered) := by
        rw [SocketServer.poll_completed, SocketServer.completed, if_pos hbytes]
      exact h.closed hposted rfl hends (hopen ns hends) hpoll rfl rfl
    · refine h.recv hposted hbytes ?_
      simpa [loses, Nat.pos_of_ne_zero hbytes] using hkind

/-- The end of `accept`, which a service has asked for. -/
theorem Disciplined.loop_accept {owner bytes : ℕ} {id session : ℤ} {ok : Bool}
    (h : Disciplined back w) (hposted : .accept owner id session ∈ w.posted)
    (hc : w.Orderly (.packet ⟨ok, .accept owner id session, bytes⟩ replies)) :
    Disciplined (back ++ closes (w.complete ⟨ok, .accept owner id session, bytes⟩ replies).2)
      (w.complete ⟨ok, .accept owner id session, bytes⟩ replies).1 := by
  cases hstale : w.server.stale id with
  | true =>
    cases ok with
    | false =>
      refine h.answered hposted (.response owner session (.error id)) [] rfl
        (if_pos hstale) rfl ?_ rfl rfl
      simp only [SocketServer.poll, SocketServer.failed, hstale, if_true]
    | true =>
      refine h.answered hposted (.silent ⟨.error, 0, 0, none⟩) [] rfl rfl rfl
        ?_ rfl rfl
      simp only [SocketServer.poll_completed, SocketServer.completed, hstale, if_true]
  | false =>
    cases ok with
    | false =>
      have hends : w.server.ends ⟨false, .accept owner id session, bytes⟩ = some (hashId id) := by
        simp [SocketServer.ends, hstale]
      have hpoll : w.server.poll ⟨false, .accept owner id session, bytes⟩ replies = (w.server,
          [.closesocket (w.server.slot (hashId id)).fd] ++ SocketServer.deliver
            (.response owner session (.error id)) replies.delivered) := by
        simp [SocketServer.poll, SocketServer.failed, hstale]
      exact h.closed hposted rfl hends (hc.1 _ hends) hpoll rfl rfl
    | true => exact h.accept hposted hstale

/-- The end of `close`, which a service has asked for. -/
theorem Disciplined.loop_close {id : ℤ} {bytes : ℕ} {ok : Bool} (h : Disciplined back w)
    (hposted : .close id ∈ w.posted) (hc : w.Orderly (.packet ⟨ok, .close id, bytes⟩ replies)) :
    Disciplined (back ++ closes (w.complete ⟨ok, .close id, bytes⟩ replies).2)
      (w.complete ⟨ok, .close id, bytes⟩ replies).1 := by
  cases ok with
  | false => exact h.answered hposted (.silent .empty) [] rfl rfl rfl rfl rfl rfl
  | true =>
    by_cases hid : (w.server.slot (hashId id)).id = id
    · have hends : w.server.ends ⟨true, .close id, bytes⟩ = some (hashId id) := if_pos hid
      have hpoll : w.server.poll ⟨true, .close id, bytes⟩ replies =
          (w.server.setSlot (hashId id) { w.server.slot (hashId id) with type := .invalid },
            [.closesocket (w.server.slot (hashId id)).fd] ++ SocketServer.deliver
              (.silent .empty) replies.delivered) := by
        rw [SocketServer.poll_completed, SocketServer.completed, if_neg (not_not_intro hid)]
      refine h.close hposted rfl hends (hc.1 _ hends) ?_ ?_ ?_ ?_ ?_ <;> rw [hpoll]
      · exact .setSlot (fun hold ↦ hold) fun htype ↦ by cases htype
      · refine held_congr fun i ↦ ?_
        by_cases hi : i = hashId id
        · rw [hi, SocketServer.slot_setSlot_self]
        · rw [SocketServer.slot_setSlot_ne _ hi]
      · rfl
      · rfl
      · rw [closes_append, closes_deliver, List.append_nil]
    · refine h.answered hposted (.silent .empty) [] rfl (if_neg hid) rfl ?_ rfl
        rfl
      rw [SocketServer.poll_completed, SocketServer.completed, if_pos hid]

/-- **The loop** keeps everything in order. -/
theorem Disciplined.loop (h : Disciplined back w) (hposted : packet.request ∈ w.posted)
    (hc : w.Orderly (.packet packet replies)) :
    Disciplined (back ++ closes (w.complete packet replies).2) (w.complete packet replies).1 := by
  have hopen := hc.1
  have hkind := hc.2
  obtain ⟨ok, request, bytes⟩ := packet
  cases request with
  | connect owner session ns | listen owner session ns =>
    cases ok with
    | false => exact h.closed hposted rfl rfl (hopen ns rfl) rfl rfl rfl
    | true => exact h.answered hposted _ _ rfl rfl rfl rfl rfl rfl
  | recv ns buf => exact h.loop_recv hposted hc
  | send id buf =>
    cases ok with
    | false => cases hkind
    | true => exact h.answered hposted (.silent .empty) [.free (some buf)] rfl rfl rfl rfl rfl rfl
  | sendto fd buf | recvfrom fd owner buf => cases h.slotted _ hposted
  | acceptex ns cfd buf => exact h.acceptex hposted
  | accept owner id session => exact h.loop_accept hposted hc
  | start owner id session =>
    cases ok with
    | false =>
      exact h.answered hposted (.silent .empty) [] rfl rfl rfl rfl rfl rfl
    | true =>
      cases hstale : w.server.stale id with
      | true =>
        refine h.answered hposted (.silent (.error id)) [] rfl rfl rfl ?_ rfl
          rfl
        simp only [SocketServer.poll_completed, SocketServer.completed, hstale, if_true]
      | false => exact h.start hposted hstale
  | close id => exact h.loop_close hposted hc

end Packet

/-! ## The services -/

/-- A service posts a request that is in order. -/
theorem Disciplined.post (h : Disciplined back w) {r : IoRequest} (hcfd : r.cfd = none)
    (hblocks : ∀ buf ∈ r.buffer, buf < w.server.blocks) (huses : r.uses = none)
    (hgives : ∀ owner ∈ r.gives, owner % 2 ^ 32 ≠ 0) (hudp : r.isUdp = false) :
    Disciplined back (w.post r) := by
  have hnone : loose [r] = [] := by
    rw [loose, List.filterMap_cons_none hcfd]
    rfl
  have hloose : loose (w.posted ++ [r]) = loose w.posted := by
    rw [loose_append, hnone, List.append_nil]
  constructor
  · rw [SocketWorld.post, hloose]
    exact h.custody
  · exact List.forall_mem_append.mpr ⟨h.blocks, List.forall_mem_singleton.mpr hblocks⟩
  · exact h.attended
  · refine List.forall_mem_append.mpr ⟨h.served, List.forall_mem_singleton.mpr fun i hi ↦ ?_⟩
    rw [huses] at hi
    cases hi
  · exact List.forall_mem_append.mpr ⟨h.given, List.forall_mem_singleton.mpr hgives⟩
  · exact List.forall_mem_append.mpr ⟨h.slotted, List.forall_mem_singleton.mpr hudp⟩

theorem Disciplined.server (h : Disciplined back w) (hmoves : Moves w.server s) {ended : ℕ → Bool}
    (hcustody : Custody back s.held (loose w.posted) ended s.Known) :
    Disciplined back { w with server := s, ended := ended } where
  custody := hcustody
  blocks r hr buf hbuf := Nat.lt_of_lt_of_le (h.blocks r hr buf hbuf) hmoves.blocks
  attended := hmoves.attended h.attended
  served r hr i hi := hmoves.serves (h.served r hr i hi)
  given := h.given
  slotted := h.slotted

/-- A service asks for a new socket. -/
theorem Disciplined.create (h : Disciplined back w) {owner : ℕ} {request : ℕ → Option IoRequest}
    (howner : owner % 2 ^ 32 ≠ 0)
    (hrequest : ∀ i, ∀ r ∈ request i,
      r.cfd = none ∧ r.buffer = none ∧ r.uses = none ∧ r.gives = none ∧ r.isUdp = false) :
    Disciplined back (w.createSocket owner request) := by
  rw [createSocket]
  obtain ⟨a, hrange, hcases⟩ := h.attended.reserveFrom maxSocket
  rcases hcases with ⟨hreserve, hwrapped⟩ | ⟨id, hreserve, hneg, hwrapped⟩
  · have hnone : w.server.reserveId.1 = none := congrArg Prod.fst hreserve
    have hleft : w.server.reserveId.2 = { w.server with allocId := a } :=
      congrArg Prod.snd hreserve
    rw [create_none (by simp [hnone]), hleft]
    exact h.server (s := { w.server with allocId := a }) (.alloc hrange hwrapped) h.custody
  have hsome : w.server.reserveId.1 = some id := congrArg Prod.fst hreserve
  by_cases hid : id < 0
  · have hleft : w.server.reserveId.2 = claim w.server a id := congrArg Prod.snd hreserve
    rw [create_none (by simp [hsome, hid]), hleft]
    refine h.server (s := claim w.server a id) (.abandon hrange (hneg hid)) ?_
    rw [claim, held_take rfl]
    exact h.custody.vacate _
  · rw [create_some hreserve hid]
    dsimp only
    let s₁ : SocketServer := { w.server with allocId := a, handles := w.server.handles + 1 }
    let x : IoSocket := { w.server.slot (hashId id) with
      type := .reserve, id := id, fd := (w.server.handles + 1 : ℕ), owner := owner }
    have hmoves : Moves w.server (s₁.setSlot (hashId id) x) := .take hrange hwrapped howner
    have hobtain : Custody back s₁.held (((w.server.handles + 1 : ℕ) : ℤ) :: loose w.posted) w.ended
        s₁.Known := by
      refine h.custody.obtain (fun ha ↦ ?_) fun b ↦ ?_
      · have hle := ha.2
        omega
      · simp only [SocketServer.Known, s₁]
        omega
    have hpos : 0 < x.fd := by
      simp only [x]
      omega
    have hplaced : Custody back (s₁.setSlot (hashId id) x).held (loose w.posted)
        (Function.update w.ended (hashId id) false) (s₁.setSlot (hashId id) x).Known := by
      rw [held_place hpos]
      exact hobtain.place (hashId id)
    have hserver := h.server hmoves hplaced
    cases hr : request (hashId id) with
    | none =>
      rw [Option.toList_none, List.append_nil]
      exact hserver
    | some r =>
      obtain ⟨hcfd, hbuffer, huses, hgives, hudp⟩ := hrequest _ r hr
      refine hserver.post hcfd (fun buf hbuf ↦ ?_) huses (fun o ho ↦ ?_) hudp
      · rw [hbuffer] at hbuf
        cases hbuf
      · rw [hgives] at ho
        cases ho

private theorem isHandle_mod {owner : ℕ} (h : isHandle owner = true) : owner % 2 ^ 32 ≠ 0 := by
  have hlt := of_decide_eq_true h
  rw [Nat.mod_eq_of_lt hlt.2]
  omega

theorem Disciplined.sendTo (h : Disciplined back w) (id : ℤ) (begun : Bool) :
    Disciplined (back ++ closes (w.sendTo id begun).2) (w.sendTo id begun).1 := by
  have hserver : Disciplined back { w with server := { w.server with
      blocks := w.server.blocks + 1 } } :=
    h.server (s := { w.server with blocks := w.server.blocks + 1 })
      (.of_slot (Nat.le_succ _) rfl rfl) h.custody
  unfold SocketWorld.sendTo
  dsimp only
  split
  · rw [show closes [.free _] = [] from rfl, List.append_nil]
    exact hserver
  · rw [show closes [] = [] from rfl, List.append_nil]
    cases begun with
    | false => exact hserver
    | true =>
      refine hserver.post rfl (fun b hb ↦ ?_) rfl (fun _ ho ↦ nomatch ho) rfl
      rw [← Option.some.inj hb]
      exact Nat.lt_succ_self _

/-- **A step** keeps everything in order. -/
theorem Disciplined.step (h : Disciplined back w) {input : SocketInput} {w' : SocketWorld}
    {out : List IoEffect} (hc : w.Orderly input) (hm : sockets w input = .ok (w', out)) :
    Disciplined (back ++ closes out) w' := by
  -- the requests of the services only post; what is given back is given back in the loop
  cases input with
  | connect owner session begun =>
    dsimp only [sockets] at hm
    by_cases hhandle : SocketWorld.isHandle owner
    · rw [if_pos hhandle] at hm
      cases hm
      rw [show closes [] = [] from rfl, List.append_nil]
      refine h.create (isHandle_mod hhandle) fun i r hr ↦ ?_
      cases begun <;> cases hr
      exact ⟨rfl, rfl, rfl, rfl, rfl⟩
    · rw [if_neg hhandle] at hm
      cases hm
  | listen owner session =>
    dsimp only [sockets] at hm
    by_cases hhandle : SocketWorld.isHandle owner
    · rw [if_pos hhandle] at hm
      cases hm
      rw [show closes [] = [] from rfl, List.append_nil]
      refine h.create (isHandle_mod hhandle) fun i r hr ↦ ?_
      cases hr
      exact ⟨rfl, rfl, rfl, rfl, rfl⟩
    · rw [if_neg hhandle] at hm
      cases hm
  | start owner id session =>
    dsimp only [sockets] at hm
    by_cases hhandle : SocketWorld.isHandle owner
    · rw [if_pos hhandle] at hm
      cases hm
      rw [show closes [] = [] from rfl, List.append_nil]
      refine h.post rfl (fun _ hb ↦ nomatch hb) rfl (fun o ho ↦ ?_) rfl
      cases ho
      exact isHandle_mod hhandle
    · rw [if_neg hhandle] at hm
      cases hm
  | accept owner id session =>
    simp only [sockets] at hm
    split at hm
    · cases hm
      rw [show closes [] = [] from rfl, List.append_nil]
      exact h.post rfl (fun _ hb ↦ nomatch hb) rfl (fun _ ho ↦ nomatch ho) rfl
    · cases hm
  | send id begun =>
    have hsend := h.sendTo id begun
    rw [Except.ok.inj hm] at hsend
    exact hsend
  | close id =>
    cases hm
    rw [show closes [] = [] from rfl, List.append_nil]
    exact h.post rfl (fun _ hb ↦ nomatch hb) rfl (fun _ ho ↦ nomatch ho) rfl
  | packet packet replies =>
    dsimp only [sockets] at hm
    by_cases hposted : packet.request ∈ w.posted
    · rw [if_pos hposted] at hm
      have hloop := h.loop hposted hc
      rw [Except.ok.inj hm] at hloop
      exact hloop
    · rw [if_neg hposted] at hm
      cases hm

theorem settle_buffer {buf n : ℕ} {effects : List IoEffect} {answer : IoAnswer} {delivered : Bool}
    (hhanded : handed buf effects = 0) (hfreed : freed buf effects = n)
    (hdeliver : freed buf (SocketServer.deliver answer delivered) +
      handed buf (SocketServer.deliver answer delivered) + n = 1) :
    freed buf (effects ++ SocketServer.deliver answer delivered) +
      handed buf (effects ++ SocketServer.deliver answer delivered) = 1 := by
  rw [freed_append, handed_append, hhanded, hfreed]
  omega

theorem freed_buffer {buf : ℕ} {effects : List IoEffect} {answer : IoAnswer} {delivered : Bool}
    (hhanded : handed buf effects = 0) (hfreed : freed buf effects = 1)
    (hbuffer : answer.message.buffer = none) :
    freed buf (effects ++ SocketServer.deliver answer delivered) +
      handed buf (effects ++ SocketServer.deliver answer delivered) = 1 := by
  obtain ⟨hzero, hzero'⟩ := @deliver_none answer delivered buf hbuffer
  exact settle_buffer hhanded hfreed (by omega)

/-- **The buffer of a request** is freed or handed over when the request is completed. -/
theorem Disciplined.buffer (h : Disciplined back w) {packet : IoPacket} {replies : IoReplies}
    (hposted : packet.request ∈ w.posted) (hc : w.Orderly (.packet packet replies)) {buf : ℕ}
    (hbuf : packet.request.buffer = some buf) :
    freed buf (w.complete packet replies).2 + handed buf (w.complete packet replies).2 = 1 := by
  have hlt := h.blocks _ hposted buf hbuf
  obtain ⟨-, hkind⟩ := hc
  obtain ⟨ok, request, bytes⟩ := packet
  rw [complete]
  dsimp only
  -- the requests that carry a buffer; the others have nothing to give back
  cases request with
  | recv ns _ =>
    cases hbuf
    cases ok with
    | false => exact freed_buffer rfl (by simp [freed]) rfl
    | true =>
      rw [SocketServer.poll_completed, SocketServer.completed]
      by_cases hbytes : bytes = 0
      · rw [if_pos hbytes]
        exact freed_buffer rfl (by simp [freed]) rfl
      · have hrecv : replies.recvFails = false := by
          simpa [loses, Nat.pos_of_ne_zero hbytes] using hkind
        obtain ⟨-, hhanded, hfreed⟩ := @postRecv_effects w.server buf ns false
        simp only [if_neg hbytes, hrecv]
        refine settle_buffer hhanded (hfreed hlt) ?_
        exact deliver_buffer (h.served _ hposted ns rfl) rfl
  | send id _ =>
    cases hbuf
    cases ok with
    | false => cases hkind
    | true => exact freed_buffer rfl (by simp [freed, SocketServer.completed]) rfl
  | sendto _ _ | recvfrom _ _ _ => cases h.slotted _ hposted
  | acceptex ns cfd _ =>
    cases hbuf
    cases ok with
    | false => exact freed_buffer rfl (by simp [freed]) rfl
    | true =>
      obtain ⟨a, -, hcases⟩ := h.attended.reserveFrom maxSocket
      -- without a slot the buffer of the request is freed at once
      have hunserved : (∀ id ∈ w.server.reserveId.1, id < 0) →
          freed buf (w.server.poll ⟨true, .acceptex ns cfd buf, bytes⟩ replies).2 +
            handed buf (w.server.poll ⟨true, .acceptex ns cfd buf, bytes⟩ replies).2 = 1 := by
        intro hnone
        rw [poll_acceptex_unserved hnone]
        simp [freed, handed, hands]
      rcases hcases with ⟨hreserve, -⟩ | ⟨id, hreserve, -, -⟩
      · have hnone : w.server.reserveId.1 = none := congrArg Prod.fst hreserve
        exact hunserved (by simp [hnone])
      have hsome : w.server.reserveId.1 = some id := congrArg Prod.fst hreserve
      by_cases hid : id < 0
      · exact hunserved (by simp [hsome, hid])
      · obtain ⟨answer, s₂, hnone, hs₂, hpoll⟩ :=
          @poll_acceptex_served _ ns buf bytes cfd a id replies hreserve hid
        obtain ⟨-, hhanded, hfreed⟩ := @postAcceptex_effects s₂ buf ns (replies.acceptFails 0)
        rw [hpoll]
        refine freed_buffer ?_ ?_ hnone
        · rw [handed_append, hhanded]
          rfl
        · rw [freed_append, hfreed]
          simp [freed]
  | connect _ _ _ | accept _ _ _ | start _ _ _ | listen _ _ _ | close _ => cases hbuf

/-! ## Runs -/

abbrev SocketEvent := Event SocketWorld SocketInput (List IoEffect)

variable {tr : List SocketEvent}

/-- **Handles and buffers**: no handle is closed twice, and the buffer of a request is freed, or
handed to a service, when the request is completed, if every packet that ends a socket finds it
open, no send fails, and data that has been received can be followed by another receive. -/
theorem discipline (hrun : Run sockets init tr w) (hC : Meets Orderly tr) :
    (closes (tr.flatMap Event.output)).Nodup ∧
    ∀ e ∈ tr, ∀ packet replies buf, e.input = .packet packet replies →
      packet.request.buffer = some buf → freed buf e.output + handed buf e.output = 1 := by
  -- the closed handles are a ledger of the whole run, the buffers one of each packet
  have hboth := hrun.ledger (fun tr w ↦ Disciplined (closes (tr.flatMap Event.output)) w ∧
      ∀ e ∈ tr, ∀ packet replies buf, e.input = .packet packet replies →
        packet.request.buffer = some buf → freed buf e.output + handed buf e.output = 1)
    ⟨disciplined_init, fun e he ↦ nomatch he⟩ ?_ hC
  · exact ⟨hboth.1.custody.once, hboth.2⟩
  · rintro tr w input w' out - ⟨h, hall⟩ hc hm
    refine ⟨?_, fun e he packet replies buf hinput hbuf ↦ ?_⟩
    · rw [List.flatMap_append, List.flatMap_singleton, closes_append]
      exact h.step hc hm
    · rcases List.mem_append.mp he with he | he
      · exact hall e he packet replies buf hinput hbuf
      · cases List.mem_singleton.mp he
        dsimp only at hinput
        subst hinput
        dsimp only [sockets] at hm
        by_cases hposted : packet.request ∈ w.posted
        · rw [if_pos hposted] at hm
          have hbuffer := h.buffer hposted hc hbuf
          rw [Except.ok.inj hm] at hbuffer
          exact hbuffer
        · rw [if_neg hposted] at hm
          cases hm

/-- A socket is connected, is started, receives data, sends, and is closed. -/
theorem discipline_connection : ∃ tr w, Run sockets init tr w ∧
    closes (tr.flatMap Event.output) = [1] ∧ (closes (tr.flatMap Event.output)).Nodup := by
  have hpasses : Passes sockets init
      [.connect 7 1 true, .packet ⟨true, .connect 7 1 1, 0⟩ SocketServer.noFailure,
        .start 7 1 2, .packet ⟨true, .start 7 1 2, 0⟩ SocketServer.noFailure,
        .packet ⟨true, .recv 1 0, 5⟩ SocketServer.noFailure, .send 1 true,
        .packet ⟨true, .send 1 2, 3⟩ SocketServer.noFailure, .close 1,
        .packet ⟨true, .close 1, 0⟩ SocketServer.noFailure]
      fun tr _ ↦ Meets Orderly tr ∧ closes (tr.flatMap Event.output) = [1] := by decide +kernel
  obtain ⟨tr, w, hrun, hC, hcloses⟩ := Run.of_passes hpasses
  exact ⟨tr, w, hrun, hcloses, (discipline hrun hC).1⟩

/-- A socket is closed while it waits for data. The receive fails, and the handle is closed again.
-/
theorem not_discipline : ¬ ∀ {tr : List SocketEvent} {w : SocketWorld}, Run sockets init tr w →
    (closes (tr.flatMap Event.output)).Nodup ∧
    ∀ e ∈ tr, ∀ packet replies buf, e.input = .packet packet replies →
      packet.request.buffer = some buf → freed buf e.output + handed buf e.output = 1 := by
  intro hall
  have hpasses : Passes sockets init
      [.connect 7 1 true, .packet ⟨true, .connect 7 1 1, 0⟩ SocketServer.noFailure,
        .start 7 1 2, .packet ⟨true, .start 7 1 2, 0⟩ SocketServer.noFailure, .close 1,
        .packet ⟨true, .close 1, 0⟩ SocketServer.noFailure,
        .packet ⟨false, .recv 1 0, 0⟩ SocketServer.noFailure]
      fun tr _ ↦ closes (tr.flatMap Event.output) = [1, 1] := by decide +kernel
  obtain ⟨tr, w, hrun, hcloses⟩ := Run.of_passes hpasses
  have honce := (hall hrun).1
  rw [hcloses] at honce
  exact absurd honce (by decide)

end SocketWorld

end ZTask
