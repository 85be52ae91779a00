import ZTask.Socket.Server

/-!
# Answers to requests

Who connects, listens, starts a socket or starts to accept waits for a message with the session of
the request. A connect that completes, and a listen that is successful, is answered to the service
that the slot has by then, which is another one if the slot has been given to another socket. A
start is not answered at all if it comes too late, for an id that has been closed, or fails; nor is
the start of accepting if it comes too late. Otherwise the request is answered once, to the service
that made it (`answered_iff`).
-/

namespace ZTask

/-! ## What is claimed -/

/-- The service that waits for an answer, and its session. -/
def IoRequest.asks : IoRequest → Option (ℕ × ℤ)
  | .connect owner session _ | .start owner _ session | .accept owner _ session
  | .listen owner session _ => some (owner, session)
  | _ => none

namespace SocketServer

def isPush : IoEffect → Bool
  | .push _ _ _ _ _ => true
  | _ => false

/-- The messages that are sent. -/
def pushes (effects : List IoEffect) : List IoEffect := effects.filter isPush

/-- One message is sent, which is the response. -/
def Answered (owner : ℕ) (session : ℤ) (effects : List IoEffect) : Prop :=
  ∃ message delivered, pushes effects = [.push owner .response session message delivered]

/-- The request finds its slot as it left it, as far as that matters. -/
def FindsSlot (s : SocketServer) (ok : Bool) : IoRequest → Prop
  | .connect owner _ ns => (s.slot ns).owner % 2 ^ 32 = owner
  | .listen owner _ ns => ok = true → (s.slot ns).owner % 2 ^ 32 = owner
  | .accept _ id _ => ok = true → s.stale id = false
  | .start _ id _ => ok = true ∧ s.stale id = false
  | _ => True

/-! ## What is pushed -/

@[simp] theorem pushes_append (l l' : List IoEffect) : pushes (l ++ l') = pushes l ++ pushes l' :=
  List.filter_append ..

variable {s : SocketServer} {owner : ℕ} {session : ℤ} {message : IoMessage} {delivered : Bool}

@[simp] theorem pushes_deliver_silent : pushes (deliver (.silent message) delivered) = [] := rfl

private theorem pushes_deliver {answer : IoAnswer} (h : answer.handle ≠ 0) :
    pushes (deliver answer delivered) =
      [.push answer.handle answer.type answer.session answer.message delivered] := by
  rw [deliver, if_pos h]
  cases delivered <;> rfl

private theorem pushes_response (h : owner % 2 ^ 32 ≠ 0) :
    pushes (deliver (.response owner session message) delivered) =
      [.push (owner % 2 ^ 32) .response session message delivered] := pushes_deliver h

@[simp] theorem pushes_postRecv (ns : ℕ) (fails : Bool) : pushes (s.postRecv ns fails).2 = [] := by
  cases fails <;> rfl

@[simp] theorem pushes_postAcceptex (ns : ℕ) (fails : Bool) :
    pushes (s.postAcceptex ns fails).2 = [] := by
  cases fails <;> rfl

@[simp] theorem pushes_postAcceptexes (ns : ℕ) (fails : ℕ → Bool) (n k : ℕ) :
    pushes (s.postAcceptexes ns fails n k).2 = [] := by
  induction k generalizing s n with
  | zero => rfl
  | succ k ih =>
    rw [postAcceptexes]
    simp [ih]

/-! ## Answers -/

theorem answered_response (hpos : 0 < owner) (hlt : owner < 2 ^ 32) {effects : List IoEffect}
    (heffects : pushes effects = []) :
    Answered owner session (effects ++ deliver (.response owner session message) delivered) := by
  refine ⟨message, delivered, ?_⟩
  have hmod : owner % 2 ^ 32 = owner := Nat.mod_eq_of_lt hlt
  rw [pushes_append, heffects, pushes_response (by omega), hmod]
  rfl

private theorem not_answered_silent {effects : List IoEffect} (heffects : pushes effects = []) :
    ¬ Answered owner session (effects ++ deliver (.silent message) delivered) := by
  rintro ⟨message', delivered', h⟩
  rw [pushes_append, heffects, pushes_deliver_silent] at h
  cases h

/-- A response to the service that the slot has. -/
theorem answered_slot_iff (hpos : 0 < owner) (hlt : owner < 2 ^ 32) {x : ℕ}
    {effects : List IoEffect} (heffects : pushes effects = []) :
    Answered owner session (effects ++ deliver (.response x session message) delivered) ↔
      x % 2 ^ 32 = owner := by
  constructor
  · rintro ⟨message', delivered', h⟩
    rw [pushes_append, heffects, List.nil_append] at h
    by_cases hzero : x % 2 ^ 32 = 0
    · have hhandle : ¬ (IoAnswer.response x session message).handle ≠ 0 := not_not_intro hzero
      rw [deliver, if_neg hhandle] at h
      cases h
    · rw [pushes_response hzero] at h
      cases h
      rfl
  · intro h
    refine ⟨message, delivered, ?_⟩
    rw [pushes_append, heffects, pushes_response (by omega), h]
    rfl

/-- **Every request is answered** once, to the service that made it, if and only if it finds its
slot.
-/
theorem answered_iff (s : SocketServer) (packet : IoPacket) (replies : IoReplies)
    (hasks : packet.request.asks = some (owner, session)) (hpos : 0 < owner)
    (hlt : owner < 2 ^ 32) :
    Answered owner session (s.poll packet replies).2 ↔ s.FindsSlot packet.ok packet.request := by
  obtain ⟨ok, request, bytes⟩ := packet
  -- only these four requests ask for an answer; each reads its slot in its own branch of the loop
  cases request with
  | connect _ _ ns =>
    cases hasks
    cases ok with
    | false => exact answered_slot_iff hpos hlt rfl
    | true => exact answered_slot_iff hpos hlt rfl
  | listen _ _ ns =>
    cases hasks
    cases ok with
    | false => exact iff_of_true (answered_response hpos hlt rfl) fun h ↦ nomatch h
    | true => exact (answered_slot_iff hpos hlt rfl).trans ⟨fun h _ ↦ h, fun h ↦ h rfl⟩
  | accept _ id _ =>
    cases hasks
    cases ok with
    | false =>
      refine iff_of_true (answered_response hpos hlt ?_) fun h ↦ nomatch h
      split <;> rfl
    | true =>
      cases hstale : s.stale id with
      | false =>
        refine iff_of_true ?_ fun _ ↦ hstale
        simp only [poll, completed, hstale]
        exact answered_response hpos hlt (pushes_postAcceptexes _ _ _ _)
      | true =>
        refine iff_of_false ?_ fun h ↦ nomatch hstale.symm.trans (h rfl)
        simp only [poll, completed, hstale]
        exact not_answered_silent rfl
  | start _ id _ =>
    cases hasks
    cases ok with
    | false =>
      refine iff_of_false ?_ fun h ↦ nomatch h.1
      rintro ⟨message, delivered, h⟩
      cases h
    | true =>
      cases hstale : s.stale id with
      | false =>
        refine iff_of_true ?_ ⟨rfl, hstale⟩
        simp only [poll, completed, hstale]
        cases (s.slot (hashId id)).start with
        | false => exact answered_response hpos hlt (pushes_postRecv _ _)
        | true => exact answered_response hpos hlt rfl
      | true =>
        refine iff_of_false ?_ fun h ↦ nomatch hstale.symm.trans h.2
        simp only [poll, completed, hstale]
        exact not_answered_silent rfl
  | recv _ _ | send _ _ | sendto _ _ | recvfrom _ _ _ | acceptex _ _ _ | close _ => cases hasks

/-- A connect to a slot that has not changed. -/
theorem answered_connect :
    Answered 7 3 (((init.setSlot 1 ⟨7, 1, 1, .reserve, false⟩).poll
      ⟨true, .connect 7 3 1, 0⟩ ⟨false, fun _ ↦ false, true⟩).2) :=
  (answered_iff (init.setSlot 1 ⟨7, 1, 1, .reserve, false⟩) ⟨true, .connect 7 3 1, 0⟩
    ⟨false, fun _ ↦ false, true⟩ rfl (by decide) (by decide)).2 rfl

/-- A socket is closed, and started when it has been closed: nobody is told. -/
theorem not_answered_closed : ¬ ∀ (s : SocketServer) (packet : IoPacket) (replies : IoReplies)
    (owner : ℕ) (session : ℤ), packet.request.asks = some (owner, session) → 0 < owner →
    owner < 2 ^ 32 → Answered owner session (s.poll packet replies).2 := by
  intro h
  let s := (init.setSlot 1 ⟨7, 1, 1, .reserve, false⟩).poll ⟨true, .close 1, 0⟩
    ⟨false, fun _ ↦ false, true⟩
  obtain ⟨message, delivered, hpushes⟩ := h s.1 ⟨true, .start 7 1 3, 0⟩ ⟨false, fun _ ↦ false, true⟩
    7 3 rfl (by decide) (by decide)
  cases hpushes

end SocketServer

end ZTask
