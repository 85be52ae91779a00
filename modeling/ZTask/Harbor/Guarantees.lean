import ZTask.Harbor.Delivery

/-!
# What the service guarantees of its messages

Of every run: what is sent once the connection is there, what is kept while it is not, and in which
order messages leave. Each guarantee needs that one thing does not happen; where it does, the
guarantee fails.

## How they are proved

`Line` of `Harbor.Delivery` relates what has been accepted for another node, what has been sent to
it and what waits for it, in every state of a run. `names_delivered`, `none_lost` and `in_turn` each
read one consequence off it. What they ask of a run is asked of single steps, in the state before
the step: that the connection is not lost, that no message comes while it is gone and nothing is
stored, that no name becomes known between the connection and its first byte.

## What goes wrong otherwise

The messages to a name that becomes known before the node is connected are sent without the service
that they are for (`names_not_delivered`). A message for a node whose connection has broken goes to
the socket -1, and no error goes back (`not_none_lost`). The messages to a name that becomes known
between connection and first byte are sent at once, in front of those that wait for the node
(`not_in_turn`).
-/

namespace ZTask

open Lib

variable {id k : ℕ} {slave : UInt32} {tr : List HarborEvent} {h : Harbor}

instance decidableSteady (k : ℕ) (tr : List HarborEvent) : Decidable (Steady k tr) :=
  inferInstanceAs (Decidable (∀ e ∈ tr, ¬(e.pre.s k).Gone ∧ ¬(e.post.s k).Gone))

instance decidableSettled (status : Status) : Decidable status.Settled :=
  inferInstanceAs (Decidable (status = .header ∨ status = .content ∨ status = .down))

/-! ## Messages to names -/

/-- Once the first byte has come, each accepted message has been sent once, as it was accepted. -/
def Delivered (k : ℕ) (tr : List HarborEvent) (h : Harbor) : Prop :=
  (h.s k).status.Settled → (transmitted k tr).Perm ((acceptedFor tr k).map HarborMsg.encode)

/-- **Messages to names arrive.** In a run in which the connection of the node `k` is never lost,
what is accepted for it, a message to a name when the name becomes known, is sent exactly once when
the connection is past its first byte; if no name becomes known too early. -/
theorem names_delivered (hrun : Run harbor (harborInit id slave) tr h)
    (hremote : (harborInit id slave).Remote k) (hsteady : Steady k tr)
    (hmeets : Meets (fun h i ↦ i.Allowed h ∧ i.Exact h k) tr) : Delivered k tr h := by
  intro hsettled
  -- under the condition a message waits as it was accepted, byte for byte
  have hline : Line k (Outbox.Complete Eq) tr h := by
    apply run_line hrun hremote Outbox.complete_empty
    · exact fun e he ↦ (hmeets e he).1
    · exact fun e he ↦ Or.inr (hsteady e he)
    · intro e he o mv _ _ hexact _ ho
      exact ho.apply (hexact (hmeets e he).2)
  obtain ⟨sent, hsent, ho⟩ := hline.good
  rw [hsent]
  exact (ho.perm (waitingFor_of_settled hline.ok hsettled)).map _

/-- A service of node 1 sends to a name, which then becomes known as the service 9 of node 2. -/
def messageToName : HarborInput :=
  .system ⟨GlobalName.pad [65] (by decide), 0, [42], 10⟩ 0 0x01000007

def nodeNamed : HarborInput := .harbor [78, 32, 65] 0x02000009

/-- `S 5 2`, and the first byte from node 2. -/
def nodeConnects : HarborInput := .harbor [83, 32, 53, 32, 50] 0x01000005

def nodeGreets : HarborInput := .socket ⟨.data, 5, 1, [2]⟩ fun _ ↦ true

theorem names_delivered_late : ∃ tr h, Run harbor (harborInit 1 0x01000005) tr h ∧ tr.length = 4 ∧
    (h.s 2).status.Settled ∧ Delivered 2 tr h := by
  have hpasses : Passes harbor (harborInit 1 0x01000005) [messageToName, nodeConnects,
      nodeNamed, nodeGreets]
      fun tr h ↦ tr.length = 4 ∧ (h.s 2).status.Settled ∧ Steady 2 tr ∧
        Meets (fun h i ↦ i.Allowed h ∧ i.Exact h 2) tr := by decide +kernel
  obtain ⟨tr, h, hrun, hlen, hsettled, hsteady, hmeets⟩ := Run.of_passes hpasses
  exact ⟨tr, h, hrun, hlen, hsettled,
    names_delivered hrun ⟨by decide, by decide, by decide, by decide⟩ hsteady hmeets⟩

/-- The name becomes known before the node is connected, and the service is missing from the frame.
-/
theorem names_not_delivered : ¬∀ tr h, Run harbor (harborInit 1 0x01000005) tr h → Steady 2 tr →
    Meets HarborInput.Allowed tr → Delivered 2 tr h := by
  intro hall
  have hpasses : Passes harbor (harborInit 1 0x01000005) [messageToName, nodeNamed,
      nodeConnects, nodeGreets]
      fun tr h ↦ Steady 2 tr ∧ Meets HarborInput.Allowed tr ∧ (h.s 2).status.Settled ∧
        ¬(transmitted 2 tr).Perm ((acceptedFor tr 2).map HarborMsg.encode) := by decide +kernel
  obtain ⟨tr, h, hrun, hsteady, hmeets, hsettled, hperm⟩ := Run.of_passes hpasses
  exact hperm (hall tr h hrun hsteady hmeets hsettled)

/-! ## Connections that are gone -/

/-- The service that an error goes to, and the session of which it is the answer. -/
def HarborEffect.errorTo : HarborEffect → Option (UInt32 × UInt32)
  | .send _ destination type session _ =>
    if type = ptypeError then some (destination, session) else none
  | _ => none

/-- Every accepted message has been sent, or is waiting, or its source has been sent an error for
its session. -/
def NoneLost (k : ℕ) (tr : List HarborEvent) (h : Harbor) : Prop :=
  ∃ sent answered, transmitted k tr = sent.map HarborMsg.encode ∧
    (∀ m ∈ answered, ∃ e ∈ tr, ∃ x ∈ e.output,
      x.errorTo = some (m.header.source, m.header.session)) ∧
    Outbox.Complete HarborMsg.Carries ⟨sent ++ answered, waitingFor h k, acceptedFor tr k⟩

/-- **No message is lost over a connection that is gone**, if none comes while it is gone that is
not stored, and the connection of a node for which messages are stored is not refused. What is
stored is sent once a connection is past its first byte. -/
theorem none_lost (hrun : Run harbor (harborInit id slave) tr h)
    (hremote : (harborInit id slave).Remote k)
    (hmeets : Meets (fun h i ↦ i.Allowed h ∧ i.Kept h k) tr) :
    NoneLost k tr h ∧ ((h.s k).status.Settled → waitingFor h k = []) := by
  -- what waits may differ from what was accepted in what `Carries` allows; the order is left open
  have hline : Line k (Outbox.Complete HarborMsg.Carries) tr h := by
    apply run_line hrun hremote Outbox.complete_empty
    · exact fun e he ↦ (hmeets e he).1
    · exact fun e he ↦ Or.inl (hmeets e he).2
    · exact fun e _ o mv _ hcarries _ _ ho ↦ ho.apply hcarries
  obtain ⟨sent, hsent, ho⟩ := hline.good
  refine ⟨⟨sent, [], hsent, fun m hm ↦ absurd hm List.not_mem_nil, ?_⟩,
    waitingFor_of_settled hline.ok⟩
  rwa [List.append_nil]

/-- The connection breaks. -/
def nodeBreaks : HarborInput := .socket ⟨.close, 5, 0, []⟩ fun _ ↦ true

/-- A service of node 1 sends to the service 9 of node 2. -/
def messageToHandle : HarborInput :=
  .system ⟨GlobalName.pad [65] (by decide), 0x02000009, [43], 10⟩ 0 0x01000007

/-- A message that comes while the connection has broken before the first byte is kept. -/
theorem none_lost_half : ∃ tr h, Run harbor (harborInit 1 0x01000005) tr h ∧ tr.length = 5 ∧
    (h.s 2).status.Settled ∧ NoneLost 2 tr h := by
  have hpasses : Passes harbor (harborInit 1 0x01000005)
      [nodeConnects, nodeBreaks, messageToHandle, nodeConnects, nodeGreets]
      fun tr h ↦ tr.length = 5 ∧ (h.s 2).status.Settled ∧
        Meets (fun h i ↦ i.Allowed h ∧ i.Kept h 2) tr := by decide +kernel
  obtain ⟨tr, h, hrun, hlen, hsettled, hmeets⟩ := Run.of_passes hpasses
  exact ⟨tr, h, hrun, hlen, hsettled,
    (none_lost hrun ⟨by decide, by decide, by decide, by decide⟩ hmeets).1⟩

/-- A message that comes when the connection has broken after the first byte is handed to the socket
-1, and nobody is told, for whatever session. -/
theorem not_none_lost : ∃ tr h, Run harbor (harborInit 1 0x01000005) tr h ∧
    Meets HarborInput.Allowed tr ∧ (∀ e ∈ tr, ∀ x ∈ e.output, x.errorTo = none) ∧
    ¬NoneLost 2 tr h := by
  have hpasses : Passes harbor (harborInit 1 0x01000005) [nodeConnects, nodeGreets, nodeBreaks,
      messageToHandle]
      fun tr h ↦ Meets HarborInput.Allowed tr ∧ transmitted 2 tr = [] ∧ waitingFor h 2 = [] ∧
        acceptedFor tr 2 ≠ [] ∧ ∀ e ∈ tr, ∀ x ∈ e.output, x.errorTo = none := by decide +kernel
  obtain ⟨tr, h, hrun, hmeets, hnone, hwaiting, haccepted, herror⟩ := Run.of_passes hpasses
  refine ⟨tr, h, hrun, hmeets, herror, ?_⟩
  rintro ⟨sent, answered, hsent, hanswered, l, hperm, hl⟩
  have hsent_nil : sent = [] := by
    rwa [hnone, eq_comm, List.map_eq_nil_iff] at hsent
  have hanswered_nil : answered = [] := by
    refine List.eq_nil_iff_forall_not_mem.mpr fun m hm ↦ ?_
    obtain ⟨e, he, x, hx, hxm⟩ := hanswered m hm
    rw [herror e he x hx] at hxm
    cases hxm
  simp only [hsent_nil, hanswered_nil, hwaiting, List.append_nil, List.nil_perm] at hperm
  simp only [hperm, List.forall₂_nil_left_iff] at hl
  exact haccepted hl

/-! ## Order -/

/-- The messages leave in the order in which they were accepted, and what is waiting comes after. -/
def InTurn (k : ℕ) (tr : List HarborEvent) (h : Harbor) : Prop :=
  ∃ sent, transmitted k tr = sent.map HarborMsg.encode ∧
    Outbox.Ordered HarborMsg.Carries ⟨sent, waitingFor h k, acceptedFor tr k⟩

/-- **Messages leave in order**, if no name becomes known between connection and first byte. -/
theorem in_turn (hrun : Run harbor (harborInit id slave) tr h)
    (hremote : (harborInit id slave).Remote k) (hsteady : Steady k tr)
    (hmeets : Meets (fun h i ↦ i.Allowed h ∧ i.InOrder h k) tr) : InTurn k tr h := by
  -- and here no message may pass those that wait
  have hline : Line k (Outbox.Ordered HarborMsg.Carries) tr h := by
    apply run_line hrun hremote Outbox.ordered_empty
    · exact fun e he ↦ (hmeets e he).1
    · exact fun e he ↦ Or.inr (hsteady e he)
    · exact fun e he o mv _ hcarries _ hord ho ↦ ho.apply hcarries (hord (hmeets e he).2)
  exact hline.good

/-- A name becomes known before the node is connected. -/
theorem in_turn_early_name : ∃ tr h, Run harbor (harborInit 1 0x01000005) tr h ∧ tr.length = 5 ∧
    (transmitted 2 tr).length = 2 ∧ InTurn 2 tr h := by
  have hpasses : Passes harbor (harborInit 1 0x01000005)
      [messageToHandle, messageToName, nodeNamed, nodeConnects, nodeGreets]
      fun tr _ ↦ tr.length = 5 ∧ (transmitted 2 tr).length = 2 ∧ Steady 2 tr ∧
        Meets (fun h i ↦ i.Allowed h ∧ i.InOrder h 2) tr := by decide +kernel
  obtain ⟨tr, h, hrun, hlen, hframes, hsteady, hmeets⟩ := Run.of_passes hpasses
  exact ⟨tr, h, hrun, hlen, hframes,
    in_turn hrun ⟨by decide, by decide, by decide, by decide⟩ hsteady hmeets⟩

/-- A name becomes known between connection and first byte, and its message overtakes the one that
waits for the node. -/
theorem not_in_turn : ¬∀ tr h, Run harbor (harborInit 1 0x01000005) tr h → Steady 2 tr →
    Meets HarborInput.Allowed tr → InTurn 2 tr h := by
  intro hall
  have hpasses : Passes harbor (harborInit 1 0x01000005)
      [messageToHandle, messageToName, nodeConnects, nodeNamed, nodeGreets]
      fun tr h ↦ Steady 2 tr ∧ Meets HarborInput.Allowed tr ∧ waitingFor h 2 = [] ∧
        ∃ m ∈ (acceptedFor tr 2).head?, ∃ frame ∈ (transmitted 2 tr).head?,
          frame ≠ m.encode ∧ frame ≠ m.unaddressed.encode := by decide +kernel
  obtain ⟨tr, h, hrun, hsteady, hmeets, hwaiting, m, hm, frame, hframe, hne, hne'⟩ :=
    Run.of_passes hpasses
  obtain ⟨sent, hsent, hord⟩ := hall tr h hrun hsteady hmeets
  simp only [Outbox.Ordered, hwaiting, List.append_nil] at hord
  rw [hsent] at hframe
  -- the first message that was sent is not the first that was accepted
  generalize acceptedFor tr 2 = accepted at hm hord
  cases hord with
  | nil => cases hm
  | cons hcarries _ =>
    cases hm
    cases hframe
    rcases hcarries with rfl | rfl
    · exact hne rfl
    · exact hne' rfl

end ZTask
