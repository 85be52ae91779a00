import ZTask.Server.Send

/-!
# Who owns a payload

Whoever sends a message gives its payload away: it is in one message queue afterwards, or it has
been freed. The payload is the caller's own under `PTYPE_TAG_DONTCOPY`, and the copy that
`_filter_args` makes otherwise. Every way out of `ztask_send` and `ztask_sendname` sees to it but
one: a payload for the handle 0 is neither queued nor freed (`payload_settled_iff`).

## Owners

`Settled` is the goal: one queue has the payload, or it has been freed once. `Owned` is what is true
of it on the way: no queue has it, and it has not been freed. Each helper of the two functions
either passes the ownership on or settles the payload, and has its lemma: `Filtered` for
`_filter_args`, `sendLetter_spec` for what goes to the harbor service, `sendArgs_spec` for the rest.

## Which payloads leak

After `_filter_args` only the test for the handle 0 returns without freeing. The condition of
`payload_settled_iff` is about the arguments and the names that are bound, and it is exact: for
every node, destination, type, size and session the payload is settled unless `Leaks` holds of the
call.
-/

namespace ZTask

open Lib

namespace Post

/-! ## Holding a payload -/

/-- The message has the payload `p`, or wraps it in a `remote_message`. -/
def Carries (s : Post) (p : ℕ) (message : ZtaskMessage) : Prop :=
  message.data = some p ∨
    ∃ a rmsg, message.data = some a ∧ s.heap a = some (.remote rmsg) ∧ rmsg.message = some p

/-- No queue holds the payload. -/
def Unheld (s : Post) (p : ℕ) : Prop := ∀ c, ∀ x ∈ (s.mail c).toList, ¬s.Carries p x

/-- One queue holds the payload, in one message. -/
def HeldOnce (s : Post) (p : ℕ) : Prop :=
  ∃ c before message after, (s.mail c).toList = before ++ message :: after ∧
    s.Carries p message ∧ (∀ x ∈ before ++ after, ¬s.Carries p x) ∧
    ∀ c' ≠ c, ∀ x ∈ (s.mail c').toList, ¬s.Carries p x

/-- The payload is in exactly one queue, or has been freed exactly once; never both, never neither.
-/
def Settled (s : Post) (p : ℕ) : Prop :=
  s.HeldOnce p ∧ s.frees p = 0 ∨ s.Unheld p ∧ s.frees p = 1

/-- A block that somebody owns: no queue holds it, and it has not been freed. -/
structure Owned (s : Post) (p : ℕ) : Prop where
  unheld : s.Unheld p
  frees : s.frees p = 0
  lt : p < s.next

/-- What holds between calls: nothing refers to an address that has not been handed out. -/
structure Ok (s : Post) : Prop where
  mail : ∀ c, ∀ x ∈ (s.mail c).toList, ∀ a ∈ x.data, a < s.next
  remote : ∀ a rmsg, s.heap a = some (.remote rmsg) → ∀ p ∈ rmsg.message, p < s.next
  frees : ∀ a, s.next ≤ a → s.frees a = 0
  copied : ∀ a ∈ s.copied, a < s.next

variable {s : Post} {p : ℕ}

theorem Owned.not_settled (h : s.Owned p) : ¬s.Settled p := by
  rintro (⟨⟨c, before, message, after, hmail, hcarries, -⟩, -⟩ | ⟨-, hfrees⟩)
  · refine h.unheld c message ?_ hcarries
    rw [hmail]
    exact List.mem_append_right _ List.mem_cons_self
  · rw [h.frees] at hfrees
    cases hfrees

/-! ### Allocation -/

private theorem heap_malloc_of_ne (b : Block) {a : ℕ} (ha : a ≠ s.next) :
    (s.malloc b).2.heap a = s.heap a := Function.update_of_ne ha _ _

private theorem heap_malloc_self (b : Block) : (s.malloc b).2.heap s.next = some b :=
  Function.update_self _ _ _

private theorem carries_malloc (ok : s.Ok) (b : Block) {c : ℕ} {x : ZtaskMessage}
    (hx : x ∈ (s.mail c).toList) : (s.malloc b).2.Carries p x ↔ s.Carries p x := by
  rw [Carries, Carries]
  refine or_congr_right ⟨?_, ?_⟩
  · rintro ⟨a, rmsg, ha, hheap, hp⟩
    rw [heap_malloc_of_ne b (Nat.ne_of_lt (ok.mail c x hx a ha))] at hheap
    exact ⟨a, rmsg, ha, hheap, hp⟩
  · rintro ⟨a, rmsg, ha, hheap, hp⟩
    refine ⟨a, rmsg, ha, ?_, hp⟩
    rwa [heap_malloc_of_ne b (Nat.ne_of_lt (ok.mail c x hx a ha))]

theorem Owned.malloc (h : s.Owned p) (ok : s.Ok) (b : Block) : (s.malloc b).2.Owned p where
  unheld := fun c x hx hcarries ↦ h.unheld c x hx ((carries_malloc ok b hx).mp hcarries)
  frees := h.frees
  lt := Nat.lt_succ_of_lt h.lt

theorem Ok.owned_malloc (ok : s.Ok) (b : Block) : (s.malloc b).2.Owned s.next where
  unheld := by
    intro c x hx hcarries
    rcases (carries_malloc ok b hx).mp hcarries with hdata | ⟨a, rmsg, -, hheap, hp⟩
    · exact Nat.lt_irrefl _ (ok.mail c x hx _ hdata)
    · exact Nat.lt_irrefl _ (ok.remote a rmsg hheap _ hp)
  frees := ok.frees _ (Nat.le_refl _)
  lt := Nat.lt_succ_self _

theorem Ok.malloc (ok : s.Ok) {b : Block}
    (hb : ∀ rmsg, b = .remote rmsg → ∀ p ∈ rmsg.message, p < s.next) : (s.malloc b).2.Ok where
  mail := fun c x hx a ha ↦ Nat.lt_succ_of_lt (ok.mail c x hx a ha)
  remote := by
    intro a rmsg hheap p hp
    by_cases ha : a = s.next
    · rw [ha, heap_malloc_self, Option.some.injEq] at hheap
      exact Nat.lt_succ_of_lt (hb rmsg hheap p hp)
    · rw [heap_malloc_of_ne b ha] at hheap
      exact Nat.lt_succ_of_lt (ok.remote a rmsg hheap p hp)
  frees := fun a ha ↦ ok.frees a (Nat.le_of_succ_le ha)
  copied := fun a ha ↦ Nat.lt_succ_of_lt (ok.copied a ha)

/-! ### Freeing -/

private theorem heap_of_free {q a : ℕ} {b : Block} (h : (s.free (some q)).heap a = some b) :
    s.heap a = some b := by
  have hheap : (s.free (some q)).heap = Function.update s.heap q none := rfl
  rw [hheap] at h
  by_cases ha : a = q
  · rw [ha, Function.update_self] at h
    cases h
  · rwa [Function.update_of_ne ha] at h

private theorem carries_of_free {q : ℕ} {x : ZtaskMessage} (h : (s.free (some q)).Carries p x) :
    s.Carries p x := by
  rcases h with hdata | ⟨a, rmsg, ha, hheap, hp⟩
  · exact Or.inl hdata
  · exact Or.inr ⟨a, rmsg, ha, heap_of_free hheap, hp⟩

theorem Owned.free (h : s.Owned p) : (s.free (some p)).Settled p := by
  refine Or.inr ⟨fun c x hx hcarries ↦ h.unheld c x hx (carries_of_free hcarries), ?_⟩
  simp only [Post.free, Function.update_self, h.frees]

theorem Ok.free (ok : s.Ok) {data : Option ℕ} (hdata : ∀ p ∈ data, p < s.next) :
    (s.free data).Ok := by
  cases data with
  | none => exact ok
  | some q =>
    refine ⟨ok.mail, fun a rmsg hheap ↦ ok.remote a rmsg (heap_of_free hheap), ?_, ok.copied⟩
    intro a ha
    have hfrees : (s.free (some q)).frees = Function.update s.frees q (s.frees q + 1) := rfl
    rw [hfrees, Function.update_of_ne (Nat.ne_of_gt (Nat.lt_of_lt_of_le (hdata q rfl) ha))]
    exact ok.frees a ha

/-! ### Queueing -/

private theorem toList_push_self (c : ℕ) (message : ZtaskMessage) :
    ((s.push c message).mail c).toList = (s.mail c).toList ++ [message] := by
  have hmail : (s.push c message).mail = Function.update s.mail c (pushRing (s.mail c) message) :=
    rfl
  rw [hmail, Function.update_self, toList_pushRing]

private theorem mail_push_of_ne {c c' : ℕ} (message : ZtaskMessage) (hc : c' ≠ c) :
    (s.push c message).mail c' = s.mail c' := Function.update_of_ne hc _ _

theorem Owned.push (h : s.Owned p) (c : ℕ) {message : ZtaskMessage} (hm : s.Carries p message) :
    (s.push c message).Settled p := by
  refine Or.inl ⟨⟨c, (s.mail c).toList, message, [], ?_, hm, ?_, ?_⟩, h.frees⟩
  · rw [toList_push_self]
  · rw [List.append_nil]
    exact h.unheld c
  · intro c' hc x hx
    rw [mail_push_of_ne message hc] at hx
    exact h.unheld c' x hx

theorem Ok.push (ok : s.Ok) (c : ℕ) {message : ZtaskMessage}
    (hm : ∀ a ∈ message.data, a < s.next) : (s.push c message).Ok where
  mail := by
    intro c' x hx
    by_cases hc : c' = c
    · subst hc
      rw [toList_push_self, List.mem_append, List.mem_singleton] at hx
      rcases hx with hx | rfl
      · exact ok.mail c' x hx
      · exact hm
    · rw [mail_push_of_ne message hc] at hx
      exact ok.mail c' x hx
  remote := ok.remote
  frees := ok.frees
  copied := ok.copied

end Post

/-! ## The functions -/

variable {s s' : Post} {context : ℕ} {type : UInt32} {session : ℤ} {data : Option ℕ} {sz : ℕ}
  {args : SendArgs} {ret : ℤ}

/-- The payload of a call that has gone from `s` to `s'`: the caller's own, or a copy it has made.
-/
def IsPayload (type : UInt32) (data : Option ℕ) (s s' : Post) (p : ℕ) : Prop :=
  type &&& ptypeTagDontcopy ≠ 0 ∧ data = some p ∨ p ∈ s'.copied ∧ p ∉ s.copied

/-- What `_filter_args` comes to: the payload is in the arguments, and it has an owner. -/
structure Filtered (type : UInt32) (data : Option ℕ) (s s' : Post) (args : SendArgs) : Prop where
  ok : s'.Ok
  owned : ∀ p ∈ args.data, s'.Owned p
  payload : ∀ p, args.data = some p ↔ IsPayload type data s s' p
  null : args.data = none ↔ data = none

private theorem filterData_spec {d : Option ℕ} (ok : s.Ok)
    (hdata : ∀ p ∈ data, type &&& ptypeTagDontcopy ≠ 0 → s.Owned p)
    (hok : filterData s type data sz = .ok (d, s')) :
    Filtered type data s s' ⟨session, d, sz⟩ := by
  cases data with
  | none =>
    cases hok
    refine ⟨ok, fun _ hp ↦ (nomatch hp), fun p ↦ ⟨fun hp ↦ (nomatch hp), ?_⟩, Iff.rfl⟩
    rintro (⟨-, hp⟩ | ⟨hp, hnot⟩)
    · cases hp
    · exact absurd hp hnot
  | some q =>
    dsimp only [filterData] at hok
    by_cases htag : type &&& ptypeTagDontcopy ≠ 0
    · rw [if_pos htag] at hok
      cases hok
      refine ⟨ok, fun p hp ↦ hdata p hp htag, fun p ↦ ⟨fun hp ↦ Or.inl ⟨htag, hp⟩, ?_⟩, by simp⟩
      rintro (⟨-, hp⟩ | ⟨hp, hnot⟩)
      · exact hp
      · exact absurd hp hnot
    · rw [if_neg htag, copyPayload] at hok
      split at hok
      next bytes hheap =>
        by_cases hin : sz ≤ bytes.length
        · -- the copy is at the next fresh address
          rw [if_pos hin] at hok
          cases hok
          have hfresh := ok.owned_malloc (.payload (bytes.take sz ++ [0]))
          have hmalloc := ok.malloc (b := .payload (bytes.take sz ++ [0]))
            (fun _ hb ↦ by cases hb)
          refine ⟨⟨hmalloc.mail, hmalloc.remote, hmalloc.frees, ?_⟩, ?_, fun p ↦ ⟨?_, ?_⟩, by simp⟩
          · intro a ha
            rcases List.mem_cons.mp ha with rfl | ha
            · exact Nat.lt_succ_self _
            · exact hmalloc.copied a ha
          · intro p hp
            cases hp
            exact ⟨hfresh.unheld, hfresh.frees, hfresh.lt⟩
          · intro hp
            cases hp
            exact Or.inr ⟨List.mem_cons_self, fun hp ↦ Nat.lt_irrefl _ (ok.copied _ hp)⟩
          · rintro (⟨htag', -⟩ | ⟨hp, hnot⟩)
            · exact absurd htag' htag
            · rcases List.mem_cons.mp hp with rfl | hp
              · rfl
              · exact absurd hp hnot
        · rw [if_neg hin] at hok
          cases hok
      next => cases hok

theorem filterSession_spec {n : ℤ} (hok : filterSession s context type session = .ok (n, s')) :
    s' = { s with sessionId := s'.sessionId } := by
  rw [filterSession] at hok
  split at hok
  · split at hok <;> cases hok
    rfl
  · cases hok
    rfl

private theorem filterArgs_spec (ok : s.Ok)
    (hdata : ∀ p ∈ data, type &&& ptypeTagDontcopy ≠ 0 → s.Owned p)
    (hok : filterArgs s context type session data sz = .ok (args, s')) :
    Filtered type data s s' args := by
  simp only [filterArgs, bind, Except.bind, pure, Except.pure] at hok
  cases hsession : filterSession s context type session with
  | error e => simp [hsession] at hok
  | ok p =>
    obtain ⟨n, s₁⟩ := p
    have hs₁ := filterSession_spec hsession
    have ok₁ : s₁.Ok := by
      rw [hs₁]
      exact ⟨ok.mail, ok.remote, ok.frees, ok.copied⟩
    cases hfilter : filterData s₁ type data sz with
    | error e => simp [hsession, hfilter] at hok
    | ok q =>
      simp only [hsession, hfilter, Except.ok.injEq, Prod.mk.injEq] at hok
      obtain ⟨rfl, rfl⟩ := hok
      have hfiltered := @filterData_spec _ _ _ n _ _ _ ok₁ (fun p hp htag ↦ by
        rw [hs₁]
        have howned := hdata p hp htag
        exact ⟨howned.unheld, howned.frees, howned.lt⟩) hfilter
      refine ⟨hfiltered.ok, hfiltered.owned, fun p ↦ ?_, hfiltered.null⟩
      rw [hfiltered.payload, IsPayload, IsPayload, hs₁]

private theorem harborSend_spec {rmsg mtype : ℕ} {source : UInt32}
    (hok : harborSend s rmsg mtype source session = .ok s') :
    ∃ c message, message.data = some rmsg ∧ s' = s.push c message := by
  rw [harborSend] at hok
  split at hok
  · cases hok
  · split at hok
    · cases hok
    · cases hok
      exact ⟨_, _, rfl, rfl⟩

/-- A payload that is wrapped is in the queue of the harbor service. -/
theorem sendLetter_spec {name : GlobalName} {handle source : UInt32} (ok : s.Ok)
    (howned : ∀ p ∈ args.data, s.Owned p)
    (hok : sendLetter s name handle source args = .ok (ret, s')) :
    s'.Ok ∧ s'.copied = s.copied ∧ ∀ p ∈ args.data, s'.Settled p := by
  simp only [sendLetter] at hok
  obtain ⟨rmsg, hrmsg⟩ : ∃ rmsg : RemoteLetter, rmsg = ⟨name, handle, args.data,
    args.sz &&& messageTypeMask, args.sz >>> messageTypeShift⟩ := ⟨_, rfl⟩
  have hdata : rmsg.message = args.data := by rw [hrmsg]
  rw [← hrmsg] at hok
  obtain ⟨b, hb⟩ : ∃ b, b = Block.remote rmsg := ⟨_, rfl⟩
  rw [← hb] at hok
  cases hsend : harborSend (s.malloc b).2 (s.malloc b).1 (args.sz >>> messageTypeShift) source
      args.session with
  | error e => simp [hsend, Except.map] at hok
  | ok s₁ =>
    simp only [hsend, Except.map, Except.ok.injEq, Prod.mk.injEq] at hok
    obtain ⟨-, rfl⟩ := hok
    obtain ⟨c, message, hmessage, rfl⟩ := harborSend_spec hsend
    have hmalloc := ok.malloc (b := b) (fun rmsg' heq p hp ↦ by
      rw [hb, Block.remote.injEq] at heq
      rw [← heq, hdata] at hp
      exact (howned p hp).lt)
    refine ⟨hmalloc.push c (fun a ha ↦ ?_), rfl, fun p hp ↦ ?_⟩
    · rw [hmessage] at ha
      cases ha
      exact Nat.lt_succ_self _
    · refine ((howned p hp).malloc ok b).push c (Or.inr ⟨s.next, rmsg, hmessage, ?_, ?_⟩)
      · rw [Post.heap_malloc_self, hb]
      · rw [hdata]
        exact hp

/-- **What becomes of a payload**: it is settled, unless it is for the handle 0. -/
theorem sendArgs_spec {source destination : UInt32} (ok : s.Ok)
    (howned : ∀ p ∈ args.data, s.Owned p)
    (hok : sendArgs s source destination args = .ok (ret, s')) :
    s'.Ok ∧ s'.copied = s.copied ∧ ∀ p ∈ args.data, s'.Settled p ↔ destination ≠ 0 := by
  rw [sendArgs] at hok
  by_cases hzero : destination = 0
  · rw [if_pos hzero] at hok
    cases hok
    exact ⟨ok, rfl, fun p hp ↦ ⟨fun h ↦ absurd h (howned p hp).not_settled,
      fun h ↦ absurd hzero h⟩⟩
  · rw [if_neg hzero] at hok
    simp only [bind, Except.bind] at hok
    split at hok
    · cases hok
    · split at hok
      · obtain ⟨ok', hcopied, hsettled⟩ := sendLetter_spec ok howned hok
        exact ⟨ok', hcopied, fun p hp ↦ ⟨fun _ ↦ hzero, fun _ ↦ hsettled p hp⟩⟩
      · rw [contextPush] at hok
        split at hok
        · -- there is no such service
          cases hok
          refine ⟨ok.free fun p hp ↦ (howned p hp).lt, ?_, fun p hp ↦ ⟨fun _ ↦ hzero, fun _ ↦ ?_⟩⟩
          · cases args.data <;> rfl
          · rw [show args.data = some p from hp]
            exact (howned p hp).free
        · cases hok
          exact ⟨ok.push _ fun a ha ↦ (howned a ha).lt, rfl,
            fun p hp ↦ ⟨fun _ ↦ hzero, fun _ ↦ (howned p hp).push _ (Or.inl hp)⟩⟩

/-! ## Calls -/

/-- Whom a message is sent to: `ztask_send` takes a handle, `ztask_sendname` an address. -/
inductive SendTarget
  | handle (destination : UInt32)
  | name (addr : List Char)

/-- A call of `ztask_send` or `ztask_sendname`. -/
structure SendCall where
  context : ℕ
  source : UInt32
  target : SendTarget
  type : UInt32
  session : ℤ
  data : Option ℕ
  sz : ℕ

namespace SendCall

def run (call : SendCall) (s : Post) : Except SendFault (ℤ × Post) :=
  match call.target with
  | .handle destination => ztaskSend s call.context call.source destination call.type call.session
      call.data call.sz
  | .name addr => ztaskSendname s call.context call.source addr call.type call.session call.data
      call.sz

/-- The handle a call is for, if it is for a handle or for a local name that is known. -/
def destination (call : SendCall) (s : Post) : Option UInt32 :=
  match call.target with
  | .handle destination => some destination
  | .name (':' :: number) => some (UInt32.ofNat (strtoulHex number))
  | .name ('.' :: name) =>
    let des := findname s.storage (String.ofList name)
    if des = 0 then none else some (UInt32.ofNat des)
  | .name _ => none

/-- A payload of an acceptable size for the handle 0. -/
def Leaks (call : SendCall) (s : Post) : Prop :=
  call.data ≠ none ∧ call.sz &&& messageTypeMask = call.sz ∧ call.destination s = some 0

/-- A payload that is not to be copied belongs to the caller. -/
def Owns (call : SendCall) (s : Post) : Prop :=
  ∀ p ∈ call.data, call.type &&& ptypeTagDontcopy ≠ 0 → s.Owned p

/-- Whatever the payload of the call is, it is settled. -/
def Settles (call : SendCall) (s s' : Post) : Prop :=
  ∀ p, IsPayload call.type call.data s s' p → s'.Settled p

end SendCall

/-- A payload that is refused before it is copied is freed, if it was the caller's. -/
theorem refused_spec (ok : s.Ok) (hdata : ∀ p ∈ data, type &&& ptypeTagDontcopy ≠ 0 → s.Owned p)
    (hs' : s' = if type &&& ptypeTagDontcopy ≠ 0 then s.free data else s) :
    s'.Ok ∧ ∀ p, IsPayload type data s s' p → s'.Settled p := by
  subst hs'
  by_cases htag : type &&& ptypeTagDontcopy ≠ 0
  · rw [if_pos htag]
    refine ⟨ok.free fun p hp ↦ (hdata p hp htag).lt, ?_⟩
    rintro p (⟨-, rfl⟩ | ⟨hp, hnot⟩)
    · exact (hdata p rfl htag).free
    · cases data <;> exact absurd hp hnot
  · rw [if_neg htag]
    refine ⟨ok, ?_⟩
    rintro p (⟨htag', -⟩ | ⟨hp, hnot⟩)
    · exact absurd htag' htag
    · exact absurd hp hnot

private theorem ztaskSend_spec {source destination : UInt32} (ok : s.Ok)
    (hdata : ∀ p ∈ data, type &&& ptypeTagDontcopy ≠ 0 → s.Owned p)
    (hok : ztaskSend s context source destination type session data sz = .ok (ret, s')) :
    s'.Ok ∧ ((∀ p, IsPayload type data s s' p → s'.Settled p) ↔
      ¬(data ≠ none ∧ sz &&& messageTypeMask = sz ∧ destination = 0)) := by
  rw [ztaskSend] at hok
  by_cases hsize : sz &&& messageTypeMask = sz
  · rw [if_neg (not_not.mpr hsize)] at hok
    simp only [bind, Except.bind] at hok
    cases hfilter : filterArgs s context type session data sz with
    | error fault =>
      rw [hfilter] at hok
      cases hok
    | ok q =>
      obtain ⟨args, s₁⟩ := q
      rw [hfilter] at hok
      have hfiltered := filterArgs_spec ok hdata hfilter
      obtain ⟨ok', hcopied, hsettled⟩ := sendArgs_spec hfiltered.ok hfiltered.owned hok
      have hpayload : ∀ p, IsPayload type data s s' p ↔ args.data = some p := by
        intro p
        rw [hfiltered.payload, IsPayload, IsPayload, hcopied]
      refine ⟨ok', ?_, ?_⟩
      · rintro hall ⟨hnull, -, hzero⟩
        rw [Ne, ← hfiltered.null, ← Ne, Option.ne_none_iff_exists'] at hnull
        obtain ⟨p, hp⟩ := hnull
        exact (hsettled p hp).mp (hall p ((hpayload p).mpr hp)) hzero
      · intro hnot p hp
        rw [hpayload] at hp
        refine (hsettled p hp).mpr fun hzero ↦ hnot ⟨?_, hsize, hzero⟩
        rw [Ne, ← hfiltered.null, hp]
        exact Option.some_ne_none p
  · rw [if_pos hsize] at hok
    simp only [Except.ok.injEq, Prod.mk.injEq] at hok
    obtain ⟨ok', hsettled⟩ := refused_spec ok hdata hok.2.symm
    exact ⟨ok', fun _ h ↦ hsize h.2.1, fun _ ↦ hsettled⟩

private theorem ztaskSendname_global {source : UInt32} {addr : List Char} (ok : s.Ok)
    (hdata : ∀ p ∈ data, type &&& ptypeTagDontcopy ≠ 0 → s.Owned p)
    (hok : ((filterArgs s context type session data sz).bind fun p ↦
      sendLetter p.2 (copyName addr) 0 source p.1) = .ok (ret, s')) :
    s'.Ok ∧ ∀ p, IsPayload type data s s' p → s'.Settled p := by
  cases hfilter : filterArgs s context type session data sz with
  | error e =>
    rw [hfilter] at hok
    cases hok
  | ok q =>
    obtain ⟨args, s₁⟩ := q
    rw [hfilter] at hok
    have hfiltered := filterArgs_spec ok hdata hfilter
    obtain ⟨ok', hcopied, hsettled⟩ := sendLetter_spec hfiltered.ok hfiltered.owned hok
    refine ⟨ok', fun p hp ↦ hsettled p ?_⟩
    rw [IsPayload, hcopied] at hp
    exact (hfiltered.payload p).mpr hp

/-- A call keeps what holds between calls. -/
theorem SendCall.spec {call : SendCall} (ok : s.Ok) (howns : call.Owns s)
    (hok : call.run s = .ok (ret, s')) : s'.Ok ∧ (call.Settles s s' ↔ ¬call.Leaks s) := by
  obtain ⟨context, source, target, type, session, data, sz⟩ := call
  cases target with
  | handle destination =>
    obtain ⟨ok', hiff⟩ := ztaskSend_spec ok howns hok
    refine ⟨ok', hiff.trans ?_⟩
    simp only [SendCall.Leaks, SendCall.destination, Option.some.injEq]
  | name addr =>
    simp only [SendCall.run, ztaskSendname] at hok
    split at hok
    next =>
      obtain ⟨ok', hiff⟩ := ztaskSend_spec ok howns hok
      refine ⟨ok', hiff.trans ?_⟩
      simp only [SendCall.Leaks, SendCall.destination, Option.some.injEq]
    next name =>
      by_cases hunknown : findname s.storage (String.ofList name) = 0
      · rw [if_pos hunknown] at hok
        simp only [Except.ok.injEq, Prod.mk.injEq] at hok
        obtain ⟨ok', hsettled⟩ := refused_spec ok howns hok.2.symm
        refine ⟨ok', fun _ ↦ ?_, fun _ ↦ hsettled⟩
        rintro ⟨-, -, hdestination⟩
        simp only [SendCall.destination, if_pos hunknown] at hdestination
        cases hdestination
      · rw [if_neg hunknown] at hok
        obtain ⟨ok', hiff⟩ := ztaskSend_spec ok howns hok
        refine ⟨ok', hiff.trans ?_⟩
        simp only [SendCall.Leaks, SendCall.destination, if_neg hunknown, Option.some.injEq]
    next hhandle hlocal =>
      obtain ⟨ok', hsettled⟩ := ztaskSendname_global ok howns hok
      refine ⟨ok', fun _ ↦ ?_, fun _ ↦ hsettled⟩
      rintro ⟨-, -, hdestination⟩
      simp only [SendCall.destination] at hdestination
      cases hdestination

/-- **Every payload is settled**, in one queue or freed once, if and only if it is not for the
handle
0. Whatever the node's services and names, the destination, the type with its flags, the size and
   the payload of a call that returns: the block that is the caller's own or that was copied is in
   exactly one message of one queue and has not been freed, or it is in no queue and has been freed
   once. -/
theorem payload_settled_iff {call : SendCall} (ok : s.Ok) (howns : call.Owns s)
    (hok : call.run s = .ok (ret, s')) : call.Settles s s' ↔ ¬call.Leaks s :=
  (SendCall.spec ok howns hok).2

/-- A node of one service, at the address 7, with the handle `0x01000001`. -/
def oneService : Post where
  storage := { HandleStorage.init 1 with slot := fun i ↦ if i = 1 then some 7 else none }
  handleOf := fun _ ↦ 0x01000001
  mail := fun _ ↦ (mqCreate 0).ring
  sessionId := fun _ ↦ 0
  remote := some 7
  harbor := some 0x01000000
  heap := fun a ↦ if a = 0 then some (.payload [104, 105]) else none
  next := 1
  frees := fun _ ↦ 0
  copied := []

private theorem oneService_ok : oneService.Ok := by
  have hmail : ∀ c, (oneService.mail c).toList = [] := fun c ↦ RingBuffer.toList_eq_nil rfl
  refine ⟨fun c x hx ↦ ?_, fun a rmsg hheap ↦ ?_, fun _ _ ↦ rfl, fun a ha ↦ (nomatch ha)⟩
  · rw [hmail] at hx
    cases hx
  · simp only [oneService] at hheap
    split at hheap <;> cases hheap

/-- The service sends itself two bytes, which are copied. -/
theorem payload_settled_copy : ∃ ret s', SendCall.run ⟨7, 0, .handle 0x01000001, 0, 0, some 0, 2⟩
    oneService = .ok (ret, s') ∧
      SendCall.Settles ⟨7, 0, .handle 0x01000001, 0, 0, some 0, 2⟩ oneService s' := by
  refine ⟨_, _, rfl, (payload_settled_iff oneService_ok
    (fun _ _ htag ↦ absurd rfl htag) rfl).mpr ?_⟩
  rintro ⟨-, -, hzero⟩
  exact absurd hzero (by decide)

/-- Two bytes for the handle 0 are copied, and the copy is lost. -/
theorem payload_not_settled : ¬∀ (call : SendCall) (s s' : Post) (ret : ℤ), s.Ok → call.Owns s →
    call.run s = .ok (ret, s') → call.Settles s s' := by
  intro hall
  have hsettled := hall ⟨7, 0, .handle 0, 0, 0, some 0, 2⟩ oneService _ _ oneService_ok
    (fun _ _ htag ↦ absurd rfl htag) rfl 1 (Or.inr ⟨List.mem_cons_self, List.not_mem_nil⟩)
  exact ((oneService_ok.owned_malloc _).not_settled) hsettled

end ZTask
