import ZTask.Handle.Table

/-!
# Registration in one step and in two

Two systems over the same storage. In `registry` a context's handle field is stored before the next
operation, and everything the table promises holds (`registry_exact`). In `creation` the store is a
step of its own, as in `ztask_context_new`, and other threads may run in between. There a
registration that doubles the table reads the field of a context that is still waiting for its
store, which is zero: the context is moved to slot 0, where its handle does not find it, or the
assertion fails because slot 0 is taken (`creation_race`). Only such registrations do harm
(`creation_exact`).
-/

namespace ZTask

open Lib

/-- What a call returns. -/
inductive HandleOut
  | handle (h : ℕ)
  | context (c : Option ℕ)
  | none
deriving DecidableEq, Repr

/-! ## The store belongs to the registration -/

inductive HandleOp
  | register (c : ℕ)
  | retire (handle : ℕ)
  | grab (handle : ℕ)
deriving DecidableEq, Repr

/-- The storage and the handle fields. `live` keeps the books: the contexts registered and not
retired. -/
structure Registry where
  storage : HandleStorage
  handleOf : ℕ → ℕ
  live : Finset ℕ

/-- The contexts left after a retirement. -/
def retired (live : Finset ℕ) : Option ℕ → Finset ℕ
  | none => live
  | some c => live.erase c

/-- The operations, `ctx->handle` being zero when `ztask_handle_register` is called. -/
def registry : Machine Registry HandleOp HandleOut HandleFault
  | s, .register c =>
    match s.storage.register (Function.update s.handleOf c 0) c with
    | .error e => .error e
    | .ok (h, storage) => .ok
      ({ storage := storage, handleOf := Function.update s.handleOf c h, live := insert c s.live },
        .handle h)
  | s, .retire handle =>
    let p := s.storage.retire s.handleOf handle
    .ok ({ s with storage := p.2, live := retired s.live p.1 }, .context p.1)
  | s, .grab handle => .ok (s, .context (s.storage.grab s.handleOf handle))

/-- A context is registered once, and there are fewer than `2 ^ 24` of them. -/
def HandleOp.Allowed (s : Registry) : HandleOp → Prop
  | register c => c ∉ s.live ∧ s.live.card < 2 ^ 24
  | _ => True

instance (s : Registry) : (op : HandleOp) → Decidable (op.Allowed s)
  | .register c => inferInstanceAs (Decidable (c ∉ s.live ∧ s.live.card < 2 ^ 24))
  | .retire _ | .grab _ => .isTrue trivial

/-- A context is registered once; there may be any number of them. -/
def HandleOp.Fresh (s : Registry) : HandleOp → Prop
  | register c => c ∉ s.live
  | retire _ | grab _ => True

instance HandleOp.decidableFresh (s : Registry) : DecidablePred (HandleOp.Fresh s)
  | .register c => inferInstanceAs (Decidable (c ∉ s.live))
  | .retire _ | .grab _ => .isTrue trivial

def Registry.init (harbor : ℕ) : Registry := ⟨.init harbor, fun _ ↦ 0, ∅⟩

namespace Registry

variable {s s' : Registry} {op : HandleOp}

/-- The table finds every live context by its field. -/
def Ok (s : Registry) : Prop := HandleTable s.storage s.handleOf s.live

theorem ok_init (harbor : ℕ) : (Registry.init harbor).Ok := HandleTable.init harbor fun _ ↦ 0

/-- An operation does not fault, keeps the table, and keeps the handles. -/
theorem step_ok (h : s.Ok) (hop : op.Allowed s) : ∃ s' o, registry s op = .ok (s', o) ∧ s'.Ok ∧
    ∀ c ∈ s.live, s'.handleOf c = s.handleOf c := by
  cases op with
  | register c =>
    obtain ⟨hnew, hcard⟩ := hop
    have hother : ∀ h, ∀ c' ∈ s.live, Function.update s.handleOf c h c' = s.handleOf c' := by
      rintro h c' hc'
      refine Function.update_of_ne ?_ _ _
      rintro rfl
      exact hnew hc'
    rcases HandleTable.register (Function.update s.handleOf c 0) h hnew
      (fun _ c' hc' ↦ by rw [hother 0 c' hc']) with ⟨hge, -⟩ | ⟨handle, storage, hreg, htable⟩
    · omega
    · exact ⟨⟨storage, Function.update s.handleOf c handle, insert c s.live⟩, .handle handle,
        by simp only [registry, hreg], htable, hother handle⟩
  | retire handle =>
    refine ⟨_, _, rfl, ?_, fun _ _ ↦ rfl⟩
    rcases HandleTable.retire h s.handleOf handle with ⟨-, hret⟩ | ⟨c, storage, -, -, hret, htable⟩
    · simp only [hret]
      exact h
    · simp only [hret]
      exact htable
  | grab handle => exact ⟨s, _, rfl, h, fun _ _ ↦ rfl⟩

end Registry

/-- **The handle table is exact.** After any sequence of registrations, retirements and grabs:

* no two live contexts have one handle;
* `ztask_handle_grab` returns the live context whose handle it is given, and no other, and
  `ztask_handle_retire` takes the same one;
* every live context is in the slot of its handle, whatever the size of the table has become;
* the next operation does not fault, and the handles of live contexts do not change. -/
theorem registry_exact {harbor : ℕ} {s : Registry}
    (h : Reachable registry HandleOp.Allowed (.init harbor) s) :
    (∀ c ∈ s.live, ∀ c' ∈ s.live, s.handleOf c = s.handleOf c' → c = c') ∧
      (∀ handle c, s.storage.grab s.handleOf handle = some c ↔ c ∈ s.live ∧ s.handleOf c = handle) ∧
      (∀ handle, (s.storage.retire s.handleOf handle).1 = s.storage.grab s.handleOf handle) ∧
      (∀ c ∈ s.live, s.storage.slot (s.handleOf c &&& (s.storage.slotSize - 1)) = some c) ∧
      ∀ op, HandleOp.Allowed s op → ∃ s' o, registry s op = .ok (s', o) ∧
        ∀ c ∈ s.live, s'.handleOf c = s.handleOf c := by
  have hok : s.Ok := by
    refine h.invariant Registry.Ok (Registry.ok_init harbor) ?_
    intro s op s' o hok hop hstep
    obtain ⟨s'', o'', hs'', hok', -⟩ := Registry.step_ok hok hop
    rw [hstep, Except.ok.injEq, Prod.mk.injEq] at hs''
    exact hs''.1 ▸ hok'
  have hpos := HandleTable.size_pos hok
  -- a slot is found by the low bits alone, and then the whole handle is compared
  have hexact : ∀ handle c, s.storage.grab s.handleOf handle = some c ↔
      c ∈ s.live ∧ s.handleOf c = handle := by
    intro handle c
    rw [HandleTable.grab_eq_some_iff hok]
    constructor
    · rintro ⟨hc, hh, -⟩
      exact ⟨hc, hh⟩
    · rintro ⟨hc, rfl⟩
      exact ⟨hc, rfl, rfl⟩
  refine ⟨?_, hexact, ?_, ?_, ?_⟩
  · -- equal handles have equal low bits, so both contexts would stand in one slot
    intro c hc c' hc' heq
    exact hok.holds.eq_of_mod_eq hpos hc hc' (by rw [heq])
  · intro handle
    rcases HandleTable.retire hok s.handleOf handle with ⟨hgrab, hret⟩ | ⟨c, _, -, hgrab, hret, -⟩
    · rw [hgrab, hret]
    · rw [hgrab, hret]
  · intro c hc
    rw [HandleTable.and_size hok]
    exact hok.holds.cell hpos hc
  · intro op hop
    obtain ⟨s', o, hs', -, hkeep⟩ := Registry.step_ok hok hop
    exact ⟨s', o, hs', hkeep⟩

/-- Five contexts are registered, which doubles the table, and the second is retired. -/
def doublingRun : Registry :=
  [.register 1, .register 2, .register 3, .register 4, .register 5, .retire 2].foldl
    (after registry) (.init 0)

theorem registry_exact_doubling :
    doublingRun.storage.slotSize = 8 ∧ doublingRun.live = {1, 3, 4, 5} ∧
      ∀ c ∈ doublingRun.live,
        doublingRun.storage.grab doublingRun.handleOf (doublingRun.handleOf c) = some c := by
  have hreach : Reachable registry HandleOp.Allowed (.init 0) doublingRun :=
    (Reachable.refl _ _ _).foldl (by decide +kernel)
  obtain ⟨-, hgrab, -⟩ := registry_exact hreach
  exact ⟨by decide +kernel, by decide +kernel, fun c hc ↦ (hgrab _ c).mpr ⟨hc, rfl⟩⟩

/-! ## The store is a step of its own -/

inductive CreationOp
  /-- `ztask_handle_register(ctx)`, for a context whose field is zero. -/
  | register (c : ℕ)
  /-- `ctx->handle = ` what the registration returned. -/
  | store (c : ℕ)
  | retire (handle : ℕ)
  | grab (handle : ℕ)
deriving DecidableEq, Repr

/-- The storage and the handle fields, with what every creator was given, and the contexts whose
creators have yet to store it. -/
structure Creation where
  storage : HandleStorage
  handleOf : ℕ → ℕ
  given : ℕ → ℕ
  pending : Finset ℕ
  live : Finset ℕ

/-- The operations. -/
def creation : Machine Creation CreationOp HandleOut HandleFault
  | s, .register c =>
    let handleOf := Function.update s.handleOf c 0
    match s.storage.register handleOf c with
    | .error e => .error e
    | .ok (h, storage) => .ok
      ({ storage := storage, handleOf := handleOf, given := Function.update s.given c h,
         pending := insert c s.pending, live := insert c s.live }, .handle h)
  | s, .store c =>
    if c ∈ s.pending then .ok
      ({ s with
          handleOf := Function.update s.handleOf c (s.given c)
          pending := s.pending.erase c },
        .none)
    else .ok (s, .none)
  | s, .retire handle =>
    let p := s.storage.retire s.handleOf handle
    .ok ({ s with storage := p.2, live := retired s.live p.1 }, .context p.1)
  | s, .grab handle => .ok (s, .context (s.storage.grab s.handleOf handle))

/-- The allocator returns a block that is not in use. -/
def CreationOp.Allowed (s : Creation) : CreationOp → Prop
  | register c => c ∉ s.live ∧ c ∉ s.pending
  | _ => True

instance (s : Creation) : (op : CreationOp) → Decidable (op.Allowed s)
  | .register c => inferInstanceAs (Decidable (c ∉ s.live ∧ c ∉ s.pending))
  | .store _ | .retire _ | .grab _ => .isTrue trivial

/-- The operation is no registration that doubles the table while the field of some registered
context leads elsewhere than its handle. -/
def CreationOp.Settled (s : Creation) : CreationOp → Prop
  | register _ => s.storage.Full → Agrees s.handleOf s.given s.storage s.live
  | _ => True

instance (s : HandleStorage) : Decidable s.Full :=
  inferInstanceAs (Decidable (∀ j < s.slotSize, s.slot j ≠ none))

instance (handleOf key : ℕ → ℕ) (s : HandleStorage) (live : Finset ℕ) :
    Decidable (Agrees handleOf key s live) :=
  inferInstanceAs (Decidable (∀ c ∈ live, _ = _))

instance (s : Creation) : (op : CreationOp) → Decidable (op.Settled s)
  | .register _ =>
    inferInstanceAs (Decidable (s.storage.Full → Agrees s.handleOf s.given s.storage s.live))
  | .store _ | .retire _ | .grab _ => .isTrue trivial

def Creation.init (harbor : ℕ) : Creation := ⟨.init harbor, fun _ ↦ 0, fun _ ↦ 0, ∅, ∅⟩

namespace Creation

/-- What is expected of the storage in a state: a registered context whose field has been stored is
returned for the handle its creator was given, and the next registration finds no slot taken when it
moves the contexts. -/
def Sound (s : Creation) (C : Creation → CreationOp → Prop) : Prop :=
  (∀ c ∈ s.live, c ∉ s.pending → s.storage.grab s.handleOf (s.given c) = some c) ∧
    ∀ op, op.Allowed s → C s op → creation s op ≠ .error .slotTaken

variable {s s' : Creation} {op : CreationOp} {o : HandleOut}

/-- The table finds every live context by the handle it was given, and the field holds this handle
once it is stored. -/
structure Ok (s : Creation) : Prop where
  table : HandleTable s.storage s.given s.live
  stored : ∀ c ∈ s.live, c ∉ s.pending → s.handleOf c = s.given c

theorem ok_init (harbor : ℕ) : (Creation.init harbor).Ok where
  table := HandleTable.init harbor fun _ ↦ 0
  stored := fun _ hc ↦ by cases hc

/-- A registration that is settled either puts the context into the table or gives up on a full
table of the largest size. -/
theorem register_ok (h : s.Ok) {c : ℕ} (hnew : c ∉ s.live)
    (hset : s.storage.Full → Agrees s.handleOf s.given s.storage s.live) :
    creation s (.register c) = .error .sizeLimit ∨
      ∃ s' o, creation s (.register c) = .ok (s', o) ∧ s'.Ok := by
  have hother : ∀ (f : ℕ → ℕ) (x : ℕ), ∀ c' ∈ s.live, Function.update f c x c' = f c' := by
    rintro f x c' hc'
    refine Function.update_of_ne ?_ _ _
    rintro rfl
    exact hnew hc'
  rcases HandleTable.register (Function.update s.handleOf c 0) h.table hnew
    (fun hfull c' hc' ↦ by rw [hother _ 0 c' hc', hset hfull c' hc'])
    with ⟨-, hreg⟩ | ⟨handle, storage, hreg, htable⟩
  · exact Or.inl (by simp only [creation, hreg])
  · refine Or.inr ⟨⟨storage, Function.update s.handleOf c 0, Function.update s.given c handle,
      insert c s.pending, insert c s.live⟩, .handle handle,
        by simp only [creation, hreg], htable, ?_⟩
    intro c' hc' hp
    simp only [Finset.mem_insert, not_or] at hc' hp
    simp only [Function.update_of_ne hp.1]
    exact h.stored c' (hc'.resolve_left hp.1) hp.2

/-- Every settled step keeps the table. -/
theorem step_ok (h : s.Ok) (hop : op.Allowed s) (hset : op.Settled s)
    (hstep : creation s op = .ok (s', o)) : s'.Ok := by
  cases op with
  | register c =>
    rcases register_ok h hop.1 hset with herr | ⟨s'', o', hs'', hok⟩
    · rw [herr] at hstep
      cases hstep
    · rw [hstep, Except.ok.injEq, Prod.mk.injEq] at hs''
      exact hs''.1 ▸ hok
  | store c =>
    rw [creation] at hstep
    split at hstep
    · rw [Except.ok.injEq, Prod.mk.injEq] at hstep
      obtain ⟨rfl, -⟩ := hstep
      refine ⟨h.table, fun c' hc' hp ↦ ?_⟩
      simp only [Finset.mem_erase, not_and] at hp
      by_cases hcc : c' = c
      · simp [hcc]
      · simp only [Function.update_of_ne hcc]
        exact h.stored c' hc' (hp hcc)
    · rw [Except.ok.injEq, Prod.mk.injEq] at hstep
      exact hstep.1 ▸ h
  | retire handle =>
    rw [creation, Except.ok.injEq, Prod.mk.injEq] at hstep
    obtain ⟨rfl, -⟩ := hstep
    rcases h.table.retire s.handleOf handle with ⟨-, hret⟩ | ⟨c, storage, -, -, hret, htable⟩
    · simp only [hret]
      exact h
    · simp only [hret]
      exact ⟨htable, fun c' hc' ↦ h.stored c' (Finset.mem_of_mem_erase hc')⟩
  | grab handle =>
    rw [creation, Except.ok.injEq, Prod.mk.injEq] at hstep
    exact hstep.1 ▸ h

end Creation

/-- **Registration is safe while it is settled.** In every run without a registration that doubles
the table while the field of a registered context leads elsewhere than its handle, every context
whose field has been stored is found by its handle, and no such registration finds a slot taken. -/
theorem creation_exact {harbor : ℕ} {s : Creation}
    (h : Reachable creation (fun s op ↦ op.Allowed s ∧ op.Settled s) (.init harbor) s) :
    s.Sound fun s op ↦ op.Settled s := by
  have hok : s.Ok := by
    refine h.invariant Creation.Ok (Creation.ok_init harbor) ?_
    intro s op s' o hok hop hstep
    exact Creation.step_ok hok hop.1 hop.2 hstep
  constructor
  · intro c hc hp
    rw [hok.table.grab_eq_some_iff]
    exact ⟨hc, hok.stored c hc hp, rfl⟩
  · intro op hop hset herr
    cases op with
    | register c =>
      rcases Creation.register_ok hok hop.1 hset with hlimit | ⟨s', o, hs', -⟩
      · rw [hlimit] at herr
        cases herr
      · rw [hs'] at herr
        cases herr
    | store c =>
      rw [creation] at herr
      split at herr <;> cases herr
    | retire handle | grab handle => cases herr

/-- Four services are created one after the other; a fifth registers while the fourth has stored its
handle, and everything is found. -/
theorem creation_exact_settled :
    (([.register 1, .store 1, .register 2, .store 2, .register 3, .store 3, .register 4, .store 4,
      .register 5].foldl (after creation) (.init 0)) : Creation).Sound fun s op ↦ op.Settled s :=
  creation_exact ((Reachable.refl _ _ _).foldl (by decide +kernel))

/-- Three services are created. The fourth registers; before it stores its handle, the fifth
registers and doubles the table. Then the fourth stores its handle. -/
def lostRun : Creation :=
  [.register 1, .store 1, .register 2, .store 2, .register 3, .store 3, .register 4, .register 5,
    .store 4].foldl (after creation) (.init 0)

/-- Two services are created, and two more have registered without having stored their handles. -/
def takenRun : Creation :=
  [.register 1, .store 1, .register 2, .store 2, .register 3, .register 4].foldl
    (after creation) (.init 0)

/-- **The race.** In `lostRun` the fourth service was given handle 4 and has stored it, and
`ztask_handle_grab` does not find it; in `takenRun` the next registration fails the assertion on a
taken slot. -/
theorem creation_race :
    (Reachable creation (fun s op ↦ op.Allowed s) (.init 0) lostRun ∧ 4 ∈ lostRun.live ∧
        4 ∉ lostRun.pending ∧ lostRun.given 4 = 4 ∧
        lostRun.storage.grab lostRun.handleOf 4 = none) ∧
      Reachable creation (fun s op ↦ op.Allowed s) (.init 0) takenRun ∧
        CreationOp.Allowed takenRun (.register 5) ∧
        creation takenRun (.register 5) = .error .slotTaken := by
  constructor
  · refine ⟨(Reachable.refl _ _ _).foldl (by decide +kernel), ?_⟩
    decide +kernel
  · refine ⟨(Reachable.refl _ _ _).foldl (by decide +kernel), by decide +kernel, ?_⟩
    rfl

end ZTask
