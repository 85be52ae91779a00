import ZTask.Handle.Registry

/-!
# The handle 0

`ztask_handle_init` begins with handle 1, to reserve 0. The search of `ztask_handle_register` goes
up from `handle_index` and wraps after `2 ^ 24 - 1`, so it comes to 0 when the slots of all handles
from `handle_index` on are taken and slot 0 is not (`ZeroIsNext`). With few services this takes one
registration for every handle.

## One registration

`probe_first` says which handle the search finds: the first from `handle_index` on whose slot is
free, counted past the wrap. So it finds 0 exactly when all before the wrap are taken and slot 0 is
free (`probe_eq_zero_iff`). When the table is full it is doubled, and the search begins anew in the
doubled one; `HandleStorage.register_cases` has both ways.

## Runs

`Registry.Counts` holds at the start and is kept by every operation. With it the condition on each
registration, in the state before it, says exactly what the results of a run are
(`register_nonzero_iff`). `rounds` is the run that comes to the wrap with no more than one service
at a time; it is followed by induction, not by computing `2 ^ 24` steps.
-/

namespace ZTask

open Lib

/-! ## Which handle is returned -/

/-- The low 24 bits of the handles that are passed around. -/
def lowBits (handle : ℕ) : ℕ := handle &&& handleMask

namespace Registry

/-- The size of the table once the next registration has doubled it, if it is full. -/
def nextSize (s : Registry) : ℕ :=
  if s.storage.Full then s.storage.slotSize * 2 else s.storage.slotSize

/-- A live context has the slot of the handle. -/
def Occupied (s : Registry) (handle : ℕ) : Prop :=
  ∃ c ∈ s.live, s.handleOf c % s.nextSize = handle % s.nextSize

/-- The slots of the handles from `handle_index` on are taken, and slot 0 is not. -/
def ZeroIsNext (s : Registry) : Prop :=
  ¬ s.Occupied 0 ∧ ∀ handle, s.storage.handleIndex ≤ handle → handle < 2 ^ 24 → s.Occupied handle

end Registry

namespace HandleTable

variable {s : HandleStorage} {key : ℕ → ℕ} {live : Finset ℕ}

/-- The search finds the first handle whose slot is free. -/
theorem probe_first (h : HandleTable s key live) {n i handle : ℕ}
    (hprobe : s.probe n i = some handle) :
    ∃ i', i ≤ i' ∧ i' < i + n ∧ handle = (i' + s.handleIndex) % 2 ^ 24 ∧
      s.slot ((i' + s.handleIndex) % s.slotSize) = none ∧
      ∀ k, i ≤ k → k < i' → s.slot ((k + s.handleIndex) % s.slotSize) ≠ none := by
  induction n generalizing i with
  | zero => cases hprobe
  | succ n ih =>
    rw [HandleStorage.probe] at hprobe
    simp only [and_handleMask, h.and_size] at hprobe
    rw [Nat.mod_mod_of_dvd _ h.dvd_mask] at hprobe
    split at hprobe
    next hfree =>
      exact ⟨i, le_rfl, by omega, (Option.some.inj hprobe).symm, hfree, fun k hle hlt ↦ by omega⟩
    next hused =>
      obtain ⟨i', hle, hlt, heq, hfree, hothers⟩ := ih hprobe
      refine ⟨i', by omega, by omega, heq, hfree, fun k hk hki' ↦ ?_⟩
      rcases Nat.eq_or_lt_of_le hk with rfl | hk
      · exact hused
      · exact hothers k hk hki'

private theorem slot_eq_none_iff (h : HandleTable s key live) (x : ℕ) :
    s.slot (x % s.slotSize) = none ↔ ¬ ∃ c ∈ live, key c % s.slotSize = x % s.slotSize := by
  have hj := Nat.mod_lt x h.size_pos
  constructor
  · rintro hnone ⟨c, hc, hkey⟩
    rw [(h.holds _ hj c).mpr ⟨hc, hkey⟩] at hnone
    cases hnone
  · intro hnot
    by_contra hused
    obtain ⟨c, hc⟩ := Option.ne_none_iff_exists'.mp hused
    exact hnot ⟨c, h.holds.mem hj hc⟩

/-- The search finds 0 if the slots of all handles before the wrap are taken, and slot 0 is free. -/
theorem probe_eq_zero_iff (h : HandleTable s key live) (hpos : 0 < s.handleIndex)
    (hle : s.handleIndex ≤ 2 ^ 24) {handle : ℕ} (hprobe : s.probe s.slotSize 0 = some handle) :
    handle = 0 ↔ (¬ ∃ c ∈ live, key c % s.slotSize = 0 % s.slotSize) ∧
      ∀ x, s.handleIndex ≤ x → x < 2 ^ 24 → ∃ c ∈ live, key c % s.slotSize = x % s.slotSize := by
  have hsize : s.slotSize ≤ 2 ^ 24 := Nat.le_of_dvd (by decide) h.dvd_mask
  have hzero : 2 ^ 24 % s.slotSize = 0 % s.slotSize := by
    rw [Nat.mod_eq_zero_of_dvd h.dvd_mask, Nat.zero_mod]
  obtain ⟨i, -, hlt, rfl, hfree, hused⟩ := h.probe_first hprobe
  rw [Nat.zero_add] at hlt
  constructor
  · intro hwrap
    have hi : i + s.handleIndex = 2 ^ 24 := by omega
    rw [hi, hzero] at hfree
    refine ⟨(h.slot_eq_none_iff 0).mp hfree, fun x hx hxlt ↦ ?_⟩
    have hk := hused (x - s.handleIndex) (Nat.zero_le _) (by omega)
    rw [Nat.sub_add_cancel hx, Ne, h.slot_eq_none_iff, not_not] at hk
    exact hk
  · rintro ⟨hnone, hall⟩
    have hge : 2 ^ 24 ≤ i + s.handleIndex := by
      by_contra hnot
      exact (h.slot_eq_none_iff _).mp hfree (hall _ (Nat.le_add_left _ _) (by omega))
    have hlast : i + s.handleIndex ≤ 2 ^ 24 := by
      by_contra hnot
      refine hused (2 ^ 24 - s.handleIndex) (Nat.zero_le _) (by omega) ?_
      rw [Nat.sub_add_cancel hle, hzero]
      exact (h.slot_eq_none_iff 0).mpr hnone
    rw [Nat.le_antisymm hlast hge, Nat.mod_self]

end HandleTable

/-- What a registration that succeeds has found, in the table as it was or in the doubled one. -/
theorem HandleStorage.register_cases {handleOf : ℕ → ℕ} {s s' : HandleStorage} {c h : ℕ}
    (hreg : s.register handleOf c = .ok (h, s')) :
    ∃ s₁ handle, s₁.probe s₁.slotSize 0 = some handle ∧ h = handle ||| s.harbor ∧
      s'.handleIndex = handle + 1 ∧
      (s₁ = s ∨ s.probe s.slotSize 0 = none ∧ s.slotSize * 2 - 1 ≤ handleMask ∧
        ∃ f, s.rehash handleOf s.slotSize 0 (fun _ ↦ none) = .ok f ∧
          s₁ = { s with slot := f, slotSize := s.slotSize * 2 }) := by
  rw [register, registerLoop] at hreg
  -- a free slot at once, or one after the table has been doubled
  cases hprobe : s.probe s.slotSize 0 with
  | some handle =>
    rw [hprobe] at hreg
    obtain ⟨rfl, rfl⟩ := Prod.mk.inj (Except.ok.inj hreg)
    exact ⟨s, handle, hprobe, rfl, rfl, Or.inl rfl⟩
  | none =>
    rw [hprobe] at hreg
    dsimp only at hreg
    split at hreg
    next hlimit =>
      cases hrehash : s.rehash handleOf s.slotSize 0 fun _ ↦ none with
      | error e =>
        rw [hrehash] at hreg
        cases hreg
      | ok f =>
        rw [hrehash] at hreg
        dsimp only at hreg
        rw [registerLoop] at hreg
        cases hprobe' : HandleStorage.probe { s with slot := f, slotSize := s.slotSize * 2 }
            (s.slotSize * 2) 0 with
        | some handle =>
          rw [hprobe'] at hreg
          obtain ⟨rfl, rfl⟩ := Prod.mk.inj (Except.ok.inj hreg)
          exact ⟨_, handle, hprobe', rfl, rfl, Or.inr ⟨rfl, hlimit, f, rfl, rfl⟩⟩
        | none =>
          rw [hprobe'] at hreg
          dsimp only at hreg
          split at hreg
          · split at hreg <;> cases hreg
          · cases hreg
    next => cases hreg

/-! ## A step -/

/-- The table is in order, and the search begins at a handle or where they wrap. -/
structure Registry.Counts (s : Registry) : Prop where
  ok : s.Ok
  pos : 0 < s.storage.handleIndex
  le : s.storage.handleIndex ≤ 2 ^ 24

namespace Registry

variable {s s' : Registry} {o : HandleOut} {c : ℕ}

theorem counts_init (harbor : ℕ) : (Registry.init harbor).Counts :=
  ⟨ok_init harbor, Nat.one_pos, Nat.one_le_two_pow⟩

theorem update_live (hc : c ∉ s.live) (x : ℕ) :
    ∀ c' ∈ s.live, Function.update s.handleOf c x c' = s.handleOf c' := by
  rintro c' hc'
  refine Function.update_of_ne ?_ _ _
  rintro rfl
  exact hc hc'

private theorem lowBits_or (h : s.Ok) {handle : ℕ} (hlt : handle < 2 ^ 24) :
    lowBits (handle ||| s.storage.harbor) = handle := by
  obtain ⟨b, hb⟩ := h.harbor
  rw [lowBits, HandleTable.and_handleMask, hb, handleRemoteShift, Nat.or_comm,
    ← Nat.shiftLeft_add_eq_or_of_lt hlt, Nat.shiftLeft_eq, Nat.mul_comm, Nat.mul_add_mod,
    Nat.mod_eq_of_lt hlt]

/-- **One registration** returns 0 if 0 is next. -/
theorem register_zero_iff (h : s.Counts) (hc : c ∉ s.live)
    (hstep : registry s (.register c) = .ok (s', o)) :
    s'.Counts ∧ ∃ handle, o = .handle handle ∧ (lowBits handle = 0 ↔ s.ZeroIsNext) := by
  have htable : HandleTable s.storage s.handleOf s.live := h.ok
  have hagree : ∀ c' ∈ s.live, Function.update s.handleOf c 0 c' % (s.storage.slotSize * 2) =
      s.handleOf c' % (s.storage.slotSize * 2) := fun c' hc' ↦ by rw [update_live hc 0 c' hc']
  cases hreg : s.storage.register (Function.update s.handleOf c 0) c with
  | error e =>
    simp only [registry, hreg] at hstep
    cases hstep
  | ok p =>
    obtain ⟨hnew, storage⟩ := p
    simp only [registry, hreg] at hstep
    obtain ⟨rfl, rfl⟩ := Prod.mk.inj (Except.ok.inj hstep)
    obtain ⟨s₁, handle, hprobe, rfl, hindex, hs₁⟩ := HandleStorage.register_cases hreg
    -- the table that has been searched
    have htable₁ : HandleTable s₁ s.handleOf s.live ∧ s₁.handleIndex = s.storage.handleIndex ∧
        s₁.slotSize = s.nextSize := by
      rcases hs₁ with rfl | ⟨hnone, hlimit, f, hrehash, rfl⟩
      · refine ⟨htable, rfl, (if_neg fun hfull ↦ ?_).symm⟩
        obtain ⟨i, -, hlt, -, hfree, -⟩ := htable.probe_first hprobe
        exact hfull _ (Nat.mod_lt _ htable.size_pos) hfree
      · have hfull := htable.full_of_probe hnone
        obtain ⟨f', hrehash', hdoubled⟩ := htable.doubled hfull hagree hlimit
        obtain rfl : f' = f := Except.ok.inj (hrehash'.symm.trans hrehash)
        exact ⟨hdoubled, rfl, (if_pos hfull).symm⟩
    obtain ⟨htable₁, hindex₁, hsize₁⟩ := htable₁
    have hlt := (htable₁.probe_some hprobe).1
    refine ⟨⟨?_, ?_, ?_⟩, _, rfl, ?_⟩
    · rcases HandleTable.register (Function.update s.handleOf c 0) htable hc fun _ ↦ hagree with
        ⟨-, herr⟩ | ⟨handle', storage', hreg', htable'⟩
      · cases hreg.symm.trans herr
      · obtain ⟨rfl, rfl⟩ := Prod.mk.inj (Except.ok.inj (hreg'.symm.trans hreg))
        exact htable'
    · rw [hindex]
      exact Nat.succ_pos handle
    · rw [hindex]
      exact hlt
    · rw [lowBits_or h.ok hlt,
        htable₁.probe_eq_zero_iff (hindex₁ ▸ h.pos) (hindex₁ ▸ h.le) hprobe, hsize₁, hindex₁]
      rfl

/-- The other operations leave the search where it is. -/
theorem Counts.step (h : s.Counts) {op : HandleOp} (hop : op.Fresh s)
    (hstep : registry s op = .ok (s', o)) :
    s'.Counts := by
  cases op with
  | register c => exact (register_zero_iff h hop hstep).1
  | retire handle =>
    obtain ⟨rfl, -⟩ := Prod.mk.inj (Except.ok.inj hstep)
    have hok : s.Ok := h.ok
    rcases HandleTable.retire hok s.handleOf handle with ⟨-, hret⟩ | ⟨c, storage, -,
        -, hret, htable⟩
    · simp only [hret]
      exact ⟨h.ok, h.pos, h.le⟩
    · have hindex : storage.handleIndex = s.storage.handleIndex := by
        rw [HandleStorage.retire] at hret
        split at hret
        · cases hret
        · split at hret
          · rw [← (Prod.mk.inj hret).2]
          · cases hret
      simp only [hret]
      exact ⟨htable, hindex ▸ h.pos, hindex ▸ h.le⟩
  | grab handle =>
    obtain ⟨rfl, -⟩ := Prod.mk.inj (Except.ok.inj hstep)
    exact h

end Registry

/-! ## A run -/

abbrev RegistryEvent := Event Registry HandleOp HandleOut

/-- **When 0 is returned.** In every run, no registration returns a handle whose low bits are 0 if
and only if none is made when 0 is next. -/
theorem register_nonzero_iff {harbor : ℕ} {tr : List RegistryEvent} {s : Registry}
    (hrun : Run registry (.init harbor) tr s) (hfresh : Meets HandleOp.Fresh tr) :
    (∀ e ∈ tr, ∀ handle, e.output = .handle handle → lowBits handle ≠ 0) ↔
      ∀ e ∈ tr, ∀ c, e.input = .register c → ¬ e.pre.ZeroIsNext := by
  have hall : s.Counts ∧ ((∀ e ∈ tr, ∀ handle, e.output = .handle handle → lowBits handle ≠ 0) ↔
      ∀ e ∈ tr, ∀ c, e.input = .register c → ¬ e.pre.ZeroIsNext) := by
    refine hrun.ledger (fun tr s ↦ s.Counts ∧
      ((∀ e ∈ tr, ∀ handle, e.output = .handle handle → lowBits handle ≠ 0) ↔
        ∀ e ∈ tr, ∀ c, e.input = .register c → ¬ e.pre.ZeroIsNext)) ?_ ?_ hfresh
    · exact ⟨Registry.counts_init harbor, iff_of_true (fun _ he ↦ nomatch he) fun _ he ↦ nomatch he⟩
    rintro tr s op s' o - ⟨hcounts, hiff⟩ hop hm
    refine ⟨hcounts.step hop hm, ?_⟩
    rw [List.forall_mem_append, List.forall_mem_append, hiff, List.forall_mem_singleton,
      List.forall_mem_singleton]
    refine and_congr_right fun _ ↦ ?_
    -- only a registration hands out a handle
    cases op with
    | register c =>
      obtain ⟨-, handle, rfl, hzero⟩ := Registry.register_zero_iff hcounts hop hm
      constructor
      · exact fun h _ _ hnext ↦ h handle rfl (hzero.mpr hnext)
      · rintro h _ heq hlow
        obtain rfl := HandleOut.handle.inj heq
        exact h c rfl (hzero.mp hlow)
    | retire handle | grab handle =>
      obtain ⟨-, rfl⟩ := Prod.mk.inj (Except.ok.inj hm)
      exact iff_of_true (fun _ hn ↦ nomatch hn) fun _ hn ↦ nomatch hn
  exact hall.2

/-- Two registrations and a retirement. -/
theorem register_nonzero_iff_two : ∃ tr s, Run registry (.init 1) tr s ∧
    ∀ e ∈ tr, ∀ c, e.input = .register c → ¬ e.pre.ZeroIsNext := by
  have hpasses : Passes registry (.init 1) [.register 5, .register 6, .retire 0x01000001] fun tr _ ↦
      Meets HandleOp.Fresh tr ∧ tr.map Event.output =
        [.handle 0x01000001, .handle 0x01000002, .context (some 5)] := by
    decide +kernel
  obtain ⟨tr, s, hrun, hfresh, houtputs⟩ := Run.of_passes hpasses
  refine ⟨tr, s, hrun, (register_nonzero_iff hrun hfresh).mp fun e he handle heq ↦ ?_⟩
  have hmem : HandleOut.handle handle ∈ tr.map Event.output := heq ▸ List.mem_map_of_mem he
  rw [houtputs] at hmem
  simp only [List.mem_cons, HandleOut.handle.injEq, List.not_mem_nil, or_false,
    reduceCtorEq] at hmem
  rcases hmem with rfl | rfl <;> decide

/-! ## The wrap -/

/-- A table without services. -/
def noServices (k : ℕ) : HandleStorage := { HandleStorage.init 0 with handleIndex := k }

private theorem register_noServices (handleOf : ℕ → ℕ) (c k : ℕ) :
    (noServices k).register handleOf c = .ok (lowBits k, { noServices (lowBits k + 1) with
      slot := Function.update (fun _ ↦ none) (lowBits k &&& 3) (some c) }) := by
  have hprobe : (noServices k).probe (noServices k).slotSize 0 = some (lowBits k) := by
    change (noServices k).probe 4 0 = _
    rw [HandleStorage.probe, Nat.zero_add]
    exact if_pos rfl
  rw [HandleStorage.register, HandleStorage.registerLoop, hprobe]
  exact congrArg Except.ok (Prod.ext (Nat.or_zero _) rfl)

/-- A service is created and killed, `k` times. -/
theorem rounds (k : ℕ) (hk : k + 1 ≤ 2 ^ 24) : ∃ tr s, Run registry (.init 0) tr s ∧
    Meets HandleOp.Fresh tr ∧ s.storage = noServices (k + 1) ∧ s.live = ∅ := by
  induction k with
  | zero => exact ⟨[], .init 0, .nil, meets_nil _, rfl, rfl⟩
  | succ k ih =>
    obtain ⟨tr, s, hrun, hfresh, hstorage, hlive⟩ := ih (Nat.le_of_succ_le hk)
    have hlow : lowBits (k + 1) = k + 1 := by
      rw [lowBits, HandleTable.and_handleMask]
      exact Nat.mod_eq_of_lt hk
    let s₁ : Registry :=
      { storage := { noServices (k + 2) with
          slot := Function.update (fun _ ↦ none) ((k + 1) &&& 3) (some 1) }
        handleOf := Function.update s.handleOf 1 (k + 1)
        live := {1} }
    have hregister : registry s (.register 1) = .ok (s₁, .handle (k + 1)) := by
      simp only [registry, hstorage, register_noServices, hlow, hlive, insert_empty_eq]
      rfl
    have hretire : registry s₁ (.retire (k + 1)) =
        .ok (⟨noServices (k + 2), Function.update s.handleOf 1 (k + 1), ∅⟩, .context (some 1)) := by
      have hslot : s₁.storage.retire s₁.handleOf (k + 1) = (some 1, noServices (k + 2)) := by
        have hfound : s₁.storage.slot ((k + 1) &&& (s₁.storage.slotSize - 1)) = some 1 :=
          Function.update_self ((k + 1) &&& 3) (some 1) fun _ ↦ none
        have hfield : s₁.handleOf 1 = k + 1 := Function.update_self 1 (k + 1) s.handleOf
        have hempty : Function.update s₁.storage.slot ((k + 1) &&& (s₁.storage.slotSize - 1)) none =
            fun _ ↦ none := by
          refine (Function.update_idem _ _ _).trans ?_
          exact Function.update_eq_self _ _
        rw [HandleStorage.retire]
        simp only [hfound, if_pos hfield, hempty]
        rfl
      simp only [registry, hslot]
      rfl
    refine ⟨_, _, .snoc (.snoc hrun hregister) hretire, ?_, rfl, rfl⟩
    refine meets_concat.mpr ⟨meets_concat.mpr ⟨hfresh, ?_⟩, trivial⟩
    change 1 ∉ s.live
    rw [hlive]
    exact Finset.notMem_empty 1

/-- **The wrap.** In a process of harbor 0, a service is created after `2 ^ 24 - 1` others have been
created and killed, one at a time. It gets the handle 0. -/
theorem register_returns_zero : ∃ tr s, Run registry (.init 0) tr s ∧ Meets HandleOp.Fresh tr ∧
    ∃ e ∈ tr, e.output = .handle 0 := by
  obtain ⟨tr, s, hrun, hfresh, hstorage, hlive⟩ := rounds (2 ^ 24 - 1) (by decide)
  have hlow : lowBits (2 ^ 24 - 1 + 1) = 0 := by decide
  have hregister : ∃ s', registry s (.register 1) = .ok (s', .handle 0) := by
    simp only [registry, hstorage, register_noServices, hlow]
    exact ⟨_, rfl⟩
  obtain ⟨s', hregister⟩ := hregister
  refine ⟨_, s', .snoc hrun hregister, meets_concat.mpr ⟨hfresh, ?_⟩, _, List.mem_append_right tr
    (List.mem_singleton_self _), rfl⟩
  change 1 ∉ s.live
  rw [hlive]
  exact Finset.notMem_empty 1

end ZTask
