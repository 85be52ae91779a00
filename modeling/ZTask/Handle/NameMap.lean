import ZTask.Handle.Names
import ZTask.Handle.Reserved

/-!
# The name index is a map

The array is sorted, so that a name comes once in it and a search finds it
(`NameArray.search_right`). A name that is inserted goes where it belongs, in the block itself or in
a larger one, and a retirement leaves the other names in order. `bindings` is the map that a run
should have made of the names, from the results of its calls alone; the array holds exactly the
pairs of that map.

## Where a name goes

`_insert_name` searches by halves. `Sorted` makes the search right: it finds the entry, or the place
before which the name belongs. In a block that is full the entries are copied to one of twice the
capacity with the gap in place; in any other they are shifted by one (`insertNameBefore_eq`). A
retirement goes over the entries with two indices and keeps those of other handles.

## The abstract map

`bindings` is computed from the results that callers see, and not from the array. So
`names_are_a_map` says both what the array is like after any run and what the next call returns.
-/

namespace ZTask

open Lib

/-! ## One array -/

namespace NameArray

variable {s s' : NameArray} {name : List UInt8} {handle : ℕ}

/-- No name comes twice, and they go up. -/
def Sorted (s : NameArray) : Prop := SortedBy HandleName.name s.toList

private theorem sorted_init : init.Sorted := List.Pairwise.nil

/-- There is an entry for the name. -/
def Has (s : NameArray) (name : List UInt8) : Prop := ∃ handle, ⟨name, handle⟩ ∈ s.toList

theorem mem_toList {i : ℕ} (hi : i < s.count) :
    s.cells i ∈ s.toList := mem_firstCells.mpr ⟨i, hi, rfl⟩

private theorem search_right (h : s.Sorted) (name : List UInt8) :
    ∃ r, s.search name = some r ∧ r.Right (fun i ↦ strcmp (s.cells i).name name) s.count :=
  binarySearch_right (fun _ _ hij hj hi ↦ h.search name hij hj hi) le_rfl (by omega) (by omega)
    (fun i hi ↦ by omega) (fun i hi hin ↦ by omega) (by omega)

theorem mem_of_found {mid : ℕ} (hr : (Search.found mid).Right (fun i ↦ strcmp (s.cells i).name name)
    s.count) :
    ⟨name, (s.cells mid).handle⟩ ∈ s.toList := by
  obtain ⟨hlt, heq⟩ := hr
  have hname : (s.cells mid).name = name := Std.LawfulEqOrd.eq_of_compare heq
  rw [← hname]
  exact mem_toList hlt

private theorem not_has_of_absent {begin : ℕ}
    (hr : (Search.absent begin).Right (fun i ↦ strcmp (s.cells i).name name) s.count) :
    ¬ s.Has name := by
  rintro ⟨handle, hmem⟩
  obtain ⟨i, hi, hcell⟩ := mem_firstCells.mp hmem
  have heq : strcmp (s.cells i).name name = .eq := by
    rw [hcell]
    exact Std.ReflOrd.compare_self
  rcases Nat.lt_or_ge i begin with hlt | hge
  · have hless : strcmp (s.cells i).name name = .lt := hr.2.1 i hlt
    cases heq.symm.trans hless
  · have hgreater : strcmp (s.cells i).name name = .gt := hr.2.2 i hge hi
    cases heq.symm.trans hgreater

private theorem findname_eq (h : s.Sorted) (name : List UInt8) :
    (∃ handle, ⟨name, handle⟩ ∈ s.toList ∧ s.findname name = .ok handle) ∨
      ¬ s.Has name ∧ s.findname name = .ok 0 := by
  obtain ⟨r, hsearch, hr⟩ := s.search_right h name
  cases r with
  | found mid => exact Or.inl ⟨_, mem_of_found hr, by simp only [findname, hsearch]⟩
  | absent begin => exact Or.inr ⟨not_has_of_absent hr, by simp only [findname, hsearch]⟩

/-- A gap is made before the entry, and filled; it may take a larger block. -/
theorem insertNameBefore_eq (n : HandleName) {before : ℕ} (hle : before ≤ s.count) :
    s.insertNameBefore n before = .error .capLimit ∧ s.count = s.cap ∧ maxSlotSize < s.cap * 2 ∨
      ∃ s', s.insertNameBefore n before = .ok s' ∧ s'.count = s.count + 1 ∧
        s'.toList = s.toList.take before ++ n :: s.toList.drop before := by
  rw [insertNameBefore]
  split
  next hfull =>
    split
    next =>
      refine Or.inr ⟨_, rfl, rfl, ?_⟩
      refine firstCells_insert hle (fun j hj ↦ ?_) (Function.update_self _ _ _) fun j hj hlt ↦ ?_
      · dsimp only
        rw [Function.update_of_ne (Nat.ne_of_lt hj), copyCells_of_lt _ _ (by omega)]
        exact copyCells_of_mem s.cells (d := 0) (Nat.zero_le j) (by omega) _
      · dsimp only
        rw [Function.update_of_ne (by omega)]
        exact copyCells_of_mem s.cells hj (by omega) _
    next hlimit => exact Or.inl ⟨rfl, Nat.le_antisymm s.count_le hfull, Nat.not_le.mp hlimit⟩
  next =>
    refine Or.inr ⟨_, rfl, rfl, ?_⟩
    refine firstCells_insert hle (fun j hj ↦ ?_) (Function.update_self _ _ _) fun j hj hlt ↦ ?_
    · dsimp only
      rw [Function.update_of_ne (Nat.ne_of_lt hj)]
      exact shiftCells_of_le hj.le _ _
    · dsimp only
      rw [Function.update_of_ne (by omega)]
      exact shiftCells_succ hj hlt _

/-- **`_insert_name`** returns `NULL` for a name that is in the index, and puts any other name where
it belongs. -/
theorem insertName_eq (h : s.Sorted) (name : List UInt8) (handle : ℕ) :
    s.Has name ∧ s.insertName name handle = .ok (false, s) ∨
      ¬ s.Has name ∧ (s.insertName name handle = .error .capLimit ∧ 2 ^ 29 < s.count ∨
        ∃ s' before, s.insertName name handle = .ok (true, s') ∧ s'.Sorted ∧
          s'.toList = s.toList.take before ++ ⟨name, handle⟩ :: s.toList.drop before) := by
  obtain ⟨r, hsearch, hr⟩ := s.search_right h name
  cases r with
  | found mid => exact Or.inl ⟨⟨_, mem_of_found hr⟩, by simp only [insertName, hsearch]⟩
  | absent begin =>
    refine Or.inr ⟨not_has_of_absent hr, ?_⟩
    rcases s.insertNameBefore_eq ⟨name, handle⟩ hr.1 with ⟨herr, hfull, hlimit⟩ | ⟨s',
        hok, -, hlist⟩
    · refine Or.inl ⟨by simp only [insertName, hsearch, herr], ?_⟩
      rw [maxSlotSize] at hlimit
      omega
    · refine Or.inr ⟨s', begin, by simp only [insertName, hsearch, hok], ?_, hlist⟩
      obtain ⟨rest, hcount⟩ := Nat.exists_eq_add_of_le hr.1
      rw [Sorted, hlist]
      refine SortedBy.insert h (fun n hn ↦ ?_) fun n hn ↦ ?_
      · rw [toList, hcount, take_firstCells] at hn
        obtain ⟨i, hi, rfl⟩ := mem_firstCells.mp hn
        exact hr.2.1 i hi
      · rw [toList, hcount, drop_firstCells] at hn
        obtain ⟨i, hi, rfl⟩ := mem_firstCells.mp hn
        exact hr.2.2 (begin + i) (Nat.le_add_right _ _) (by omega)

private theorem toList_retireNames (s : NameArray) (handle : ℕ) :
    (s.retireNames handle).toList = s.toList.filter fun n ↦ decide (n.handle ≠ handle) := by
  rw [toList, retireNames]
  dsimp only
  rw [firstCells_compactCells _ le_rfl]
  simp only [Nat.zero_add]
  rfl

theorem Sorted.retireNames (h : s.Sorted) (handle : ℕ) : (s.retireNames handle).Sorted := by
  rw [Sorted, toList_retireNames]
  exact List.Pairwise.filter _ h

end NameArray

/-! ## The map -/

abbrev NameEvent := Event HandleNames NameOp NameOut

abbrev NameBindings := List UInt8 → Option ℕ

/-- What a call does to the map: a name that is returned has been bound, and a retirement that finds
its context unbinds the names of the handle. -/
def NameBindings.after (m : NameBindings) : NameOp → NameOut → NameBindings
  | .namehandle handle name, .named true => Function.update m name (some handle)
  | .storage (.retire handle), .storage (.context (some _)) =>
    fun name ↦ if m name = some handle then none else m name
  | _, _ => m

/-- The map after a run. -/
def bindings (tr : List NameEvent) : NameBindings :=
  tr.foldl (fun m e ↦ m.after e.input e.output) fun _ ↦ none

private theorem bindings_concat (tr : List NameEvent) (e : NameEvent) :
    bindings (tr ++ [e]) = (bindings tr).after e.input e.output := by
  rw [bindings, List.foldl_append]
  rfl

/-- The array holds the map, and the slot table is in order. -/
structure HandleNames.Holds (s : HandleNames) (m : NameBindings) : Prop where
  counts : s.registry.Counts
  sorted : s.names.Sorted
  bound : ∀ name handle, ⟨name, handle⟩ ∈ s.names.toList ↔ m name = some handle

namespace HandleNames

variable {s s' : HandleNames} {m : NameBindings} {name : List UInt8} {handle : ℕ}

theorem holds_init (harbor : ℕ) : (HandleNames.init harbor).Holds fun _ ↦ none :=
  ⟨Registry.counts_init harbor, NameArray.sorted_init, fun _ _ ↦
    iff_of_false List.not_mem_nil (Option.some_ne_none _).symm⟩

theorem Holds.has_iff (h : s.Holds m) (name : List UInt8) : s.names.Has name ↔ m name ≠ none := by
  rw [NameArray.Has, Option.ne_none_iff_exists']
  exact exists_congr fun handle ↦ h.bound name handle

/-- `ztask_handle_namehandle` -/
theorem Holds.namehandle (h : s.Holds m) (handle : ℕ) (name : List UInt8) :
    handleNames s (.namehandle handle name) = .error .capLimit ∧ m name = none ∧
      2 ^ 29 < s.names.count ∨
      ∃ s', handleNames s (.namehandle handle name) = .ok (s', .named (m name).isNone) ∧
        s'.Holds (m.after (.namehandle handle name) (.named (m name).isNone)) ∧
          s'.registry = s.registry := by
  rcases NameArray.insertName_eq h.sorted name handle with ⟨hhas, hok⟩ | ⟨hnot, ⟨herr, hcount⟩ |
    ⟨names, before, hok, hsorted, hlist⟩⟩
  · have hsome := (h.has_iff name).mp hhas
    have hnone : (m name).isNone = false := Option.isNone_eq_false_iff.mpr
        (Option.isSome_iff_ne_none.mpr hsome)
    rw [hnone]
    exact Or.inr ⟨s, by simp only [handleNames, hok], h, rfl⟩
  · exact Or.inl ⟨by simp only [handleNames, herr],
      not_not.mp ((h.has_iff name).not.mp hnot), hcount⟩
  · have hnone := not_not.mp ((h.has_iff name).not.mp hnot)
    refine Or.inr ⟨{ s with names := names },
      by simp only [handleNames, hok, hnone, Option.isNone_none],
        ?_, rfl⟩
    rw [hnone]
    refine ⟨h.counts, hsorted, fun name' handle' ↦ ?_⟩
    rw [hlist, List.mem_append, List.mem_cons, or_left_comm, ← List.mem_append,
      List.take_append_drop, h.bound name' handle', HandleName.mk.injEq]
    change _ ↔ Function.update m name (some handle) name' = some handle'
    by_cases hname : name' = name
    · rw [hname, Function.update_self, hnone, Option.some.injEq, eq_comm]
      exact ⟨fun hor ↦ (hor.resolve_right nofun).2.symm, fun heq ↦ Or.inl ⟨rfl, heq.symm⟩⟩
    · rw [Function.update_of_ne hname]
      exact or_iff_right fun hand ↦ hname hand.1

theorem Holds.findname (h : s.Holds m) (name : List UInt8) :
    handleNames s (.findname name) = .ok (s, .found ((m name).getD 0)) := by
  rcases NameArray.findname_eq h.sorted name with ⟨handle, hmem, hok⟩ | ⟨hnot, hok⟩
  · rw [(h.bound name handle).mp hmem]
    simp only [handleNames, hok, Option.getD_some]
  · rw [not_not.mp ((h.has_iff name).not.mp hnot)]
    simp only [handleNames, hok, Option.getD_none]

private theorem mem_retireNames (h : s.Holds m) (handle : ℕ) (name : List UInt8) (handle' : ℕ) :
    ⟨name, handle'⟩ ∈ (s.names.retireNames handle).toList ↔
      (if m name = some handle then none else m name) = some handle' := by
  rw [NameArray.toList_retireNames, List.mem_filter, h.bound, decide_eq_true_iff]
  by_cases hm : m name = some handle
  · rw [if_pos hm, hm, Option.some.injEq]
    exact iff_of_false (fun hand ↦ hand.2 hand.1.symm) nofun
  · rw [if_neg hm]
    exact and_iff_left_of_imp fun hm' heq ↦ hm (hm'.trans (congrArg some heq))

/-- `ztask_handle_retire` finds the live context of the handle, and takes its names out. -/
theorem Holds.retire (h : s.Holds m) (handle : ℕ) :
    ∃ s' c, handleNames s (.storage (.retire handle)) = .ok (s', .storage (.context c)) ∧
      s'.Holds (m.after (.storage (.retire handle)) (.storage (.context c))) ∧
      (c.isSome ↔ ∃ c ∈ s.registry.live, s.registry.handleOf c = handle) ∧
      s'.registry.handleOf = s.registry.handleOf ∧
      (∀ c', c' ∈ s'.registry.live ↔ c' ∈ s.registry.live ∧ s.registry.handleOf c' ≠ handle) ∧
      s'.names.toList =
        if c.isSome then s.names.toList.filter fun n ↦
          decide (n.handle ≠ handle) else s.names.toList := by
  have htable : HandleTable s.registry.storage s.registry.handleOf s.registry.live := h.counts.ok
  have hstep : ZTask.registry s.registry (.retire handle) = .ok
      ({ s.registry with
        storage := (s.registry.storage.retire s.registry.handleOf handle).2
        live := retired s.registry.live (s.registry.storage.retire s.registry.handleOf handle).1 },
        .context (s.registry.storage.retire s.registry.handleOf handle).1) := rfl
  have hcounts := h.counts.step (show (HandleOp.retire handle).Fresh s.registry from trivial) hstep
  rcases htable.retire s.registry.handleOf handle with ⟨hgrab, hret⟩ | ⟨c, storage, hlive,
      hgrab, hret, -⟩
  · rw [hret] at hstep hcounts
    -- the handle is that of no live context
    have hnot : ∀ c ∈ s.registry.live, s.registry.handleOf c ≠ handle := by
      intro c hc heq
      rw [(htable.grab_eq_some_iff).mpr ⟨hc, heq, congrArg (· % _) heq⟩] at hgrab
      cases hgrab
    refine ⟨s, none, ?_, h, ?_, rfl, fun c' ↦ ?_, rfl⟩
    · simp only [handleNames, hstep]
      rfl
    · exact iff_of_false nofun fun ⟨c, hc, heq⟩ ↦ hnot c hc heq
    · exact (and_iff_left_of_imp (hnot c')).symm
  · rw [hret] at hstep hcounts
    obtain ⟨-, hhandle, -⟩ := htable.grab_eq_some_iff.mp hgrab
    refine ⟨⟨⟨storage, s.registry.handleOf, s.registry.live.erase c⟩,
      s.names.retireNames handle⟩, some c, ?_, ⟨hcounts, ?_, ?_⟩, ?_, rfl, fun c' ↦ ?_, ?_⟩
    · simp only [handleNames, hstep]
      rfl
    · exact h.sorted.retireNames handle
    · exact mem_retireNames h handle
    · exact iff_of_true rfl ⟨c, hlive, hhandle⟩
    · change c' ∈ s.registry.live.erase c ↔ _
      rw [Finset.mem_erase, and_comm]
      refine and_congr_right fun hc' ↦ not_congr ⟨fun heq ↦ heq ▸ hhandle, fun heq ↦ ?_⟩
      exact htable.holds.eq_of_mod_eq htable.size_pos hc' hlive (by rw [heq, hhandle])
    · exact s.names.toList_retireNames handle

/-- The other calls on the slot table leave the names alone. -/
theorem Holds.storage (h : s.Holds m) {op : HandleOp} {o : NameOut} (hop : op.Fresh s.registry)
    (hnot : ∀ handle, op ≠ .retire handle) (hm : handleNames s (.storage op) = .ok (s', o)) :
    s'.Holds (m.after (.storage op) o) ∧ s'.names = s.names := by
  cases hreg : ZTask.registry s.registry op with
  | error e =>
    simp only [handleNames, hreg] at hm
    cases hm
  | ok p =>
    obtain ⟨registry, o'⟩ := p
    simp only [handleNames, hreg] at hm
    obtain ⟨rfl, rfl⟩ := Prod.mk.inj (Except.ok.inj hm)
    have hcounts := h.counts.step hop hreg
    cases op with
    | retire handle => exact absurd rfl (hnot handle)
    | register c | grab handle => exact ⟨⟨hcounts, h.sorted, h.bound⟩, rfl⟩

/-- **One call.** -/
theorem Holds.step (h : s.Holds m) {op : NameOp} {o : NameOut} (hop : op.Fresh s)
    (hm : handleNames s op = .ok (s', o)) : s'.Holds (m.after op o) := by
  cases op with
  | storage op =>
    have hfresh : op.Fresh s.registry := hop
    cases op with
    | retire handle =>
      obtain ⟨s₁, c, hok, hholds, -⟩ := h.retire handle
      obtain ⟨rfl, rfl⟩ := Prod.mk.inj (Except.ok.inj (hok.symm.trans hm))
      exact hholds
    | register c | grab handle => exact (h.storage hfresh nofun hm).1
  | namehandle handle name =>
    rcases h.namehandle handle name with ⟨herr, -⟩ | ⟨s₁, hok, hholds, -⟩
    · cases herr.symm.trans hm
    · obtain ⟨rfl, rfl⟩ := Prod.mk.inj (Except.ok.inj (hok.symm.trans hm))
      exact hholds
  | findname name =>
    obtain ⟨rfl, rfl⟩ := Prod.mk.inj (Except.ok.inj ((h.findname name).symm.trans hm))
    exact h

private theorem holds_bindings {harbor : ℕ} {tr : List NameEvent}
    (hrun : Run handleNames (.init harbor) tr s)
    (hfresh : Meets NameOp.Fresh tr) : s.Holds (bindings tr) := by
  refine hrun.ledger (fun tr s ↦ s.Holds (bindings tr)) (holds_init harbor) ?_ hfresh
  rintro tr s op s' o - hholds hop hm
  rw [bindings_concat]
  exact hholds.step hop hm

end HandleNames

/-- **The name index is a map.** After every run, the names in the array go up strictly, and it
holds the pairs of the map. The next call of `ztask_handle_namehandle` fails if the name is bound,
and only then, and binds it otherwise, unless there are too many names for the block;
`ztask_handle_findname` returns the handle of the name, or 0; `ztask_handle_retire` takes the names
of a live handle out and leaves the others in order. What the calls do to the map is what
`NameBindings.after` says. -/
theorem names_are_a_map {harbor : ℕ} {tr : List NameEvent} {s : HandleNames}
    (hrun : Run handleNames (.init harbor) tr s) (hfresh : Meets NameOp.Fresh tr) :
    (s.names.toList.Pairwise fun n n' ↦ strcmp n.name n'.name = .lt) ∧
      (∀ name handle, ⟨name, handle⟩ ∈ s.names.toList ↔ bindings tr name = some handle) ∧
      (∀ handle name, handleNames s (.namehandle handle name) = .error .capLimit ∧
      2 ^ 29 < s.names.count ∨
        ∃ s', handleNames s (.namehandle handle name) =
          .ok (s', .named (bindings tr name).isNone)) ∧
      (∀ name, handleNames s (.findname name) = .ok (s, .found ((bindings tr name).getD 0))) ∧
      ∀ handle, ∃ s' c, handleNames s (.storage (.retire handle)) =
        .ok (s', .storage (.context c)) ∧
        (c.isSome ↔ ∃ c ∈ s.registry.live, s.registry.handleOf c = handle) ∧
        s'.names.toList =
          if c.isSome then s.names.toList.filter fun n ↦
            decide (n.handle ≠ handle) else s.names.toList := by
  -- `Holds` ties the sorted array to the bindings of the run
  have hholds := HandleNames.holds_bindings hrun hfresh
  refine ⟨hholds.sorted, hholds.bound, fun handle name ↦ ?_, hholds.findname, fun handle ↦ ?_⟩
  · rcases hholds.namehandle handle name with ⟨herr, -, hcount⟩ | ⟨s', hok, -⟩
    · exact Or.inl ⟨herr, hcount⟩
    · exact Or.inr ⟨s', hok⟩
  · obtain ⟨s', c, hok, -, hsome, -, -, hlist⟩ := hholds.retire handle
    exact ⟨s', c, hok, hsome, hlist⟩

/-- Three names of two services; then the first service is retired. -/
theorem names_are_a_map_three : ∃ tr s, Run handleNames (.init 0) tr s ∧
    s.names.toList = [⟨[98], 2⟩] ∧ bindings tr [98] = some 2 := by
  have hpasses : Passes handleNames (.init 0)
      [.storage (.register 7), .storage (.register 8), .namehandle 1 [99], .namehandle 2 [98],
        .namehandle 1 [97], .storage (.retire 1)]
      fun tr s ↦ Meets NameOp.Fresh tr ∧ s.names.toList = [⟨[98], 2⟩] := by
    decide +kernel
  obtain ⟨tr, s, hrun, hfresh, hlist⟩ := Run.of_passes hpasses
  refine ⟨tr, s, hrun, hlist, ((names_are_a_map hrun hfresh).2.1 [98] 2).mp ?_⟩
  rw [hlist]
  exact List.mem_cons_self

end ZTask
