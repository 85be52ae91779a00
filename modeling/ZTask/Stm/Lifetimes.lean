import ZTask.Lib.RefCount
import ZTask.Stm.Object

/-!
# What is freed, and when

The reference counts of the copies are the numbers of the places where they are kept, and the count
of the object is the number of the handles (`StmInv`). Nobody but the writer puts a copy into the
object, and the writer takes it out before it gives up its handle, so that the last reader finds
none there.

## Places

`held` lists the places where copies are kept: the object, the writer between two of its operations,
and the readers. `handles` lists the handles of the object. The invariant says that the counters are
the multiplicities in these lists, so a copy that is let go of is freed if and only if it is in the
list once (`releaseCopy_ok`).

## One step

`StmStep` is what is said of any step: what it frees is what nobody reaches any more, and only what
is new comes to be kept. The operations of the readers move one reader and leave the rest of the
lists alone (`drop`, `setReader`). `stm_frees_once` follows by induction over the run, for any
number of readers in any order.
-/

namespace ZTask

open Lib

/-! ## Who can reach what -/

/-- The copies that the writer keeps outside of the object. -/
def StmWriter.copies : StmWriter → Multiset ℕ
  | .updating oldcopy => kept oldcopy
  | .idle | .gone => 0

def StmReader.copies : StmReader → Multiset ℕ
  | .idle lastcopy | .closing lastcopy => kept lastcopy
  | .copied copy lastcopy => kept copy + kept lastcopy
  | .reading c => {c}
  | .unborn | .gone => 0

/-- The handles of the object. -/
def StmWriter.handles : StmWriter → Multiset Unit
  | .idle | .updating _ => {()}
  | .gone => 0

def StmReader.handles : StmReader → Multiset Unit
  | .idle _ | .copied _ _ | .reading _ => {()}
  | .unborn | .closing _ | .gone => 0

def StmObject.copies : Option StmObject → Multiset ℕ
  | none => 0
  | some obj => kept obj.copy

def StmObject.refs (object : Option StmObject) : Unit → Option ℤ :=
  fun _ ↦ object.map StmObject.reference

variable {τ : Type} [Fintype τ]

namespace Stm

/-- The places where copies are kept. -/
def held (s : Stm τ) : Multiset ℕ :=
  StmObject.copies s.object + s.writer.copies + holdings StmReader.copies s.reader

def handles (s : Stm τ) : Multiset Unit := s.writer.handles + holdings StmReader.handles s.reader

end Stm

/-! ## The operations on the counts -/

section Counts

variable {copies : ℕ → Option ℤ} {object : Option StmObject} {T : Multiset ℕ}
    {H : Multiset Unit} {c : ℕ}

private theorem grabCopy_ok (h : RefCounted copies T) (hc : c ∈ T) :
    ∃ copies', grabCopy copies c = .ok copies' ∧ RefCounted copies' (c ::ₘ T) := by
  refine ⟨_, ?_, h.grab c⟩
  rw [grabCopy, h.eq_some hc]
  exact if_pos (Int.natCast_pos.mpr (Multiset.count_pos.mpr hc))

/-- The copy is freed if nobody else keeps it. -/
theorem releaseCopy_ok {oldcopy : Option ℕ} (h : RefCounted copies (kept oldcopy + T)) :
    ∃ copies' freed, releaseCopy copies oldcopy = .ok (copies', freed) ∧ RefCounted copies' T ∧
      ∀ c, freed = some c ↔ oldcopy = some c ∧ c ∉ T := by
  cases oldcopy with
  | none =>
    rw [kept, Multiset.zero_add] at h
    exact ⟨copies, none, rfl, h, fun c ↦ iff_of_false (fun hn ↦ by cases hn) fun hn ↦ by cases hn.1⟩
  | some c =>
    rw [kept, Multiset.singleton_add] at h
    rw [releaseCopy, h.eq_some (Multiset.mem_cons_self c T)]
    dsimp only
    split
    next hzero =>
      have hc := RefCounted.sub_one_eq_zero_iff.mp hzero
      refine ⟨_, _, rfl, h.free hc, fun d ↦ ⟨fun hd ↦ ⟨hd, ?_⟩, And.left⟩⟩
      rw [← Option.some.inj hd]
      exact hc
    next hpos =>
      have hc : c ∈ T := by
        by_contra hnot
        exact hpos (RefCounted.sub_one_eq_zero_iff.mpr hnot)
      refine ⟨_, _, rfl, h.release hc, fun d ↦ iff_of_false (fun hn ↦ by cases hn) fun hd ↦ hd.2 ?_⟩
      rw [← Option.some.inj hd.1]
      exact hc

theorem StmObject.grab_ok (h : RefCounted (StmObject.refs object) H) (hH : () ∈ H) :
    ∃ object', StmObject.grab object = .ok object' ∧
      RefCounted (StmObject.refs object') (() ::ₘ H) ∧
      StmObject.copies object' = StmObject.copies object ∧
      object'.map StmObject.copy = object.map StmObject.copy := by
  have href := h.eq_some hH
  cases object with
  | none => cases href
  | some obj =>
    have hcount : obj.reference = H.count () := Option.some.inj href
    have hpos : obj.reference > 0 := by
      rw [hcount]
      exact Int.natCast_pos.mpr (Multiset.count_pos.mpr hH)
    refine ⟨some { obj with reference := obj.reference + 1 }, if_pos hpos, ?_, rfl, rfl⟩
    have hgrab := h.grab ()
    rw [← hcount] at hgrab
    intro u
    have hu := hgrab u
    rw [Function.update_self] at hu
    exact hu

/-- The last handle frees the object. -/
theorem StmObject.releaseReader_ok (h : RefCounted (StmObject.refs object) (() ::ₘ H))
    (hcopy : ∀ obj, object = some obj → () ∉ H → obj.copy = none) :
    ∃ object' freed, StmObject.releaseReader object = .ok (object', freed) ∧
      RefCounted (StmObject.refs object') H ∧ (freed = true ↔ () ∉ H) ∧
      StmObject.copies object' = StmObject.copies object ∧
      ∀ obj', object' = some obj' → ∃ obj, object = some obj ∧ obj'.copy = obj.copy := by
  have href := h.eq_some (Multiset.mem_cons_self () H)
  cases object with
  | none => cases href
  | some obj =>
    have hcount : obj.reference = (() ::ₘ H).count () := Option.some.inj href
    rw [StmObject.releaseReader, hcount]
    split
    next hzero =>
      have hlast := RefCounted.sub_one_eq_zero_iff.mp hzero
      have hnone := hcopy obj rfl hlast
      rw [if_pos hnone]
      refine ⟨none, true, rfl, fun u ↦ ?_, iff_of_true rfl hlast, ?_, fun _ hn ↦ by cases hn⟩
      · have hu := h.free hlast u
        rw [Function.update_self] at hu
        exact hu
      · rw [StmObject.copies, StmObject.copies, hnone]
        rfl
    next hpos =>
      have hmore : () ∈ H := by
        by_contra hnot
        exact hpos (RefCounted.sub_one_eq_zero_iff.mpr hnot)
      refine ⟨_, false, rfl, fun u ↦ ?_,
        iff_of_false (fun hn ↦ by cases hn) (not_not.mpr hmore), rfl,
        fun obj' hobj' ↦ ⟨obj, rfl, ?_⟩⟩
      · have hu := h.release hmore u
        rw [Function.update_self] at hu
        exact hu
      · rw [← Option.some.inj hobj']

end Counts

/-! ## The invariant -/

/-- The counts are right, and the object has a copy as long as the writer has its handle. -/
structure StmInv (s : Stm τ) : Prop where
  copies : RefCounted s.copies s.held
  object : RefCounted (StmObject.refs s.object) s.handles
  known : ∀ c ∈ s.held, c < s.made
  copy : ∀ obj, s.object = some obj → (obj.copy = none ↔ s.writer = .gone)

/-- What a step frees is what nobody can reach any more; only a new copy comes to be kept, and no
new handle comes to be held. -/
structure StmStep (s s' : Stm τ) (freed : StmFreed) : Prop where
  inv : StmInv s'
  made : s.made ≤ s'.made
  fresh : ∀ c, c ∈ s'.held ↔ c ∈ s.held ∧ freed.copy ≠ some c ∨ s.made ≤ c ∧ c < s'.made
  copy : ∀ c, freed.copy = some c → c ∈ s.held
  handle : () ∈ s'.handles ↔ () ∈ s.handles ∧ freed.object = false
  object : freed.object = true → () ∈ s.handles

namespace StmInv

variable {s : Stm τ} {t : τ}

/-- The readers do not keep anything, and have no handles, before they are made. -/
theorem init : StmInv (Stm.init : Stm τ) := by
  have hcopies : holdings StmReader.copies (Stm.init : Stm τ).reader = 0 :=
    Finset.sum_eq_zero fun _ _ ↦ rfl
  have hhandles : holdings StmReader.handles (Stm.init : Stm τ).reader = 0 :=
    Finset.sum_eq_zero fun _ _ ↦ rfl
  refine ⟨?_, ?_, ?_, ?_⟩
  · rw [Stm.held, hcopies]
    have hempty : RefCounted (fun _ : ℕ ↦ none) 0 := fun _ ↦ rfl
    exact hempty.alloc (Multiset.notMem_zero 0)
  · rw [Stm.handles, hhandles]
    exact fun _ ↦ rfl
  · rw [Stm.held, hcopies]
    intro c hc
    rw [Multiset.mem_singleton.mp hc]
    exact Nat.one_pos
  · intro obj hobj
    obtain rfl := Option.some.inj hobj
    exact iff_of_false (fun hn ↦ nomatch hn) fun hn ↦ nomatch hn

end StmInv

/-! ## One reader moves -/

namespace Stm

variable [DecidableEq τ]

/-- What is kept by others than this reader. -/
def heldBut (s : Stm τ) (t : τ) : Multiset ℕ :=
  StmObject.copies s.object + s.writer.copies + others StmReader.copies s.reader t

def handlesBut (s : Stm τ) (t : τ) : Multiset Unit :=
  s.writer.handles + others StmReader.handles s.reader t

variable (s : Stm τ) (t : τ) (x : StmReader)

private theorem held_eq : s.held = s.heldBut t + (s.reader t).copies := by
  rw [held, heldBut, holdings_eq StmReader.copies s.reader t, ← Multiset.add_assoc]

private theorem handles_eq : s.handles = s.handlesBut t + (s.reader t).handles := by
  rw [handles, handlesBut, holdings_eq StmReader.handles s.reader t, ← Multiset.add_assoc]

private theorem held_setReader : (s.setReader t x).held = s.heldBut t + x.copies := by
  rw [held, heldBut, setReader, holdings_update, ← Multiset.add_assoc]

private theorem handles_setReader : (s.setReader t x).handles = s.handlesBut t + x.handles := by
  rw [handles, handlesBut, setReader, holdings_update, ← Multiset.add_assoc]

end Stm

namespace StmStep

variable {s s' : Stm τ} {freed : StmFreed}

/-- Nothing is kept that was not kept before; what is not kept any more is freed. -/
theorem of_release (oldcopy : Option ℕ) (hinv : StmInv s') (hmade : s'.made = s.made)
    (hheld : s.held = kept oldcopy + s'.held)
    (hfreed : ∀ c, freed.copy = some c ↔ oldcopy = some c ∧
        c ∉ s'.held)
    (hhandle : () ∈ s'.handles ↔ () ∈ s.handles ∧ freed.object = false)
    (hobject : freed.object = true → () ∈ s.handles) : StmStep s s' freed where
  inv := hinv
  made := hmade.ge
  fresh c := by
    rw [hheld, Multiset.mem_add, mem_kept]
    constructor
    · exact fun hc ↦ Or.inl ⟨Or.inr hc, fun hf ↦ ((hfreed c).mp hf).2 hc⟩
    · rintro (⟨hold | hc, hf⟩ | ⟨hle, hlt⟩)
      · by_contra hnot
        exact hf ((hfreed c).mpr ⟨hold, hnot⟩)
      · exact hc
      · omega
  copy c hc := by
    rw [hheld, Multiset.mem_add, mem_kept]
    exact Or.inl ((hfreed c).mp hc).1
  handle := hhandle
  object := hobject

theorem of_same (hinv : StmInv s') (hmade : s'.made = s.made) (hheld : s'.held = s.held)
    (hhandle : () ∈ s'.handles ↔ () ∈ s.handles) : StmStep s s' ⟨false, none⟩ := by
  refine of_release none hinv hmade ?_ (fun c ↦ ?_) ?_ fun hn ↦ nomatch hn
  · rw [hheld]
    exact (Multiset.zero_add _).symm
  · exact iff_of_false (fun hn ↦ nomatch hn) fun hn ↦ nomatch hn.1
  · rw [hhandle]
    exact (and_iff_left rfl).symm

end StmStep

namespace StmInv

variable [DecidableEq τ] {s : Stm τ} {t : τ}

/-- A reader lets go of a copy. -/
theorem drop (h : StmInv s) {oldcopy : Option ℕ} {x : StmReader}
    (hcopies : (s.reader t).copies = kept oldcopy + x.copies)
    (hhandles : (s.reader t).handles = x.handles) :
    ∃ s' freed, s.drop t oldcopy x = .ok (s', freed) ∧ StmStep s s' freed := by
  have hheld : s.held = kept oldcopy + (s.heldBut t + x.copies) := by
    rw [s.held_eq t, hcopies, ← Multiset.add_assoc, ← Multiset.add_assoc,
      Multiset.add_comm (s.heldBut t)]
  have hcounted := h.copies
  rw [hheld] at hcounted
  obtain ⟨copies, freed, hrelease, hcounted', hfreed⟩ := releaseCopy_ok hcounted
  refine ⟨{ s with copies := copies }.setReader t x, ⟨false, freed⟩, ?_, ?_⟩
  · rw [Stm.drop, hrelease]
  have hheld' : ({ s with copies := copies }.setReader t x).held = s.heldBut t + x.copies :=
    s.held_setReader t x
  have hhandles' : ({ s with copies := copies }.setReader t x).handles = s.handles := by
    rw [s.handles_eq t, hhandles]
    exact s.handles_setReader t x
  refine .of_release oldcopy ⟨?_, ?_, fun c hc ↦ h.known c ?_, h.copy⟩ rfl ?_ ?_ ?_ ?_
  · rw [hheld']
    exact hcounted'
  · rw [hhandles']
    exact h.object
  · rw [hheld'] at hc
    rw [hheld]
    exact Multiset.mem_add.mpr (Or.inr hc)
  · rw [hheld', hheld]
  · rw [hheld']
    exact hfreed
  · rw [hhandles']
    exact (and_iff_left rfl).symm
  · exact fun hn ↦ nomatch hn

/-- A reader is somewhere else, and keeps the same. -/
theorem setReader (h : StmInv s) {x : StmReader} (hcopies : x.copies = (s.reader t).copies)
    (hhandles : x.handles = (s.reader t).handles) :
    StmStep s (s.setReader t x) ⟨false, none⟩ := by
  have hheld : (s.setReader t x).held = s.held := by rw [s.held_setReader, s.held_eq t, hcopies]
  have hhandles' : (s.setReader t x).handles = s.handles := by
    rw [s.handles_setReader, s.handles_eq t, hhandles]
  refine .of_same ⟨?_, ?_, ?_, h.copy⟩ rfl hheld (by rw [hhandles'])
  · rw [hheld]
    exact h.copies
  · rw [hhandles']
    exact h.object
  · rw [hheld]
    exact h.known

/-- A reader goes on in `lread` or `ldeletereader`. -/
theorem step (h : StmInv s) (t : τ) :
    s.step t = .error .impossible ∨ ∃ s' freed, s.step t = .ok (s', freed) ∧
      StmStep s s' freed := by
  rw [Stm.step]
  cases hx : s.reader t with
  | copied copy lastcopy =>
    dsimp only
    split
    · exact Or.inr (h.drop (by rw [hx]; rfl) (by rw [hx]; rfl))
    · refine Or.inr (h.drop ?_ ?_) <;> rw [hx]
      · cases copy with
        | none => exact Multiset.add_comm _ _
        | some c => exact Multiset.add_comm _ _
      · cases copy <;> rfl
  | reading c =>
    dsimp only
    have hc : c ∈ s.held := by
      rw [s.held_eq t, hx]
      exact Multiset.mem_add.mpr (Or.inr (Multiset.mem_singleton_self c))
    rw [h.copies.eq_some hc]
    exact Or.inr ⟨_, _, rfl, h.setReader (by rw [hx]; rfl) (by rw [hx]; rfl)⟩
  | closing lastcopy =>
    refine Or.inr (h.drop ?_ ?_) <;> rw [hx]
    · exact (Multiset.add_zero _).symm
    · rfl
  | unborn | idle _ | gone => exact Or.inl rfl

omit [DecidableEq τ] in
theorem exists_object (h : StmInv s) (hhandle : () ∈ s.handles) : ∃ obj, s.object = some obj := by
  have href := h.object.eq_some hhandle
  cases hobj : s.object with
  | none =>
    rw [hobj] at href
    cases href
  | some obj => exact ⟨obj, rfl⟩

private theorem handle_of_reader (hx : () ∈ (s.reader t).handles) : () ∈ s.handles := by
  rw [s.handles_eq t]
  exact Multiset.mem_add.mpr (Or.inr hx)

/-- `stm_copy` -/
theorem read (h : StmInv s) {lastcopy : Option ℕ} (hx : s.reader t = .idle lastcopy) :
    ∃ s' freed, s.copy t lastcopy = .ok (s', freed) ∧ StmStep s s' freed := by
  have hhandle : () ∈ s.handles :=
    handle_of_reader (t := t) (by rw [hx]; exact Multiset.mem_singleton_self ())
  obtain ⟨obj, hobj⟩ := h.exists_object hhandle
  cases hcopy : obj.copy with
  | none =>
    refine ⟨s.setReader t (.copied none lastcopy), ⟨false, none⟩, ?_, h.setReader ?_ ?_⟩
    · simp only [Stm.copy, hobj, hcopy]
    · rw [hx]
      exact Multiset.zero_add _
    · rw [hx]
      rfl
  | some c =>
    have hc : c ∈ s.held := by
      rw [Stm.held, hobj, StmObject.copies, hcopy]
      exact Multiset.mem_add.mpr
        (Or.inl (Multiset.mem_add.mpr (Or.inl (Multiset.mem_singleton_self c))))
    obtain ⟨copies, hgrab, hcounted⟩ := grabCopy_ok h.copies hc
    refine ⟨{ s with copies := copies }.setReader t (.copied (some c) lastcopy),
      ⟨false, none⟩, ?_, ?_⟩
    · simp only [Stm.copy, hobj, hcopy, hgrab]
    have hheld : ({ s with copies := copies }.setReader t (.copied (some c) lastcopy)).held =
        c ::ₘ s.held := by
      rw [s.held_eq t, hx, ← Multiset.add_cons]
      exact s.held_setReader t _
    have hhandles : ({ s with copies := copies }.setReader t (.copied (some c) lastcopy)).handles =
        s.handles := by
      rw [s.handles_eq t, hx]
      exact s.handles_setReader t _
    have hinv : StmInv ({ s with copies := copies }.setReader t (.copied (some c) lastcopy)) := by
      refine ⟨?_, ?_, fun d hd ↦ ?_, h.copy⟩
      · rw [hheld]
        exact hcounted
      · rw [hhandles]
        exact h.object
      · rw [hheld] at hd
        rcases Multiset.mem_cons.mp hd with rfl | hd
        · exact h.known d hc
        · exact h.known d hd
    refine ⟨hinv, Nat.le_refl _, fun d ↦ ?_, fun d hd ↦ (nomatch hd), ?_, fun hn ↦ nomatch hn⟩
    · rw [hheld, Multiset.mem_cons]
      constructor
      · rintro (rfl | hd)
        · exact Or.inl ⟨hc, fun hn ↦ nomatch hn⟩
        · exact Or.inl ⟨hd, fun hn ↦ nomatch hn⟩
      · rintro (⟨hd, -⟩ | ⟨hle, hlt⟩)
        · exact Or.inr hd
        · exact absurd hlt (Nat.not_lt_of_le hle)
    · rw [hhandles]
      exact (and_iff_left rfl).symm

/-- `stm_releasereader` -/
theorem close (h : StmInv s) {lastcopy : Option ℕ} (hx : s.reader t = .idle lastcopy) :
    ∃ object freed, StmObject.releaseReader s.object = .ok (object, freed) ∧
      StmStep s ({ s with object := object }.setReader t (.closing lastcopy)) ⟨freed, none⟩ := by
  have hhandles : s.handles = () ::ₘ s.handlesBut t := by
    rw [s.handles_eq t, hx]
    exact Multiset.add_comm _ _
  have hcounted := h.object
  rw [hhandles] at hcounted
  obtain ⟨object, freed, hrelease, hcounted', hfreed, hcopies, hcopy⟩ :=
    StmObject.releaseReader_ok hcounted fun obj hobj hlast ↦ by
      -- nobody has a handle but this reader, so the writer has given up its own
      refine (h.copy obj hobj).mpr ?_
      cases hw : s.writer with
      | gone => rfl
      | idle | updating _ =>
        refine absurd ?_ hlast
        rw [Stm.handlesBut, hw]
        exact Multiset.mem_add.mpr (Or.inl (Multiset.mem_singleton_self ()))
  refine ⟨object, freed, hrelease, ?_⟩
  have hheld : ({ s with object := object }.setReader t (.closing lastcopy)).held = s.held := by
    rw [s.held_eq t, hx, Stm.heldBut, ← hcopies]
    exact Stm.held_setReader { s with object := object } t _
  have hhandles' : ({ s with object := object }.setReader t (.closing lastcopy)).handles =
      s.handlesBut t := (s.handles_setReader t (.closing lastcopy)).trans (Multiset.add_zero _)
  have hinv : StmInv ({ s with object := object }.setReader t (.closing lastcopy)) := by
    refine ⟨?_, ?_, ?_, fun obj' hobj' ↦ ?_⟩
    · rw [hheld]
      exact h.copies
    · rw [hhandles']
      exact hcounted'
    · rw [hheld]
      exact h.known
    · obtain ⟨obj, hobj, hsame⟩ := hcopy obj' hobj'
      rw [hsame]
      exact h.copy obj hobj
  refine .of_release none hinv rfl ?_ (fun c ↦ ?_) ?_ fun _ ↦ ?_
  · rw [hheld]
    exact (Multiset.zero_add _).symm
  · exact iff_of_false (fun hn ↦ nomatch hn) fun hn ↦ nomatch hn.1
  · rw [hhandles', hhandles, and_iff_right (Multiset.mem_cons_self () _),
      ← Bool.not_eq_true, hfreed, not_not]
  · rw [hhandles]
    exact Multiset.mem_cons_self () _

/-- `stm_grab` -/
theorem grab (h : StmInv s) (hw : s.writer = .idle) (hx : s.reader t = .unborn) :
    ∃ object, StmObject.grab s.object = .ok object ∧
      StmStep s ({ s with object := object }.setReader t (.idle none)) ⟨false, none⟩ := by
  have hhandle : () ∈ s.handles := by
    rw [Stm.handles, hw]
    exact Multiset.mem_add.mpr (Or.inl (Multiset.mem_singleton_self ()))
  obtain ⟨object, hgrab, hcounted, hcopies, hcopy⟩ := StmObject.grab_ok h.object hhandle
  refine ⟨object, hgrab, ?_⟩
  have hheld : ({ s with object := object }.setReader t (.idle none)).held = s.held := by
    rw [s.held_eq t, hx, Stm.heldBut, ← hcopies]
    exact Stm.held_setReader { s with object := object } t _
  have hhandles : ({ s with object := object }.setReader t (.idle none)).handles =
      () ::ₘ s.handles := by
    rw [s.handles_eq t, hx]
    refine (s.handles_setReader t (.idle none)).trans ?_
    rw [← Multiset.add_cons]
    rfl
  refine .of_same ⟨?_, ?_, ?_, fun obj' hobj' ↦ ?_⟩ rfl hheld ?_
  · rw [hheld]
    exact h.copies
  · rw [hhandles]
    exact hcounted
  · rw [hheld]
    exact h.known
  · cases hobj : s.object with
    | none =>
      rw [hobj, show object = some obj' from hobj'] at hcopy
      cases hcopy
    | some obj =>
      rw [hobj, show object = some obj' from hobj'] at hcopy
      rw [show obj'.copy = obj.copy from Option.some.inj hcopy]
      exact h.copy obj hobj
  · rw [hhandles]
    exact iff_of_true (Multiset.mem_cons_self () _) hhandle

omit [DecidableEq τ] in
/-- `stm_update` -/
theorem update (h : StmInv s) (hw : s.writer = .idle) :
    ∃ s' freed, s.update = .ok (s', freed) ∧ StmStep s s' freed := by
  have hhandle : () ∈ s.handles := by
    rw [Stm.handles, hw]
    exact Multiset.mem_add.mpr (Or.inl (Multiset.mem_singleton_self ()))
  obtain ⟨obj, hobj⟩ := h.exists_object hhandle
  refine ⟨{ s with
    object := some { obj with copy := some s.made }
    copies := Function.update s.copies s.made (some 1)
    made := s.made + 1
    writer := .updating obj.copy }, ⟨false, none⟩, by simp only [Stm.update, hobj], ?_⟩
  -- every copy that is held was made before, so the new one is held by nobody else
  have hnew : s.made ∉ s.held := fun hmem ↦ Nat.lt_irrefl _ (h.known _ hmem)
  have hheld : Stm.held { s with
      object := some { obj with copy := some s.made }
      copies := Function.update s.copies s.made (some 1)
      made := s.made + 1
      writer := .updating obj.copy } = s.made ::ₘ s.held := by
    rw [Stm.held, Stm.held, hobj, hw, ← Multiset.singleton_add, ← Multiset.add_assoc]
    refine congrArg (· + _) ?_
    rw [StmObject.copies, StmObject.copies, StmWriter.copies, StmWriter.copies, Multiset.add_zero]
    rfl
  have hhandles : Stm.handles { s with
      object := some { obj with copy := some s.made }
      copies := Function.update s.copies s.made (some 1)
      made := s.made + 1
      writer := .updating obj.copy } = s.handles := by
    rw [Stm.handles, Stm.handles, hw]
    rfl
  have hinv : StmInv { s with
      object := some { obj with copy := some s.made }
      copies := Function.update s.copies s.made (some 1)
      made := s.made + 1
      writer := .updating obj.copy } := by
    refine ⟨?_, ?_, fun c hc ↦ ?_, fun obj' hobj' ↦ ?_⟩
    · rw [hheld]
      exact h.copies.alloc hnew
    · rw [hhandles]
      have hcounted := h.object
      rw [hobj] at hcounted
      exact hcounted
    · rw [hheld] at hc
      rcases Multiset.mem_cons.mp hc with rfl | hc
      · exact Nat.lt_succ_self _
      · exact Nat.lt_succ_of_lt (h.known c hc)
    · obtain rfl := Option.some.inj hobj'
      exact iff_of_false (fun hn ↦ nomatch hn) fun hn ↦ nomatch hn
  refine ⟨hinv, Nat.le_succ _, fun c ↦ ?_, fun c hc ↦ (nomatch hc), ?_, fun hn ↦ nomatch hn⟩
  · rw [hheld, Multiset.mem_cons]
    constructor
    · rintro (rfl | hc)
      · exact Or.inr ⟨Nat.le_refl _, Nat.lt_succ_self _⟩
      · exact Or.inl ⟨hc, fun hn ↦ nomatch hn⟩
    · rintro (⟨hc, -⟩ | ⟨hle, hlt⟩)
      · exact Or.inr hc
      · exact Or.inl (Nat.le_antisymm (Nat.le_of_lt_succ hlt) hle)
  · rw [hhandles]
    exact (and_iff_left rfl).symm

omit [DecidableEq τ] in
/-- The last lines of `stm_update`. -/
theorem updated (h : StmInv s) {oldcopy : Option ℕ} (hw : s.writer = .updating oldcopy) :
    ∃ copies freed, releaseCopy s.copies oldcopy = .ok (copies, freed) ∧
      StmStep s { s with copies := copies, writer := .idle } ⟨false, freed⟩ := by
  have hheld : s.held =
      kept oldcopy + (StmObject.copies s.object + 0 + holdings StmReader.copies s.reader) := by
    rw [Stm.held, hw, StmWriter.copies, Multiset.add_zero, ← Multiset.add_assoc,
      Multiset.add_comm (StmObject.copies s.object)]
  have hcounted := h.copies
  rw [hheld] at hcounted
  obtain ⟨copies, freed, hrelease, hcounted', hfreed⟩ := releaseCopy_ok hcounted
  refine ⟨copies, freed, hrelease, ?_⟩
  have hhandles : Stm.handles { s with copies := copies, writer := .idle } = s.handles := by
    rw [Stm.handles, Stm.handles, hw]
    rfl
  refine .of_release oldcopy ⟨hcounted', ?_, fun c hc ↦ h.known c ?_, fun obj hobj ↦ ?_⟩ rfl
    hheld hfreed ?_ fun hn ↦ nomatch hn
  · rw [hhandles]
    exact h.object
  · rw [hheld]
    exact Multiset.mem_add.mpr (Or.inr hc)
  · rw [h.copy obj hobj, hw]
    exact iff_of_false (fun hn ↦ nomatch hn) fun hn ↦ nomatch hn
  · rw [hhandles]
    exact (and_iff_left rfl).symm

omit [DecidableEq τ] in
/-- `stm_release` -/
theorem release (h : StmInv s) (hw : s.writer = .idle) :
    ∃ s' freed, s.release = .ok (s', freed) ∧ StmStep s s' freed := by
  have hhandles : s.handles = () ::ₘ holdings StmReader.handles s.reader := by
    rw [Stm.handles, hw]
    rfl
  have hhandle : () ∈ s.handles := by
    rw [hhandles]
    exact Multiset.mem_cons_self () _
  obtain ⟨obj, hobj⟩ := h.exists_object hhandle
  obtain ⟨c, hcopy⟩ : ∃ c, obj.copy = some c := by
    cases hcopy : obj.copy with
    | some c => exact ⟨c, rfl⟩
    | none => cases hw.symm.trans ((h.copy obj hobj).mp hcopy)
  have hheld : s.held = kept (some c) + holdings StmReader.copies s.reader := by
    rw [Stm.held, hw, hobj, StmObject.copies, hcopy]
    exact congrArg (· + _) (Multiset.add_zero _)
  have hcounted := h.copies
  rw [hheld] at hcounted
  obtain ⟨copies, freed, hrelease, hcounted', hfreed⟩ := releaseCopy_ok hcounted
  have hrefs := h.object
  rw [hhandles, hobj] at hrefs
  have hcount : obj.reference = (() ::ₘ holdings StmReader.handles s.reader).count () :=
    Option.some.inj (hrefs.eq_some (Multiset.mem_cons_self () _))
  -- what is left of the object
  have hstep : ∀ object, (∀ obj', object = some obj' → obj'.copy = none) →
      RefCounted (StmObject.refs object) (holdings StmReader.handles s.reader) →
      ∀ last, (last = true ↔ () ∉ holdings StmReader.handles s.reader) →
      StmStep s { s with object := object, copies := copies, writer := .gone } ⟨last, freed⟩ := by
    intro object hnone hrefs' last hlast
    have hheld' : Stm.held { s with object := object, copies := copies, writer := .gone } =
        holdings StmReader.copies s.reader := by
      have hempty : StmObject.copies object = 0 := by
        cases object with
        | none => rfl
        | some obj' => rw [StmObject.copies, hnone obj' rfl, kept]
      rw [Stm.held, hempty]
      exact Multiset.zero_add _
    have hhandles' : Stm.handles { s with object := object, copies := copies, writer := .gone } =
        holdings StmReader.handles s.reader := Multiset.zero_add _
    refine .of_release (some c) ⟨?_, ?_, fun d hd ↦ h.known d ?_, fun obj' hobj' ↦ ?_⟩ rfl
      ?_ ?_ ?_ fun _ ↦ hhandle
    · rw [hheld']
      exact hcounted'
    · rw [hhandles']
      exact hrefs'
    · rw [hheld'] at hd
      rw [hheld]
      exact Multiset.mem_add.mpr (Or.inr hd)
    · exact iff_of_true (hnone obj' hobj') rfl
    · rw [hheld', hheld]
    · rw [hheld']
      exact hfreed
    · rw [hhandles', and_iff_right hhandle, ← Bool.not_eq_true, hlast, not_not]
  by_cases hmore : () ∈ holdings StmReader.handles s.reader
  · refine ⟨{ s with object := some ⟨obj.reference - 1, none⟩, copies := copies, writer := .gone },
      ⟨false, freed⟩, ?_, hstep _ (fun obj' hobj' ↦ ?_) (fun u ↦ ?_) false ?_⟩
    · have hpos : obj.reference - 1 > 0 := by
        have hone := Multiset.count_pos.mpr hmore
        rw [hcount, Multiset.count_cons_self]
        omega
      simp only [Stm.release, hobj, hcopy, hrelease, if_pos hpos]
    · rw [← Option.some.inj hobj']
    · have hu := hrefs.release hmore u
      rw [Function.update_self, ← hcount] at hu
      exact hu
    · exact iff_of_false (fun hn ↦ by cases hn) (not_not.mpr hmore)
  · refine ⟨{ s with object := none, copies := copies, writer := .gone }, ⟨true, freed⟩, ?_,
      hstep none (fun obj' hobj' ↦ by cases hobj') (fun u ↦ ?_) true (iff_of_true rfl hmore)⟩
    · have hzero : ¬ obj.reference - 1 > 0 := by
        have hlast := RefCounted.sub_one_eq_zero_iff.mpr hmore
        rw [hcount]
        omega
      simp only [Stm.release, hobj, hcopy, hrelease, if_neg hzero]
    · have hu := hrefs.free hmore u
      rw [Function.update_self] at hu
      exact hu

/-- **One step.** Either it is not for the writer or the reader to take it, or it goes well. -/
theorem stm_step (h : StmInv s) (i : StmInput τ) :
    stm s i = .error .impossible ∨ ∃ s' freed, stm s i = .ok (s', freed) ∧ StmStep s s' freed := by
  cases i with
  | copy t =>
    by_cases hguard : s.writer = .idle ∧ s.reader t = .unborn
    · obtain ⟨object, hgrab, hstep⟩ := h.grab hguard.1 hguard.2
      exact Or.inr ⟨_, _, by simp only [stm, if_pos hguard, hgrab], hstep⟩
    · exact Or.inl (by simp only [stm, if_neg hguard])
  | update =>
    by_cases hw : s.writer = .idle
    · obtain ⟨s', freed, hupdate, hstep⟩ := h.update hw
      exact Or.inr ⟨s', freed, by simp only [stm, if_pos hw, hupdate], hstep⟩
    · exact Or.inl (by simp only [stm, if_neg hw])
  | updated =>
    cases hw : s.writer with
    | updating oldcopy =>
      obtain ⟨copies, freed, hrelease, hstep⟩ := h.updated hw
      exact Or.inr ⟨_, _, by simp only [stm, hw, hrelease], hstep⟩
    | idle | gone => exact Or.inl (by simp only [stm, hw])
  | release =>
    by_cases hw : s.writer = .idle
    · obtain ⟨s', freed, hrelease, hstep⟩ := h.release hw
      exact Or.inr ⟨s', freed, by simp only [stm, if_pos hw, hrelease], hstep⟩
    · exact Or.inl (by simp only [stm, if_neg hw])
  | read t =>
    cases hx : s.reader t with
    | idle lastcopy =>
      obtain ⟨s', freed, hread, hstep⟩ := h.read hx
      exact Or.inr ⟨s', freed, by simp only [stm, hx, hread], hstep⟩
    | unborn | copied _ _ | reading _ | closing _ | gone => exact Or.inl (by simp only [stm, hx])
  | step t => exact h.step t
  | close t =>
    cases hx : s.reader t with
    | idle lastcopy =>
      obtain ⟨object, freed, hrelease, hstep⟩ := h.close hx
      exact Or.inr ⟨_, _, by simp only [stm, hx, hrelease], hstep⟩
    | unborn | copied _ _ | reading _ | closing _ | gone => exact Or.inl (by simp only [stm, hx])

end StmInv

/-! ## A run -/

abbrev StmEvent (τ : Type) := Event (Stm τ) (StmInput τ) StmFreed

/-- The copies that have been freed. -/
def freedCopies (tr : List (StmEvent τ)) : List ℕ := tr.filterMap fun e ↦ e.output.copy

/-- How often the object has been freed. -/
def freedObjects (tr : List (StmEvent τ)) : ℕ := tr.countP fun e ↦ e.output.object

namespace Stm

/-- The copy is the one of the object, or the writer has taken it out and is to release it, or a
reader keeps it. -/
def Keeps (s : Stm τ) (c : ℕ) : Prop :=
  (∃ obj, s.object = some obj ∧ obj.copy = some c) ∨ s.writer = .updating (some c) ∨
    ∃ t, c ∈ (s.reader t).copies

/-- The writer or a reader has not given up its handle of the object. -/
def HasHandle (s : Stm τ) : Prop := s.writer ≠ .gone ∨ ∃ t, () ∈ (s.reader t).handles

private theorem mem_held_iff {s : Stm τ} {c : ℕ} : c ∈ s.held ↔ s.Keeps c := by
  have hobject : c ∈ StmObject.copies s.object ↔ ∃ obj, s.object = some obj ∧
      obj.copy = some c := by
    cases s.object with
    | none => exact iff_of_false (Multiset.notMem_zero c) fun ⟨_, hn, _⟩ ↦ nomatch hn
    | some obj =>
      rw [StmObject.copies, mem_kept]
      exact ⟨fun hc ↦ ⟨obj, rfl, hc⟩, fun ⟨obj', hobj, hc⟩ ↦ Option.some.inj hobj ▸ hc⟩
  have hwriter : c ∈ s.writer.copies ↔ s.writer = .updating (some c) := by
    cases s.writer with
    | updating oldcopy => rw [StmWriter.copies, mem_kept, StmWriter.updating.injEq]
    | idle | gone => exact iff_of_false (Multiset.notMem_zero c) fun hn ↦ nomatch hn
  rw [held, Multiset.mem_add, Multiset.mem_add, hobject, hwriter, holdings, Multiset.mem_sum,
    Keeps, or_assoc]
  exact or_congr_right (or_congr_right ⟨fun ⟨t, _, ht⟩ ↦ ⟨t, ht⟩,
    fun ⟨t, ht⟩ ↦ ⟨t, Finset.mem_univ t, ht⟩⟩)

private theorem mem_handles_iff {s : Stm τ} : () ∈ s.handles ↔ s.HasHandle := by
  have hwriter : () ∈ s.writer.handles ↔ s.writer ≠ .gone := by
    cases s.writer with
    | gone => exact iff_of_false (Multiset.notMem_zero ()) (not_not.mpr rfl)
    | idle | updating _ => exact iff_of_true (Multiset.mem_singleton_self ()) fun hn ↦ nomatch hn
  rw [handles, Multiset.mem_add, hwriter, holdings, Multiset.mem_sum, HasHandle]
  exact or_congr_right ⟨fun ⟨t, _, ht⟩ ↦ ⟨t, ht⟩, fun ⟨t, ht⟩ ↦ ⟨t, Finset.mem_univ t, ht⟩⟩

end Stm

variable [DecidableEq τ] {s : Stm τ} {tr : List (StmEvent τ)}

/-- **Everything is freed once**, and when nobody can reach it any more: in every run, a copy has
been freed, once, if it has been made and is not kept anywhere, the object has been freed, once, if
there is no handle left, and no step touches what has been freed. -/
theorem stm_frees_once (hrun : Run stm (.init : Stm τ) tr s) :
    (freedCopies tr).Nodup ∧ (∀ c, c ∈ freedCopies tr ↔ c < s.made ∧ ¬ s.Keeps c) ∧
      (s.HasHandle → freedObjects tr = 0) ∧ (¬ s.HasHandle → freedObjects tr = 1) ∧
      ∀ i e, stm s i = .error e → e = .impossible := by
  have hall : StmInv s ∧ (freedCopies tr).Nodup ∧
      (∀ c, c ∈ freedCopies tr ↔ c < s.made ∧ c ∉ s.held) ∧
      (() ∈ s.handles → freedObjects tr = 0) ∧ (() ∉ s.handles → freedObjects tr = 1) := by
    refine hrun.ledger (C := fun _ _ ↦ True) (fun tr s ↦ StmInv s ∧ (freedCopies tr).Nodup ∧
      (∀ c, c ∈ freedCopies tr ↔ c < s.made ∧ c ∉ s.held) ∧
      (() ∈ s.handles → freedObjects tr = 0) ∧ (() ∉ s.handles → freedObjects tr = 1)) ?_ ?_
      fun _ _ ↦ trivial
    · refine ⟨.init, .nil, fun c ↦ iff_of_false (fun hn ↦ nomatch hn) ?_, fun _ ↦ rfl,
        fun hnot ↦ ?_⟩
      · rintro ⟨hlt, hnot⟩
        obtain rfl := Nat.lt_one_iff.mp hlt
        exact hnot (Stm.mem_held_iff.mpr (Or.inl ⟨⟨1, some 0⟩, rfl, rfl⟩))
      · have hwriter : (Stm.init : Stm τ).writer ≠ .gone := fun hn ↦ nomatch hn
        exact absurd (Stm.mem_handles_iff.mpr (Or.inl hwriter)) hnot
    · rintro tr s i s' freed - ⟨hinv, hnodup, hcopies, hzero, hone⟩ - hm
      obtain ⟨s₁, freed₁, hok, hstep⟩ :=
        (hinv.stm_step i).resolve_left fun herr ↦ nomatch herr.symm.trans hm
      obtain ⟨rfl, rfl⟩ := Prod.mk.inj (Except.ok.inj (hok.symm.trans hm))
      -- a step frees at most one copy and at most once the object
      have hfreed : freedCopies (tr ++ [⟨s, i, freed₁, s₁⟩]) = freedCopies tr ++
          freed₁.copy.toList := by
        rw [freedCopies, List.filterMap_append]
        cases hcopy : freed₁.copy <;> simp [freedCopies, hcopy]
      have hobjects : freedObjects (tr ++ [⟨s, i, freed₁, s₁⟩]) =
          freedObjects tr + if freed₁.object then 1 else 0 := by
        rw [freedObjects, List.countP_append, List.countP_singleton]
        rfl
      refine ⟨hstep.inv, ?_, fun c ↦ ?_, fun hhandle ↦ ?_, fun hnot ↦ ?_⟩
      · rw [hfreed]
        cases hcopy : freed₁.copy with
        | none => exact (List.append_nil _).symm ▸ hnodup
        | some d =>
          refine List.nodup_append.mpr ⟨hnodup, List.pairwise_singleton _ _,
            fun c hc c' hc' heq ↦ ?_⟩
          rw [heq, List.mem_singleton.mp hc'] at hc
          exact ((hcopies d).mp hc).2 (hstep.copy d hcopy)
      · rw [hfreed, List.mem_append, hcopies c, Option.mem_toList, hstep.fresh c]
        have hmade := hstep.made
        constructor
        · rintro (⟨hlt, hnot⟩ | hcopy)
          · exact ⟨Nat.lt_of_lt_of_le hlt hmade, fun hheld ↦
              hheld.elim (fun hc ↦ hnot hc.1) fun hc ↦ absurd hlt (Nat.not_lt_of_le hc.1)⟩
          · have hlt := hinv.known c (hstep.copy c hcopy)
            exact ⟨Nat.lt_of_lt_of_le hlt hmade, fun hheld ↦
              hheld.elim (fun hc ↦ hc.2 hcopy) fun hc ↦ absurd hlt (Nat.not_lt_of_le hc.1)⟩
        · rintro ⟨hlt, hnot⟩
          by_cases hcopy : freed₁.copy = some c
          · exact Or.inr hcopy
          · refine Or.inl ⟨?_, fun hc ↦ hnot (Or.inl ⟨hc, hcopy⟩)⟩
            -- a copy that was made in this step is held
            by_contra hle
            exact hnot (Or.inr ⟨Nat.le_of_not_lt hle, hlt⟩)
      · obtain ⟨hbefore, hobject⟩ := hstep.handle.mp hhandle
        rw [hobjects, hzero hbefore, hobject]
        rfl
      · rw [hobjects]
        cases hobject : freed₁.object with
        | true =>
          rw [hzero (hstep.object hobject)]
          rfl
        | false =>
          rw [hone fun hbefore ↦ hnot (hstep.handle.mpr ⟨hbefore, hobject⟩)]
          rfl
  obtain ⟨hinv, hnodup, hcopies, hzero, hone⟩ := hall
  refine ⟨hnodup, fun c ↦ ?_, fun hhandle ↦ hzero (Stm.mem_handles_iff.mpr hhandle),
    fun hnot ↦ hone fun hhandle ↦ hnot (Stm.mem_handles_iff.mp hhandle), fun i e herr ↦ ?_⟩
  · rw [hcopies c, Stm.mem_held_iff]
  · rcases hinv.stm_step i with himpossible | ⟨s', freed, hok, -⟩
    · exact (Except.error.inj (herr.symm.trans himpossible))
    · exact nomatch herr.symm.trans hok

/-- A reader keeps the first copy while the writer replaces it and goes; then the reader goes, too.
-/
theorem stm_frees_once_two : ∃ tr s, Run stm (.init : Stm (Fin 1)) tr s ∧ freedCopies tr = [1, 0] ∧
    freedObjects tr = 1 ∧ (freedCopies tr).Nodup := by
  have hpasses : Passes stm (.init : Stm (Fin 1))
      [.copy 0, .read 0, .step 0, .step 0, .update, .updated, .release, .close 0, .step 0]
      fun tr _ ↦ freedCopies tr = [1, 0] ∧ freedObjects tr = 1 := by
    decide +kernel
  obtain ⟨tr, s, hrun, hcopies, hobjects⟩ := Run.of_passes hpasses
  exact ⟨tr, s, hrun, hcopies, hobjects, (stm_frees_once hrun).1⟩

end ZTask
