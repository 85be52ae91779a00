import ZTask.DebugChannel.Boxes
import ZTask.Lib.RefCount
import Mathlib.Algebra.BigOperators.Group.Finset.Basic
import Mathlib.Algebra.Order.Group.Multiset

/-!
# One release for every box

The counter of a channel is the number of the boxes that have it and have not been released, as long
as no box is released twice (`DebugInv`): a box that has been released, explicitly and not as the
last one, still has the pointer, and its finaliser releases the channel again.

## Boxes and references

A box of Lua holds a pointer to a channel. `Keeps` says that the box is still to release it, and
`Finds` that it has the pointer; after an explicit release that was not the last one a box finds the
channel and does not keep it. The counter of a channel is the number of the boxes that keep it,
which is how `DebugInv` states it with `Lib.RefCount`.

## Steps and runs

`DebugStep` says what a step may do to the boxes and to the channels that are freed; each input has
its lemma, and `step` collects them. `debug_ledger` adds up the releases and the freed channels over
a run in which no box is released twice. `channel_freed_early` is a run in which one is.
-/

namespace ZTask

open Lib

namespace DebugChannels

/-- The box has the channel, and is to release it. -/
def Keeps (m : DebugChannels) (b c : ℕ) : Prop :=
  b < m.boxes ∧ m.released b = false ∧ m.box b = some c

instance decidableKeeps (m : DebugChannels) (b c : ℕ) : Decidable (m.Keeps b c) :=
  inferInstanceAs (Decidable (_ ∧ _ ∧ _))

/-- The box still finds its channel. -/
def Finds (m : DebugChannels) (b : ℕ) : Prop := ∃ c, m.box b = some c ∧ m.channel c ≠ none

/-- What a box holds a reference to. -/
def share (m : DebugChannels) (b : ℕ) : Multiset ℕ := if m.released b then 0 else kept (m.box b)

def held (m : DebugChannels) : Multiset ℕ := ∑ b ∈ Finset.range m.boxes, m.share b

def refs (m : DebugChannels) (c : ℕ) : Option ℤ := (m.channel c).map DebugChannel.ref

end DebugChannels

/-- The input releases the box. -/
def DebugInput.Releases (b : ℕ) : DebugInput → Prop
  | .release b' | .collect b' => b' = b
  | .create | .connect _ | .read _ | .write _ _ => False

instance DebugInput.decidableReleases (b : ℕ) : DecidablePred (DebugInput.Releases b)
  | .release b' | .collect b' => inferInstanceAs (Decidable (b' = b))
  | .create | .connect _ | .read _ | .write _ _ => .isFalse id

/-- No box is released twice, neither explicitly nor by its finaliser, and no channel is connected
to or used after it has been freed. -/
def Once (m : DebugChannels) : DebugInput → Prop
  | .create => True
  | .connect c => m.channel c ≠ none
  | .read b | .write b _ => m.Finds b
  | .release b | .collect b => m.released b = false

instance decidableFinds (m : DebugChannels) (b : ℕ) : Decidable (m.Finds b) :=
  decidable_of_iff ((m.box b).bind m.channel ≠ none) (by
    rw [DebugChannels.Finds]
    cases m.box b <;> simp)

instance decidableOnce (m : DebugChannels) : DecidablePred (Once m)
  | .create => .isTrue trivial
  | .connect c => inferInstanceAs (Decidable (m.channel c ≠ none))
  | .read b | .write b _ => decidableFinds m b
  | .release b | .collect b => inferInstanceAs (Decidable (m.released b = false))

/-! ## The counts -/

namespace DebugChannels

variable {m : DebugChannels} {b c : ℕ}

private theorem mem_held : c ∈ m.held ↔ ∃ b, m.Keeps b c := by
  rw [held, Multiset.mem_sum]
  refine exists_congr fun b ↦ ?_
  rw [Finset.mem_range, Keeps, share]
  cases m.released b with
  | true => exact iff_of_false (fun h ↦ Multiset.notMem_zero c h.2) fun h ↦ nomatch h.2.1
  | false => exact and_congr_right fun _ ↦ mem_kept.trans (and_iff_right rfl).symm

private theorem held_release (hb : m.Keeps b c) : ∃ rest, m.held = c ::ₘ rest ∧
    ∀ m' : DebugChannels, m'.boxes = m.boxes → m'.released b = true →
      (∀ b' ≠ b, m'.share b' = m.share b') →
      m'.held = rest := by
  have hmem := Finset.mem_range.mpr hb.1
  refine ⟨∑ b' ∈ (Finset.range m.boxes).erase b, m.share b', ?_, ?_⟩
  · rw [held, ← Finset.add_sum_erase _ _ hmem, share, hb.2.1, hb.2.2]
    exact Multiset.singleton_add c _
  · intro m' hboxes hreleased hothers
    rw [held, hboxes, ← Finset.add_sum_erase _ _ hmem, share, hreleased]
    refine (Multiset.zero_add _).trans (Finset.sum_congr rfl fun b' hb' ↦ hothers b' ?_)
    exact Finset.ne_of_mem_erase hb'

theorem held_newBox (hfresh : m.released m.boxes = false) : (m.newBox c).1.held = c ::ₘ m.held := by
  rw [held, newBox, Finset.sum_range_succ, ← Multiset.singleton_add, Multiset.add_comm, held]
  refine congrArg₂ (· + ·) ?_ (Finset.sum_congr rfl fun b hb ↦ ?_)
  · simp only [share, hfresh, Function.update_self]
    rfl
  · simp only [share, Function.update_of_ne (Finset.mem_range.mp hb).ne]

private theorem refs_setChannel (x : Option DebugChannel) :
    (m.setChannel c x).refs = Function.update m.refs c (x.map DebugChannel.ref) := by
  funext d
  rw [refs, setChannel]
  dsimp only
  by_cases hd : d = c
  · rw [hd, Function.update_self, Function.update_self]
  · rw [Function.update_of_ne hd, Function.update_of_ne hd, refs]

end DebugChannels

theorem DebugChannels.release_collected (m : DebugChannels) {b : ℕ} {m' : DebugChannels}
    {o : DebugOutput} (h : m.release b = .ok (m', o)) : m'.collected = m.collected := by
  rw [release] at h
  cases hfind : m.find b with
  | error e =>
    rw [hfind] at h
    cases h
  | ok found =>
    obtain ⟨c, x⟩ := found
    rw [hfind] at h
    dsimp only at h
    split at h <;> · cases h; rfl

/-! ## The invariant -/

structure DebugInv (m : DebugChannels) : Prop where
  counted : RefCounted m.refs m.held
  /-- Only a release takes the channel out of a box. -/
  box : ∀ b < m.boxes, m.released b = false → ∃ c, m.box b = some c
  known : ∀ c, m.channels ≤ c → m.channel c = none
  fresh : ∀ b, m.boxes ≤ b → m.released b = false ∧ m.collected b = false
  collected : ∀ b, m.collected b = true → m.released b = true

/-- What a step does to the boxes: it frees the channel that nobody keeps any more, and a channel
comes to be kept when it is made. -/
structure DebugStep (m m' : DebugChannels) (i : DebugInput) (freed : Option ℕ) : Prop where
  inv : DebugInv m'
  channels : m.channels ≤ m'.channels
  fresh : ∀ c, c ∈ m'.held ↔ c ∈ m.held ∧ freed ≠ some c ∨ m.channels ≤ c ∧ c < m'.channels
  freed : ∀ c, freed = some c → c ∈ m.held
  released : ∀ b, m'.released b = true ↔ m.released b = true ∨ i.Releases b

/-- The channel that has been freed. -/
def DebugOutput.freed : DebugOutput → Option ℕ
  | .released freed => freed
  | .box _ | .failed | .command _ | .written => none

namespace DebugInv

variable {m : DebugChannels} {b c : ℕ}

theorem init : DebugInv .init where
  counted _ := rfl
  box _ hb := absurd hb (Nat.not_lt_zero _)
  known _ _ := rfl
  fresh _ _ := ⟨rfl, rfl⟩
  collected _ hb := nomatch hb

private theorem channel_eq_none_iff (h : DebugInv m) : m.channel c = none ↔ c ∉ m.held := by
  rw [← h.counted.eq_none_iff, DebugChannels.refs, Option.map_eq_none_iff]

private theorem lt_of_mem (h : DebugInv m) (hc : c ∈ m.held) : c < m.channels := by
  by_contra hle
  exact h.channel_eq_none_iff.mp (h.known c (Nat.le_of_not_lt hle)) hc

private theorem ref_eq (h : DebugInv m) {x : DebugChannel} (hx : m.channel c = some x) :
    c ∈ m.held ∧ x.ref = m.held.count c := by
  have hc : c ∈ m.held := by
    by_contra hnot
    rw [h.channel_eq_none_iff.mpr hnot] at hx
    cases hx
  have href := h.counted.eq_some hc
  rw [DebugChannels.refs, hx] at href
  exact ⟨hc, Option.some.inj href⟩

/-- The commands change, and nothing else. -/
theorem setCommands (h : DebugInv m) {x : DebugChannel} (hx : m.channel c = some x)
    (commands : List (List UInt8)) {i : DebugInput} (hi : ∀ b, ¬ i.Releases b) :
    DebugStep m (m.setChannel c (some { x with commands := commands })) i none := by
  obtain ⟨hc, -⟩ := h.ref_eq hx
  have hrefs : (m.setChannel c (some { x with commands := commands })).refs = m.refs := by
    rw [DebugChannels.refs_setChannel]
    refine Function.update_eq_iff.mpr ⟨?_, fun d _ ↦ rfl⟩
    rw [DebugChannels.refs, hx]
    rfl
  refine ⟨⟨?_, h.box, fun d hd ↦ ?_, h.fresh, h.collected⟩, le_rfl, fun d ↦ ?_,
    fun d hd ↦ (nomatch hd), fun b ↦ ?_⟩
  · rw [hrefs]
    exact h.counted
  · have hne : d ≠ c := fun heq ↦ absurd (h.lt_of_mem hc) (Nat.not_lt_of_le (heq ▸ hd))
    exact (Function.update_of_ne hne _ _).trans (h.known d hd)
  · rw [and_iff_left (Option.some_ne_none d).symm]
    exact (or_iff_left fun hd ↦ absurd hd.2 (Nat.not_lt_of_le hd.1)).symm
  · exact (or_iff_left (hi b)).symm

/-- A channel that is there gets a box. -/
theorem connect (h : DebugInv m) {x : DebugChannel} (hx : m.channel c = some x) :
    DebugStep m ((m.setChannel c (some { x with ref := x.ref + 1 })).newBox c).1
      (.connect c) none := by
  obtain ⟨hc, href⟩ := h.ref_eq hx
  let m₁ := m.setChannel c (some { x with ref := x.ref + 1 })
  have hfresh := h.fresh m.boxes le_rfl
  have hheld : (m₁.newBox c).1.held = c ::ₘ m.held := m₁.held_newBox hfresh.1
  have hrefs : (m₁.newBox c).1.refs = Function.update m.refs c (some (m.held.count c + 1 : ℤ)) := by
    rw [← href]
    exact m.refs_setChannel _
  refine ⟨⟨?_, fun b hb hkept ↦ ?_, fun d hd ↦ ?_, fun b hb ↦ ?_, h.collected⟩, le_rfl, fun d ↦ ?_,
    fun d hd ↦ (nomatch hd), fun b ↦ (or_iff_left id).symm⟩
  · rw [hheld, hrefs]
    exact h.counted.grab c
  · by_cases hnew : b = m.boxes
    · exact ⟨c, by rw [hnew]; exact Function.update_self _ _ _⟩
    · obtain ⟨d, hd⟩ := h.box b (Nat.lt_of_le_of_ne (Nat.le_of_lt_succ hb) hnew) hkept
      exact ⟨d, (Function.update_of_ne hnew _ _).trans hd⟩
  · have hne : d ≠ c := fun heq ↦ absurd (h.lt_of_mem hc) (Nat.not_lt_of_le (heq ▸ hd))
    exact (Function.update_of_ne hne _ _).trans (h.known d hd)
  · exact h.fresh b (Nat.le_of_succ_le hb)
  · rw [hheld, Multiset.mem_cons, and_iff_left (Option.some_ne_none d).symm]
    constructor
    · rintro (rfl | hd)
      · exact Or.inl hc
      · exact Or.inl hd
    · rintro (hd | hd)
      · exact Or.inr hd
      · exact absurd hd.2 (Nat.not_lt_of_le hd.1)

/-- A new channel and its first box. -/
theorem create (h : DebugInv m) : DebugStep m m.create.1 .create none := by
  have hnot : m.channels ∉ m.held := h.channel_eq_none_iff.mp (h.known _ le_rfl)
  have hfresh := h.fresh m.boxes le_rfl
  have hheld : m.create.1.held = m.channels ::ₘ m.held :=
    DebugChannels.held_newBox (m :=
      { m.setChannel m.channels (some ⟨1, []⟩) with channels := m.channels + 1 })
      hfresh.1
  have hrefs : m.create.1.refs = Function.update m.refs m.channels (some 1) := m.refs_setChannel _
  refine ⟨⟨?_, fun b hb hkept ↦ ?_, fun d hd ↦ ?_, fun b hb ↦ ?_, h.collected⟩,
    Nat.le_succ _, fun d ↦ ?_, fun d hd ↦ (nomatch hd), fun b ↦ (or_iff_left id).symm⟩
  · rw [hheld, hrefs]
    exact h.counted.alloc hnot
  · by_cases hnew : b = m.boxes
    · exact ⟨m.channels, by rw [hnew]; exact Function.update_self _ _ _⟩
    · obtain ⟨d, hd⟩ := h.box b (Nat.lt_of_le_of_ne (Nat.le_of_lt_succ hb) hnew) hkept
      exact ⟨d, (Function.update_of_ne hnew _ _).trans hd⟩
  · exact (Function.update_of_ne (Nat.ne_of_gt hd) _ _).trans (h.known d (Nat.le_of_succ_le hd))
  · exact h.fresh b (Nat.le_of_succ_le hb)
  · rw [hheld, Multiset.mem_cons, and_iff_left (Option.some_ne_none d).symm]
    have hchannels : m.create.1.channels = m.channels + 1 := rfl
    rw [hchannels, or_comm]
    exact or_congr_right (by omega)

/-- A box is released: `y` is what is left of the channel, and `m'` differs from `m` in nothing else
but in the box and the books of the collector. -/
theorem leave (h : DebugInv m) (hb : m.Keeps b c) (hc : c ∈ m.held) {i : DebugInput}
    (hi : ∀ b', i.Releases b' ↔ b = b') {m' : DebugChannels} {y : Option DebugChannel}
    {freed : Option ℕ}
    (hchannel : m'.channel = Function.update m.channel c y) (hchannels : m'.channels = m.channels)
    (hbox : ∀ b' ≠ b, m'.box b' = m.box b') (hboxes : m'.boxes = m.boxes)
    (hreleased : m'.released = Function.update m.released b true)
    (hcollected : ∀ b', m'.collected b' = true → m.collected b' = true ∨ b' = b)
    (hcounted : ∀ rest, m.held = c ::ₘ rest →
      RefCounted (Function.update m.refs c (y.map DebugChannel.ref)) rest ∧
      ∀ d, freed = some d ↔ d = c ∧ c ∉ rest) : DebugStep m m' i freed := by
  obtain ⟨rest, hheld, hheld'⟩ := DebugChannels.held_release hb
  obtain ⟨hcount, hfreed⟩ := hcounted rest hheld
  have hrel : m'.released b = true := by rw [hreleased, Function.update_self]
  -- the other boxes keep their shares, so exactly one reference is gone
  have hothers : ∀ b' ≠ b, m'.share b' = m.share b' := by
    intro b' hb'
    rw [DebugChannels.share, hreleased, Function.update_of_ne hb', hbox b' hb', DebugChannels.share]
  have hheld₁ : m'.held = rest := hheld' m' hboxes hrel hothers
  have hrefs : m'.refs = Function.update m.refs c (y.map DebugChannel.ref) := by
    rw [← m.refs_setChannel y]
    funext d
    rw [DebugChannels.refs, hchannel]
    rfl
  refine ⟨⟨?_, fun b' hb' hkept ↦ ?_, fun d hd ↦ ?_, fun b' hb' ↦ ?_,
    fun b' hb' ↦ ?_⟩, hchannels.ge, fun d ↦ ?_, fun d hd ↦ ?_, fun b' ↦ ?_⟩
  · rw [hheld₁, hrefs]
    exact hcount
  · have hne : b' ≠ b := fun heq ↦ by simp [heq, hrel] at hkept
    rw [hreleased, Function.update_of_ne hne] at hkept
    obtain ⟨d, hd⟩ := h.box b' (hboxes ▸ hb') hkept
    exact ⟨d, (hbox b' hne).trans hd⟩
  · rw [hchannels] at hd
    have hne : d ≠ c := fun heq ↦ absurd (h.lt_of_mem hc) (Nat.not_lt_of_le (heq ▸ hd))
    rw [hchannel, Function.update_of_ne hne]
    exact h.known d hd
  · rw [hboxes] at hb'
    have hne : b' ≠ b := fun heq ↦ absurd hb.1 (Nat.not_lt_of_le (heq ▸ hb'))
    rw [hreleased, Function.update_of_ne hne]
    refine ⟨(h.fresh b' hb').1, ?_⟩
    by_contra hcoll
    rcases hcollected b' (Bool.not_eq_false _ ▸ hcoll) with hold | heq
    · rw [(h.fresh b' hb').2] at hold
      cases hold
    · exact hne heq
  · rw [hreleased]
    by_cases heq : b' = b
    · rw [heq, Function.update_self]
    · rw [Function.update_of_ne heq]
      exact h.collected b' ((hcollected b' hb').resolve_right heq)
  · rw [hheld₁, hheld, hchannels, Multiset.mem_cons, Ne, hfreed d]
    constructor
    · intro hd
      exact Or.inl ⟨Or.inr hd, fun hlast ↦ hlast.2 (hlast.1 ▸ hd)⟩
    · rintro (⟨rfl | hd, hnot⟩ | hd)
      · by_contra hd
        exact hnot ⟨rfl, hd⟩
      · exact hd
      · exact absurd hd.2 (Nat.not_lt_of_le hd.1)
  · rw [((hfreed d).mp hd).1]
    exact hc
  · rw [hreleased, hi]
    by_cases heq : b' = b
    · rw [heq, Function.update_self]
      exact iff_of_true rfl (Or.inr rfl)
    · rw [Function.update_of_ne heq]
      exact (or_iff_left fun hn ↦ heq hn.symm).symm

/-- `lrelease`, and the books of the collector. -/
theorem release (h : DebugInv m) (hb : m.Keeps b c) {i : DebugInput}
    (hi : ∀ b', i.Releases b' ↔ b = b') :
    ∃ m' freed, m.release b = .ok (m', .released freed) ∧ ∀ collected,
      (∀ b', collected b' = true → m.collected b' = true ∨ b' = b) →
      DebugStep m { m' with collected := collected } i freed := by
  have hc : c ∈ m.held := DebugChannels.mem_held.mpr ⟨b, hb⟩
  obtain ⟨x, hx⟩ := Option.ne_none_iff_exists'.mp fun hn ↦ h.channel_eq_none_iff.mp hn hc
  have href := (h.ref_eq hx).2
  have hfind : m.find b = .ok (c, x) := by simp only [DebugChannels.find, hb.2.2, hx]
  obtain ⟨rest, hheld, -⟩ := DebugChannels.held_release hb
  have hrest : ∀ rest', m.held = c ::ₘ rest' → rest' = rest :=
    fun rest' hrest' ↦ Multiset.cons_inj_right c |>.mp (hrest'.symm.trans hheld)
  have hcounted := h.counted
  rw [hheld] at hcounted href
  by_cases hmore : c ∈ rest
  · have hpos : x.ref - 1 > 0 := by
      have hone := Multiset.count_pos.mpr hmore
      rw [href, Multiset.count_cons_self]
      omega
    refine ⟨{ m.setChannel c (some { x with ref := x.ref - 1 }) with
      released := Function.update m.released b true }, none, ?_, fun collected hcoll ↦ ?_⟩
    · simp only [DebugChannels.release, hfind, if_pos hpos]
    refine h.leave hb hc hi rfl rfl (fun _ _ ↦ rfl) rfl rfl hcoll fun rest' hrest' ↦ ?_
    rw [hrest rest' hrest']
    refine ⟨?_, fun d ↦ iff_of_false (Option.some_ne_none d).symm fun hn ↦ hn.2 hmore⟩
    have hrelease := hcounted.release hmore
    rw [← href] at hrelease
    exact hrelease
  · have hzero : ¬ x.ref - 1 > 0 := by
      have hlast := RefCounted.sub_one_eq_zero_iff.mpr hmore
      rw [href]
      omega
    refine ⟨{ m.setChannel c none with
      box := Function.update m.box b none, released :=
        Function.update m.released b true }, some c, ?_,
      fun collected hcoll ↦ ?_⟩
    · simp only [DebugChannels.release, hfind, if_neg hzero]
    refine h.leave hb hc hi rfl rfl (fun b' hb' ↦ Function.update_of_ne hb' _ _) rfl rfl hcoll
      fun rest' hrest' ↦ ?_
    rw [hrest rest' hrest']
    refine ⟨hcounted.free hmore, fun d ↦ ?_⟩
    rw [Option.some.injEq, eq_comm]
    exact (and_iff_left hmore).symm

theorem same (h : DebugInv m) {i : DebugInput} (hi : ∀ b, ¬ i.Releases b) :
    DebugStep m m i none where
  inv := h
  channels := le_rfl
  fresh d := by
    rw [and_iff_left (Option.some_ne_none d).symm]
    exact (or_iff_left fun hd ↦ absurd hd.2 (Nat.not_lt_of_le hd.1)).symm
  freed d hd := nomatch hd
  released b := (or_iff_left (hi b)).symm

/-- **One step.** Either the input is impossible, or it goes well. -/
theorem step (h : DebugInv m) {i : DebugInput} (hi : Once m i) :
    debugChannels m i = .error .impossible ∨
      ∃ m' o, debugChannels m i = .ok (m', o) ∧ DebugStep m m' i o.freed := by
  cases i with
  | create => exact Or.inr ⟨_, _, rfl, h.create⟩
  | connect c =>
    by_cases hlt : c < m.channels
    · obtain ⟨x, hx⟩ := Option.ne_none_iff_exists'.mp hi
      by_cases hone : x.ref = 1
      · refine Or.inr ⟨_, .box m.boxes, ?_, h.connect hx⟩
        simp only [debugChannels, if_pos hlt, DebugChannels.connect, hx, if_pos hone]
        rfl
      · refine Or.inr ⟨m, .failed, ?_, h.same fun _ hn ↦ hn⟩
        simp only [debugChannels, if_pos hlt, DebugChannels.connect, hx, if_neg hone]
    · exact Or.inl (if_neg hlt)
  | read b =>
    by_cases hb : m.Has b
    · obtain ⟨c, hbox, hchannel⟩ := hi
      obtain ⟨x, hx⟩ := Option.ne_none_iff_exists'.mp hchannel
      have hfind : m.find b = .ok (c, x) := by simp only [DebugChannels.find, hbox, hx]
      cases hcommands : x.commands with
      | nil =>
        refine Or.inr ⟨m, .command none, ?_, h.same fun _ hn ↦ hn⟩
        simp only [debugChannels, if_pos hb, DebugChannels.read, hfind, hcommands]
      | cons s rest =>
        refine Or.inr ⟨_, .command (some s), ?_, h.setCommands hx rest fun _ hn ↦ hn⟩
        simp only [debugChannels, if_pos hb, DebugChannels.read, hfind, hcommands]
    · exact Or.inl (if_neg hb)
  | write b s =>
    by_cases hb : m.Has b
    · obtain ⟨c, hbox, hchannel⟩ := hi
      obtain ⟨x, hx⟩ := Option.ne_none_iff_exists'.mp hchannel
      have hfind : m.find b = .ok (c, x) := by simp only [DebugChannels.find, hbox, hx]
      refine Or.inr ⟨_, .written, ?_, h.setCommands hx (x.commands ++ [s]) fun _ hn ↦ hn⟩
      simp only [debugChannels, if_pos hb, DebugChannels.write, hfind]
    · exact Or.inl (if_neg hb)
  | release b =>
    by_cases hb : m.Has b
    · obtain ⟨c, hbox⟩ := h.box b hb.1 hi
      obtain ⟨m', freed, hrelease, hstep⟩ :=
        h.release ⟨hb.1, hi, hbox⟩ (i := .release b) fun _ ↦ Iff.rfl
      refine Or.inr ⟨m', .released freed, ?_, ?_⟩
      · simp only [debugChannels, if_pos hb, hrelease]
      · -- releasing does not collect; only the collector does
        have hcoll : m'.collected = m.collected := m.release_collected hrelease
        have hstep' := hstep m'.collected fun b' hb' ↦ Or.inl (hcoll ▸ hb')
        exact hstep'
    · exact Or.inl (if_neg hb)
  | collect b =>
    by_cases hb : m.Has b
    · obtain ⟨c, hbox⟩ := h.box b hb.1 hi
      obtain ⟨m', freed, hrelease, hstep⟩ :=
        h.release ⟨hb.1, hi, hbox⟩ (i := .collect b) fun _ ↦ Iff.rfl
      refine Or.inr ⟨_, .released freed, ?_,
        hstep (Function.update m'.collected b true) fun b' hb' ↦ ?_⟩
      · simp only [debugChannels, if_pos hb, hrelease]
      · by_cases heq : b' = b
        · exact Or.inr heq
        · rw [Function.update_of_ne heq, m.release_collected hrelease] at hb'
          exact Or.inl hb'
    · exact Or.inl (if_neg hb)

/-- Whatever else is possible goes wrong, or releases a box again. -/
theorem once_iff (h : DebugInv m) {i : DebugInput} (hi : debugChannels m i ≠ .error .impossible) :
    Once m i ↔ (∃ m' o, debugChannels m i = .ok (m', o)) ∧ ∀ b, i.Releases b →
      m.released b = false := by
  constructor
  · intro honce
    obtain ⟨m', o, hok, -⟩ := (h.step honce).resolve_left hi
    refine ⟨⟨m', o, hok⟩, fun b hb ↦ ?_⟩
    cases i with
    | release b' | collect b' =>
      obtain rfl : b' = b := hb
      exact honce
    | create | connect _ | read _ | write _ _ => exact hb.elim
  · rintro ⟨⟨m', o, hok⟩, hreleased⟩
    cases i with
    | create => trivial
    | connect c =>
      intro hnone
      have hlt : c < m.channels := by
        by_contra hle
        exact hi (if_neg hle)
      simp only [debugChannels, if_pos hlt, DebugChannels.connect, hnone] at hok
      cases hok
    | read b | write b _ =>
      have hb : m.Has b := by
        by_contra hnot
        exact hi (if_neg hnot)
      cases hbox : m.box b with
      | none =>
        simp only [debugChannels, if_pos hb, DebugChannels.read, DebugChannels.write,
          DebugChannels.find, hbox] at hok
        cases hok
      | some c =>
        refine ⟨c, hbox, fun hnone ↦ ?_⟩
        simp only [debugChannels, if_pos hb, DebugChannels.read, DebugChannels.write,
          DebugChannels.find, hbox, hnone] at hok
        cases hok
    | release b | collect b => exact hreleased b rfl

end DebugInv

/-! ## A run -/

abbrev DebugEvent := Event DebugChannels DebugInput DebugOutput

/-- How often the box has been released. -/
def releasesOf (tr : List DebugEvent) (b : ℕ) : ℕ := tr.countP fun e ↦ e.input.Releases b

/-- The channels that have been freed. -/
def freedChannels (tr : List DebugEvent) : List ℕ := tr.filterMap fun e ↦ e.output.freed

section Run

variable {m : DebugChannels} {tr : List DebugEvent} {e : DebugEvent} {b c : ℕ}

private theorem releasesOf_concat :
    releasesOf (tr ++ [e]) b = releasesOf tr b + if e.input.Releases b then 1 else 0 := by
  rw [releasesOf, List.countP_append, List.countP_singleton, releasesOf]
  by_cases h : e.input.Releases b <;> simp [h]

private theorem count_freedChannels_concat : (freedChannels (tr ++ [e])).count c =
    (freedChannels tr).count c + if e.output.freed = some c then 1 else 0 := by
  rw [freedChannels, List.filterMap_append, List.count_append, freedChannels]
  cases hfreed : e.output.freed with
  | none => simp [hfreed]
  | some d =>
    by_cases hd : d = c
    · simp [hfreed, hd]
    · simp [hfreed, hd]

/-- The books of a run agree with its state. -/
theorem debug_ledger (hrun : Run debugChannels .init tr m) (hmeets : Meets Once tr) :
    DebugInv m ∧ (∀ b, releasesOf tr b = if m.released b then 1 else 0) ∧
      ∀ c, (c ∈ m.held ∨ m.channels ≤ c → (freedChannels tr).count c = 0) ∧
        (c < m.channels → c ∉ m.held → (freedChannels tr).count c = 1) := by
  refine hrun.ledger (fun tr m ↦ DebugInv m ∧
    (∀ b, releasesOf tr b = if m.released b then 1 else 0) ∧
    ∀ c, (c ∈ m.held ∨ m.channels ≤ c → (freedChannels tr).count c = 0) ∧
      (c < m.channels → c ∉ m.held → (freedChannels tr).count c = 1)) ?_ ?_ hmeets
  · exact ⟨.init, fun _ ↦ rfl, fun _ ↦ ⟨fun _ ↦ rfl, fun hlt ↦ absurd hlt (Nat.not_lt_zero _)⟩⟩
  rintro tr m i m' o - ⟨hinv, hreleases, hfreed⟩ honce hm
  obtain ⟨m₁, o₁, hok, hstep⟩ :=
    (hinv.step honce).resolve_left fun herr ↦ nomatch herr.symm.trans hm
  obtain ⟨rfl, rfl⟩ := Prod.mk.inj (Except.ok.inj (hok.symm.trans hm))
  have hpossible : debugChannels m i ≠ .error .impossible := by
    rw [hok]
    exact nofun
  have hfirst := ((hinv.once_iff hpossible).mp honce).2
  refine ⟨hstep.inv, fun b ↦ ?_, fun c ↦ ?_⟩
  · rw [releasesOf_concat, hreleases b]
    dsimp only
    by_cases hb : i.Releases b
    · rw [hfirst b hb, (hstep.released b).mpr (Or.inr hb), if_pos hb]
      rfl
    · have hsame : m₁.released b = m.released b := by
        rw [Bool.eq_iff_iff, hstep.released b]
        exact or_iff_left hb
      rw [if_neg hb, hsame]
      rfl
  · rw [count_freedChannels_concat]
    dsimp only
    have hchannels := hstep.channels
    constructor
    · intro hc
      have hkept : c ∈ m.held ∨ m.channels ≤ c := by
        rcases hc with hc | hc
        · exact ((hstep.fresh c).mp hc).imp And.left And.left
        · exact Or.inr (hchannels.trans hc)
      have hnot : o₁.freed ≠ some c := by
        intro hf
        have hlt := hinv.lt_of_mem (hstep.freed c hf)
        rcases hc with hc | hc
        · rcases (hstep.fresh c).mp hc with hold | hnew
          · exact hold.2 hf
          · omega
        · omega
      rw [(hfreed c).1 hkept, if_neg hnot]
    · intro hlt hnot
      by_cases hf : o₁.freed = some c
      · rw [(hfreed c).1 (Or.inl (hstep.freed c hf)), if_pos hf]
      · have hold : c ∉ m.held := fun hc ↦ hnot ((hstep.fresh c).mpr (Or.inl ⟨hc, hf⟩))
        have hmade : c < m.channels := by
          by_contra hle
          exact hnot ((hstep.fresh c).mpr (Or.inr ⟨Nat.le_of_not_lt hle, hlt⟩))
        rw [(hfreed c).2 hmade hold, if_neg hf]

/-- **As long as no box is released twice, every channel is freed once**: after any such run, a box
has been released once at most, and once if it has been collected, a channel has been freed if no
box keeps it any more, and no sooner, and whatever is done next goes well and releases no box again
if and only if it goes on like this. -/
theorem channel_freed_once (hrun : Run debugChannels .init tr m) (hmeets : Meets Once tr) :
    (∀ b, releasesOf tr b ≤ 1 ∧ (m.collected b = true → releasesOf tr b = 1)) ∧
      (∀ c < m.channels, ((∃ b, m.Keeps b c) → (freedChannels tr).count c = 0) ∧
        ((¬ ∃ b, m.Keeps b c) → (freedChannels tr).count c = 1)) ∧
      ∀ i, debugChannels m i ≠ .error .impossible →
        (Once m i ↔ (∃ m' o, debugChannels m i = .ok (m', o)) ∧ ∀ b, i.Releases b →
        releasesOf tr b = 0) := by
  -- the releases of a box and the counter of its channel are one ledger
  obtain ⟨hinv, hreleases, hfreed⟩ := debug_ledger hrun hmeets
  refine ⟨fun b ↦ ⟨?_, fun hcoll ↦ ?_⟩, fun c hc ↦ ⟨fun hkept ↦ ?_, fun hnot ↦ ?_⟩, fun i hi ↦ ?_⟩
  · rw [hreleases b]
    split <;> decide
  · rw [hreleases b, hinv.collected b hcoll]
    rfl
  · exact (hfreed c).1 (Or.inl (DebugChannels.mem_held.mpr hkept))
  · exact (hfreed c).2 hc fun hheld ↦ hnot (DebugChannels.mem_held.mp hheld)
  · rw [hinv.once_iff hi]
    refine and_congr_right fun _ ↦ forall₂_congr fun b _ ↦ ?_
    rw [hreleases b]
    cases m.released b <;> decide

/-- Two boxes, both released once. -/
theorem channel_freed_once_two : ∃ tr m, Run debugChannels .init tr m ∧
    freedChannels tr = [0] ∧ releasesOf tr 0 ≤ 1 := by
  have hpasses : Passes debugChannels .init
      [.create, .connect 0, .write 0 [1], .release 0, .read 1, .collect 1]
      fun tr _ ↦ freedChannels tr = [0] ∧ Meets Once tr := by
    decide +kernel
  obtain ⟨tr, m, hrun, hfreed, hmeets⟩ := Run.of_passes hpasses
  exact ⟨tr, m, hrun, hfreed, ((channel_freed_once hrun hmeets).1 0).1⟩

/-- The first box is released and collected: it is released twice, the channel is freed while the
second box keeps it, and the second box reads what has been freed. -/
theorem channel_freed_early : ∃ tr m, Run debugChannels .init tr m ∧ releasesOf tr 0 = 2 ∧
    m.Keeps 1 0 ∧ freedChannels tr = [0] ∧ debugChannels m (.read 1) = .error .freed := by
  have hpasses : Passes debugChannels .init [.create, .connect 0, .release 0, .collect 0]
      fun tr m ↦ releasesOf tr 0 = 2 ∧ m.Keeps 1 0 ∧ freedChannels tr = [0] ∧ m.Has 1 ∧
        m.channel 0 = none := by
    decide +kernel
  obtain ⟨tr, m, hrun, hreleases, hkeeps, hfreed, hhas, hnone⟩ := Run.of_passes hpasses
  refine ⟨tr, m, hrun, hreleases, hkeeps, hfreed, ?_⟩
  simp only [debugChannels, if_pos hhas, DebugChannels.read, DebugChannels.find, hkeeps.2.2, hnone]

end Run

end ZTask
