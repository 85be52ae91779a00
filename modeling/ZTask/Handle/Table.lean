import ZTask.Handle.Storage
import ZTask.Lib.SlotTable

/-!
# The slot table finds what is registered

`HandleTable s key live` says that the storage `s` is well formed and holds exactly the contexts in
`live`, each in the slot of the handle `key` gives it. The operations keep it. The one obligation
that is not met by the storage alone is `Agrees`: a registration that doubles the table reads the
field `ctx->handle` of every context, and needs it to lead to the slot of the context's handle.
-/

namespace ZTask

open Lib

/-- The storage holds exactly the contexts of `live`, by the handles `key`. -/
structure HandleTable (s : HandleStorage) (key : ℕ → ℕ) (live : Finset ℕ) : Prop where
  size : ∃ k ≤ 24, s.slotSize = 2 ^ k
  harbor : ∃ b, s.harbor = b <<< handleRemoteShift
  holds : Holds s.slot s.slotSize key live

/-- No slot is free. -/
def HandleStorage.Full (s : HandleStorage) : Prop := ∀ j < s.slotSize, s.slot j ≠ none

/-- For the table of the next size, the handle fields of the contexts lead where their handles
do. -/
def Agrees (handleOf key : ℕ → ℕ) (s : HandleStorage) (live : Finset ℕ) : Prop :=
  ∀ c ∈ live, handleOf c % (s.slotSize * 2) = key c % (s.slotSize * 2)

namespace HandleTable

variable {s : HandleStorage} {key handleOf : ℕ → ℕ} {live : Finset ℕ} {c : ℕ}

theorem size_pos (h : HandleTable s key live) : 0 < s.slotSize := by
  obtain ⟨k, -, hk⟩ := h.size
  rw [hk]
  exact Nat.two_pow_pos k

theorem dvd_mask (h : HandleTable s key live) : s.slotSize ∣ 2 ^ 24 := by
  obtain ⟨k, hle, hk⟩ := h.size
  rw [hk]
  exact Nat.pow_dvd_pow 2 hle

theorem and_size (h : HandleTable s key live) (x : ℕ) :
    x &&& (s.slotSize - 1) = x % s.slotSize := by
  obtain ⟨k, -, hk⟩ := h.size
  rw [hk]
  exact Nat.and_two_pow_sub_one_eq_mod x k

theorem and_handleMask (x : ℕ) : x &&& handleMask = x % 2 ^ 24 :=
  Nat.and_two_pow_sub_one_eq_mod x 24

private theorem or_harbor_mod (h : HandleTable s key live) {handle : ℕ} (hlt : handle < 2 ^ 24) :
    (handle ||| s.harbor) % s.slotSize = handle % s.slotSize := by
  obtain ⟨b, hb⟩ := h.harbor
  obtain ⟨m, hm⟩ := h.dvd_mask
  have hor : handle ||| s.harbor = s.slotSize * (b * m) + handle := by
    calc handle ||| s.harbor = b <<< handleRemoteShift ||| handle := by rw [hb, Nat.or_comm]
      _ = b * 2 ^ 24 + handle := by
          rw [handleRemoteShift, ← Nat.shiftLeft_add_eq_or_of_lt hlt, Nat.shiftLeft_eq]
      _ = s.slotSize * (b * m) + handle := by rw [hm, Nat.mul_left_comm]
  rw [hor, Nat.mul_add_mod]

theorem init (harbor : ℕ) (key : ℕ → ℕ) : HandleTable (.init harbor) key ∅ where
  size := ⟨2, by decide, rfl⟩
  harbor := ⟨harbor &&& 0xff, rfl⟩
  holds := Holds.empty _ key

/-! ## Looking up and retiring -/

/-- `ztask_handle_grab` finds a context by its slot and by its handle field. -/
theorem grab_eq_some_iff (h : HandleTable s key live) {handle : ℕ} :
    s.grab handleOf handle = some c ↔
      c ∈ live ∧ handleOf c = handle ∧ key c % s.slotSize = handle % s.slotSize := by
  have hj := Nat.mod_lt handle h.size_pos
  rw [HandleStorage.grab, h.and_size]
  constructor
  · intro hgrab
    split at hgrab
    next => cases hgrab
    next ctx hslot =>
      split at hgrab
      next hfld =>
        obtain rfl : ctx = c := Option.some.inj hgrab
        obtain ⟨hlive, hkey⟩ := h.holds.mem hj hslot
        exact ⟨hlive, hfld, hkey⟩
      next => cases hgrab
  · rintro ⟨hlive, hfld, hkey⟩
    have hslot := (h.holds _ hj c).mpr ⟨hlive, hkey⟩
    simp only [hslot, hfld, if_true]

/-- `ztask_handle_retire` takes the context it finds out of the table, and changes nothing else when
it finds none. -/
theorem retire (h : HandleTable s key live) (handleOf : ℕ → ℕ) (handle : ℕ) :
    (s.grab handleOf handle = none ∧ s.retire handleOf handle = (none, s)) ∨
      ∃ c s', c ∈ live ∧ s.grab handleOf handle = some c ∧
        s.retire handleOf handle = (some c, s') ∧ HandleTable s' key (live.erase c) := by
  have hj := Nat.mod_lt handle h.size_pos
  rw [HandleStorage.grab, HandleStorage.retire, h.and_size]
  cases hslot : s.slot (handle % s.slotSize) with
  | none => exact Or.inl ⟨rfl, rfl⟩
  | some c =>
    obtain ⟨hlive, hkey⟩ := h.holds.mem hj hslot
    by_cases hfld : handleOf c = handle
    · refine Or.inr ⟨c, _, hlive, if_pos hfld, if_pos hfld, h.size, h.harbor, ?_⟩
      rw [← hkey]
      exact h.holds.erase h.size_pos hlive
    · exact Or.inl ⟨if_neg hfld, if_neg hfld⟩

/-! ## Registering -/

/-- What the search finds is free. -/
theorem probe_some (h : HandleTable s key live) {n i handle : ℕ}
    (hprobe : s.probe n i = some handle) :
    handle < 2 ^ 24 ∧ s.slot (handle % s.slotSize) = none := by
  induction n generalizing i with
  | zero => cases hprobe
  | succ n ih =>
    rw [HandleStorage.probe] at hprobe
    simp only [and_handleMask, h.and_size] at hprobe
    split at hprobe
    next hfree =>
      obtain rfl := Option.some.inj hprobe
      exact ⟨Nat.mod_lt _ (by decide), hfree⟩
    next => exact ih hprobe

private theorem probe_none (h : HandleTable s key live) {n i : ℕ} (hprobe : s.probe n i = none) :
    ∀ i', i ≤ i' → i' < i + n → s.slot ((i' + s.handleIndex) % s.slotSize) ≠ none := by
  induction n generalizing i with
  | zero => intro i' hle hlt; omega
  | succ n ih =>
    rw [HandleStorage.probe] at hprobe
    simp only [and_handleMask, h.and_size] at hprobe
    split at hprobe
    next => cases hprobe
    next hused =>
      rw [Nat.mod_mod_of_dvd _ h.dvd_mask] at hused
      intro i' hle hlt
      rcases Nat.eq_or_lt_of_le hle with rfl | hlt'
      · exact hused
      · exact ih hprobe i' hlt' (by omega)

/-- The search goes through every slot, wherever it starts. -/
theorem full_of_probe (h : HandleTable s key live) (hprobe : s.probe s.slotSize 0 = none) :
    s.Full := by
  intro j hj
  have hpos := h.size_pos
  have hmod := Nat.mod_lt s.handleIndex hpos
  have hused := h.probe_none hprobe ((j + (s.slotSize - s.handleIndex % s.slotSize)) % s.slotSize)
    (Nat.zero_le _) (by rw [Nat.zero_add]; exact Nat.mod_lt _ hpos)
  have heq : ((j + (s.slotSize - s.handleIndex % s.slotSize)) % s.slotSize + s.handleIndex)
      % s.slotSize = j := by
    have hsum : j + (s.slotSize - s.handleIndex % s.slotSize) + s.handleIndex % s.slotSize
        = j + s.slotSize := by omega
    rw [Nat.mod_add_mod, ← Nat.add_mod_mod, hsum, Nat.add_mod_right, Nat.mod_eq_of_lt hj]
  rwa [heq] at hused

/-- The loop that moves the contexts: after `i` slots, the new table holds their contexts. -/
theorem rehash_ok (h : HandleTable s key live) (hfull : s.Full)
    (hagree : Agrees handleOf key s live) {n i : ℕ} (hi : i + n = s.slotSize)
    (newSlot : ℕ → Option ℕ)
    (hnew : ∀ j < s.slotSize * 2, ∀ c, newSlot j = some c ↔
      (∃ k < i, s.slot k = some c) ∧ key c % (s.slotSize * 2) = j) :
    ∃ f, s.rehash handleOf n i newSlot = .ok f ∧ Holds f (s.slotSize * 2) key live := by
  have hpos := h.size_pos
  induction n generalizing i newSlot with
  | zero =>
    refine ⟨newSlot, rfl, fun j hj c ↦ ?_⟩
    rw [hnew j hj c]
    refine and_congr_left fun _ ↦ ?_
    constructor
    · rintro ⟨k, hk, hslot⟩
      exact (h.holds.mem (by omega) hslot).1
    · intro hc
      exact ⟨_, by rw [← Nat.add_zero i, hi]; exact Nat.mod_lt _ hpos, h.holds.cell hpos hc⟩
  | succ n ih =>
    obtain ⟨ctx, hslot⟩ := Option.ne_none_iff_exists'.mp (hfull i (by omega))
    obtain ⟨hctx, hkey⟩ := h.holds.mem (by omega) hslot
    have hmask : ∀ x, x &&& (s.slotSize * 2 - 1) = x % (s.slotSize * 2) := by
      obtain ⟨k, -, hk⟩ := h.size
      intro x
      rw [hk, ← Nat.pow_succ]
      exact Nat.and_two_pow_sub_one_eq_mod x (k + 1)
    have hlt : key ctx % (s.slotSize * 2) < s.slotSize * 2 := Nat.mod_lt _ (by omega)
    -- a context that is there already has another handle modulo the old size
    have hfree : newSlot (key ctx % (s.slotSize * 2)) = none := by
      by_contra hused
      obtain ⟨c', hc'⟩ := Option.ne_none_iff_exists'.mp hused
      obtain ⟨⟨k, hk, hk'⟩, hkey'⟩ := (hnew _ hlt c').mp hc'
      have hmod : key c' % s.slotSize = key ctx % s.slotSize := by
        rw [← Nat.mod_mul_right_mod (key c') s.slotSize 2, hkey', Nat.mod_mul_right_mod]
      have hkc := (h.holds.mem (by omega) hk').2
      omega
    rw [HandleStorage.rehash, hslot]
    simp only [hmask, hagree ctx hctx, hfree, if_true]
    refine ih (by omega) _ fun j hj c ↦ ?_
    by_cases hjk : j = key ctx % (s.slotSize * 2)
    · subst hjk
      rw [Function.update_self, Option.some.injEq]
      constructor
      · rintro rfl
        exact ⟨⟨i, Nat.lt_succ_self i, hslot⟩, rfl⟩
      · rintro ⟨⟨k, hk, hk'⟩, hkey'⟩
        rcases Nat.lt_succ_iff_lt_or_eq.mp hk with hk | rfl
        · have := (hnew _ hj c).mpr ⟨⟨k, hk, hk'⟩, hkey'⟩
          rw [hfree] at this
          cases this
        · rw [hslot] at hk'
          exact Option.some.inj hk'
    · rw [Function.update_of_ne hjk, hnew j hj c]
      constructor
      · rintro ⟨⟨k, hk, hk'⟩, hkey'⟩
        exact ⟨⟨k, by omega, hk'⟩, hkey'⟩
      · rintro ⟨⟨k, hk, hk'⟩, hkey'⟩
        rcases Nat.lt_succ_iff_lt_or_eq.mp hk with hk | rfl
        · exact ⟨⟨k, hk, hk'⟩, hkey'⟩
        · rw [hslot, Option.some.injEq] at hk'
          rw [← hk'] at hkey'
          exact absurd hkey'.symm hjk

variable (handleOf) in
theorem registerLoop_of_probe (h : HandleTable s key live) (fuel : ℕ) (hc : c ∉ live) {handle : ℕ}
    (hprobe : s.probe s.slotSize 0 = some handle) :
    ∃ s', s.registerLoop handleOf c (fuel + 1) = .ok (handle ||| s.harbor, s') ∧
      HandleTable s' (Function.update key c (handle ||| s.harbor)) (insert c live) := by
  obtain ⟨hlt, hfree⟩ := h.probe_some hprobe
  rw [← h.or_harbor_mod hlt] at hfree
  simp only [HandleStorage.registerLoop, hprobe, h.and_size, ← h.or_harbor_mod hlt]
  exact ⟨_, rfl, h.size, h.harbor, h.holds.insert hfree hc⟩

theorem doubled (h : HandleTable s key live) (hfull : s.Full) (hagree : Agrees handleOf key s live)
    (hlimit : s.slotSize * 2 - 1 ≤ handleMask) :
    ∃ f, s.rehash handleOf s.slotSize 0 (fun _ ↦ none) = .ok f ∧
      HandleTable { s with slot := f, slotSize := s.slotSize * 2 } key live := by
  obtain ⟨f, hrehash, hholds⟩ := h.rehash_ok hfull hagree (Nat.zero_add _) (fun _ ↦ none) (by simp)
  obtain ⟨k, hle, hk⟩ := h.size
  have hk' : k + 1 ≤ 24 := by
    by_contra hgt
    obtain rfl : k = 24 := by omega
    rw [hk] at hlimit
    exact absurd hlimit (by decide)
  exact ⟨f, hrehash, ⟨k + 1, hk', by rw [hk, Nat.pow_succ]⟩, h.harbor, hholds⟩

variable (handleOf) in
/-- **`ztask_handle_register`** puts the context under the handle it returns. It doubles a full
table without losing a context, provided the fields agree, and it gives up only on `2 ^ 24`
contexts. -/
theorem register (h : HandleTable s key live) (hc : c ∉ live)
    (hagree : s.Full → Agrees handleOf key s live) :
    (2 ^ 24 ≤ live.card ∧ s.register handleOf c = .error .sizeLimit) ∨
      ∃ handle s', s.register handleOf c = .ok (handle, s') ∧
        HandleTable s' (Function.update key c handle) (insert c live) := by
  rw [HandleStorage.register]
  cases hprobe : s.probe s.slotSize 0 with
  | some handle =>
    obtain ⟨s', hreg, htable⟩ := h.registerLoop_of_probe handleOf 1 hc hprobe
    exact Or.inr ⟨_, s', hreg, htable⟩
  | none =>
    have hfull := h.full_of_probe hprobe
    have hcard := h.holds.size_le_card hfull
    obtain ⟨k, hle, hk⟩ := h.size
    by_cases hlimit : s.slotSize * 2 - 1 ≤ handleMask
    · obtain ⟨f, hrehash, h'⟩ := h.doubled hfull (hagree hfull) hlimit
      rw [HandleStorage.registerLoop, hprobe]
      simp only [if_pos hlimit, hrehash]
      -- the table has more slots than contexts now
      have hfew := h.holds.card_le_size h.size_pos
      have hpos := h.size_pos
      cases hprobe' : HandleStorage.probe { s with slot := f, slotSize := s.slotSize * 2 }
          (s.slotSize * 2) 0 with
      | none =>
        have := h'.holds.size_le_card (h'.full_of_probe hprobe')
        simp only at this
        omega
      | some handle =>
        obtain ⟨s', hreg, htable⟩ := h'.registerLoop_of_probe handleOf 0 hc hprobe'
        exact Or.inr ⟨_, s', hreg, htable⟩
    · refine Or.inl ⟨?_, ?_⟩
      · -- the table has 2 ^ 24 slots
        have hk' : ¬k < 24 := by
          intro hlt
          have hpow : 2 ^ (k + 1) ≤ 2 ^ 24 := Nat.pow_le_pow_right (by decide) hlt
          rw [Nat.pow_succ, ← hk] at hpow
          rw [handleMask] at hlimit
          omega
        obtain rfl : k = 24 := by omega
        rwa [← hk]
      · rw [HandleStorage.registerLoop, hprobe]
        exact if_neg hlimit

end HandleTable

end ZTask
