import ZTask.Seri.Decode

/-!
# Unpacking bytes that need not be valid

What `luaseri_unpack` does with any bytes whatever. It ends, with values or with an error. Bytes
that hold a string length of `2^31` or more where a value is expected are read out of order: the
length is negative as an `int`, goes through the test of `rb_read`, and moves the block back. They
are the only ones, apart from those whose own length is negative as an `int`
(`luaseri_unpack_safe_iff`).

## What can go wrong

`Outcome` has the ways a stream can end, and is proved along the stream: a value is read, an error
is raised, or a length is met that is negative as an `int`. In the last case the test for what is
left passes and the pointer of the block goes back, so that what is read afterwards is not behind
what has been read before. Such a length is harmful only where a value is expected and its four
bytes are there.

## Depth

Nested tables are read by functions that call each other. How deep the C stack allows that is not in
the source and is taken to suffice.
-/

namespace ZTask

open Lib

variable {buffer : List UInt8} {rb : ReadBlock}

/-! ## All values of a stream -/

/-- How `luaseri_unpack` ends: with the values if the bytes are values, out of order if a length is
oversized, and with an error otherwise. -/
structure Outcome (buffer bytes : List UInt8) (before : List LuaData)
    (result : Except SeriError (List LuaData) × ReadBlock) : Prop where
  values : ∀ {values}, Concat Encodes bytes values → result.1 = .ok (before ++ values) ∧
    result.2.Safe ∧ result.2.buffer = buffer
  oversized : OversizedStream bytes → ∃ err, result.1 = .error err ∧
    (blockView buffer).broken err result.2
  error : (∀ values, ¬Concat Encodes bytes values) → ¬OversizedStream bytes →
    ∃ err, result.1 = .error err ∧ (blockView buffer).stopped err result.2

theorem Encodes.ne_nil (e : List UInt8) (v : LuaData) (h : Encodes e v) : e ≠ [] :=
  List.ne_nil_of_length_pos h.length_pos

theorem Oversized.ne_nil {bytes : List UInt8} (h : Oversized bytes) : bytes ≠ [] := by
  cases h <;> exact List.cons_ne_nil _ _

theorem unpackAll_of_none {values : List LuaData} {bound : ℕ} (h : rbRead 1 rb = (.ok none, rb)) :
    unpackAll (bound + 1) values rb = (.ok values, rb) :=
  Failing.bind_ok h

theorem unpackAll_outcome {bytes : List UInt8} {bound : ℕ} (hbound : bytes.length < bound)
    (before : List LuaData) (hs : rb.Shows buffer bytes) :
    Outcome buffer bytes before (unpackAll bound before rb) := by
  -- on the bytes that are left, of which each value takes at least one
  induction bound generalizing bytes before rb with
  | zero => omega
  | succ bound ih =>
    cases bytes with
    | nil =>
      rw [unpackAll_of_none (hs.short Nat.one_pos)]
      refine ⟨?_, ?_, ?_⟩
      · intro values hvalues
        rw [hvalues.eq_nil Encodes.ne_nil rfl, List.append_nil]
        exact ⟨rfl, hs.safe, hs.buffer_eq⟩
      · rintro ⟨e, values, rest, heq, -, hrest⟩
        exact absurd (List.append_eq_nil_iff.mp heq.symm).2 hrest.ne_nil
      · intro hno _
        exact absurd .nil (hno [])
    | cons t rest =>
      have hlen : rest.length < bound := Nat.lt_of_succ_lt_succ hbound
      obtain ⟨rb₁, rb₂, hread, hcopy, hs'⟩ := @ReadBlock.Shows.read _ _ [t] rest hs
      have hloop : unpackAll (bound + 1) before rb =
          (pushValue (unpackOne bound) bound (kindOf t) (cookieOf t) >>= fun v ↦
            unpackAll bound (before ++ [v])) rb₂ := by
        refine (Failing.bind_ok hread).trans ((Failing.bind_ok hcopy).trans ?_)
        rw [ofLittle_singleton]
        rfl
      rw [hloop]
      -- one value, in each of the ways in which reading it can end
      have hpush := @pushValue_reads buffer _ _ (unpackOne_reads hlen) _ hlen t
      refine ⟨?_, ?_, ?_⟩
      · intro values hvalues
        generalize hcons : t :: rest = bytes at hvalues
        cases hvalues with
        | nil => cases hcons
        | @cons e es v values hv hvalues =>
          obtain ⟨t', e, rfl⟩ := List.exists_cons_of_length_pos hv.length_pos
          rw [List.cons_append] at hcons
          obtain ⟨rfl, rfl⟩ := List.cons.inj hcons
          obtain ⟨rb₃, hok, hs₃⟩ := hpush.reads hv hs' (Nat.le_refl _)
          rw [Failing.bind_ok hok]
          rw [List.length_append] at hlen
          have hrest := (ih (by omega) (before ++ [v]) hs₃).values hvalues
          rwa [List.append_assoc] at hrest
      · rintro ⟨e, values, rest', hcons, hvalues, hrest⟩
        cases hvalues with
        | nil =>
          rw [List.nil_append] at hcons
          rw [← hcons] at hrest
          obtain ⟨err, rb₃, herror, hbroken⟩ := hpush.breaks hrest hs' (Nat.le_refl _)
          rw [Failing.bind_error herror]
          exact ⟨err, rfl, hbroken⟩
        | @cons e es v values hv hvalues =>
          obtain ⟨t', e, rfl⟩ := List.exists_cons_of_length_pos hv.length_pos
          rw [List.append_assoc, List.cons_append] at hcons
          obtain ⟨rfl, rfl⟩ := List.cons.inj hcons
          obtain ⟨rb₃, hok, hs₃⟩ := hpush.reads hv hs' (Nat.le_refl _)
          rw [Failing.bind_ok hok]
          rw [List.length_append] at hlen
          exact (ih (by omega) (before ++ [v]) hs₃).oversized ⟨es, values, rest', rfl,
            hvalues, hrest⟩
      · intro hno hsize
        by_cases hsome : ∃ e v es, rest = e ++ es ∧ Encodes (t :: e) v
        · obtain ⟨e, v, es, rfl, hv⟩ := hsome
          obtain ⟨rb₃, hok, hs₃⟩ := hpush.reads hv hs' (Nat.le_refl _)
          rw [Failing.bind_ok hok]
          rw [List.length_append] at hlen
          refine (ih (by omega) (before ++ [v]) hs₃).error ?_ ?_
          · intro values hvalues
            exact hno (v :: values) (.cons hv hvalues)
          · rintro ⟨e', values, rest', rfl, hvalues, hrest⟩
            exact hsize ⟨(t :: e) ++ e', v :: values, rest', by simp, .cons hv hvalues, hrest⟩
        · obtain ⟨err, rb₃, herror, hstopped⟩ := hpush.stops
            (fun e v es heq hv ↦ hsome ⟨e, v, es, heq, hv⟩)
            (fun hover ↦ hsize ⟨[], [], _, rfl, .nil, hover⟩) hs' (Nat.le_refl _)
          rw [Failing.bind_error herror]
          exact ⟨err, rfl, hstopped⟩

/-! ## Arguments -/

/-- Both ways to pass bytes to `luaseri_unpack`. -/
def seriArguments (bytes : List UInt8) : List SeriArgument :=
  [.string bytes, .pointer (some bytes) bytes.length]

/-- `luaseri_unpack` ends, and leaves a block of these bytes in order. -/
structure SafelyUnpacked (bytes : List UInt8)
    (result : Except SeriError (List LuaData) × ReadBlock) : Prop where
  ends : result.1 ≠ .error .unbounded
  block : result.2.buffer = bytes
  safe : result.2.Safe

/-- The block at the start. -/
theorem ReadBlock.shows_init {bytes : List UInt8} {len : Int} (hnonneg : 0 ≤ len)
    (hle : len ≤ bytes.length) (hlt : len < 2 ^ 31) :
    (ReadBlock.init bytes len).Shows bytes (bytes.take len.toNat) where
  buffer_eq := rfl
  ptr_nonneg := Int.le_refl 0
  len_eq := by
    rw [List.length_take]
    show len = _
    omega
  left := List.take_prefix ..
  inside := by
    show 0 + len ≤ _
    omega
  small := by
    show 0 + len < _
    omega
  safe := ⟨fun _ ha ↦ (nomatch ha), .singleton _, by simpa [ReadBlock.init] using hnonneg⟩
  last := ⟨[], rfl⟩

/-- **The decoder is safe** exactly for the bytes whose length is not negative as an `int` and, as
far as they are read, have no oversized length in the place of a value. -/
theorem luaseri_unpack_safe_iff (bytes : List UInt8) :
    (∀ argument ∈ seriArguments bytes, SafelyUnpacked bytes (luaseriUnpack argument)) ↔
      0 ≤ toInt32 bytes.length ∧
        ¬OversizedStream (bytes.take (toInt32 bytes.length).toNat) := by
  have hle : toInt32 bytes.length ≤ bytes.length := toInt32_le _
  have hlt := toInt32_lt bytes.length
  generalize hint : toInt32 bytes.length = len at hle hlt
  -- a string and a pointer with its length are read by the same loop
  have hsame : (∀ argument ∈ seriArguments bytes, SafelyUnpacked bytes (luaseriUnpack argument)) ↔
      SafelyUnpacked bytes (luaseriUnpack.unpackBuffer (some bytes) len) := by
    simp only [seriArguments, List.forall_mem_cons, List.not_mem_nil, false_implies, implies_true,
      and_true, luaseriUnpack, hint, and_self]
  rw [hsame, luaseriUnpack.unpackBuffer]
  by_cases hzero : len = 0
  · rw [if_pos hzero]
    refine iff_of_true ⟨nofun, rfl, ?_⟩ ⟨by omega, ?_⟩
    · exact ⟨fun _ ha ↦ (nomatch ha), .singleton _, by simp [ReadBlock.init, hzero]⟩
    · rw [hzero]
      rintro ⟨e, values, rest, heq, -, hrest⟩
      exact absurd (List.append_eq_nil_iff.mp heq.symm).2 hrest.ne_nil
  rw [if_neg hzero]
  by_cases hnonneg : 0 ≤ len
  · have houtcome := unpackAll_outcome
      (Nat.lt_succ_of_le (List.length_take_le len.toNat bytes)) []
      (ReadBlock.shows_init hnonneg hle hlt)
    constructor
    · intro hsafe
      refine ⟨hnonneg, fun hover ↦ ?_⟩
      obtain ⟨err, -, hbroken, -⟩ := houtcome.oversized hover
      exact hbroken hsafe.safe
    · rintro ⟨-, hover⟩
      by_cases hvalues : ∃ values, Concat Encodes (bytes.take len.toNat) values
      · obtain ⟨values, hvalues⟩ := hvalues
        obtain ⟨hok, hsafe, hblock⟩ := houtcome.values hvalues
        exact ⟨by rw [hok]; nofun, hblock, hsafe⟩
      · obtain ⟨err, herror, hsafe, hblock, hne⟩ :=
          houtcome.error (fun values h ↦ hvalues ⟨values, h⟩) hover
        refine ⟨?_, hblock, hsafe⟩
        rw [herror]
        rintro ⟨⟩
        exact hne rfl
  · -- with a length that wrapped below zero the first read already fails
    refine iff_of_false ?_ fun h ↦ hnonneg h.1
    intro hsafe
    have hshort : (ReadBlock.init bytes len).len < 1 :=
      Int.lt_trans (Int.not_le.mp hnonneg) Int.one_pos
    have hnone : rbRead 1 (.init bytes len) = (.ok none, .init bytes len) := by
      rw [rbRead, if_pos hshort]
    rw [unpackAll_of_none hnone] at hsafe
    exact hnonneg (hsafe.safe.nonneg len List.mem_cons_self)

/-- A string length of `2^32 - 1`: no byte is left, and afterwards there is one. -/
theorem not_luaseri_unpack_safe : ¬∀ bytes, ∀ argument ∈ seriArguments bytes,
    SafelyUnpacked bytes (luaseriUnpack argument) := by
  intro hall
  have hsafe := (hall [37, 255, 255, 255,
      255] (.string [37, 255, 255, 255, 255]) List.mem_cons_self).safe
  revert hsafe
  decide +kernel

end ZTask
