import Mathlib.Algebra.Ring.Int.Defs
import Mathlib.Algebra.Ring.Nat
import Mathlib.Data.List.Basic

/-!
# Reading behind what was read already

`sockethelper.readfunc(fd, pre)` makes a read function of a socket and of a string that was read
from it before: the string is to be used up first. `preread` is that closure; `str` is what it keeps
of the string.

A read of more bytes than `str` has returns `str` together with bytes of the socket, but does not
drop `str`: a later read finds it again. What is read is in order exactly as long as no such read is
followed by another one that returns something (`readfunc_inOrder`).
-/

namespace ZTask

/-! ## The read function -/

/-- A call of the read function. `socket.read` is `none` where the socket has failed; `some k` is
the size of the next chunk, which matters for a read without a size only. -/
structure ReadRequest where
  sz : Option ℕ
  chunk : Option ℕ
  deriving DecidableEq

/-- What the closure keeps, and what the socket still delivers. -/
structure PreRead where
  str : Option (List UInt8)
  stream : List UInt8
  deriving DecidableEq

/-- `socket.read(fd, sz)`: exactly the next `sz` bytes, or the next chunk, or `false`. -/
def socketRead (stream : List UInt8) (sz : Option ℕ) (chunk : Option ℕ) :
    Option (List UInt8 × List UInt8) :=
  match chunk with
  | none => none
  | some k =>
    let n := sz.getD k
    if n ≤ stream.length then some (stream.take n, stream.drop n) else none

/-- The closure that `readfunc` returns; no answer stands for `error(socket_error)`. -/
def preread (s : PreRead) (r : ReadRequest) : Option (List UInt8) × PreRead :=
  match s.str with
  | some str =>
    match r.sz with
    | none => (some str, { s with str := none })
    | some sz =>
      if sz = str.length then
        (some str, { s with str := none })
      else if sz < str.length then
        (some (str.take sz), { s with str := some (str.drop sz) })
      else
        match socketRead s.stream (some (sz - str.length)) r.chunk with
        -- the closure keeps `str`
        | some (ret, stream) => (some (str ++ ret), { s with stream := stream })
        | none => (none, s)
  | none =>
    match socketRead s.stream r.sz r.chunk with
    | some (ret, stream) => (some ret, { s with stream := stream })
    | none => (none, s)

/-- The answers of the calls, one after another. -/
def prereads : PreRead → List ReadRequest → List (ReadRequest × Option (List UInt8))
  | _, [] => []
  | s, r :: rs => (r, (preread s r).1) :: prereads (preread s r).2 rs

/-- The read function of a socket, after `pre` was read from it (if anything was). -/
def readfunc (pre : Option (List UInt8)) (stream : List UInt8) : List ReadRequest →
    List (ReadRequest × Option (List UInt8)) :=
  prereads ⟨pre, stream⟩

/-! ## What is to be read -/

/-- The bytes that the answers bring, in order; a call that raises brings none. -/
def received (answers : List (ReadRequest × Option (List UInt8))) : List UInt8 :=
  answers.flatMap fun a ↦ a.2.getD []

/-- Every read with a size that does not raise returns so many bytes. -/
def Exact (answers : List (ReadRequest × Option (List UInt8))) : Prop :=
  ∀ r ret n, (r, some ret) ∈ answers → r.sz = some n → ret.length = n

/-- What is left to be read. -/
def PreRead.content (s : PreRead) : List UInt8 := s.str.getD [] ++ s.stream

/-- What the closure keeps of the string. -/
def leftover : Option (List UInt8) → ReadRequest → Option (List UInt8)
  | none, _ => none
  | some str, r =>
    match r.sz with
    | none => none
    | some n =>
      if n = str.length then none else if n < str.length then some (str.drop n) else some str

/-- A read of more than is left of the string, if the socket does not fail. -/
def Beyond (str : List UInt8) (r : ReadRequest) : Prop :=
  str ≠ [] ∧ r.chunk ≠ none ∧ ∃ n, r.sz = some n ∧ str.length < n

/-- A read that returns nothing of a string that is left: of no bytes, or one that raises. -/
def Idle (str : List UInt8) (r : ReadRequest) : Prop :=
  r.sz = some 0 ∨ r.chunk = none ∧ ∃ n, r.sz = some n ∧ str.length < n

/-- No read of more than is left of the string is followed by one that returns something. -/
def NoReread : Option (List UInt8) → List ReadRequest → Prop
  | _, [] => True
  | str, r :: rs =>
    (∀ s, str = some s → Beyond s r → ∀ r' ∈ rs, Idle s r') ∧ NoReread (leftover str r) rs

section

variable {s : PreRead} {r : ReadRequest} {rs : List ReadRequest} {str stream ret : List UInt8}
  {sz chunk : Option ℕ} {n k : ℕ}

theorem socketRead_eq_some {rest : List UInt8} (h : socketRead stream sz chunk = some (ret, rest)) :
    ret ++ rest = stream ∧ ∀ n, sz = some n → ret.length = n := by
  rw [socketRead.eq_def] at h
  split at h
  · cases h
  · dsimp only at h
    split at h
    next hle =>
      obtain ⟨rfl, rfl⟩ := Prod.mk.inj (Option.some.inj h)
      refine ⟨List.take_append_drop _ _, fun n hn ↦ ?_⟩
      rw [hn] at hle ⊢
      exact List.length_take_of_le hle
    next => cases h

private theorem socketRead_enough (h : n ≤ stream.length) :
    socketRead stream (some n) (some k) = some (stream.take n, stream.drop n) := by
  rw [socketRead]
  exact if_pos h

private theorem socketRead_failed : socketRead stream sz none = none := rfl

/-! ## The cases of a read -/

private theorem preread_whole (h : r.sz = none ∨ r.sz = some str.length) :
    preread ⟨some str, stream⟩ r = (some str, ⟨none, stream⟩) := by
  rw [preread]
  rcases h with h | h
  · rw [h]
  · rw [h]
    exact if_pos rfl

private theorem preread_within (h : r.sz = some n) (hn : n < str.length) :
    preread ⟨some str, stream⟩ r = (some (str.take n), ⟨some (str.drop n), stream⟩) := by
  rw [preread, h]
  dsimp only
  rw [if_neg (Nat.ne_of_lt hn), if_pos hn]

private theorem preread_beyond (h : r.sz = some n) (hn : str.length < n) :
    preread ⟨some str, stream⟩ r =
      match socketRead stream (some (n - str.length)) r.chunk with
      | some (ret, rest) => (some (str ++ ret), ⟨some str, rest⟩)
      | none => (none, ⟨some str, stream⟩) := by
  rw [preread, h]
  dsimp only
  rw [if_neg (Nat.ne_of_gt hn), if_neg (Nat.not_lt_of_gt hn)]

private theorem preread_idle (stream : List UInt8) (h : Idle str r) (hstr : str ≠ []) :
    (preread ⟨some str, stream⟩ r).1.getD [] = [] ∧
      (preread ⟨some str, stream⟩ r).2 = ⟨some str, stream⟩ := by
  rcases h with h | ⟨hchunk, n, h, hn⟩
  · rw [preread_within h (List.length_pos_of_ne_nil hstr)]
    exact ⟨rfl, rfl⟩
  · rw [preread_beyond h hn, hchunk]
    exact ⟨rfl, rfl⟩

/-! ## Reads with a size -/

/-- **One call** with a size returns so many bytes or raises. -/
theorem preread_length (hret : (preread s r).1 = some ret) (hsz : r.sz = some n) :
    ret.length = n := by
  obtain ⟨_ | str, stream⟩ := s
  · rw [preread, hsz] at hret
    dsimp only at hret
    split at hret
    next hread =>
      cases hret
      exact (socketRead_eq_some hread).2 n rfl
    next => cases hret
  · rcases Nat.lt_trichotomy n str.length with hn | rfl | hn
    · rw [preread_within hsz hn] at hret
      cases hret
      exact List.length_take_of_le (Nat.le_of_lt hn)
    · rw [preread_whole (Or.inr hsz)] at hret
      cases hret
      rfl
    · rw [preread_beyond hsz hn] at hret
      split at hret
      next hread =>
        cases hret
        rw [List.length_append, (socketRead_eq_some hread).2 _ rfl]
        omega
      next => cases hret

private theorem exact_prereads : Exact (prereads s rs) := by
  induction rs generalizing s with
  | nil => exact fun _ _ _ hmem ↦ nomatch hmem
  | cons r rs ih =>
    intro r' ret n hmem hsz
    rcases List.mem_cons.mp hmem with h | h
    · obtain ⟨rfl, hret⟩ := Prod.mk.inj h
      exact preread_length hret.symm hsz
    · exact ih _ _ _ h hsz

/-! ## What the reads bring, in order -/

private theorem preread_str : (preread s r).2.str = leftover s.str r := by
  obtain ⟨_ | str, stream⟩ := s
  · rw [preread]
    dsimp only
    split <;> rfl
  · rw [preread, leftover]
    dsimp only
    split
    · rfl
    · split
      · rfl
      · split
        · rfl
        · split <;> rfl

/-- **One call** that does not read beyond the string takes what it returns from the front of what
is left. -/
theorem preread_content (h : ∀ str, s.str = some str → ¬Beyond str r) :
    (preread s r).1.getD [] ++ (preread s r).2.content = s.content := by
  obtain ⟨_ | str, stream⟩ := s
  · rw [preread]
    dsimp only
    split
    next ret rest hread => exact (socketRead_eq_some hread).1
    next => rfl
  · cases hsz : r.sz with
    | none =>
      rw [preread_whole (Or.inl hsz)]
      rfl
    | some n =>
      rcases Nat.lt_trichotomy n str.length with hn | rfl | hn
      · rw [preread_within hsz hn]
        show str.take n ++ (str.drop n ++ stream) = str ++ stream
        rw [← List.append_assoc, List.take_append_drop]
      · rw [preread_whole (Or.inr hsz)]
        rfl
      · rw [preread_beyond hsz hn]
        split
        next ret rest hread =>
          have hstr : str = [] := by
            by_contra hstr
            refine h str rfl ⟨hstr, fun hchunk ↦ ?_, n, hsz, hn⟩
            rw [hchunk, socketRead_failed] at hread
            cases hread
          rw [hstr]
          exact (socketRead_eq_some hread).1
        next => rfl

private theorem received_prereads_cons : received (prereads s (r :: rs)) =
    (preread s r).1.getD [] ++ received (prereads (preread s r).2 rs) :=
  List.flatMap_cons

private theorem received_idle (hstr : str ≠ []) (h : ∀ r ∈ rs, Idle str r) :
    received (prereads ⟨some str, stream⟩ rs) = [] := by
  induction rs with
  | nil => rfl
  | cons r rs ih =>
    obtain ⟨hret, hs⟩ := preread_idle stream (h r List.mem_cons_self) hstr
    rw [received_prereads_cons, hret, hs, List.nil_append]
    exact ih fun r' hr' ↦ h r' (List.mem_cons_of_mem r hr')

/-- **Every run** without such a read is in order. -/
theorem received_starts (h : NoReread s.str rs) : received (prereads s rs) <+: s.content := by
  induction rs generalizing s with
  | nil => exact List.nil_prefix
  | cons r rs ih =>
    obtain ⟨hidle, hrest⟩ := h
    rw [received_prereads_cons]
    by_cases hbeyond : ∃ str, s.str = some str ∧ Beyond str r
    · -- nothing that returns anything comes after it
      obtain ⟨str, hstr, hb⟩ := hbeyond
      obtain ⟨_, stream⟩ := s
      subst hstr
      obtain ⟨hne, -, n, hsz, hn⟩ := id hb
      rw [preread_beyond hsz hn]
      split
      next ret rest hread =>
        dsimp only
        rw [received_idle hne (hidle str rfl hb), List.append_nil, PreRead.content,
          ← (socketRead_eq_some hread).1]
        exact (List.prefix_append_right_inj _).mpr (List.prefix_append _ _)
      next =>
        rw [received_idle hne (hidle str rfl hb)]
        exact List.nil_prefix
    · rw [← preread_content fun str hstr hb ↦ hbeyond ⟨str, hstr, hb⟩]
      exact (List.prefix_append_right_inj _).mpr (ih (by rw [preread_str]; exact hrest))

/-! ## What is read again -/

private theorem noReread_none : NoReread none rs := by
  induction rs with
  | nil => trivial
  | cons r rs ih => exact ⟨fun _ hs ↦ (nomatch hs), ih⟩

private theorem leftover_nil : leftover (some []) r = none ∨ leftover (some []) r = some [] := by
  rw [leftover]
  split
  · exact Or.inl rfl
  · split
    · exact Or.inl rfl
    · rw [if_neg (show ¬_ < ([] : List UInt8).length from Nat.not_lt_zero _)]
      exact Or.inr rfl

private theorem noReread_nil : NoReread (some []) rs := by
  induction rs with
  | nil => trivial
  | cons r rs ih =>
    refine ⟨fun s hs hb ↦ absurd (Option.some.inj hs).symm hb.1, ?_⟩
    rcases leftover_nil (r := r) with h | h
    · rw [h]
      exact noReread_none
    · rw [h]
      exact ih

theorem leftover_idle (hstr : str ≠ []) (h : Idle str r) : leftover (some str) r = some str := by
  have hstate := (preread_idle [] h hstr).2
  rw [← preread_str (s := ⟨some str, []⟩), hstate]

theorem noReread_idle (hstr : str ≠ []) (h : ∀ r ∈ rs, Idle str r) : NoReread (some str) rs := by
  induction rs with
  | nil => trivial
  | cons r rs ih =>
    have hrs : ∀ r' ∈ rs, Idle str r' := fun r' hr' ↦ h r' (List.mem_cons_of_mem r hr')
    refine ⟨fun s hs _ ↦ Option.some.inj hs ▸ hrs, ?_⟩
    rw [leftover_idle hstr (h r List.mem_cons_self)]
    exact ih hrs

/-- A stream of so many bytes has enough for every read with a size. -/
def demand (rs : List ReadRequest) : ℕ := (rs.map fun r ↦ r.sz.getD 0).sum

/-- A read that is not idle returns the string from its beginning. -/
theorem received_again {c : UInt8} (hstr : str ≠ []) (hidle : ¬∀ r ∈ rs, Idle str r)
    (hn : demand rs ≤ n) :
    ∃ b out, str.head? = some b ∧
      received (prereads ⟨some str, List.replicate n c⟩ rs) = b :: out := by
  induction rs with
  | nil => exact absurd (fun _ hr ↦ nomatch hr) hidle
  | cons r rs ih =>
    obtain ⟨b, bytes, rfl⟩ := List.exists_cons_of_ne_nil hstr
    have hdemand : demand (r :: rs) = r.sz.getD 0 + demand rs := rfl
    by_cases hr : Idle (b :: bytes) r
    · obtain ⟨hret, hs⟩ := preread_idle (List.replicate n c) hr hstr
      rw [received_prereads_cons, hret, hs, List.nil_append]
      refine ih (fun hall ↦ hidle fun r' hr' ↦ ?_) (by omega)
      rcases List.mem_cons.mp hr' with rfl | hr'
      · exact hr
      · exact hall r' hr'
    · refine ⟨b, ?_⟩
      rw [received_prereads_cons]
      cases hsz : r.sz with
      | none =>
        rw [preread_whole (Or.inl hsz)]
        exact ⟨_, rfl, rfl⟩
      | some k =>
        rcases Nat.lt_trichotomy k (b :: bytes).length with hk | hk | hk
        · rw [preread_within hsz hk]
          cases k with
          | zero => exact absurd (Or.inl hsz) hr
          | succ k => exact ⟨_, rfl, rfl⟩
        · rw [preread_whole (Or.inr (hk ▸ hsz))]
          exact ⟨_, rfl, rfl⟩
        · obtain ⟨size, hchunk⟩ : ∃ size, r.chunk = some size := by
            cases hchunk : r.chunk with
            | none => exact absurd (Or.inr ⟨hchunk, k, hsz, hk⟩) hr
            | some size => exact ⟨size, rfl⟩
          rw [hsz, Option.getD_some] at hdemand
          rw [preread_beyond hsz hk, hchunk, socketRead_enough (by
            rw [List.length_replicate]
            omega)]
          exact ⟨_, rfl, rfl⟩

private theorem exists_byte_ne (b : UInt8) : ∃ c, b ≠ c := by
  by_cases hb : b = 0
  · exact ⟨1, by rw [hb]; decide⟩
  · exact ⟨0, hb⟩

private theorem preread_stream (stream : List UInt8) (hstr : str ≠ []) (h : ¬Beyond str r) :
    (preread ⟨some str, stream⟩ r).2.stream = stream := by
  cases hsz : r.sz with
  | none => rw [preread_whole (Or.inl hsz)]
  | some n =>
    rcases Nat.lt_trichotomy n str.length with hn | rfl | hn
    · rw [preread_within hsz hn]
    · rw [preread_whole (Or.inr hsz)]
    · have hchunk : r.chunk = none := by
        by_contra hchunk
        exact h ⟨hstr, hchunk, n, hsz, hn⟩
      rw [preread_beyond hsz hn, hchunk, socketRead_failed]

/-- A read that returns something after one beyond the string is out of order on some stream. -/
theorem exists_not_prefix (h : ¬NoReread (some str) rs) :
    ∃ c, ∀ n, demand rs ≤ n → ¬received (prereads ⟨some str, List.replicate n c⟩ rs) <+:
      str ++ List.replicate n c := by
  induction rs generalizing str with
  | nil => exact absurd trivial h
  | cons r rs ih =>
    have hstr : str ≠ [] := by
      rintro rfl
      exact h noReread_nil
    have hdemand : demand (r :: rs) = r.sz.getD 0 + demand rs := rfl
    by_cases hbeyond : Beyond str r
    · -- the bytes of the socket stand in front of the string
      have hidle : ¬∀ r' ∈ rs, Idle str r' := by
        intro hidle
        refine h ⟨fun s hs _ ↦ Option.some.inj hs ▸ hidle, ?_⟩
        obtain ⟨-, -, k, hsz, hk⟩ := hbeyond
        rw [leftover, hsz]
        dsimp only
        rw [if_neg (Nat.ne_of_gt hk), if_neg (Nat.not_lt_of_gt hk)]
        exact noReread_idle hstr hidle
      obtain ⟨b, bytes, hcons⟩ := List.exists_cons_of_ne_nil hstr
      obtain ⟨c, hc⟩ := exists_byte_ne b
      obtain ⟨-, hchunk, k, hsz, hk⟩ := hbeyond
      obtain ⟨size, hchunk⟩ := Option.ne_none_iff_exists'.mp hchunk
      refine ⟨c, fun n hn ↦ ?_⟩
      rw [hsz, Option.getD_some] at hdemand
      rw [received_prereads_cons, preread_beyond hsz hk, hchunk,
        socketRead_enough (by rw [List.length_replicate]; omega)]
      dsimp only
      rw [List.drop_replicate, List.take_replicate, Option.getD_some]
      obtain ⟨b', out, hhead, hagain⟩ := received_again (c := c)
        (n := n - (k - str.length)) hstr hidle (by
          have hpos := List.length_pos_of_ne_nil hstr
          omega)
      have hb : b' = b := by
        rw [hcons] at hhead
        exact (Option.some.inj hhead).symm
      rw [hagain, hb, List.append_assoc, List.prefix_append_right_inj]
      intro hstarts
      exact hc (List.eq_of_mem_replicate
        (hstarts.subset (List.mem_append_right _ List.mem_cons_self)))
    · -- up to here the reads are in order
      have hrest : ¬NoReread (leftover (some str) r) rs := fun hrest ↦
        h ⟨fun s hs hb ↦ absurd (Option.some.inj hs ▸ hb) hbeyond, hrest⟩
      obtain ⟨str', hstr'⟩ : ∃ str', leftover (some str) r = some str' := by
        cases hleft : leftover (some str) r with
        | none => exact absurd noReread_none (hleft ▸ hrest)
        | some str' => exact ⟨str', rfl⟩
      rw [hstr'] at hrest
      obtain ⟨c, hc⟩ := ih hrest
      refine ⟨c, fun n hn hstarts ↦ hc n (by omega) ?_⟩
      have hcontent := preread_content (s := ⟨some str, List.replicate n c⟩) (r := r) fun s hs ↦
        Option.some.inj hs ▸ hbeyond
      have hnext : (preread ⟨some str, List.replicate n c⟩ r).2
          = ⟨some str', List.replicate n c⟩ := by
        have hstate := preread_str (s := ⟨some str, List.replicate n c⟩) (r := r)
        have hstream := preread_stream (List.replicate n c) hstr hbeyond
        exact congrArg₂ PreRead.mk (hstate.trans hstr') hstream
      rw [received_prereads_cons, hnext] at hstarts
      rw [hnext] at hcontent
      have hwhole : str ++ List.replicate n c =
          (PreRead.mk (some str) (List.replicate n c)).content :=
        rfl
      rw [hwhole, ← hcontent] at hstarts
      exact (List.prefix_append_right_inj _).mp hstarts

end

/-! ## The read function is in order -/

/-- **Pre-read strings.** The strings that the read function returns, one after another, are a
beginning of `pre .. stream` on every stream, and the reads with a size return so many bytes, if and
only if no read of more bytes than are left of `pre` is followed by one that returns something. -/
theorem readfunc_inOrder (pre : Option (List UInt8)) (requests : List ReadRequest) :
    (∀ stream, received (readfunc pre stream requests) <+: pre.getD [] ++ stream ∧
      Exact (readfunc pre stream requests)) ↔ NoReread pre requests := by
  constructor
  · intro h
    by_contra hno
    cases pre with
    | none => exact hno noReread_none
    | some str =>
      -- a stream of a byte unlike the one read twice gives the order away
      obtain ⟨c, hc⟩ := exists_not_prefix hno
      exact hc (demand requests) (Nat.le_refl _) (h _).1
  · exact fun h stream ↦ ⟨received_starts h, exact_prereads⟩

/-- `"ab"` was read before and `"cde"` comes: reads of four bytes and of one return `"abcd"` and
then `"a"`. -/
theorem not_readfunc_inOrder :
    readfunc (some [97, 98]) [99, 100, 101] [⟨some 4, some 0⟩, ⟨some 1, some 0⟩] =
        [(⟨some 4, some 0⟩, some [97, 98, 99, 100]), (⟨some 1, some 0⟩, some [97])] ∧
      ¬received (readfunc (some [97, 98]) [99, 100, 101] [⟨some 4, some 0⟩, ⟨some 1, some 0⟩]) <+:
        [97, 98] ++ [99, 100, 101] := by
  decide

end ZTask
