import Mathlib.Algebra.Ring.Int.Defs
import Mathlib.Algebra.Ring.Nat
import Mathlib.Data.List.Basic

/-!
# Length-prefixed frames on a byte stream

A receiver of frames, one symbol at a time: a greeting of one symbol if there is one, then frames,
each a header of fixed length that tells the length of the body that follows. What the receiver
makes of a stream does not depend on how the stream is cut (`feed_append`), and a stream of whole
frames is read back frame by frame (`feed_stream`).

A program that is handed the stream in chunks and copies as much of a chunk as it needs makes the
same moves several symbols at a time; the lemmas of the second section are these moves.
-/

namespace Lib

/-- A frame format: which greeting is accepted, the length of a header, and the length of the body
a header announces, if it is acceptable. -/
structure FrameFormat (α : Type*) where
  greets : α → Bool
  headerLength : ℕ
  bodyLength : List α → Option ℕ

/-- What a receiver is in the middle of. -/
inductive Receiver (α : Type*)
  | greeting
  | header (got : List α)
  | body (length : ℕ) (got : List α)
  | closed
deriving DecidableEq

/-- What a receiver notices. -/
inductive Notice (α : Type*)
  | greeted
  | refused (a : α)
  | frame (body : List α)
  | unacceptable
deriving DecidableEq

variable {α : Type*}

/-- The body, if the notice is of a frame. -/
def Notice.frame? : Notice α → Option (List α)
  | frame body => some body
  | _ => none

namespace FrameFormat

variable (F : FrameFormat α)

/-- The receiver reads one symbol. -/
def step : Receiver α → α → Receiver α × List (Notice α)
  | .greeting, a => if F.greets a then (.header [], [.greeted]) else (.closed, [.refused a])
  | .header got, a =>
    if got.length + 1 < F.headerLength then (.header (got ++ [a]), [])
    else match F.bodyLength (got ++ [a]) with
      | none => (.closed, [.unacceptable])
      | some n => (.body n [], [])
  | .body n got, a =>
    if got.length + 1 < n then (.body n (got ++ [a]), [])
    else (.header [], [.frame (got ++ [a])])
  | .closed, _ => (.closed, [])

/-- The receiver reads a stream. -/
def feed : Receiver α → List α → Receiver α × List (Notice α)
  | r, [] => (r, [])
  | r, a :: as => ((feed (F.step r a).1 as).1, (F.step r a).2 ++ (feed (F.step r a).1 as).2)

variable {F}

@[simp] theorem feed_nil (r : Receiver α) : F.feed r [] = (r, []) := rfl

theorem feed_cons (r : Receiver α) (a : α) (as : List α) :
    F.feed r (a :: as) =
      ((F.feed (F.step r a).1 as).1, (F.step r a).2 ++ (F.feed (F.step r a).1 as).2) := rfl

/-- **Cutting a stream makes no difference.** -/
theorem feed_append (r : Receiver α) (as bs : List α) :
    F.feed r (as ++ bs) =
      ((F.feed (F.feed r as).1 bs).1, (F.feed r as).2 ++ (F.feed (F.feed r as).1 bs).2) := by
  induction as generalizing r with
  | nil => rfl
  | cons a as ih => rw [List.cons_append, feed_cons, ih, feed_cons, List.append_assoc]

@[simp] theorem feed_closed (as : List α) : F.feed .closed as = (.closed, []) := by
  induction as with
  | nil => rfl
  | cons a as ih => rw [feed_cons, step, ih, List.nil_append]

/-- There is at most one greeting, at the start. -/
theorem not_greeted_mem_feed {r : Receiver α} (hr : r ≠ .greeting) (as : List α) :
    .greeted ∉ (F.feed r as).2 := by
  induction as generalizing r with
  | nil => exact List.not_mem_nil
  | cons a as ih =>
    have hstep : (F.step r a).1 ≠ .greeting ∧ .greeted ∉ (F.step r a).2 := by
      cases r with
      | greeting => exact absurd rfl hr
      | header got =>
        rw [step]
        split
        · simp
        · split <;> simp
      | body n got =>
        rw [step]
        split <;> simp
      | closed => simp [step]
    rw [feed_cons, List.mem_append, not_or]
    exact ⟨hstep.2, ih hstep.1⟩

/-! ## Several symbols at a time -/

theorem feed_greeting {a : α} (h : F.greets a = true) :
    F.feed .greeting [a] = (.header [], [.greeted]) := by
  simp [feed, step, h]

theorem feed_greeting_refused {a : α} (h : F.greets a = false) (as : List α) :
    F.feed .greeting (a :: as) = (.closed, [.refused a]) := by
  rw [feed_cons, step, h, if_neg Bool.false_ne_true, feed_closed, List.append_nil]

/-- Part of a header. -/
theorem feed_header {got as : List α} (h : got.length + as.length < F.headerLength) :
    F.feed (.header got) as = (.header (got ++ as), []) := by
  induction as generalizing got with
  | nil => rw [feed_nil, List.append_nil]
  | cons a as ih =>
    rw [List.length_cons] at h
    have hgot : got.length + 1 < F.headerLength := by omega
    rw [feed_cons, step, if_pos hgot, ih (by simp; omega), List.append_assoc]
    rfl

/-- Part of a body. -/
theorem feed_body {got as : List α} {n : ℕ} (h : got.length + as.length < n) :
    F.feed (.body n got) as = (.body n (got ++ as), []) := by
  induction as generalizing got with
  | nil => rw [feed_nil, List.append_nil]
  | cons a as ih =>
    rw [List.length_cons] at h
    have hgot : got.length + 1 < n := by omega
    rw [feed_cons, step, if_pos hgot, ih (by simp; omega), List.append_assoc]
    rfl

/-- The rest of a header. -/
theorem feed_header_end {got as : List α} (hgot : got.length < F.headerLength)
    (h : got.length + as.length = F.headerLength) :
    F.feed (.header got) as = match F.bodyLength (got ++ as) with
      | none => (.closed, [.unacceptable])
      | some n => (.body n [], []) := by
  obtain ⟨init, a, rfl⟩ : ∃ init a, as = init ++ [a] := by
    refine List.eq_nil_or_concat' as |>.resolve_left fun hnil ↦ ?_
    rw [hnil, List.length_nil] at h
    omega
  rw [List.length_append, List.length_singleton] at h
  have hlast : ¬ (got ++ init).length + 1 < F.headerLength := by
    rw [List.length_append]
    omega
  rw [feed_append, feed_header (by omega), feed_cons, step, if_neg hlast, List.append_assoc]
  cases F.bodyLength (got ++ (init ++ [a])) <;> rfl

/-- The rest of a body. -/
theorem feed_body_end {got as : List α} {n : ℕ} (hgot : got.length < n)
    (h : got.length + as.length = n) :
    F.feed (.body n got) as = (.header [], [.frame (got ++ as)]) := by
  obtain ⟨init, a, rfl⟩ : ∃ init a, as = init ++ [a] := by
    refine List.eq_nil_or_concat' as |>.resolve_left fun hnil ↦ ?_
    rw [hnil, List.length_nil] at h
    omega
  rw [List.length_append, List.length_singleton] at h
  have hlast : ¬ (got ++ init).length + 1 < n := by
    rw [List.length_append]
    omega
  rw [feed_append, feed_body (by omega), feed_cons, step, if_neg hlast, List.append_assoc]
  rfl

/-! ## Streams of frames -/

/-- A header and a body that belong together. -/
def IsFrame (F : FrameFormat α) (p : List α × List α) : Prop :=
  p.1.length = F.headerLength ∧ 0 < F.headerLength ∧ F.bodyLength p.1 = some p.2.length ∧
    0 < p.2.length

theorem feed_frame {p : List α × List α} (h : F.IsFrame p) :
    F.feed (.header []) (p.1 ++ p.2) = (.header [], [.frame p.2]) := by
  obtain ⟨hlen, hpos, hbody, hne⟩ := h
  have hheader : F.feed (.header []) p.1 = (.body p.2.length [], []) := by
    rw [feed_header_end (by exact hpos) (by rw [List.length_nil, hlen, Nat.zero_add]),
      List.nil_append, hbody]
  rw [feed_append, hheader, feed_body_end (by exact hne) (by rw [List.length_nil, Nat.zero_add])]
  rfl

/-- **A stream of whole frames is read back frame by frame.** -/
theorem feed_stream {ps : List (List α × List α)} (h : ∀ p ∈ ps, F.IsFrame p) :
    F.feed (.header []) (ps.flatMap fun p ↦ p.1 ++ p.2) =
      (.header [], ps.map fun p ↦ .frame p.2) := by
  induction ps with
  | nil => rfl
  | cons p ps ih =>
    rw [List.flatMap_cons, feed_append, feed_frame (h p List.mem_cons_self),
      ih fun q hq ↦ h q (List.mem_cons_of_mem p hq)]
    rfl

end FrameFormat

end Lib
