import ZTask.LuaSocket.Buffer
import Mathlib.Data.List.Basic

/-!
# Buffers as strings

What the buffers are for: each is one string of bytes. `push` appends to it, `pop` takes the first
bytes if there are so many, `readline` takes everything up to the first occurrence of the separator,
`readall` and `clear` take what there is.
-/

namespace ZTask

open Lib

/-- The bytes before the first occurrence of the separator, and those after it. -/
def splitLine (sep : List UInt8) : List UInt8 → Option (List UInt8 × List UInt8)
  | [] => none
  | c :: rest =>
    if sep <+: c :: rest then some ([], (c :: rest).drop sep.length)
    else (splitLine sep rest).map fun p ↦ (c :: p.1, p.2)

section

variable {sep bytes line rest : List UInt8}

/-- The line, the separator and the rest make up the string. -/
theorem splitLine_append (h : splitLine sep bytes = some (line, rest)) :
    bytes = line ++ (sep ++ rest) := by
  induction bytes generalizing line with
  | nil => exact (nomatch h)
  | cons c tail ih =>
    rw [splitLine] at h
    split at h
    next hstarts =>
      obtain ⟨hline, hrest⟩ := Prod.mk.inj (Option.some.inj h)
      obtain ⟨t, ht⟩ := hstarts
      rw [← hline, ← hrest, ← ht, List.drop_left, List.nil_append]
    next =>
      obtain ⟨⟨line', rest'⟩, hp, heq⟩ := Option.map_eq_some_iff.mp h
      obtain ⟨hline, hrest⟩ := Prod.mk.inj heq
      dsimp only at hline hrest
      rw [hrest] at hp
      rw [← hline, List.cons_append, ← ih hp]

theorem splitLine_eq_none (h : bytes.length < sep.length) : splitLine sep bytes = none := by
  induction bytes with
  | nil => rfl
  | cons c tail ih =>
    rw [List.length_cons] at h
    have hstarts : ¬ sep <+: c :: tail := fun hpre ↦ by
      have hle := hpre.length_le
      rw [List.length_cons] at hle
      omega
    rw [splitLine, if_neg hstarts, ih (by omega)]
    rfl

theorem splitLine_eq_none_of_take {k : ℕ} (h : splitLine (sep.take k) bytes = none) :
    splitLine sep bytes = none := by
  induction bytes with
  | nil => rfl
  | cons c tail ih =>
    rw [splitLine] at h
    split at h
    next => cases h
    next hnot =>
      have hstarts : ¬ sep <+: c :: tail := fun hpre ↦ hnot ((List.take_prefix k sep).trans hpre)
      rw [splitLine, if_neg hstarts, ih (Option.map_eq_none_iff.mp h)]
      rfl

end

/-! ## The operations -/

/-- The operations on strings. -/
def flatSocket : Machine (ℕ → List UInt8) BufferOp BufferResult Empty := fun f op ↦
  match op with
  | .push b msg => .ok (Function.update f b (f b ++ msg), .size ((f b).length + msg.length : ℕ))
  | .pop b n =>
    if n ≤ (f b).length then
      .ok (Function.update f b ((f b).drop n.toNat),
        .bytes (some ((f b).take n.toNat)) ((f b).drop n.toNat).length)
    else .ok (f, .bytes none (f b).length)
  | .readline b sep =>
    match splitLine sep (f b) with
    | none => .ok (f, .line none)
    | some (line, rest) => .ok (Function.update f b rest, .line (some line))
  | .checkline b sep => .ok (f, .found (splitLine sep (f b)).isSome)
  | .readall b => .ok (Function.update f b [], .all (f b))
  | .clear b => .ok (Function.update f b [], .nothing)

/-- What the operations are for: blocks that are not empty, less than `2 ^ 31` bytes at a time, and
separators that are not empty. -/
def Proper (f : ℕ → List UInt8) : BufferOp → Prop
  | .push b msg => msg ≠ [] ∧ (f b).length + msg.length < 2 ^ 31
  | .pop _ n => 0 < n
  | .readline _ sep | .checkline _ sep => sep ≠ []
  | .readall _ | .clear _ => True

instance decidableProper (f : ℕ → List UInt8) : ∀ op, Decidable (Proper f op)
  | .push b msg => inferInstanceAs (Decidable (msg ≠ [] ∧ (f b).length + msg.length < 2 ^ 31))
  | .pop _ n => inferInstanceAs (Decidable (0 < n))
  | .readline _ sep | .checkline _ sep => inferInstanceAs (Decidable (sep ≠ []))
  | .readall _ | .clear _ => .isTrue trivial

/-- A separator whose length is not cut down, or that makes no difference: the buffer is empty, or
not even the bytes that are compared occur in it. -/
def FitsSep (bytes sep : List UInt8) : Prop :=
  sep.length < 2 ^ 31 ∨ bytes = [] ∨ 0 < toInt32 sep.length ∧
    splitLine (sep.take (toInt32 sep.length).toNat) bytes = none

instance decidableFitsSep (bytes sep : List UInt8) : Decidable (FitsSep bytes sep) :=
  inferInstanceAs (Decidable (_ < _ ∨ _ = _ ∨ _ < _ ∧ _ = _))

/-- A size that is not cut down to an `int`, or to one that makes no difference: nothing is taken.
-/
def FitsInt (f : ℕ → List UInt8) : BufferOp → Prop
  | .pop b n => n < 2 ^ 31 ∨ toInt32 n = 0 ∨ (f b).length < toInt32 n
  | .readline b sep | .checkline b sep => FitsSep (f b) sep
  | .push _ _ | .readall _ | .clear _ => True

instance decidableFitsInt (f : ℕ → List UInt8) : ∀ op, Decidable (FitsInt f op)
  | .pop _ _ => inferInstanceAs (Decidable (_ < _ ∨ _ = _ ∨ _ < _))
  | .readline b sep | .checkline b sep => inferInstanceAs (Decidable (FitsSep (f b) sep))
  | .push _ _ | .readall _ | .clear _ => .isTrue trivial

end ZTask
