import Mathlib.Algebra.Ring.Int.Defs
import Mathlib.Algebra.Ring.Nat
import Mathlib.Data.List.Basic

/-!
# Packets on a byte stream

A stream of packets, each a header of fixed length that tells the length of the body behind it. A
packet is complete as soon as its last symbol is there, so a packet with an empty body is complete
with its header.

`Splits` says which packets are complete in a part of the stream, and what is left of it. A receiver
that keeps what is left and puts the next part of the stream behind it goes on where it was
(`Splits.append`), so what it makes of the stream does not depend on how the stream is cut.
-/

namespace Lib

/-! ## Formats -/

/-- A packet format: the length of a header, and the length of the body that a header announces. -/
structure PacketFormat (α : Type*) where
  headerLength : ℕ
  bodyLength : List α → ℕ

namespace PacketFormat

variable {α : Type*} (F : PacketFormat α)

/-- Part of a header, or a header with part of the body. -/
def Incomplete (bytes : List α) : Prop :=
  bytes.length < F.headerLength ∨
    bytes.length < F.headerLength + F.bodyLength (bytes.take F.headerLength)

/-- The bodies of the packets in the stream, and the incomplete packet at its end. -/
inductive Splits : List α → List (List α) → List α → Prop
  | done {bytes : List α} : F.Incomplete bytes → Splits bytes [] bytes
  | packet {header body rest last : List α} {bodies : List (List α)} :
      header.length = F.headerLength → body.length = F.bodyLength header →
      Splits rest bodies last → Splits (header ++ body ++ rest) (body :: bodies) last

variable {F} {bytes last : List α} {bodies : List (List α)}

/-! ## A stream splits in one way -/

theorem not_incomplete {header body rest : List α} (hheader : header.length = F.headerLength)
    (hbody : body.length = F.bodyLength header) : ¬F.Incomplete (header ++ body ++ rest) := by
  have htake : (header ++ body ++ rest).take F.headerLength = header := by
    rw [List.append_assoc, ← hheader, List.take_left']
    rfl
  rw [Incomplete, htake, List.length_append, List.length_append, hheader, hbody]
  omega

/-- A stream splits in one way only. -/
theorem Splits.unique {last' : List α} {bodies' : List (List α)} (h : F.Splits bytes bodies last)
    (h' : F.Splits bytes bodies' last') : bodies = bodies' ∧ last = last' := by
  induction h generalizing bodies' last' with
  | done hinc =>
    cases h' with
    | done _ => exact ⟨rfl, rfl⟩
    | packet hheader hbody _ => exact absurd hinc (not_incomplete hheader hbody)
  | @packet header body rest last bodies hheader hbody _ ih =>
    generalize hbytes : header ++ body ++ rest = bytes at h'
    cases h' with
    | done hinc =>
      rw [← hbytes] at hinc
      exact absurd hinc (not_incomplete hheader hbody)
    | @packet header' body' rest' _ _ hheader' hbody' hrest' =>
      rw [List.append_assoc, List.append_assoc] at hbytes
      obtain ⟨rfl, htail⟩ := List.append_inj hbytes (hheader.trans hheader'.symm)
      obtain ⟨rfl, rfl⟩ := List.append_inj htail (hbody.trans hbody'.symm)
      obtain ⟨rfl, rfl⟩ := ih hrest'
      exact ⟨rfl, rfl⟩

/-! ## Streams one after the other -/

/-- **Cutting a stream makes no difference.** -/
theorem Splits.append {bytes' last' : List α} {bodies' : List (List α)}
    (h : F.Splits bytes bodies last) (h' : F.Splits (last ++ bytes') bodies' last') :
    F.Splits (bytes ++ bytes') (bodies ++ bodies') last' := by
  induction h with
  | done _ => exact h'
  | packet hheader hbody _ ih =>
    rw [List.append_assoc, List.cons_append]
    exact .packet hheader hbody (ih h')

/-- **A stream of whole packets splits into them.** -/
theorem splits_flatMap {header : List α → List α} (hpos : 0 < F.headerLength)
    (h : ∀ body ∈ bodies, (header body).length = F.headerLength ∧
      body.length = F.bodyLength (header body)) :
    F.Splits (bodies.flatMap fun body ↦ header body ++ body) bodies [] := by
  induction bodies with
  | nil => exact .done (.inl hpos)
  | cons body bodies ih =>
    obtain ⟨hheader, hbody⟩ := h body List.mem_cons_self
    rw [List.flatMap_cons]
    exact .packet hheader hbody (ih fun b hb ↦ h b (List.mem_cons_of_mem body hb))

end PacketFormat

end Lib
