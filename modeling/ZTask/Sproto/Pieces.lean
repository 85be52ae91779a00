import ZTask.Lib.Word
import ZTask.Sproto.Pack

/-!
# What a packed text says

A packed text is a sequence of pieces: segments, with a header whose bits are the bytes that follow,
and runs of segments that are copied behind `0xff` and their number. `sproto_unpack` finds the end
of the text too late by a byte: if the last byte of the last segment is missing, the byte behind the
text is taken for it. Nothing else is accepted (`lunpack_unpacks`), and what a text says does not
depend on the buffer that the function starts with.
-/

namespace ZTask

open Lib

variable {src : ℕ → UInt8}

/-! ## Headers -/

/-- The header of a segment, from a bit on: a bit is set for each byte that follows. -/
def headerFrom (i : ℕ) (header : UInt8) : List Bool → UInt8
  | [] => header
  | b :: bits => headerFrom (i + 1) (if b then header ||| 1 <<< UInt8.ofNat i else header) bits

/-- The bits of a header. -/
def headerBits (header : UInt8) : List Bool :=
  (List.range 8).map fun i ↦ decide (header >>> UInt8.ofNat i &&& 1 ≠ 0)

theorem headerFrom_headerBits (header : UInt8) : headerFrom 0 0 (headerBits header) = header :=
  forall_byte (P := fun h ↦ headerFrom 0 0 (headerBits h) = h) (by decide +kernel) header

theorem headerBits_headerFrom (bits : List Bool) (h : bits.length = 8) :
    headerBits (headerFrom 0 0 bits) = bits := by
  have hall : ∀ b₀ b₁ b₂ b₃ b₄ b₅ b₆ b₇ : Bool,
      headerBits (headerFrom 0 0 [b₀, b₁, b₂, b₃, b₄, b₅, b₆, b₇]) =
        [b₀, b₁, b₂, b₃, b₄, b₅, b₆, b₇] := by decide +kernel
  rcases bits with
    _ | ⟨b₀, _ | ⟨b₁, _ | ⟨b₂, _ | ⟨b₃, _ | ⟨b₄, _ | ⟨b₅, _ | ⟨b₆, _ | ⟨b₇, _ | ⟨b₈, bits⟩⟩⟩⟩⟩⟩⟩⟩⟩
  case cons.cons.cons.cons.cons.cons.cons.cons.nil => exact hall b₀ b₁ b₂ b₃ b₄ b₅ b₆ b₇
  all_goals simp at h

/-! ## Pieces -/

/-- A piece of a packed text. -/
inductive PackPiece
  /-- A segment, with the bytes that follow its header; the others are zero. -/
  | seg (cells : List (Option UInt8))
  /-- Segments that are copied. -/
  | run (bytes : List UInt8)

namespace PackPiece

def spelled : PackPiece → List UInt8
  | seg cells => headerFrom 0 0 (cells.map Option.isSome) :: cells.reduceOption
  | run bytes => 0xff :: UInt8.ofNat (bytes.length / 8 - 1) :: bytes

def said : PackPiece → List UInt8
  | seg cells => cells.map (·.getD 0)
  | run bytes => bytes

/-- A segment has eight bytes, one of which is left out; a run has up to 256 segments. -/
def Ok : PackPiece → Prop
  | seg cells => cells.length = 8 ∧ none ∈ cells
  | run bytes => ∃ n < 256, bytes.length = (n + 1) * 8

end PackPiece

/-- What a packed text says, with the byte that stands behind it. -/
inductive Unpacks (behind : UInt8) : List UInt8 → List UInt8 → Prop
  | nil : Unpacks behind [] []
  | piece {p : PackPiece} {text bytes : List UInt8} : p.Ok → Unpacks behind text bytes →
      Unpacks behind (p.spelled ++ text) (p.said ++ bytes)
  /-- The last byte of the last segment is missing. -/
  | short {cells : List (Option UInt8)} {data : List UInt8} : (PackPiece.seg cells).Ok →
      cells.reduceOption = data ++ [behind] →
      Unpacks behind (headerFrom 0 0 (cells.map Option.isSome) :: data) (PackPiece.seg cells).said

/-- The cells of a segment, from the bits of its header and the bytes that follow it. -/
def spread : List Bool → List UInt8 → List (Option UInt8)
  | [], _ => []
  | false :: bits, data => none :: spread bits data
  | true :: bits, [] => none :: spread bits []
  | true :: bits, c :: data => some c :: spread bits data

theorem length_spread (bits : List Bool) (data : List UInt8) :
    (spread bits data).length = bits.length := by
  induction bits generalizing data with
  | nil => rfl
  | cons b bits ih =>
    cases b with
    | false => exact congrArg (· + 1) (ih data)
    | true =>
      cases data with
      | nil => exact congrArg (· + 1) (ih [])
      | cons c data => exact congrArg (· + 1) (ih data)

/-- The header and the bytes of the cells. -/
theorem spread_spec {bits : List Bool} {data : List UInt8} (h : data.length = bits.count true) :
    (spread bits data).map Option.isSome = bits ∧ (spread bits data).reduceOption = data := by
  induction bits generalizing data with
  | nil =>
    rw [List.count_nil, List.length_eq_zero_iff] at h
    exact ⟨rfl, h.symm⟩
  | cons b bits ih =>
    cases b with
    | false =>
      rw [List.count_cons_of_ne (by decide)] at h
      obtain ⟨hbits, hdata⟩ := ih h
      exact ⟨congrArg (false :: ·) hbits, hdata⟩
    | true =>
      rw [List.count_cons_self] at h
      cases data with
      | nil => exact absurd h (Nat.succ_ne_zero _).symm
      | cons c data =>
        obtain ⟨hbits, hdata⟩ := ih (Nat.succ.inj h)
        exact ⟨congrArg (true :: ·) hbits, congrArg (c :: ·) hdata⟩

theorem spread_cells (cells : List (Option UInt8)) :
    spread (cells.map Option.isSome) cells.reduceOption = cells := by
  induction cells with
  | nil => rfl
  | cons cell cells ih =>
    cases cell with
    | none => exact congrArg (none :: ·) ih
    | some c => exact congrArg (some c :: ·) ih

theorem count_isSome (cells : List (Option UInt8)) :
    (cells.map Option.isSome).count true = cells.reduceOption.length := by
  induction cells with
  | nil => rfl
  | cons cell cells ih =>
    cases cell with
    | none => exact ih
    | some c =>
      rw [List.map_cons, Option.isSome_some, List.count_cons_self, ih]
      rfl

/-- The header of a segment is not that of a run. -/
theorem header_eq_ff_iff {cells : List (Option UInt8)} (hlen : cells.length = 8) :
    headerFrom 0 0 (cells.map Option.isSome) = 0xff ↔ none ∉ cells := by
  have hbits := headerBits_headerFrom (cells.map Option.isSome) (by rwa [List.length_map])
  constructor
  · intro hff hnone
    rw [hff] at hbits
    have hmem : false ∈ cells.map Option.isSome := List.mem_map.mpr ⟨none, hnone, rfl⟩
    rw [← hbits] at hmem
    exact absurd hmem (by decide)
  · intro hnone
    have hall : cells.map Option.isSome = List.replicate 8 true := by
      refine List.eq_replicate_iff.mpr ⟨by rw [List.length_map, hlen], fun b hb ↦ ?_⟩
      obtain ⟨cell, hcell, rfl⟩ := List.mem_map.mp hb
      cases cell with
      | none => exact absurd hcell hnone
      | some c => rfl
    rw [hall]
    decide

end ZTask
