import ZTask.Lib.Block
import ZTask.Lib.Word
import Mathlib.Data.Int.Notation

/-!
# What the functions of `lua-crypt.c` work with

A function takes a text of any length and fills a buffer, which is an array of its frame or, for a
longer text, a userdata. The counters of its loops are of type `int`; a counter that leaves the
range of the type, and an access outside a buffer, have no defined behaviour.
-/

namespace ZTask

open Lib

/-! ## The functions -/

/-- Why a function does not return. -/
inductive CryptError
  /-- `luaL_error`. -/
  | raised (message : String)
  /-- An `int` leaves its range. -/
  | overflow
  /-- A buffer is read or written outside, or read before it is written. -/
  | outside
  /-- The bound of a loop is exceeded, or a function calls itself for ever. -/
  | unbounded
deriving DecidableEq, Repr

abbrev Crypt := Except CryptError

/-- `SMALL_CHUNK`. -/
def smallChunk : ℕ := 256

/-- A value that is to be an `int`. -/
def toCounter (n : ℕ) : Crypt ℕ := if n < 2 ^ 31 then .ok n else .error .overflow

/-- The array of the frame, or a userdata if it is too small. -/
def newBuffer (size : ℤ) : Block UInt8 :=
  if smallChunk < size then .alloc size.toNat else .alloc smallChunk

/-- Write to a buffer. -/
def storeBytes (buffer : Block UInt8) (off : ℕ) (bytes : List UInt8) : Crypt (Block UInt8) :=
  match buffer.write? off bytes with
  | some buffer => .ok buffer
  | none => .error .outside

/-- `lua_pushlstring`. -/
def pushBuffer (buffer : Block UInt8) (size : ℕ) : Crypt (List UInt8) :=
  match buffer.read? size with
  | some bytes => .ok bytes
  | none => .error .outside

/-! ## Sequences of calls -/

theorem ok_bind {α β : Type} (a : α) (f : α → Crypt β) : (Except.ok a >>= f : Crypt β) = f a := rfl

theorem error_bind {α β : Type} (e : CryptError) (f : α → Crypt β) :
    (Except.error e >>= f : Crypt β) = .error e := rfl

theorem of_bind_eq_ok {α β : Type} {x : Crypt α} {f : α → Crypt β} {r : β} (h : (x >>= f) = .ok r) :
    ∃ a, x = .ok a ∧ f a = .ok r := by
  cases x with
  | error e => cases h
  | ok a => exact ⟨a, rfl, h⟩

theorem toCounter_of_lt {n : ℕ} (h : n < 2 ^ 31) : toCounter n = .ok n := if_pos h

theorem toCounter_of_ge {n : ℕ} (h : 2 ^ 31 ≤ n) : toCounter n = .error .overflow :=
  if_neg (Nat.not_lt.mpr h)

/-! ## What is in the buffer -/

theorem le_length_newBuffer (size : ℤ) : size ≤ (newBuffer size).length := by
  rw [newBuffer]
  split
  · rw [Block.length_alloc]
    omega
  · rw [Block.length_alloc]
    omega

variable {buffer : Block UInt8} {front bytes : List UInt8}

theorem storeBytes_front (bytes : List UInt8) (h : buffer.At 0 front)
    (hfits : front.length + bytes.length ≤ buffer.length) :
    ∃ buffer', storeBytes buffer front.length bytes = .ok buffer' ∧ buffer'.At 0 (front ++ bytes) ∧
      buffer'.length = buffer.length := by
  obtain ⟨buffer', hwrite⟩ := Block.write?_eq_some hfits
  have hnew : buffer'.At (0 + front.length) bytes := by
    rw [Nat.zero_add]
    exact .of_write? hwrite
  have hold : buffer'.At 0 front := h.write? hwrite (.inl (by omega))
  exact ⟨buffer', by rw [storeBytes, hwrite], hold.append hnew, Block.length_of_write? hwrite⟩

theorem pushBuffer_front (h : buffer.At 0 front) : pushBuffer buffer front.length = .ok front := by
  rw [pushBuffer, h.read?]

theorem length_of_pushBuffer {size : ℕ} (h : pushBuffer buffer size = .ok bytes) :
    bytes.length = size := by
  rw [pushBuffer] at h
  split at h
  next hread =>
    cases h
    exact Block.length_of_read? hread
  next => cases h

end ZTask
