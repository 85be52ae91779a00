import ZTask.Lib.Block

/-!
# Zero packing

`sproto_pack` and `sproto_unpack`, and the functions of `lsproto.c` that call them. A text is packed
in segments of eight bytes. A segment becomes a byte that says which of its bytes are not zero, and
these bytes; segments in which six bytes or more are not zero are copied as they are, up to 256 at a
time, if they follow a segment without a zero.

A source is what the memory holds from a pointer on, since both functions may read behind its end.
-/

namespace ZTask

open Lib

/-- What `luaL_error` is called with, and the errors of Lua itself. -/
inductive SprotoMessage
  /-- `"object is too large (>%d)"`, with `ENCODE_MAXSIZE` -/
  | tooLarge
  /-- `"packing error, return size = %d"` -/
  | packing (size : ℕ)
  /-- `"Invalid unpack stream"` -/
  | invalidUnpackStream
  /-- `"The table is too deep"` -/
  | tooDeep
  /-- `".*%s(%d) should be a table (Is a %s)"` -/
  | notArray (tagname : List UInt8) (index : ℕ) (typename : String)
  /-- `".%s[%d] is not an integer (Is a %s)"`, and so on -/
  | isNot (what : String) (tagname : List UInt8) (index : ℕ) (typename : String)
  /-- `luaL_checktype` -/
  | argument (arg : ℕ) (expected typename : String)
deriving DecidableEq, Repr

/-- Why a function does not return. -/
inductive SprotoFault
  /-- `sproto_unpack` or `sproto_encode` returns -1. -/
  | failed
  | raised (message : SprotoMessage)
  /-- A buffer is accessed outside, or read before it is written. -/
  | outside
  /-- An `int` leaves its range. -/
  | overflow
  /-- The bound of a loop is exceeded. -/
  | unbounded
deriving DecidableEq, Repr

abbrev Sproto := Except SprotoFault

theorem Sproto.ok_bind {α β : Type} (a : α) (f : α → Sproto β) :
    (Except.ok a >>= f : Sproto β) = f a := rfl

/-- The bytes of the memory from a place on. -/
def sourceAt (src : ℕ → UInt8) (off n : ℕ) : List UInt8 := (List.range n).map fun i ↦ src (off + i)

/-- Writes to a buffer. -/
def fillBytes (block : Lib.Block UInt8) (off : ℕ) (bytes : List UInt8) : Sproto (Lib.Block UInt8) :=
  match block.write? off bytes with
  | some block => .ok block
  | none => .error .outside

theorem fillBytes_append (block : Lib.Block UInt8) (off : ℕ) (xs ys : List UInt8) :
    (fillBytes block off xs >>= fun block ↦ fillBytes block (off + xs.length) ys) =
      fillBytes block off (xs ++ ys) := by
  rw [fillBytes, fillBytes, ← Lib.Block.write?_append]
  cases block.write? off xs with
  | none => rfl
  | some block₁ => rfl

/-! ## Packing -/

/-- The loop of `pack_seg`, from byte `i` on, which writes as long as the buffer has room. -/
def packSegLoop (i : ℕ) (header : UInt8) (notzero : ℕ) (block : Lib.Block UInt8) (p : ℕ) (sz : ℤ) :
    List UInt8 → Sproto (UInt8 × ℕ × Lib.Block UInt8)
  | [] => .ok (header, notzero, block)
  | c :: src =>
    if c ≠ 0 then
      let header := header ||| 1 <<< UInt8.ofNat i
      if 0 < sz then do
        let block ← fillBytes block p [c]
        packSegLoop (i + 1) header (notzero + 1) block (p + 1) (sz - 1) src
      else packSegLoop (i + 1) header (notzero + 1) block p sz src
    else packSegLoop (i + 1) header notzero block p sz src

/-- `pack_seg`: the buffer, and the bytes that the segment takes. -/
def packSeg (src : List UInt8) (block : Lib.Block UInt8) (p : ℕ) (sz : ℤ) (n : ℕ) :
    Sproto (Lib.Block UInt8 × ℕ) := do
  let (header, notzero, block) ← packSegLoop 0 0 0 block (p + 1) (sz - 1) src
  let notzero := if (notzero = 7 ∨ notzero = 6) ∧ 0 < n then 8 else notzero
  if notzero = 8 then return (block, if 0 < n then 8 else 10)
  else if 0 ≤ sz - 1 then
    let block ← fillBytes block p [header]
    return (block, notzero + 1)
  else return (block, notzero + 1)

/-- `write_ff`, with the bytes that are copied. -/
def writeFf (src : List UInt8) (block : Lib.Block UInt8) (des : ℕ) : Sproto (Lib.Block UInt8) := do
  let align8 := (src.length + 7) / 8 * 8
  let block ← fillBytes block des [0xff]
  let block ← fillBytes block (des + 1) [UInt8.ofNat (align8 / 8 - 1)]
  let block ← fillBytes block (des + 2) src
  fillBytes block (des + 2 + src.length) (List.replicate (align8 - src.length) 0)

/-- Where a segment is read: in the source, or in `tmp`. -/
inductive SegmentPlace
  | source (off : ℕ)
  | tmp (bytes : List UInt8)

/-- The bytes from the place of a segment on. -/
def SegmentPlace.read (src : ℕ → UInt8) (n : ℕ) : SegmentPlace → Sproto (List UInt8)
  | .source off => .ok (sourceAt src off n)
  | .tmp bytes => if n ≤ bytes.length then .ok (bytes.take n) else .error .outside

/-- The variables of `sproto_pack`. The place in the buffer is behind the `size` bytes that were
taken. -/
structure Packing where
  block : Lib.Block UInt8
  bufsz : ℤ
  ffSrcstart : SegmentPlace
  ffDesstart : ℕ
  ffN : ℕ
  size : ℕ

/-- The run of segments to be copied is written, if the buffer has had room for it. -/
def flushFf (src : ℕ → UInt8) (s : Packing) (n : ℕ) : Sproto (Lib.Block UInt8) :=
  if 0 ≤ s.bufsz then do
    let bytes ← s.ffSrcstart.read src n
    writeFf bytes s.block s.ffDesstart
  else .ok s.block

/-- Where the segment at `i` is read: the last is filled up with zeros in `tmp`. -/
def segmentPlace (src : ℕ → UInt8) (srcsz i : ℕ) : SegmentPlace :=
  if srcsz < i + 8 then .tmp (sourceAt src i (srcsz - i) ++ List.replicate (i + 8 - srcsz) 0)
  else .source i

/-- The loop of `sproto_pack` for the segment at `i`. -/
def packStep (src : ℕ → UInt8) (srcsz : ℕ) (s : Packing) (i : ℕ) : Sproto Packing := do
  let place := segmentPlace src srcsz i
  let seg ← place.read src 8
  let (block, n) ← packSeg seg s.block s.size s.bufsz s.ffN
  let s' := { s with block, bufsz := s.bufsz - n, size := s.size + n }
  if n = 10 then return { s' with ffSrcstart := place, ffDesstart := s.size, ffN := 1 }
  else if n = 8 ∧ 0 < s.ffN then
    if s.ffN + 1 = 256 then
      let block ← flushFf src s' (256 * 8)
      return { s' with block, ffN := 0 }
    else return { s' with ffN := s.ffN + 1 }
  else if 0 < s.ffN then
    let block ← flushFf src s' (s.ffN * 8)
    return { s' with block, ffN := 0 }
  else return s'

/-- The end of `sproto_pack`. -/
def packEnd (src : ℕ → UInt8) (srcsz : ℕ) (s : Packing) : Sproto (Lib.Block UInt8) :=
  if s.ffN = 1 then flushFf src s 8
  else if 1 < s.ffN then
    match s.ffSrcstart with
    | .source off => flushFf src s (srcsz - off)
    | .tmp _ => .error .outside
  else .ok s.block

/-- The offsets of the segments. -/
def segmentOffsets (srcsz : ℕ) : List ℕ := (List.range ((srcsz + 7) / 8)).map (· * 8)

/-- `sproto_pack`: the buffer, and the number of bytes that the packed text takes. -/
def sprotoPack (src : ℕ → UInt8) (srcsz : ℕ) (block : Lib.Block UInt8) (bufsz : ℤ) :
    Sproto (Lib.Block UInt8 × ℕ) := do
  let s ← (segmentOffsets srcsz).foldlM (packStep src srcsz) ⟨block, bufsz, .source 0, 0, 0, 0⟩
  let block ← packEnd src srcsz s
  return (block, s.size)

/-! ## Unpacking -/

/-- The variables of `sproto_unpack`: the places in the source and in the buffer, and what they
leave. -/
structure Unpacking where
  p : ℕ
  srcsz : ℤ
  block : Lib.Block UInt8
  buffer : ℕ
  bufsz : ℤ
  size : ℕ

/-- A byte is stored, if there is room for it. -/
def Unpacking.store (u : Unpacking) (c : UInt8) : Sproto Unpacking :=
  if 0 < u.bufsz then do
    let block ← fillBytes u.block u.buffer [c]
    return { u with block, bufsz := u.bufsz - 1, buffer := u.buffer + 1, size := u.size + 1 }
  else .ok { u with size := u.size + 1 }

/-- The loop of `sproto_unpack` over the bits of a header. -/
def unpackBit (src : ℕ → UInt8) (header : UInt8) (u : Unpacking) (i : ℕ) : Sproto Unpacking :=
  if header >>> UInt8.ofNat i &&& 1 ≠ 0 then
    if u.srcsz < 0 then .error .failed
    else { u with p := u.p + 1, srcsz := u.srcsz - 1 }.store (src u.p)
  else u.store 0

/-- Segments of `n` bytes are copied, if there is room for them. -/
def Unpacking.copy (src : ℕ → UInt8) (u : Unpacking) (n : ℕ) : Sproto Unpacking :=
  let next := { u with
    p := u.p + n, bufsz := u.bufsz - n, buffer := u.buffer + n, size := u.size + n }
  if (n : ℤ) ≤ u.bufsz then do
    let block ← fillBytes u.block u.buffer (sourceAt src u.p n)
    return { next with block }
  else .ok next

/-- What `sproto_unpack` does behind the header `0xff`. -/
def unpackFf (src : ℕ → UInt8) (u : Unpacking) : Sproto Unpacking :=
  if u.srcsz < 0 then .error .failed
  else
    let n := ((src u.p).toNat + 1) * 8
    if u.srcsz < n + 1 then .error .failed
    else { u with p := u.p + 1, srcsz := u.srcsz - (n + 1) }.copy src n

/-- The loop of `sproto_unpack` for a header. -/
def unpackStep (src : ℕ → UInt8) (u : Unpacking) : Sproto Unpacking :=
  let header := src u.p
  let u := { u with p := u.p + 1, srcsz := u.srcsz - 1 }
  if header = 0xff then unpackFf src u else (List.range 8).foldlM (unpackBit src header) u

/-- The loop of `sproto_unpack`. -/
def unpackLoop (src : ℕ → UInt8) : ℕ → Unpacking → Sproto Unpacking
  | 0, u => if 0 < u.srcsz then .error .unbounded else .ok u
  | fuel + 1, u =>
    if 0 < u.srcsz then do
      let u ← unpackStep src u
      unpackLoop src fuel u
    else .ok u

/-- `sproto_unpack`: the buffer, and the number of bytes of the text; each round of the loop reads a
byte of the source. -/
def sprotoUnpack (src : ℕ → UInt8) (srcsz : ℕ) (block : Lib.Block UInt8) (bufsz : ℤ) :
    Sproto (Lib.Block UInt8 × ℕ) := do
  let u ← unpackLoop src srcsz ⟨0, srcsz, block, 0, bufsz, 0⟩
  return (u.block, u.size)

/-! ## `lsproto.c` -/

/-- `ENCODE_BUFFERSIZE` -/
def encodeBuffersize : ℕ := 2050

/-- `ENCODE_MAXSIZE` -/
def encodeMaxsize : ℕ := 0x1000000

/-- The loop of `expand_buffer`. -/
def expandLoop (nsz : ℕ) : ℕ → ℕ → Sproto ℕ
  | 0, _ => .error .unbounded
  | fuel + 1, osz =>
    if 2 ^ 31 ≤ osz * 2 then .error .overflow
    else if osz * 2 < nsz then expandLoop nsz fuel (osz * 2)
    else .ok (osz * 2)

/-- `expand_buffer`: the size of the new buffer. -/
def expandBuffer (osz nsz : ℕ) : Sproto ℕ := do
  let osz ← expandLoop nsz 32 osz
  if encodeMaxsize < osz then .error (.raised .tooLarge) else .ok osz

/-- `lua_pushlstring` -/
def pushPacked (block : Lib.Block UInt8) (n : ℕ) : Sproto (List UInt8) :=
  match block.read? n with
  | some bytes => .ok bytes
  | none => .error .outside

/-- The bytes that `lpack` provides for. -/
def packMaxsz (sz : ℕ) : ℕ := (sz + 2047) / 2048 * 2 + sz + 2

/-- The size of the buffer in which `lpack` packs. -/
def packBufsz (osz maxsz : ℕ) : Sproto ℕ := if osz < maxsz then expandBuffer osz maxsz else .ok osz

/-- `lpack`, with a buffer of `osz` bytes: the packed text, and the size of the buffer from now on.
-/
def lpack (src : ℕ → UInt8) (sz osz : ℕ) : Sproto (List UInt8 × ℕ) := do
  let maxsz := packMaxsz sz
  let osz ← packBufsz osz maxsz
  let (output, bytes) ← sprotoPack src sz (.alloc osz) maxsz
  if maxsz < bytes then .error (.raised (.packing bytes))
  else
    let text ← pushPacked output bytes
    return (text, osz)

/-- `sproto_unpack` as `lunpack` calls it. -/
def tryUnpack (src : ℕ → UInt8) (sz osz : ℕ) : Sproto (Lib.Block UInt8 × ℕ) :=
  match sprotoUnpack src sz (.alloc osz) osz with
  | .error .failed => .error (.raised .invalidUnpackStream)
  | r => r

/-- `lunpack`, with a buffer of `osz` bytes: the text, and the size of the buffer from now on. -/
def lunpack (src : ℕ → UInt8) (sz osz : ℕ) : Sproto (List UInt8 × ℕ) := do
  let (output, r) ← tryUnpack src sz osz
  if osz < r then
    let osz ← expandBuffer osz r
    let (output, r) ← tryUnpack src sz r
    let text ← pushPacked output r
    return (text, osz)
  else
    let text ← pushPacked output r
    return (text, osz)

end ZTask
