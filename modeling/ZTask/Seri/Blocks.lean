import ZTask.Lib.Block
import ZTask.Seri.Encode
import Mathlib.Data.Int.Notation

/-!
# The block list in memory

`wb_push` and `seri` of `lua-seri.c` on what they really work with: blocks of 128 bytes that are
linked by their `next` pointers, two `int` counters, and `memcpy`. A copy that leaves a block or
reads what was not written, a `NULL` that is followed and a sum outside the range of an `int` are
faults.

The blocks of `ZTask.Seri.Pack` are what the list spells (`Represents`): every push on the memory is
the push there (`Represents.push`), and the loop of `seri` collects what was pushed.
-/

namespace ZTask

open Lib

/-- `struct block`; a pointer is the place of a block among those allocated. -/
structure BlockNode where
  next : Option ℕ
  buffer : Block UInt8

/-- `struct write_block`, and the blocks allocated for it. -/
structure BlockList where
  nodes : List BlockNode
  head : ℕ
  current : ℕ
  len : ℤ
  ptr : ℤ

inductive BlockFault
  /-- a pointer to no block is followed -/
  | null
  /-- a copy leaves an array or reads what was not written -/
  | outside
  /-- a sum does not fit into an `int` -/
  | overflow
  /-- a loop goes on for too long -/
  | loops
deriving DecidableEq, Repr

namespace BlockList

/-- `blk_alloc`, but for the place of the block. -/
def blkAlloc : BlockNode := ⟨none, Block.alloc seriBlockSize⟩

/-- `wb_init` with a block whose `next` is `NULL`. -/
def init : BlockList := ⟨[blkAlloc], 0, 0, 0, 0⟩

def follow (nodes : List BlockNode) (p : Option ℕ) : Except BlockFault BlockNode :=
  match p with
  | none => .error .null
  | some i =>
    match nodes[i]? with
    | none => .error .null
    | some node => .ok node

/-- `memcpy` of `n` bytes into a block. -/
def memcpyTo (dst : Block UInt8) (off : ℤ) (src : List UInt8) (n : ℤ) :
    Except BlockFault (Block UInt8) :=
  if off < 0 ∨ n < 0 ∨ src.length < n then .error .outside
  else
    match dst.write? off.toNat (src.take n.toNat) with
    | none => .error .outside
    | some dst => .ok dst

/-- The first `n` bytes of a block, for a `memcpy` from it. -/
def bytesOf (src : Block UInt8) (n : ℤ) : Except BlockFault (List UInt8) :=
  if n < 0 then .error .outside
  else
    match src.read? n.toNat with
    | none => .error .outside
    | some bytes => .ok bytes

def addInt (a b : ℤ) : Except BlockFault ℤ :=
  if -2 ^ 31 ≤ a + b ∧ a + b < 2 ^ 31 then .ok (a + b) else .error .overflow

/-- What stands behind the label: `b->current = b->current->next = blk_alloc()`. -/
def again (b : BlockList) : Except BlockFault BlockList := do
  let node ← follow b.nodes (some b.current)
  let nodes := b.nodes.set b.current { node with next := some b.nodes.length } ++ [blkAlloc]
  return { b with nodes, current := b.nodes.length, ptr := 0 }

/-- `memcpy(b->current->buffer + b->ptr, buffer, n)` and `b->len += n`. -/
def copy (b : BlockList) (buffer : List UInt8) (n : ℤ) : Except BlockFault BlockList := do
  let node ← follow b.nodes (some b.current)
  let bytes ← memcpyTo node.buffer b.ptr buffer n
  let len ← addInt b.len n
  return { b with nodes := b.nodes.set b.current { node with buffer := bytes }, len }

/-- The rest of `wb_push`; it goes back to the label at most `n` times. -/
def pushRest : ℕ → BlockList → List UInt8 → ℤ → Except BlockFault BlockList
  | 0, _, _, _ => .error .loops
  | n + 1, b, buffer, sz =>
    if b.ptr ≤ seriBlockSize - sz then do
      let b ← b.copy buffer sz
      let ptr ← addInt b.ptr sz
      return { b with ptr }
    else do
      let copy := seriBlockSize - b.ptr
      let b ← b.copy buffer copy
      let b ← b.again
      pushRest n b (buffer.drop copy.toNat) (sz - copy)

/-- `wb_push`. -/
def push (b : BlockList) (buf : List UInt8) : Except BlockFault BlockList := do
  let b ← if b.ptr = seriBlockSize then b.again else .ok b
  pushRest (buf.length / seriBlockSize + 2) b buf buf.length

/-- The loop of `seri`, at most `n` rounds of it. -/
def seriLoop (nodes : List BlockNode) :
    ℕ → Option ℕ → ℤ → ℤ → Block UInt8 → Except BlockFault (Block UInt8)
  | 0, _, _, _, _ => .error .loops
  | n + 1, b, ptr, len, buffer =>
    if 0 < len then do
      let node ← follow nodes b
      if seriBlockSize ≤ len then
        let bytes ← bytesOf node.buffer seriBlockSize
        let buffer ← memcpyTo buffer ptr bytes seriBlockSize
        seriLoop nodes n node.next (ptr + seriBlockSize) (len - seriBlockSize) buffer
      else
        let bytes ← bytesOf node.buffer len
        memcpyTo buffer ptr bytes len
    else .ok buffer

/-- `seri`: the buffer and its size. -/
def seri (nodes : List BlockNode) (b : ℕ) (len : ℤ) : Except BlockFault (Block UInt8 × ℤ) := do
  let buffer ← seriLoop nodes (len.toNat / seriBlockSize + 1) (some b) 0 len (Block.alloc len.toNat)
  return (buffer, len)

end BlockList

namespace BlockList

/-! ## What the list spells -/

/-- Full blocks, from the place `i` on, each linked to the next. -/
def fullNodes : ℕ → List (List UInt8) → List BlockNode
  | _, [] => []
  | i, block :: blocks => ⟨some (i + 1), block.map some⟩ :: fullNodes (i + 1) blocks

/-- The block that is being filled. -/
def lastNode (current : List UInt8) : BlockNode :=
  ⟨none, current.map some ++ List.replicate (seriBlockSize - current.length) none⟩

/-- The blocks in memory are those of `w`; this leaves out `ptr`, which is behind while a block is
changed. -/
structure Lies (b : BlockList) (w : WriteBlock) : Prop where
  nodes : b.nodes = fullNodes 0 w.filled ++ [lastNode w.current]
  head : b.head = 0
  current : b.current = w.filled.length
  len : b.len = w.len
  ok : w.Ok

structure Represents (b : BlockList) (w : WriteBlock) : Prop extends b.Lies w where
  ptr : b.ptr = w.ptr

variable {b : BlockList} {w : WriteBlock}

@[simp] theorem length_fullNodes (i : ℕ) (blocks : List (List UInt8)) :
    (fullNodes i blocks).length = blocks.length := by
  induction blocks generalizing i with
  | nil => rfl
  | cons block blocks ih => rw [fullNodes, List.length_cons, ih, List.length_cons]

private theorem fullNodes_concat (i : ℕ) (blocks : List (List UInt8)) (block : List UInt8) :
    fullNodes i (blocks ++ [block]) =
      fullNodes i blocks ++ [⟨some (i + blocks.length + 1), block.map some⟩] := by
  induction blocks generalizing i with
  | nil => rfl
  | cons first blocks ih =>
    rw [List.cons_append, fullNodes, ih, fullNodes, List.cons_append, List.length_cons]
    congr 5
    omega

private theorem represents_init : init.Represents .init where
  nodes := rfl
  head := rfl
  current := rfl
  len := rfl
  ok := WriteBlock.ok_init
  ptr := rfl

theorem Lies.follow (h : b.Lies w) :
    follow b.nodes (some b.current) = .ok (lastNode w.current) := by
  have hlast : b.nodes[b.current]? = some (lastNode w.current) := by
    rw [h.nodes, h.current, List.getElem?_append_right (Nat.le_of_eq (length_fullNodes _ _)),
      length_fullNodes, Nat.sub_self]
    rfl
  rw [BlockList.follow]
  simp only [hlast]

theorem Lies.set (h : b.Lies w) (node : BlockNode) :
    b.nodes.set b.current node = fullNodes 0 w.filled ++ [node] := by
  rw [h.nodes, h.current, List.set_append_right _ _ (Nat.le_of_eq (length_fullNodes _ _)),
    length_fullNodes, Nat.sub_self]
  rfl

theorem memcpyTo_front {front src : List UInt8} {cells : Block UInt8} {n : ℕ} (hn : n ≤ src.length)
    (hfits : n ≤ cells.length) :
    memcpyTo (front.map some ++ cells) front.length src n =
      .ok ((front ++ src.take n).map some ++ cells.drop n) := by
  have hlen : (src.take n).length = n := List.length_take_of_le hn
  have hwrite := @Block.write?_front _ (src.take n) front cells (by rw [hlen]; exact hfits)
  rw [hlen] at hwrite
  rw [memcpyTo, if_neg (by omega), Int.toNat_natCast, Int.toNat_natCast, hwrite]

/-- Bytes that fit into the current block are copied behind those that are there. -/
theorem Lies.copy (h : b.Lies w) (hptr : b.ptr = w.ptr) {src : List UInt8} {n : ℕ}
    (hn : n ≤ src.length) (hfits : w.ptr + n ≤ seriBlockSize) (hlen : w.len + n < 2 ^ 31) :
    ∃ b', b.copy src n = .ok b' ∧ b'.Lies (w.copy (src.take n)) ∧ b'.ptr = b.ptr := by
  have htake : (src.take n).length = n := List.length_take_of_le hn
  have hbytes : memcpyTo (lastNode w.current).buffer b.ptr src n =
      .ok (lastNode (w.current ++ src.take n)).buffer := by
    have hcells : (List.replicate (seriBlockSize - w.current.length) (none : Option UInt8)).drop n =
        List.replicate (seriBlockSize - (w.current ++ src.take n).length) none := by
      rw [List.drop_replicate, List.length_append, htake, Nat.sub_sub]
    rw [hptr, lastNode, lastNode, ← hcells]
    exact memcpyTo_front hn (by rw [List.length_replicate]; exact Nat.le_sub_of_add_le' hfits)
  have hsum : addInt b.len n = .ok (b.len + n) := by
    rw [addInt, if_pos ⟨by rw [h.len]; omega, by rw [h.len]; omega⟩]
  refine ⟨{ b with
      nodes := b.nodes.set b.current (lastNode (w.current ++ src.take n))
      len := b.len + n }, ?_, ⟨h.set _, h.head, h.current, ?_, h.ok.copy ?_⟩, rfl⟩
  · rw [BlockList.copy, h.follow]
    show (memcpyTo (lastNode w.current).buffer b.ptr src n >>= _) = _
    rw [hbytes]
    show (addInt b.len n >>= _) = _
    rw [hsum]
    rfl
  · show b.len + n = ((w.len + (src.take n).length : ℕ) : ℤ)
    rw [h.len, htake, Int.natCast_add]
  · rw [htake]
    exact hfits

/-- A full block is linked to a new one. -/
theorem Lies.again (h : b.Lies w) (hfull : w.ptr = seriBlockSize) :
    ∃ b', b.again = .ok b' ∧ b'.Represents w.alloc := by
  have hlast : ({ lastNode w.current with next := some b.nodes.length } : BlockNode) =
      ⟨some (0 + w.filled.length + 1), w.current.map some⟩ := by
    have hlen : b.nodes.length = w.filled.length + 1 := by
      rw [h.nodes, List.length_append, length_fullNodes]
      rfl
    have hnone : seriBlockSize - w.current.length = 0 :=
      Nat.sub_eq_zero_of_le (Nat.le_of_eq hfull.symm)
    rw [lastNode, hlen, hnone, List.replicate_zero, List.append_nil, Nat.zero_add]
  refine ⟨{ b with
      nodes := b.nodes.set b.current { lastNode w.current with next := some b.nodes.length } ++
        [blkAlloc]
      current := b.nodes.length
      ptr := 0 }, by rw [BlockList.again, h.follow]; rfl,
        ⟨?_, h.head, ?_, h.len, h.ok.alloc hfull⟩, rfl⟩
  · show b.nodes.set b.current _ ++ [blkAlloc] =
      fullNodes 0 (w.filled ++ [w.current]) ++ [lastNode []]
    rw [h.set, hlast, fullNodes_concat]
    rfl
  · show b.nodes.length = (w.filled ++ [w.current]).length
    rw [h.nodes, List.length_append, length_fullNodes, List.length_append]
    rfl

/-! ## Push -/

variable {n : ℕ} {buffer : List UInt8}

/-- What fits into the current block is copied without going on. -/
theorem Represents.pushRest_fits (h : b.Represents w)
    (hfits : w.ptr + buffer.length ≤ seriBlockSize) (hlen : w.len + buffer.length < 2 ^ 31) :
    ∃ b', b.pushRest (n + 1) buffer buffer.length = .ok b' ∧ b'.Represents (w.copy buffer) := by
  obtain ⟨b', hcopy, hlies, hptr⟩ := h.toLies.copy h.ptr (Nat.le_refl _) hfits hlen
  rw [List.take_length] at hlies
  have hsum : addInt b'.ptr buffer.length = .ok (b'.ptr + buffer.length) := by
    have hsize : seriBlockSize < 2 ^ 31 := by decide
    rw [addInt, if_pos ⟨by rw [hptr, h.ptr]; omega, by rw [hptr, h.ptr]; omega⟩]
  refine ⟨{ b' with ptr := b'.ptr + buffer.length }, ?_,
    ⟨⟨hlies.nodes, hlies.head, hlies.current, hlies.len, hlies.ok⟩, ?_⟩⟩
  · rw [BlockList.pushRest, if_pos (by rw [h.ptr]; omega), hcopy]
    show (addInt b'.ptr buffer.length >>= _) = _
    rw [hsum]
    rfl
  · show b'.ptr + buffer.length = ((w.current ++ buffer).length : ℤ)
    rw [hptr, h.ptr, WriteBlock.ptr, List.length_append, Int.natCast_add]

/-- The loop does to the memory what `copyBlocks` does to the blocks. -/
theorem Represents.pushRest (h : b.Represents w)
    (hn : w.ptr + buffer.length ≤ seriBlockSize * (n + 1)) (hlen : w.len + buffer.length < 2 ^ 31) :
    ∃ b', b.pushRest (n + 1) buffer buffer.length = .ok b' ∧
      b'.Represents (w.copyBlocks n buffer) := by
  induction n generalizing b w buffer with
  | zero => exact h.pushRest_fits (by omega) hlen
  | succ n ih =>
    rw [WriteBlock.copyBlocks]
    split
    next hfits => exact h.pushRest_fits hfits hlen
    next hfits =>
      have hptr := h.ok.fits
      change w.ptr ≤ seriBlockSize at hptr
      -- the rest of the current block is filled, and the loop goes on in a new one
      obtain ⟨copy, hcopy⟩ : ∃ copy : ℕ, copy = seriBlockSize - w.ptr := ⟨_, rfl⟩
      have hle : copy ≤ buffer.length := by omega
      have htake : (buffer.take copy).length = copy := List.length_take_of_le hle
      have hdrop : (buffer.drop copy).length = buffer.length - copy := List.length_drop
      obtain ⟨b₁, hb₁, hlies, -⟩ := h.toLies.copy (n := copy) h.ptr hle (by omega) (by omega)
      have hfull : (w.copy (buffer.take copy)).ptr = seriBlockSize := by
        rw [WriteBlock.ptr, WriteBlock.copy, List.length_append, htake]
        rw [WriteBlock.ptr] at hcopy hptr
        omega
      obtain ⟨b₂, hb₂, hrepr⟩ := hlies.again hfull
      have hroom : (w.copy (buffer.take copy)).alloc.ptr + (buffer.drop copy).length ≤
          seriBlockSize * (n + 1) := by
        show 0 + _ ≤ _
        rw [Nat.mul_succ] at hn
        omega
      have hsum : (w.copy (buffer.take copy)).alloc.len + (buffer.drop copy).length < 2 ^ 31 := by
        show w.len + (buffer.take copy).length + _ < _
        omega
      obtain ⟨b', hb', hend⟩ := ih hrepr hroom hsum
      have hcount : (seriBlockSize : ℤ) - b.ptr = copy := by
        rw [h.ptr]
        omega
      have hrest : (buffer.length : ℤ) - copy = ((buffer.drop copy).length : ℤ) := by
        rw [hdrop]
        omega
      rw [← hcopy]
      refine ⟨b', ?_, hend⟩
      rw [BlockList.pushRest, if_neg (by rw [h.ptr]; omega)]
      dsimp only
      rw [hcount, hb₁, hrest, Int.toNat_natCast]
      show (b₁.again >>= _) = _
      rw [hb₂]
      exact hb'

/-- **Push.** The push on the memory is the push on the blocks. -/
theorem Represents.push (h : b.Represents w) (hlen : w.len + buffer.length < 2 ^ 31) :
    ∃ b', b.push buffer = .ok b' ∧ b'.Represents (w.push buffer) := by
  rw [BlockList.push, WriteBlock.push]
  by_cases hfull : w.ptr = seriBlockSize
  · obtain ⟨b₁, hb₁, hrepr⟩ := h.toLies.again hfull
    rw [if_pos (by rw [h.ptr, hfull]), if_pos hfull, hb₁]
    exact hrepr.pushRest (WriteBlock.room_of_blocks _ (Nat.zero_le _)) hlen
  · rw [if_neg (by rw [h.ptr]; omega), if_neg hfull]
    exact h.pushRest (WriteBlock.room_of_blocks _ h.ok.fits) hlen

/-- Any number of pushes appends what is pushed. -/
theorem Represents.pushes {bufs : List (List UInt8)} (h : b.Represents w)
    (hlen : w.len + bufs.flatten.length < 2 ^ 31) :
    ∃ b' w', bufs.foldlM BlockList.push b = .ok b' ∧ b'.Represents w' ∧
      w'.contents = w.contents ++ bufs.flatten := by
  induction bufs generalizing b w with
  | nil => exact ⟨b, w, rfl, h, (List.append_nil _).symm⟩
  | cons buf bufs ih =>
    rw [List.flatten_cons, List.length_append] at hlen
    obtain ⟨hok, hcontents⟩ := h.ok.push buf
    obtain ⟨b₁, hpush, h₁⟩ := @Represents.push b w buf h (by omega)
    have hsum : (w.push buf).len + bufs.flatten.length < 2 ^ 31 := by
      rw [hok.len_eq, hcontents, List.length_append, ← h.ok.len_eq]
      omega
    obtain ⟨b', w', hpushes, h', hend⟩ := ih h₁ hsum
    refine ⟨b', w', ?_, h', ?_⟩
    · rw [List.foldlM_cons, hpush]
      exact hpushes
    · rw [hend, hcontents, List.flatten_cons, List.append_assoc]

/-! ## Collecting -/

private theorem bytesOf_front (bytes : List UInt8) (cells : Block UInt8) :
    bytesOf (bytes.map some ++ cells) bytes.length = .ok bytes := by
  rw [bytesOf, if_neg (by omega), Int.toNat_natCast, Block.read?_front]

variable {nodes : List BlockNode} {collected : List UInt8} {cells : Block UInt8}

private theorem exists_round {len : ℕ} (h : len < seriBlockSize * n) : ∃ k, n = k + 1 := by
  cases n with
  | zero => exact absurd h (Nat.not_lt_zero len)
  | succ k => exact ⟨k, rfl⟩

/-- One round: a whole block is collected. -/
theorem seriLoop_block {p : Option ℕ} {node : BlockNode} {block : List UInt8} {len : ℤ}
    (hnode : BlockList.follow nodes p = .ok node) (hbuffer : node.buffer = block.map some)
    (hblock : block.length = seriBlockSize) (hlen : seriBlockSize ≤ len)
    (hcells : seriBlockSize ≤ cells.length) :
    seriLoop nodes (n + 1) p collected.length len (collected.map some ++ cells) =
      seriLoop nodes n node.next ((collected ++ block).length : ℕ) (len - seriBlockSize)
        ((collected ++ block).map some ++ cells.drop seriBlockSize) := by
  have hpos : 0 < seriBlockSize := by decide
  have hbytes : bytesOf node.buffer seriBlockSize = .ok block := by
    rw [hbuffer, ← List.append_nil (block.map some), ← hblock]
    exact bytesOf_front block []
  have hcopy := @memcpyTo_front collected block cells _ (Nat.le_of_eq hblock.symm) hcells
  rw [List.take_of_length_le (Nat.le_of_eq hblock)] at hcopy
  rw [seriLoop, if_pos (by omega), hnode, List.length_append, hblock, Int.natCast_add]
  simp only [bind, Except.bind, if_pos hlen, hbytes, hcopy]

private theorem follow_front {front rest : List BlockNode} {node : BlockNode} :
    BlockList.follow (front ++ node :: rest) (some front.length) = .ok node := by
  have hplace : (front ++ node :: rest)[front.length]? = some node := by
    rw [List.getElem?_append_right (Nat.le_refl _), Nat.sub_self]
    rfl
  rw [BlockList.follow]
  simp only [hplace]

/-- The last block is collected as far as it is filled. -/
theorem seriLoop_last {front : List BlockNode} {current : List UInt8}
    (hfits : current.length ≤ seriBlockSize) (hcells : cells.length = current.length)
    (hn : current.length < seriBlockSize * n) :
    seriLoop (front ++ [lastNode current]) n (some front.length) collected.length current.length
      (collected.map some ++ cells) = .ok ((collected ++ current).map some) := by
  obtain ⟨n, rfl⟩ := exists_round hn
  have hdrop : ∀ m, cells.length ≤ m → (collected ++ current).map some ++ cells.drop m =
      (collected ++ current).map some := by
    intro m hm
    rw [List.drop_of_length_le hm, List.append_nil]
  rcases Nat.eq_zero_or_pos current.length with hzero | hpos
  · rw [List.length_eq_zero_iff.mp hzero] at hcells ⊢
    rw [List.length_eq_zero_iff.mp hcells, seriLoop, if_neg (by rw [List.length_nil]; omega),
      List.append_nil, List.append_nil]
  rcases Nat.lt_or_eq_of_le hfits with hlt | heq
  · have hcopy := @memcpyTo_front collected current cells _ (Nat.le_refl _)
      (Nat.le_of_eq hcells.symm)
    rw [List.take_length, hdrop _ (Nat.le_of_eq hcells)] at hcopy
    have hbytes : bytesOf (lastNode current).buffer current.length = .ok current :=
      bytesOf_front current _
    rw [seriLoop, if_pos (by omega), follow_front]
    simp only [bind, Except.bind, if_neg (show ¬(seriBlockSize : ℤ) ≤ current.length by omega),
      hbytes, hcopy]
  · have hbuffer : (lastNode current).buffer = current.map some := by
      rw [lastNode, heq, Nat.sub_self, List.replicate_zero, List.append_nil]
    have hmore : 0 < seriBlockSize * n := by
      rw [Nat.mul_succ] at hn
      omega
    obtain ⟨n, rfl⟩ := exists_round hmore
    -- a full block at the end: the loop finds nothing left, and does not follow `NULL`
    rw [seriLoop_block follow_front hbuffer heq (by omega) (by omega), hdrop _ (by omega), seriLoop,
      if_neg (by omega)]

/-- The loop, at a block, with what has been collected in front of the free cells. -/
theorem seriLoop_eq {front : List BlockNode} {blocks : List (List UInt8)} {current : List UInt8}
    (hfull : ∀ block ∈ blocks, block.length = seriBlockSize)
    (hfits : current.length ≤ seriBlockSize)
    (hcells : cells.length = (blocks.flatten ++ current).length)
    (hn : (blocks.flatten ++ current).length < seriBlockSize * n) :
    seriLoop (front ++ (fullNodes front.length blocks ++ [lastNode current])) n (some front.length)
      collected.length (blocks.flatten ++ current).length (collected.map some ++ cells) =
        .ok ((collected ++ (blocks.flatten ++ current)).map some) := by
  induction blocks generalizing n front collected cells with
  | nil => exact seriLoop_last hfits hcells hn
  | cons block blocks ih =>
    have hblock := hfull block List.mem_cons_self
    have hlen : ((block :: blocks).flatten ++ current).length =
        seriBlockSize + (blocks.flatten ++ current).length := by
      rw [List.flatten_cons, List.append_assoc, List.length_append, hblock]
    rw [hlen] at hcells hn
    obtain ⟨n, rfl⟩ := exists_round hn
    have hrest := @ih n (collected ++ block) (cells.drop seriBlockSize)
      (front ++ [⟨some (front.length + 1), block.map some⟩])
      (fun b hb ↦ hfull b (List.mem_cons_of_mem _ hb)) (by rw [List.length_drop]; omega)
      (by rw [Nat.mul_succ] at hn; omega)
    rw [List.length_append, List.length_singleton, List.append_assoc] at hrest
    have hround := @seriLoop_block n _ collected cells _ _ block
      (seriBlockSize + (blocks.flatten ++ current).length : ℕ)
      (@follow_front front (fullNodes (front.length + 1) blocks ++ [lastNode current])
        ⟨some (front.length + 1), block.map some⟩) rfl hblock (by omega) (by omega)
    rw [hlen, List.flatten_cons, List.append_assoc, ← List.append_assoc collected]
    refine hround.trans (.trans ?_ hrest)
    congr 1
    omega

/-- **Collect.** `seri` returns what the blocks hold, and its size. -/
theorem Represents.seri (h : b.Represents w) :
    seri b.nodes b.head b.len = .ok (w.contents.map some, w.contents.length) := by
  have hpos : 0 < seriBlockSize := by decide
  have hloop := @seriLoop_eq (w.contents.length / seriBlockSize + 1) []
      (Block.alloc w.contents.length)
    [] w.filled w.current h.ok.full h.ok.fits (Block.length_alloc _)
    (by
      have hdiv := Nat.div_add_mod w.contents.length seriBlockSize
      have hmod := Nat.mod_lt w.contents.length hpos
      rw [Nat.mul_succ]
      change w.contents.length < _
      omega)
  rw [BlockList.seri, h.head, h.len, h.ok.len_eq, h.nodes, Int.toNat_natCast]
  exact congrArg (· >>= fun buffer ↦ pure (buffer, (w.contents.length : ℤ))) hloop

end BlockList

/-- **The buffer is what was pushed.** As long as the pushes are fewer than 2^31 bytes, none of them
copies outside a block or overflows a counter, and `seri` returns their bytes in order and the
number of these. -/
theorem seri_pushes (bufs : List (List UInt8)) (h : bufs.flatten.length < 2 ^ 31) :
    ∃ b, bufs.foldlM BlockList.push .init = .ok b ∧
      BlockList.seri b.nodes b.head b.len = .ok (bufs.flatten.map some, bufs.flatten.length) := by
  obtain ⟨b, w, hpushes, hrepr, hcontents⟩ :=
    @BlockList.Represents.pushes _ _ bufs BlockList.represents_init
      ((Nat.zero_add bufs.flatten.length).symm ▸ h)
  have hall : w.contents = bufs.flatten := hcontents
  exact ⟨b, hpushes, hall ▸ hrepr.seri⟩

/-- A push that ends with a block, and one over three blocks. -/
theorem seri_pushes_blocks :
    let bufs : List (List UInt8) := [List.replicate 128 1, [], List.replicate 300 2]
    bufs.flatten.length < 2 ^ 31 ∧ ∃ b, bufs.foldlM BlockList.push .init = .ok b ∧
      BlockList.seri b.nodes b.head b.len = .ok (bufs.flatten.map some, bufs.flatten.length) :=
  ⟨by decide +kernel, seri_pushes _ (by decide +kernel)⟩

end ZTask
