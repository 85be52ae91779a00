import ZTask.Lib.Threads
import ZTask.LuaSocket.Buffer
import Mathlib.Data.List.Perm.Subperm

/-!
# What the buffers hold

Each buffer is the list of its nodes, and one more list is that of the nodes that are not used. The
lists have no node in common (`Threads`), and the blocks of the nodes of a buffer, one after another
and from the offset of the first, are the bytes that it holds (`Carries`).

Every operation takes nodes off the front of a buffer or puts one to its end, and for each the rule
of `Threads` says what the lists are afterwards.
-/

namespace ZTask

open Lib

theorem BufferNode.read_eq {x : BufferNode} {msg : List UInt8} {start len : ℤ} {off k : ℕ}
    (hmsg : x.msg = some msg) (hstart : start = off) (hlen : len = k) (hle : off + k ≤ msg.length) :
    x.read start len = .ok ((msg.drop off).take k) := by
  rw [read, hmsg, hstart, hlen]
  dsimp only
  rw [if_pos ⟨by omega, by omega, by omega⟩]
  rfl

/-- The blocks of the nodes, from an offset into the first. Nothing is left of a block that has been
read to its end. -/
inductive Carries (node : ℕ → BufferNode) : ℕ → List ℕ → List UInt8 → Prop
  | nil : Carries node 0 [] []
  | cons {off n ns msg rest} (hmsg : (node n).msg = some msg) (hsz : (node n).sz = msg.length)
      (hoff : off < msg.length) (hrest : Carries node 0 ns rest) :
      Carries node off (n :: ns) (msg.drop off ++ rest)

namespace Carries

variable {node node' : ℕ → BufferNode} {off n : ℕ} {ns : List ℕ} {bytes msg : List UInt8}

theorem congr (h : Carries node off ns bytes)
    (hsame : ∀ a ∈ ns, (node' a).msg = (node a).msg ∧ (node' a).sz = (node a).sz) :
    Carries node' off ns bytes := by
  induction h with
  | nil => exact .nil
  | @cons off n ns msg rest hmsg hsz hoff hrest ih =>
    obtain ⟨hmsg', hsz'⟩ := hsame n List.mem_cons_self
    exact .cons (hmsg'.trans hmsg) (hsz'.trans hsz) hoff
      (ih fun a ha ↦ hsame a (List.mem_cons_of_mem n ha))

theorem concat (h : Carries node off ns bytes) (hmsg : (node n).msg = some msg)
    (hsz : (node n).sz = msg.length) (hne : msg ≠ []) :
    Carries node off (ns ++ [n]) (bytes ++ msg) := by
  induction h with
  | nil =>
    have hlast : Carries node 0 [n] (msg.drop 0 ++ []) :=
      .cons hmsg hsz (List.length_pos_of_ne_nil hne) .nil
    rwa [List.drop_zero, List.append_nil] at hlast
  | cons hmsg' hsz' hoff hrest ih =>
    rw [List.append_assoc]
    exact .cons hmsg' hsz' hoff ih

theorem eq_nil_iff (h : Carries node off ns bytes) : bytes = [] ↔ ns = [] := by
  cases h with
  | nil => exact ⟨fun _ ↦ rfl, fun _ ↦ rfl⟩
  | @cons off n ns msg rest hmsg hsz hoff hrest =>
    refine ⟨fun heq ↦ ?_, fun heq ↦ (nomatch heq)⟩
    have hdrop := (List.append_eq_nil_iff.mp heq).1
    rw [List.drop_eq_nil_iff] at hdrop
    omega

end Carries

namespace LuaSockets

variable {m m' : LuaSockets} {l : Option ℕ → List ℕ} {f : ℕ → List UInt8} {b n off : ℕ}
  {ns : List ℕ} {msg rest acc : List UInt8}

/-- The first nodes: of the free ones, and of each buffer. -/
def heads (m : LuaSockets) : Option ℕ → Option ℕ
  | none => m.freeNode
  | some b => (m.buffer b).head

/-- The links of the nodes. -/
def links (m : LuaSockets) (n : ℕ) : Option ℕ := (m.node n).next

@[simp] theorem links_setBuffer (sb : SocketBuffer) : (m.setBuffer b sb).links = m.links := rfl

@[simp] theorem links_setFree (p : Option ℕ) : (m.setFree p).links = m.links := rfl

@[simp] theorem links_setNode (x : BufferNode) :
    (m.setNode n x).links = Function.update m.links n x.next := by
  funext k
  by_cases hk : k = n
  · subst hk
    rw [Function.update_self, links, node_setNode_self]
  · rw [Function.update_of_ne hk, links, node_setNode_of_ne hk]
    rfl

@[simp] theorem heads_setNode (x : BufferNode) : (m.setNode n x).heads = m.heads := rfl

@[simp] theorem heads_setFree (p : Option ℕ) :
    (m.setFree p).heads = Function.update m.heads none p := by
  funext i
  cases i with
  | none => rfl
  | some b =>
    have hne : some b ≠ none := fun heq ↦ (nomatch heq)
    rw [Function.update_of_ne hne]
    rfl

@[simp] theorem heads_setBuffer (sb : SocketBuffer) :
    (m.setBuffer b sb).heads = Function.update m.heads (some b) sb.head := by
  funext i
  cases i with
  | none => rfl
  | some b' =>
    by_cases hb : b' = b
    · subst hb
      rw [Function.update_self, heads, buffer_setBuffer_self]
    · have hne : some b' ≠ some b := fun heq ↦ hb (Option.some.inj heq)
      rw [Function.update_of_ne hne, heads, buffer_setBuffer_of_ne hb]
      rfl

/-- The lists of the nodes, and the bytes of the buffers. -/
structure Filled (m : LuaSockets) (l : Option ℕ → List ℕ) (f : ℕ → List UInt8) : Prop where
  threads : Threads m.links m.heads l
  tail : ∀ b, (m.buffer b).tail = (l (some b)).getLast?
  /-- The nodes have been created. -/
  bound : ∀ {i n}, n ∈ l i → n < m.nodes
  carries : ∀ b, ∃ off : ℕ, (m.buffer b).offset = off ∧ Carries m.node off (l (some b)) (f b)

/-- The first node of a buffer, and its block. -/
structure First (m : LuaSockets) (b n : ℕ) (msg : List UInt8) (off : ℕ) : Prop where
  head : (m.buffer b).head = some n
  offset : (m.buffer b).offset = off
  block : (m.node n).msg = some msg
  sz : (m.node n).sz = msg.length
  lt : off < msg.length

theorem Filled.first (h : Filled m l f) (hl : l (some b) = n :: ns) :
    ∃ msg off rest, First m b n msg off ∧ f b = msg.drop off ++ rest ∧
      Carries m.node 0 ns rest := by
  obtain ⟨off, hoffset, hcarries⟩ := h.carries b
  have hhead : (m.buffer b).head = some n := (h.threads.head_cons hl).1
  rw [hl] at hcarries
  generalize hbytes : f b = bytes at hcarries
  cases hcarries with
  | @cons off n ns msg rest hmsg hsz hlt hrest =>
    exact ⟨msg, off, rest, ⟨hhead, hoffset, hmsg, hsz, hlt⟩, rfl, hrest⟩

theorem Filled.eq_nil_iff (h : Filled m l f) : f b = [] ↔ l (some b) = [] := by
  obtain ⟨off, -, hcarries⟩ := h.carries b
  exact hcarries.eq_nil_iff

theorem Filled.head_eq_none_iff (h : Filled m l f) : (m.buffer b).head = none ↔ f b = [] := by
  rw [h.eq_nil_iff]
  exact h.threads.head_eq_none_iff (i := some b)

theorem Filled.length_le (h : Filled m l f) (i : Option ℕ) : (l i).length ≤ m.nodes := by
  have hsub : l i ⊆ List.range m.nodes := fun n hn ↦ List.mem_range.mpr (h.bound hn)
  have hle := (List.subperm_of_subset (h.threads.nodup i) hsub).length_le
  rwa [List.length_range] at hle

theorem First.read {len : ℤ} {k : ℕ} (h : First m b n msg off) (hlen : len = k)
    (hle : off + k ≤ msg.length) :
    (m.node n).read (m.buffer b).offset len = .ok ((msg.drop off).take k) :=
  BufferNode.read_eq h.block h.offset hlen hle

/-! ## The first node goes -/

theorem returnFreeNode_setOffset (m : LuaSockets) (b : ℕ) (o : ℤ) :
    (m.setBuffer b { m.buffer b with offset := o }).returnFreeNode b = m.returnFreeNode b := by
  simp only [returnFreeNode, setBuffer, setNode, Function.update_self, Function.update_idem]

/-- The buffer after its first node has gone. -/
def dropFirst (m : LuaSockets) (b n : ℕ) : SocketBuffer :=
  { m.buffer b with
    offset := 0, head := m.links n, tail := if m.links n = none then none else (m.buffer b).tail }

private theorem returnFreeNode_eq (hhead : (m.buffer b).head = some n) :
    m.returnFreeNode b =
      .ok (((m.setBuffer b (m.dropFirst b n)).setNode n ⟨none, 0, m.freeNode⟩).setFree
        (some n)) := by
  rw [returnFreeNode, hhead]
  rfl

/-- The lists after the first node of a buffer has gone back. -/
def back (l : Option ℕ → List ℕ) (b n : ℕ) (ns : List ℕ) : Option ℕ → List ℕ :=
  Function.update (Function.update l (some b) ns) none (n :: l none)

theorem back_some (l : Option ℕ → List ℕ) (b n : ℕ) (ns : List ℕ) (b' : ℕ) :
    back l b n ns (some b') = if b' = b then ns else l (some b') := by
  have hne : some b' ≠ none := fun heq ↦ (nomatch heq)
  rw [back, Function.update_of_ne hne]
  by_cases hb : b' = b
  · subst hb
    rw [Function.update_self, if_pos rfl]
  · rw [Function.update_of_ne (fun heq ↦ hb (Option.some.inj heq)), if_neg hb]

/-- The nodes are those that they have been. -/
theorem mem_of_mem_back (hl : l (some b) = n :: ns) {i : Option ℕ} {k : ℕ}
    (hk : k ∈ back l b n ns i) :
    ∃ j, k ∈ l j := by
  cases i with
  | none =>
    rw [back, Function.update_self] at hk
    rcases List.mem_cons.mp hk with heq | hk
    · refine ⟨some b, ?_⟩
      rw [hl, heq]
      exact List.mem_cons_self
    · exact ⟨none, hk⟩
  | some b' =>
    rw [back_some] at hk
    split at hk
    · refine ⟨some b, ?_⟩
      rw [hl]
      exact List.mem_cons_of_mem n hk
    · exact ⟨some b', hk⟩

theorem returnFreeNode_spec (h : Filled m l f) (hl : l (some b) = n :: ns)
    (hrest : Carries m.node 0 ns rest) :
    ∃ m', m.returnFreeNode b = .ok m' ∧ Filled m' (back l b n ns) (Function.update f b rest) ∧
      m'.nodes = m.nodes ∧ ∀ b', (m'.buffer b').size = (m.buffer b').size := by
  obtain ⟨hhead, hchain⟩ := h.threads.head_cons hl
  have hmem : n ∈ l (some b) := by
    rw [hl]
    exact List.mem_cons_self
  refine ⟨_, returnFreeNode_eq hhead, ⟨?_, fun b' ↦ ?_, fun {i k} hk ↦ ?_, fun b' ↦ ?_⟩, rfl,
    fun b' ↦ ?_⟩
  · rw [links_setFree, links_setNode, links_setBuffer, heads_setFree, heads_setNode,
      heads_setBuffer]
    exact h.threads.toFront (Option.some_ne_none b) hl
  · rw [back_some]
    by_cases hb : b' = b
    · subst hb
      rw [if_pos rfl]
      have htail := h.tail b'
      rw [hl] at htail
      rw [buffer_setFree, buffer_setNode, buffer_setBuffer_self, dropFirst]
      dsimp only
      -- the last node also takes the tail of the buffer with it
      cases ns with
      | nil =>
        have hnext : m.links n = none := hchain
        rw [if_pos hnext]
        rfl
      | cons n' ns' =>
        have hnext : m.links n ≠ none := by
          rw [hchain.1]
          exact fun heq ↦ (nomatch heq)
        rw [if_neg hnext, htail, List.getLast?_cons_cons]
    · rw [if_neg hb, buffer_setFree, buffer_setNode, buffer_setBuffer_of_ne hb]
      exact h.tail b'
  · obtain ⟨j, hj⟩ := mem_of_mem_back hl hk
    exact h.bound hj
  · rw [back_some]
    by_cases hb : b' = b
    · subst hb
      rw [if_pos rfl, Function.update_self]
      refine ⟨0, ?_, hrest.congr fun a ha ↦ ?_⟩
      · rw [buffer_setFree, buffer_setNode, buffer_setBuffer_self]
        rfl
      · have hnodup := h.threads.nodup (some b')
        rw [hl, List.nodup_cons] at hnodup
        have hne : a ≠ n := fun heq ↦ hnodup.1 (heq ▸ ha)
        rw [node_setFree, node_setNode_of_ne hne]
        exact ⟨rfl, rfl⟩
    · rw [if_neg hb, Function.update_of_ne hb]
      obtain ⟨off, hoffset, hcarries⟩ := h.carries b'
      refine ⟨off, ?_, hcarries.congr fun a ha ↦ ?_⟩
      · rw [buffer_setFree, buffer_setNode, buffer_setBuffer_of_ne hb]
        exact hoffset
      · -- a node is in one buffer at a time
        have hne : a ≠ n := fun heq ↦ hb (Option.some.inj (h.threads.apart (heq ▸ ha) hmem))
        rw [node_setFree, node_setNode_of_ne hne]
        exact ⟨rfl, rfl⟩
  · by_cases hb : b' = b
    · subst hb
      rw [buffer_setFree, buffer_setNode, buffer_setBuffer_self]
      rfl
    · rw [buffer_setFree, buffer_setNode, buffer_setBuffer_of_ne hb]

/-- A buffer that keeps its list has what the list carries from the new offset on. -/
theorem Filled.setBuffer (h : Filled m l f) (sb : SocketBuffer) (hhead : sb.head = (m.buffer b).head)
    (htail : sb.tail = (m.buffer b).tail) {bytes : List UInt8}
    (hcarries : ∃ off : ℕ, sb.offset = off ∧ Carries m.node off (l (some b)) bytes) :
    Filled (m.setBuffer b sb) l (Function.update f b bytes) := by
  refine ⟨?_, fun b' ↦ ?_, fun hn ↦ h.bound hn, fun b' ↦ ?_⟩
  · have hheads : Function.update m.heads (some b) (m.buffer b).head = m.heads :=
      Function.update_eq_self (some b) m.heads
    rw [links_setBuffer, heads_setBuffer, hhead, hheads]
    exact h.threads
  · by_cases hb : b' = b
    · subst hb
      rw [buffer_setBuffer_self, htail]
      exact h.tail b'
    · rw [buffer_setBuffer_of_ne hb]
      exact h.tail b'
  · by_cases hb : b' = b
    · subst hb
      rw [buffer_setBuffer_self, Function.update_self]
      exact hcarries
    · rw [buffer_setBuffer_of_ne hb, Function.update_of_ne hb]
      exact h.carries b'

/-- Bytes at the front have been read, and the first node is not yet through. -/
theorem setOffset_spec (h : Filled m l f) (hl : l (some b) = n :: ns) (hfirst : First m b n msg off)
    (hrest : Carries m.node 0 ns rest) {k : ℕ} (hk : off + k < msg.length) :
    Filled (m.setBuffer b { m.buffer b with offset := (m.buffer b).offset + k }) l
      (Function.update f b ((msg.drop off).drop k ++ rest)) := by
  refine h.setBuffer { m.buffer b with offset := (m.buffer b).offset + k } rfl rfl
    ⟨off + k, ?_, ?_⟩
  · dsimp only
    rw [hfirst.offset]
    omega
  · rw [List.drop_drop, hl]
    exact .cons hfirst.block hfirst.sz hk hrest

/-! ## A node at the end -/

private theorem chunkSize_pos (tsz : ℕ) : 0 < chunkSize tsz := by
  rw [chunkSize]
  split
  · rw [Nat.shiftLeft_eq]
    exact Nat.mul_pos (by decide) (Nat.two_pow_pos tsz)
  · decide

private theorem node_newPool_of_lt {k size : ℕ} (hk : k < m.nodes) :
    (m.newPool size).node k = m.node k := by
  rw [newPool]
  dsimp only
  rw [if_neg (by omega)]

/-- The nodes of the chunk from one on. -/
theorem chain_newPool (m : LuaSockets) {size k c : ℕ} (hk : m.nodes ≤ k)
    (hc : k + c = m.nodes + size) :
    LinkQueue.Chain (m.newPool size).links (if c = 0 then none else some k) (List.range' k c) := by
  induction c generalizing k with
  | zero => rfl
  | succ c ih =>
    rw [if_neg (Nat.succ_ne_zero c), List.range'_succ]
    refine ⟨rfl, ?_⟩
    have hlink : (m.newPool size).links k = if c = 0 then none else some (k + 1) := by
      rw [links, newPool]
      dsimp only
      rw [if_pos ⟨hk, by omega⟩]
      dsimp only
      by_cases hc0 : c = 0
      · rw [if_pos hc0, if_neg (by omega)]
      · rw [if_neg hc0, if_pos (by omega)]
    rw [hlink]
    exact ih (by omega) (by omega)

/-- **The pool grows** when no node is free. -/
theorem grow_spec (h : Filled m l f) :
    m.grow.buffer = m.buffer ∧
    ∃ l', Filled m.grow l' f ∧ l' none ≠ [] := by
  rw [grow]
  cases hfree : m.freeNode with
  | some n =>
    refine ⟨rfl, l, h, fun hnil ↦ ?_⟩
    have hhead : m.freeNode = none := (h.threads.head_eq_none_iff (i := none)).mpr hnil
    rw [hfree] at hhead
    cases hhead
  | none =>
    dsimp only
    generalize hsize : chunkSize (if m.poolLength = 0 then 1 else m.poolLength) = size
    have hpos : 0 < size := by
      rw [← hsize]
      exact chunkSize_pos _
    have hnil : l none = [] := (h.threads.head_eq_none_iff (i := none)).mp hfree
    have hsame : ∀ i, ∀ k ∈ l i, (m.newPool size).node k = m.node k := fun i k hk ↦
      node_newPool_of_lt (h.bound hk)
    have hchain := m.chain_newPool (Nat.le_refl m.nodes) (c := size) rfl
    rw [if_neg (by omega)] at hchain
    have hsome : ∀ b, Function.update l none (List.range' m.nodes size) (some b) = l (some b) :=
      fun b ↦ Function.update_of_ne (Option.some_ne_none b) ..
    refine ⟨rfl, Function.update l none (List.range' m.nodes size),
      ⟨?_, fun b ↦ ?_, fun {i k} hk ↦ ?_, fun b ↦ ?_⟩, ?_⟩
    · have hthreads := h.threads.add hnil hchain
        (fun i k hk ↦ congrArg BufferNode.next (hsame i k hk)) List.nodup_range'
        (fun i k hk hmem ↦ by
          have hlt := h.bound hk
          have hge := (List.mem_range'_1.mp hmem).1
          omega)
      have hheads := heads_setFree (m := m) (some m.nodes)
      rw [← hheads] at hthreads
      exact hthreads
    · rw [hsome]
      exact h.tail b
    · change k < m.nodes + size
      cases i with
      | none =>
        rw [Function.update_self] at hk
        exact (List.mem_range'_1.mp hk).2
      | some b =>
        rw [hsome] at hk
        have hlt := h.bound hk
        omega
    · rw [hsome]
      obtain ⟨off, hoffset, hcarries⟩ := h.carries b
      refine ⟨off, hoffset, hcarries.congr fun a ha ↦ ?_⟩
      have hnode := hsame (some b) a ha
      exact ⟨congrArg BufferNode.msg hnode, congrArg BufferNode.sz hnode⟩
    · rw [Function.update_self]
      intro hnil'
      have hlen := congrArg List.length hnil'
      rw [List.length_range', List.length_nil] at hlen
      omega

/-- The lists after the first free node has gone to the end of a buffer. -/
def taken (l : Option ℕ → List ℕ) (b n : ℕ) (free : List ℕ) : Option ℕ → List ℕ :=
  Function.update (Function.update l none free) (some b) (l (some b) ++ [n])

private theorem taken_some (l : Option ℕ → List ℕ) (b n : ℕ) (free : List ℕ) (b' : ℕ) :
    taken l b n free (some b') = if b' = b then l (some b) ++ [n] else l (some b') := by
  rw [taken]
  by_cases hb : b' = b
  · subst hb
    rw [Function.update_self, if_pos rfl]
  · rw [Function.update_of_ne (fun heq ↦ hb (Option.some.inj heq)),
      Function.update_of_ne (Option.some_ne_none b'), if_neg hb]

private theorem mem_of_mem_taken {free : List ℕ} (hl : l none = n :: free) {i : Option ℕ} {k : ℕ}
    (hk : k ∈ taken l b n free i) : ∃ j, k ∈ l j := by
  have hn : ∃ j, n ∈ l j := by
    refine ⟨none, ?_⟩
    rw [hl]
    exact List.mem_cons_self
  cases i with
  | none =>
    rw [taken, Function.update_of_ne (Option.some_ne_none b).symm, Function.update_self] at hk
    refine ⟨none, ?_⟩
    rw [hl]
    exact List.mem_cons_of_mem n hk
  | some b' =>
    rw [taken_some] at hk
    split at hk
    · rcases List.mem_append.mp hk with hk | hk
      · exact ⟨some b, hk⟩
      · rw [List.mem_singleton.mp hk]
        exact hn
    · exact ⟨some b', hk⟩

/-- The pool and the buffers with a node at the end of one, whatever the path. -/
structure Linked (m m' : LuaSockets) (b n : ℕ) (msg : List UInt8) : Prop where
  tail : (m'.buffer b).tail = some n
  offset : (m'.buffer b).offset = (m.buffer b).offset
  size : (m'.buffer b).size = (m.buffer b).size + msg.length
  others : ∀ {b'}, b' ≠ b → m'.buffer b' = m.buffer b'
  node : (m'.node n).msg = some msg ∧ (m'.node n).sz = msg.length
  nodes : ∀ {k}, k ≠ n → (m'.node k).msg = (m.node k).msg ∧ (m'.node k).sz = (m.node k).sz
  bound : m'.nodes = m.nodes

theorem Linked.filled {free : List ℕ} (hlinked : Linked m m' b n msg) (h : Filled m l f)
    (hl : l none = n :: free) (hthreads : Threads m'.links m'.heads (taken l b n free))
    (hne : msg ≠ []) : Filled m' (taken l b n free) (Function.update f b (f b ++ msg)) := by
  have hn : n ∈ l none := by
    rw [hl]
    exact List.mem_cons_self
  have hblocks : ∀ b', ∀ a ∈ l (some b'),
      (m'.node a).msg = (m.node a).msg ∧ (m'.node a).sz = (m.node a).sz := fun b' a ha ↦
    hlinked.nodes fun heq ↦ Option.some_ne_none b' (h.threads.apart ha (heq ▸ hn))
  refine ⟨hthreads, fun b' ↦ ?_, fun {i k} hk ↦ ?_, fun b' ↦ ?_⟩
  · rw [taken_some]
    by_cases hb : b' = b
    · rw [if_pos hb, hb, hlinked.tail, List.getLast?_concat]
    · rw [if_neg hb, hlinked.others hb]
      exact h.tail b'
  · obtain ⟨j, hj⟩ := mem_of_mem_taken hl hk
    rw [hlinked.bound]
    exact h.bound hj
  · rw [taken_some]
    obtain ⟨off, hoffset, hcarries⟩ := h.carries b'
    refine ⟨off, ?_, ?_⟩
    · rw [← hoffset]
      by_cases hb : b' = b
      · rw [hb]
        exact hlinked.offset
      · rw [hlinked.others hb]
    · have hold := hcarries.congr (hblocks b')
      by_cases hb : b' = b
      · subst hb
        rw [if_pos rfl, Function.update_self]
        exact hold.concat hlinked.node.1 hlinked.node.2 hne
      · rw [if_neg hb, Function.update_of_ne hb]
        exact hold

/-- The pool with the block in its first free node. -/
def written (m : LuaSockets) (n : ℕ) (msg : List UInt8) : LuaSockets :=
  (m.setFree (m.node n).next).setNode n ⟨some msg, msg.length, none⟩

private theorem link_of_nil (hhead : (m.buffer b).head = none) (htail : (m.buffer b).tail = none)
    (hlen : toInt32 msg.length = msg.length) :
    ∃ m', m.link b n msg = .ok m' ∧ Linked m m' b n msg ∧
      m'.links = Function.update m.links n none ∧
      m'.heads = Function.update (Function.update m.heads none (m.links n)) (some b) (some n) := by
  refine ⟨(m.written n msg).setBuffer b { m.buffer b with
    head := some n, tail := some n, size := (m.buffer b).size + msg.length }, ?_, ?_, ?_, ?_⟩
  · have hhead' : ((m.written n msg).buffer b).head = none := hhead
    have htail' : ((m.written n msg).buffer b).tail = none := htail
    rw [link, hlen]
    change (match ((m.written n msg).buffer b).head with
      | none => if ((m.written n msg).buffer b).tail = none then _ else _
      | some _ => _) = _
    rw [hhead']
    dsimp only
    rw [if_pos htail']
    rfl
  · refine ⟨?_, ?_, ?_, fun hb ↦ ?_, ?_, fun hk ↦ ?_, rfl⟩
    · rw [buffer_setBuffer_self]
    · rw [buffer_setBuffer_self]
    · rw [buffer_setBuffer_self]
    · rw [buffer_setBuffer_of_ne hb]
      rfl
    · rw [node_setBuffer, written, node_setNode_self]
      exact ⟨rfl, rfl⟩
    · rw [node_setBuffer, written, node_setNode_of_ne hk]
      exact ⟨rfl, rfl⟩
  · rw [links_setBuffer, written, links_setNode, links_setFree]
  · rw [heads_setBuffer, written, heads_setNode, heads_setFree]
    rfl

private theorem link_of_tail {first t : ℕ} (hhead : (m.buffer b).head = some first)
    (htail : (m.buffer b).tail = some t) (htn : t ≠ n) (hlen : toInt32 msg.length = msg.length) :
    ∃ m', m.link b n msg = .ok m' ∧ Linked m m' b n msg ∧
      m'.links = Function.update (Function.update m.links n none) t (some n) ∧
      m'.heads = Function.update m.heads none (m.links n) := by
  refine ⟨((m.written n msg).setNode t { m.node t with next := some n }).setBuffer b
    { m.buffer b with
    tail := some n, size := (m.buffer b).size + msg.length }, ?_, ?_, ?_, ?_⟩
  · have hhead' : ((m.written n msg).buffer b).head = some first := hhead
    have htail' : ((m.written n msg).buffer b).tail = some t := htail
    have hnode : (m.written n msg).node t = m.node t := node_setNode_of_ne htn
    rw [link, hlen]
    change (match ((m.written n msg).buffer b).head with
      | none => _
      | some _ => follow ((m.written n msg).buffer b).tail >>= fun t ↦
        .ok (((m.written n msg).setNode t
          { (m.written n msg).node t with next := some n }).setBuffer b
          { m.buffer b with tail := some n, size := (m.buffer b).size + msg.length })) = _
    rw [hhead', htail', ← hnode]
    rfl
  · refine ⟨?_, ?_, ?_, fun hb ↦ ?_, ?_, fun {k} hk ↦ ?_, rfl⟩
    · rw [buffer_setBuffer_self]
    · rw [buffer_setBuffer_self]
    · rw [buffer_setBuffer_self]
    · rw [buffer_setBuffer_of_ne hb]
      rfl
    · rw [node_setBuffer, node_setNode_of_ne htn.symm, written, node_setNode_self]
      exact ⟨rfl, rfl⟩
    · rw [node_setBuffer]
      by_cases hkt : k = t
      · subst hkt
        rw [node_setNode_self]
        exact ⟨rfl, rfl⟩
      · rw [node_setNode_of_ne hkt, written, node_setNode_of_ne hk]
        exact ⟨rfl, rfl⟩
  · rw [links_setBuffer, links_setNode, written, links_setNode, links_setFree]
  · rw [heads_setBuffer, heads_setNode, written, heads_setNode, heads_setFree,
      Function.update_comm (Option.some_ne_none b).symm]
    exact congrArg (Function.update · none _) (Function.update_eq_self (some b) m.heads)

theorem link_spec {free : List ℕ} (h : Filled m l f) (hl : l none = n :: free) (hne : msg ≠ [])
    (hlen : toInt32 msg.length = msg.length) :
    ∃ m', m.link b n msg = .ok m' ∧ Linked m m' b n msg ∧
      Filled m' (taken l b n free) (Function.update f b (f b ++ msg)) := by
  have hij : none ≠ some b := (Option.some_ne_none b).symm
  cases hlast : (l (some b)).getLast? with
  | none =>
    have hnil := List.getLast?_eq_none_iff.mp hlast
    have hhead := (h.threads.head_eq_none_iff (i := some b)).mpr hnil
    obtain ⟨m', hlink, hlinked, hlinks, hheads⟩ :=
      link_of_nil (n := n) hhead ((h.tail b).trans hlast) hlen
    refine ⟨m', hlink, hlinked, hlinked.filled h hl ?_ hne⟩
    rw [hlinks, hheads, taken, hnil]
    exact h.threads.toBack_nil hij hl hnil
  | some t =>
    have ht : t ∈ l (some b) := List.mem_of_getLast? hlast
    have htn : t ≠ n := by
      rintro rfl
      refine hij.symm (h.threads.apart ht ?_)
      rw [hl]
      exact List.mem_cons_self
    cases hhead : (m.buffer b).head with
    | none =>
      rw [(h.threads.head_eq_none_iff (i := some b)).mp hhead] at ht
      exact (nomatch ht)
    | some first =>
      obtain ⟨m', hlink, hlinked, hlinks, hheads⟩ :=
        link_of_tail hhead ((h.tail b).trans hlast) htn hlen
      refine ⟨m', hlink, hlinked, hlinked.filled h hl ?_ hne⟩
      rw [hlinks, hheads, taken]
      exact h.threads.toBack hij hl hlast

theorem pushBuffer_spec (h : Filled m l f) (hne : msg ≠ [])
    (hlen : toInt32 msg.length = msg.length) :
    ∃ m' l', m.pushBuffer b msg = .ok ((m.buffer b).size + msg.length, m') ∧
      Filled m' l' (Function.update f b (f b ++ msg)) ∧
      (m'.buffer b).size = (m.buffer b).size + msg.length ∧
      ∀ b' ≠ b, (m'.buffer b').size = (m.buffer b').size := by
  obtain ⟨hbuffer, l', hfilled, hnil⟩ := grow_spec h
  obtain ⟨n, free, hl⟩ := List.exists_cons_of_ne_nil hnil
  obtain ⟨m', hlink, hlinked, hfilled'⟩ := link_spec (b := b) hfilled hl hne hlen
  have hfree : m.grow.freeNode = some n := (hfilled.threads.head_cons hl).1
  have hsize := hlinked.size
  rw [hbuffer] at hsize
  refine ⟨m', _, ?_, hfilled', hsize, fun b' hb ↦ ?_⟩
  · rw [pushBuffer, hfree]
    change (m.grow.link b n msg >>= fun m ↦ .ok ((m.buffer b).size, m)) = _
    rw [hlink, ← hsize]
    rfl
  · rw [hlinked.others hb, hbuffer]

end LuaSockets

end ZTask
