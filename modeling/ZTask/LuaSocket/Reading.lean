import ZTask.LuaSocket.Flat
import ZTask.LuaSocket.Nodes

/-!
# Reading from a buffer

What the loops over the nodes of a buffer read: `pop_lstring` the first bytes, `lreadall` and
`lclearbuffer` everything, and `lreadline` looks for the first occurrence of a separator. Each is by
induction on the nodes, which bound the loop.

## Offsets

The first node of a buffer may have been read in part, so each lemma has an offset. A loop is stated
for the nodes that are left and the bytes that they spell.
-/

namespace ZTask

open Lib

namespace LuaSockets

variable {m m' : LuaSockets} {l : Option ℕ → List ℕ} {f : ℕ → List UInt8} {b n off : ℕ}
  {ns : List ℕ} {msg rest acc bytes : List UInt8}

/-! ## The first bytes -/

private theorem setOffset_within (h : Filled m l f) (hl : l (some b) = n :: ns)
    (hfirst : First m b n msg off)
    (hf : f b = msg.drop off ++ rest) (hrest : Carries m.node 0 ns rest) {k : ℕ}
    (hk : off + k < msg.length) :
    Filled (m.setBuffer b { m.buffer b with offset := (m.buffer b).offset + k }) l
      (Function.update f b ((f b).drop k)) := by
  rw [hf, List.drop_append_of_le_length (by rw [List.length_drop]; omega)]
  exact setOffset_spec h hl hfirst hrest hk

private theorem take_first (hf : f b = msg.drop off ++ rest) {k : ℕ} (hk : off + k ≤ msg.length) :
    (msg.drop off).take k = (f b).take k := by
  rw [hf, List.take_append_of_le_length (by rw [List.length_drop]; omega)]

private theorem drop_over (hf : f b = msg.drop off ++ rest) {k : ℕ} (hk : msg.length - off ≤ k) :
    (f b).drop k = rest.drop (k - (msg.length - off)) := by
  rw [hf, List.drop_append, List.length_drop, List.drop_of_length_le (by rwa [List.length_drop]),
    List.nil_append]

/-- **The loop of `pop_lstring`** takes the first bytes; the last `skip` of them are not returned.
-/
theorem popLoop_spec {c k skip : ℕ} (acc : List UInt8) (hc : ns.length < c) (h : Filled m l f)
    (hl : l (some b) = n :: ns) (hk : k ≤ (f b).length) (hpos : 0 < k) :
    ∃ m' l', popLoop b skip c m n k acc = .ok (acc ++ (f b).take (k - skip), m') ∧
      Filled m' l' (Function.update f b ((f b).drop k)) ∧
      ∀ b', (m'.buffer b').size = (m.buffer b').size := by
  -- on the bound for the nodes of the buffer, of which each pass returns one
  induction c generalizing m l f n ns k acc with
  | zero => exact absurd hc (Nat.not_lt_zero _)
  | succ c ih =>
    obtain ⟨msg, off, rest, hfirst, hf, hrest⟩ := h.first hl
    have hlen : (f b).length = msg.length - off + rest.length := by
      rw [hf, List.length_append, List.length_drop]
    have hlt := hfirst.lt
    have hbytes : (m.node n).sz - (m.buffer b).offset = (msg.length - off : ℕ) := by
      rw [hfirst.sz, hfirst.offset]
      omega
    obtain ⟨m₁, hreturn, hfilled, -, hsizes⟩ := returnFreeNode_spec h hl hrest
    rw [popLoop]
    dsimp only
    rw [hbytes]
    by_cases hge : k ≤ msg.length - off
    · -- the first node has enough
      have hread : (if (k : ℤ) > skip then
          (m.node n).read (m.buffer b).offset ((k : ℤ) - skip) else .ok [])
            = .ok ((f b).take (k - skip)) := by
        split
        · rw [hfirst.read (k := k - skip) (by omega) (by omega), take_first hf (by omega)]
        · rw [show k - skip = 0 by omega, List.take_zero]
      rw [if_pos (by omega), hread]
      by_cases heq : k = msg.length - off
      · refine ⟨m₁, back l b n ns, ?_, ?_, hsizes⟩
        · simp only [bind, Except.bind]
          rw [if_pos (by omega), returnFreeNode_setOffset, hreturn]
        · rw [drop_over hf (by omega), show k - (msg.length - off) = 0 by omega, List.drop_zero]
          exact hfilled
      · refine ⟨_, l, ?_, setOffset_within h hl hfirst hf hrest (k := k) (by omega), fun b' ↦ ?_⟩
        · simp only [bind, Except.bind]
          rw [if_neg (by omega)]
        · by_cases hb : b' = b
          · subst hb
            rw [buffer_setBuffer_self]
          · rw [buffer_setBuffer_of_ne hb]
    · -- it is read to its end and returned, and the loop goes on
      have hread : (if (k : ℤ) - skip > 0 then
          (m.node n).read (m.buffer b).offset
            (if (k : ℤ) - skip < (msg.length - off : ℕ) then (k : ℤ) - skip
              else (msg.length - off : ℕ)) else .ok [])
            = .ok ((msg.drop off).take (k - skip)) := by
        split
        · split
          · rw [hfirst.read (k := k - skip) (by omega) (by omega)]
          · have hfew : (msg.drop off).length ≤ k - skip := by
              rw [List.length_drop]
              omega
            rw [hfirst.read (k := msg.length - off) rfl (by omega), List.take_of_length_le hfew,
              List.take_of_length_le (Nat.le_of_eq List.length_drop)]
        · rw [show k - skip = 0 by omega, List.take_zero]
      rw [if_neg (by omega), hread]
      have hback : back l b n ns (some b) = ns := by rw [back_some, if_pos rfl]
      have hrestlen : k - (msg.length - off) ≤ rest.length := by omega
      cases ns with
      | nil =>
        have hnil : rest = [] := hrest.eq_nil_iff.mpr rfl
        rw [hnil, List.length_nil] at hlen
        omega
      | cons n' ns' =>
        have hhead : (m₁.buffer b).head = some n' := (hfilled.threads.head_cons hback).1
        have hself : Function.update f b rest b = rest := Function.update_self ..
        obtain ⟨m', l', hloop, hfilled', hsizes'⟩ :=
          @ih m₁ (back l b n (n' :: ns')) (Function.update f b rest) n' ns' (k - (msg.length - off))
            (acc ++ (msg.drop off).take (k - skip))
              (by rw [List.length_cons] at hc; omega) hfilled hback
                (by rw [hself]; omega) (by omega)
        rw [hself] at hloop hfilled'
        refine ⟨m', l', ?_, ?_, fun b' ↦ (hsizes' b').trans (hsizes b')⟩
        · simp only [bind, Except.bind]
          rw [hreturn]
          dsimp only
          rw [if_neg (by omega), hhead]
          dsimp only
          rw [show (k : ℤ) - (msg.length - off : ℕ) =
            (k - (msg.length - off) : ℕ) by omega, hloop, hf,
            List.take_append, List.length_drop, List.append_assoc,
            show k - skip - (msg.length - off) = k - (msg.length - off) - skip by omega]
        · rw [drop_over hf (by omega)]
          rwa [Function.update_idem] at hfilled'

/-- **`pop_lstring`** -/
theorem popString_spec (k skip : ℕ) (h : Filled m l f) (hk : k ≤ (f b).length) (hne : f b ≠ [])
    (hskip : skip ≤ k) :
    ∃ m' l', m.popString b k skip = .ok ((f b).take (k - skip), m') ∧
      Filled m' l' (Function.update f b ((f b).drop k)) ∧
      ∀ b', (m'.buffer b').size = (m.buffer b').size := by
  cases hl : l (some b) with
  | nil => exact absurd (h.eq_nil_iff.mpr hl) hne
  | cons n ns =>
    obtain ⟨msg, off, rest, hfirst, hf, hrest⟩ := h.first hl
    have hlt := hfirst.lt
    have hbytes : (m.node n).sz - (m.buffer b).offset = (msg.length - off : ℕ) := by
      rw [hfirst.sz, hfirst.offset]
      omega
    have hfollow : follow (m.buffer b).head = .ok n := by
      rw [hfirst.head]
      rfl
    rw [popString]
    dsimp only
    rw [hfollow]
    change ∃ m' l', (if (k : ℤ) < (m.node n).sz - (m.buffer b).offset then
        (m.node n).read (m.buffer b).offset (k - skip) >>= fun s ↦
          .ok (s, m.setBuffer b { m.buffer b with offset := (m.buffer b).offset + k })
      else if (k : ℤ) = (m.node n).sz - (m.buffer b).offset then
        (m.node n).read (m.buffer b).offset (k - skip) >>= fun s ↦
          m.returnFreeNode b >>= fun m ↦ .ok (s, m)
      else popLoop b skip (m.nodes + 1) m n k []) = _ ∧ _ ∧ _
    rw [hbytes]
    by_cases hwithin : k < msg.length - off
    · rw [if_pos (by omega), hfirst.read (k := k - skip) (by omega) (by omega),
        take_first hf (by omega)]
      refine ⟨_, l, rfl, setOffset_within h hl hfirst hf hrest (by omega), fun b' ↦ ?_⟩
      by_cases hb : b' = b
      · subst hb
        rw [buffer_setBuffer_self]
      · rw [buffer_setBuffer_of_ne hb]
    · rw [if_neg (by omega)]
      by_cases heq : k = msg.length - off
      · obtain ⟨m₁, hreturn, hfilled, -, hsizes⟩ := returnFreeNode_spec h hl hrest
        rw [if_pos (by omega), hfirst.read (k := k - skip) (by omega) (by omega),
          take_first hf (by omega), hreturn]
        refine ⟨m₁, back l b n ns, rfl, ?_, hsizes⟩
        rw [drop_over hf (by omega), show k - (msg.length - off) = 0 by omega, List.drop_zero]
        exact hfilled
      · rw [if_neg (by omega)]
        have hlength := h.length_le (some b)
        rw [hl, List.length_cons] at hlength
        exact popLoop_spec [] (by omega) h hl hk (by omega)

/-! ## Everything -/

theorem drain_spec {c : ℕ} (acc : List UInt8) (hc : (l (some b)).length < c) (h : Filled m l f) :
    ∃ m' l', drain b c m acc = .ok (acc ++ f b, m') ∧ Filled m' l' (Function.update f b []) ∧
      ∀ b', (m'.buffer b').size = (m.buffer b').size := by
  induction c generalizing m l f acc with
  | zero => exact absurd hc (Nat.not_lt_zero _)
  | succ c ih =>
    rw [drain]
    cases hl : l (some b) with
    | nil =>
      have hnil : f b = [] := h.eq_nil_iff.mpr hl
      rw [h.head_eq_none_iff.mpr hnil]
      refine ⟨m, l, ?_, ?_, fun b' ↦ rfl⟩
      · rw [hnil, List.append_nil]
      · rw [← hnil, Function.update_eq_self]
        exact h
    | cons n ns =>
      obtain ⟨msg, off, rest, hfirst, hf, hrest⟩ := h.first hl
      have hlt := hfirst.lt
      obtain ⟨m₁, hreturn, hfilled, -, hsizes⟩ := returnFreeNode_spec h hl hrest
      have hself : Function.update f b rest b = rest := Function.update_self ..
      have hlen : (back l b n ns (some b)).length < c := by
        rw [back_some, if_pos rfl]
        rw [hl, List.length_cons] at hc
        omega
      obtain ⟨m', l', hloop, hfilled', hsizes'⟩ := ih (acc ++ msg.drop off) hlen hfilled
      refine ⟨m', l', ?_, ?_, fun b' ↦ (hsizes' b').trans (hsizes b')⟩
      · rw [hfirst.head]
        dsimp only
        rw [hfirst.read (k := msg.length - off)
          (by rw [hfirst.sz, hfirst.offset]; omega) (by omega),
          List.take_of_length_le (Nat.le_of_eq (List.length_drop ..))]
        simp only [bind, Except.bind]
        rw [hreturn]
        dsimp only
        rw [hloop, hself, hf, List.append_assoc]
      · rwa [Function.update_idem] at hfilled'

theorem clearLoop_spec {c : ℕ} (hc : (l (some b)).length < c) (h : Filled m l f) :
    ∃ m' l', clearLoop b c m = .ok m' ∧ Filled m' l' (Function.update f b []) ∧
      ∀ b', (m'.buffer b').size = (m.buffer b').size := by
  induction c generalizing m l f with
  | zero => exact absurd hc (Nat.not_lt_zero _)
  | succ c ih =>
    rw [clearLoop]
    cases hl : l (some b) with
    | nil =>
      have hnil : f b = [] := h.eq_nil_iff.mpr hl
      rw [h.head_eq_none_iff.mpr hnil]
      refine ⟨m, l, rfl, ?_, fun b' ↦ rfl⟩
      rw [← hnil, Function.update_eq_self]
      exact h
    | cons n ns =>
      obtain ⟨msg, off, rest, hfirst, -, hrest⟩ := h.first hl
      obtain ⟨m₁, hreturn, hfilled, -, hsizes⟩ := returnFreeNode_spec h hl hrest
      have hlen : (back l b n ns (some b)).length < c := by
        rw [back_some, if_pos rfl]
        rw [hl, List.length_cons] at hc
        omega
      obtain ⟨m', l', hloop, hfilled', hsizes'⟩ := ih hlen hfilled
      refine ⟨m', l', ?_, ?_, fun b' ↦ (hsizes' b').trans (hsizes b')⟩
      · rw [hfirst.head]
        simp only [bind, Except.bind]
        rw [hreturn]
        exact hloop
      · rwa [Function.update_idem] at hfilled'

/-! ## The separator -/

/-- **`check_sep`** compares with the bytes from a position on, over as many nodes as it takes. -/
theorem checkSep_spec {c : ℕ} (start k : ℕ) (sep : List UInt8) (hc : ns.length < c)
    (hcarries : Carries m.node start (n :: ns) bytes)
    (hchain : LinkQueue.Chain m.links (m.links n) ns)
    (hk : k ≤ bytes.length) (hsep : k ≤ sep.length) :
    m.checkSep c n start sep k = .ok (decide (sep.take k <+: bytes)) := by
  -- on the bound for the nodes; the separator gets shorter with each of them
  induction c generalizing n ns start bytes sep k with
  | zero => exact absurd hc (Nat.not_lt_zero _)
  | succ c ih =>
    rw [checkSep]
    cases hcarries with
    | @cons _ _ _ msg rest hmsg hsz hlt hrest =>
      rw [List.length_append, List.length_drop] at hk
      rw [hsz]
      by_cases hge : k ≤ msg.length - start
      · -- the comparison ends in this node
        have hstarts : (msg.drop start).take k = sep.take k ↔
            sep.take k <+: msg.drop start ++ rest := by
          rw [List.prefix_iff_eq_take, List.length_take, Nat.min_eq_left hsep,
            List.take_append_of_le_length (by rw [List.length_drop]; omega)]
          exact eq_comm
        rw [if_pos (by omega), BufferNode.read_eq hmsg rfl rfl (by omega)]
        simp only [bind, Except.bind]
        rw [Int.toNat_natCast, decide_eq_decide.mpr hstarts]
      · -- it goes on in the next
        generalize hdrop : msg.drop start = first at hk ⊢
        have hfirst : first.length = msg.length - start := by rw [← hdrop, List.length_drop]
        have hread : (m.node n).read start (msg.length - start) = .ok first := by
          rw [BufferNode.read_eq (k := msg.length - start) hmsg rfl (by omega) (by omega), hdrop,
            List.take_of_length_le (by omega)]
        have hnat : ((msg.length : ℤ) - start).toNat = first.length := by omega
        have hsplit : sep.take k = sep.take first.length ++
            (sep.drop first.length).take (k - first.length) := by
          rw [← List.take_add, show first.length + (k - first.length) = k by omega]
        rw [if_neg (by omega), if_pos (by omega), hread, hnat]
        simp only [bind, Except.bind, Except.map]
        by_cases hdiffers : first = sep.take first.length
        · rw [decide_eq_false (fun hne ↦ hne hdiffers), if_neg (fun heq ↦ (nomatch heq))]
          cases ns with
          | nil =>
            have hnil : rest = [] := hrest.eq_nil_iff.mpr rfl
            rw [hnil, List.length_nil] at hk
            omega
          | cons n' ns' =>
            have hnext : (m.node n).next = some n' := hchain.1
            rw [hnext]
            simp only [follow]
            rw [show (k : ℤ) - (msg.length - start) = (k - first.length : ℕ) by omega]
            have hloop := ih 0 (k - first.length) (sep.drop first.length)
              (by rw [List.length_cons] at hc; omega) hrest hchain.2 (by omega)
              (by rw [List.length_drop]; omega)
            rw [hsplit, ← hdiffers, decide_eq_decide.mpr (List.prefix_append_right_inj first)]
            exact hloop
        · rw [decide_eq_true hdiffers, if_pos rfl]
          have hnot : ¬ sep.take k <+: first ++ rest := by
            have hlen : (sep.take first.length).length = first.length := by
              rw [List.length_take]
              omega
            rw [hsplit, List.prefix_append_inj_of_length_eq hlen]
            exact fun h ↦ hdiffers h.1.symm
          rw [decide_eq_false hnot]

theorem map_splitLine_cons {sep tail : List UInt8} {c : UInt8} {i : ℤ} (h : ¬ sep <+: c :: tail) :
    (splitLine sep (c :: tail)).map (fun p ↦ i + (p.1.length : ℤ))
      = (splitLine sep tail).map (fun p ↦ i + 1 + (p.1.length : ℤ)) := by
  rw [splitLine, if_neg h, Option.map_map]
  congr 1
  funext p
  rw [Function.comp_apply, List.length_cons]
  omega

/-- **The loop of `lreadline`** finds the first occurrence of as much of the separator as is
compared.
-/
theorem findSep_spec {c k : ℕ} {i len : ℤ} {sep : List UInt8} (start : ℕ)
    (hk : toInt32 sep.length = k)
    (hsep : k ≤ sep.length) (hcarries : Carries m.node start (n :: ns) bytes)
    (hchain : LinkQueue.Chain m.links (m.links n) ns) (hnodes : ns.length < m.nodes)
    (hc : c = bytes.length + 1 - k) (hlen : len = (m.node n).sz - start) :
    m.findSep sep c i n start len
      = .ok ((splitLine (sep.take k) bytes).map fun p ↦ i + (p.1.length : ℤ)) := by
  have htake : (sep.take k).length = k := by
    rw [List.length_take]
    omega
  induction c generalizing n ns start bytes i len with
  | zero =>
    rw [findSep, splitLine_eq_none (by omega)]
    rfl
  | succ c ih =>
    rw [findSep, hk, checkSep_spec start k sep (by omega) hcarries hchain (by omega) hsep]
    simp only [bind, Except.bind]
    cases hcarries with
    | @cons _ _ _ msg rest hmsg hsz hlt hrest =>
      rw [hsz] at hlen
      rw [List.drop_eq_getElem_cons hlt, List.cons_append] at hc ⊢
      rw [List.length_cons] at hc
      generalize msg[start] = x at hc ⊢
      by_cases hfound : sep.take k <+: x :: (msg.drop (start + 1) ++ rest)
      · rw [decide_eq_true hfound, if_pos rfl, splitLine, if_pos hfound]
        simp only [Option.map_some, List.length_nil]
        rw [show i + ((0 : ℕ) : ℤ) = i by omega]
      · rw [decide_eq_false hfound, if_neg (fun heq ↦ by cases heq), map_splitLine_cons hfound]
        by_cases hlast : start + 1 = msg.length
        · -- the next byte is in the next node
          rw [if_pos (by omega), List.drop_of_length_le (by omega), List.nil_append]
          rw [List.drop_of_length_le (by omega), List.nil_append] at hc
          cases ns with
          | nil =>
            have hnext : (m.node n).next = none := hchain
            rw [hnext, hrest.eq_nil_iff.mpr rfl]
            rfl
          | cons n' ns' =>
            have hnext : (m.node n).next = some n' := hchain.1
            rw [hnext]
            dsimp only
            rw [List.length_cons] at hnodes
            exact ih 0 hrest hchain.2 (by omega) (by omega) (by omega)
        · rw [if_neg (by omega)]
          exact ih (start + 1) (.cons hmsg hsz (by omega) hrest) hchain hnodes (by omega)
            (by rw [hsz]; omega)

theorem findLine_spec {k : ℕ} {sep : List UInt8} (h : Filled m l f)
    (hsize : (m.buffer b).size = (f b).length) (hk : toInt32 sep.length = k) :
    m.findLine b sep = .ok ((splitLine (sep.take k) (f b)).map fun p ↦ (p.1.length : ℤ)) := by
  have hsep : k ≤ sep.length := by
    have hle := toInt32_le sep.length
    omega
  rw [findLine, hsize, hk]
  cases hl : l (some b) with
  | nil =>
    have hnil : f b = [] := h.eq_nil_iff.mpr hl
    rw [h.head_eq_none_iff.mpr hnil, hnil]
    rfl
  | cons n ns =>
    obtain ⟨hhead, hchain⟩ := h.threads.head_cons hl
    obtain ⟨off, hoffset, hcarries⟩ := h.carries b
    have hhead' : (m.buffer b).head = some n := hhead
    rw [hl] at hcarries
    have hlength := h.length_le (some b)
    rw [hl, List.length_cons] at hlength
    rw [hhead', hoffset]
    dsimp only
    rw [findSep_spec off hk hsep hcarries hchain hlength (by omega) rfl]
    simp only [Int.zero_add]

end LuaSockets

end ZTask
