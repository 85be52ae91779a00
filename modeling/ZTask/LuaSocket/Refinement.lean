import ZTask.LuaSocket.Reading

/-!
# The buffers are strings

Every operation on the nodes has the result of the operation on the string, and the size field is
the length of the string. Sizes from Lua are cut down to an `int` first: a size of `2 ^ 31` or more
is not what has been asked for, and a separator that long is not compared as a whole. Short of that
the two agree on every sequence of operations.

## The two machines

The faithful one has the buffers as chains of nodes, with the offset into the first node and the
size field, and the pool of free nodes that all buffers share (`LuaSocket.Nodes`). The abstract one
has a string for each buffer (`LuaSocket.Flat`). `Holds` relates them: the nodes of a buffer spell
its string, and no node is in two buffers or in a buffer and the pool.

## Runs

`step_refines` is the simulation of one operation, and `buffers_agree` carries it along a run with
the induction of `Lib.Machine`. The condition is about the arguments of the operations only: sizes
that an `int` can have, and a total of bytes below `2 ^ 31`.
-/

namespace ZTask

open Lib

namespace LuaSockets

variable {m m' : LuaSockets} {l : Option ℕ → List ℕ} {f f' : ℕ → List UInt8} {b : ℕ} {op : BufferOp}
  {o : BufferResult} {sep bytes : List UInt8}

/-- The buffers hold these strings. -/
structure Holds (m : LuaSockets) (f : ℕ → List UInt8) : Prop where
  filled : ∃ l, Filled m l f
  size : ∀ b, (m.buffer b).size = (f b).length
  small : ∀ b, (f b).length < 2 ^ 31

theorem holds_init : Holds .init fun _ ↦ [] := by
  refine ⟨⟨fun _ ↦ [], ⟨fun i ↦ ?_, fun _ ↦ List.nodup_nil, fun ha _ ↦ (nomatch ha)⟩, fun _ ↦ rfl,
    fun hn ↦ (nomatch hn), fun _ ↦ ⟨0, rfl, .nil⟩⟩, fun _ ↦ rfl, fun _ ↦ by decide⟩
  cases i <;> rfl

/-- The size does not matter to the nodes. -/
theorem Filled.setSize (h : Filled m l f) (b : ℕ) (z : ℤ) :
    Filled (m.setBuffer b { m.buffer b with size := z }) l f := by
  have hsame := h.setBuffer { m.buffer b with size := z } rfl rfl (h.carries b)
  rwa [Function.update_eq_self] at hsame

/-- A buffer has got its new bytes, and then its new size. -/
theorem Holds.update {z : ℤ} (h : Holds m f) (hfilled : Filled m' l (Function.update f b bytes))
    (hsizes : ∀ b', (m'.buffer b').size = (m.buffer b').size) (hz : z = bytes.length)
    (hsmall : bytes.length < 2 ^ 31) :
    Holds (m'.setBuffer b { m'.buffer b with size := z }) (Function.update f b bytes) := by
  refine ⟨⟨l, hfilled.setSize b z⟩, fun b' ↦ ?_, fun b' ↦ ?_⟩
  · by_cases hb : b' = b
    · subst hb
      rw [buffer_setBuffer_self, Function.update_self]
      exact hz
    · rw [buffer_setBuffer_of_ne hb, Function.update_of_ne hb, hsizes]
      exact h.size b'
  · by_cases hb : b' = b
    · subst hb
      rwa [Function.update_self]
    · rw [Function.update_of_ne hb]
      exact h.small b'

/-! ## The steps -/

theorem push_refines {msg : List UInt8} (h : Holds m f) (hop : Proper f (.push b msg))
    (hflat : flatSocket f (.push b msg) = .ok (f', o)) :
    ∃ m', luaSocket m (.push b msg) = .ok (m', o) ∧ Holds m' f' := by
  obtain ⟨hne, hlt⟩ := hop
  obtain ⟨l, hfilled⟩ := h.filled
  obtain ⟨hf', ho⟩ := Prod.mk.inj (Except.ok.inj hflat)
  obtain ⟨m', l', hpush, hfilled', hsize, hothers⟩ :=
    pushBuffer_spec (b := b) hfilled hne (toInt32_of_lt (by omega) (by omega))
  have hlength : (m.buffer b).size + (msg.length : ℤ) = ((f b).length + msg.length : ℕ) := by
    rw [h.size]
    omega
  refine ⟨m', ?_, ?_⟩
  · change (m.pushBuffer b msg).map _ = _
    rw [hpush, hlength, ← ho]
    rfl
  · rw [← hf']
    refine ⟨⟨l', hfilled'⟩, fun b' ↦ ?_, fun b' ↦ ?_⟩
    · by_cases hb : b' = b
      · subst hb
        rw [Function.update_self, hsize, hlength, List.length_append]
      · rw [Function.update_of_ne hb, hothers b' hb]
        exact h.size b'
    · by_cases hb : b' = b
      · subst hb
        rwa [Function.update_self, List.length_append]
      · rw [Function.update_of_ne hb]
        exact h.small b'

theorem popBuffer_none {n : ℤ} (hsize : (m.buffer b).size < toInt32 n ∨ toInt32 n = 0) :
    m.popBuffer b n = .ok (none, (m.buffer b).size, m) := by
  rw [popBuffer]
  exact if_pos hsize

theorem popBuffer_some {n : ℤ} {k : ℕ} {s : List UInt8} (hk : toInt32 n = k)
    (hsize : ¬ ((m.buffer b).size < k ∨ (k : ℤ) = 0)) (hpop : m.popString b k 0 = .ok (s, m')) :
    m.popBuffer b n = .ok (some s, ((m'.shrink b k).buffer b).size, m'.shrink b k) := by
  rw [popBuffer, hk, if_neg hsize, hpop]
  rfl

private theorem pop_refines {n : ℤ} (h : Holds m f) (hop : Proper f (.pop b n))
    (hfits : FitsInt f (.pop b n)) (hflat : flatSocket f (.pop b n) = .ok (f', o)) :
    ∃ m', luaSocket m (.pop b n) = .ok (m', o) ∧ Holds m' f' := by
  have hpos : 0 < n := hop
  have hsmall := h.small b
  rw [flatSocket] at hflat
  by_cases hle : n ≤ (f b).length
  · -- there is enough, so the size is an `int`
    rw [if_pos hle] at hflat
    obtain ⟨hf', ho⟩ := Prod.mk.inj (Except.ok.inj hflat)
    obtain ⟨k, rfl⟩ := Int.eq_ofNat_of_zero_le (Int.le_of_lt hpos)
    have hint : toInt32 (k : ℤ) = k := toInt32_of_lt (by omega) (by omega)
    obtain ⟨l, hfilled⟩ := h.filled
    obtain ⟨m', l', hpop, hfilled', hsizes⟩ :=
      popString_spec (b := b) k 0 hfilled (by omega)
        (List.ne_nil_of_length_pos (by omega)) (by omega)
    rw [Int.toNat_natCast] at hf' ho
    have hdrop : ((f b).drop k).length = (f b).length - k := List.length_drop ..
    have hz : (m'.buffer b).size - k = ((f b).drop k).length := by
      rw [hsizes, h.size]
      omega
    refine ⟨m'.shrink b k, ?_, ?_⟩
    · rw [luaSocket, popBuffer_some hint (by rw [h.size]; omega) hpop, ← ho, shrink,
        buffer_setBuffer_self, hz]
      rfl
    · rw [← hf']
      exact h.update hfilled' hsizes hz (by omega)
  · rw [if_neg hle] at hflat
    obtain ⟨hf', ho⟩ := Prod.mk.inj (Except.ok.inj hflat)
    have hnone : (m.buffer b).size < toInt32 n ∨ toInt32 n = 0 := by
      rw [h.size]
      rcases hfits with hlt | hzero | hmore
      · rw [toInt32_of_lt (by omega) hlt]
        exact .inl (by omega)
      · exact .inr hzero
      · exact .inl hmore
    refine ⟨m, ?_, hf' ▸ h⟩
    change (m.popBuffer b n).map _ = _
    rw [popBuffer_none hnone, ← ho, h.size]
    rfl

theorem findLine_refines (h : Holds m f) (hfits : FitsSep (f b) sep) :
    m.findLine b sep = .ok ((splitLine sep (f b)).map fun p ↦ (p.1.length : ℤ)) := by
  obtain ⟨l, hfilled⟩ := h.filled
  have hsmall := h.small b
  rcases hfits with hlt | hnil | ⟨hpos, hnone⟩
  · rw [findLine_spec hfilled (h.size b) (toInt32_of_lt (by omega) (by omega)),
      List.take_of_length_le (Nat.le_refl _)]
  · rw [findLine, hfilled.head_eq_none_iff.mpr hnil, hnil]
    rfl
  · have hk : toInt32 sep.length = ((toInt32 sep.length).toNat : ℤ) := by omega
    rw [findLine_spec hfilled (h.size b) hk, hnone, splitLine_eq_none_of_take hnone]

theorem readline_refines (h : Holds m f) (hfits : FitsInt f (.readline b sep))
    (hflat : flatSocket f (.readline b sep) = .ok (f', o)) :
    ∃ m', luaSocket m (.readline b sep) = .ok (m', o) ∧ Holds m' f' := by
  have hline := findLine_refines h hfits
  have hsmall := h.small b
  rw [flatSocket] at hflat
  change ∃ m', (m.readLine b sep).map _ = _ ∧ _
  rw [readLine, hline]
  cases hsplit : splitLine sep (f b) with
  | none =>
    rw [hsplit] at hflat
    obtain ⟨hf', ho⟩ := Prod.mk.inj (Except.ok.inj hflat)
    exact ⟨m, by rw [← ho]; rfl, hf' ▸ h⟩
  | some p =>
    obtain ⟨line, rest⟩ := p
    rw [hsplit] at hflat
    obtain ⟨hf', ho⟩ := Prod.mk.inj (Except.ok.inj hflat)
    -- the line and the separator are held, so their lengths are `int`s
    have hbytes := splitLine_append hsplit
    have hlength : (f b).length = line.length + (sep.length + rest.length) := by
      rw [hbytes, List.length_append, List.length_append]
    have hsep : toInt32 sep.length = sep.length := toInt32_of_lt (by omega) (by omega)
    have hint : toInt32 ((line.length : ℤ) + sep.length) = (line.length + sep.length : ℕ) := by
      rw [toInt32_of_lt (by omega) (by omega)]
      omega
    have hne : f b ≠ [] := fun hnil ↦ by
      rw [hnil] at hsplit
      cases hsplit
    obtain ⟨l, hfilled⟩ := h.filled
    obtain ⟨m', l', hpop, hfilled', hsizes⟩ :=
      popString_spec (b := b) (line.length + sep.length) sep.length hfilled
        (by omega) hne (Nat.le_add_left ..)
    have htake : (f b).take (line.length + sep.length - sep.length) = line := by
      rw [Nat.add_sub_cancel, hbytes, List.take_left]
    have hdrop : (f b).drop (line.length + sep.length) = rest := by
      calc (f b).drop (line.length + sep.length)
          = ((line ++ sep) ++ rest).drop (line ++ sep).length := by
            rw [hbytes, List.append_assoc, List.length_append]
        _ = rest := List.drop_left
    rw [htake] at hpop
    rw [hdrop] at hfilled'
    refine ⟨m'.shrink b (line.length + sep.length : ℕ), ?_, ?_⟩
    · simp only [bind, Except.bind, Option.map_some]
      rw [hint, hsep, hpop, ← ho]
      rfl
    · rw [← hf']
      refine h.update hfilled' hsizes ?_ (by omega)
      rw [hsizes, h.size]
      omega

theorem readall_refines (h : Holds m f) (hflat : flatSocket f (.readall b) = .ok (f', o)) :
    ∃ m', luaSocket m (.readall b) = .ok (m', o) ∧ Holds m' f' := by
  obtain ⟨hf', ho⟩ := Prod.mk.inj (Except.ok.inj hflat)
  obtain ⟨l, hfilled⟩ := h.filled
  obtain ⟨m', l', hdrain, hfilled', hsizes⟩ :=
    drain_spec [] (Nat.lt_succ_of_le (hfilled.length_le (some b))) hfilled
  refine ⟨_, ?_, hf' ▸ h.update hfilled' hsizes (z := 0) rfl (by decide)⟩
  change (m.readAll b).map _ = _
  rw [readAll, hdrain, ← ho]
  rfl

private theorem clear_refines (h : Holds m f) (hflat : flatSocket f (.clear b) = .ok (f', o)) :
    ∃ m', luaSocket m (.clear b) = .ok (m', o) ∧ Holds m' f' := by
  obtain ⟨hf', ho⟩ := Prod.mk.inj (Except.ok.inj hflat)
  obtain ⟨l, hfilled⟩ := h.filled
  obtain ⟨m', l', hclear, hfilled', hsizes⟩ :=
    clearLoop_spec (Nat.lt_succ_of_le (hfilled.length_le (some b))) hfilled
  refine ⟨_, ?_, hf' ▸ h.update hfilled' hsizes (z := 0) rfl (by decide)⟩
  change (m.clearBuffer b).map _ = _
  rw [clearBuffer, hclear, ← ho]
  rfl

/-- **One step.** -/
theorem step_refines (h : Holds m f) (hop : Proper f op ∧ FitsInt f op)
    (hflat : flatSocket f op = .ok (f', o)) : ∃ m', luaSocket m op = .ok (m', o) ∧ Holds m' f' := by
  obtain ⟨hproper, hfits⟩ := hop
  cases op with
  | push b msg => exact push_refines h hproper hflat
  | pop b n => exact pop_refines h hproper hfits hflat
  | readline b sep => exact readline_refines h hfits hflat
  | checkline b sep =>
    obtain ⟨hf', ho⟩ := Prod.mk.inj (Except.ok.inj hflat)
    refine ⟨m, ?_, hf' ▸ h⟩
    change (m.findLine b sep).map _ = _
    rw [findLine_refines h hfits, ← ho]
    simp only [Except.map, Option.isSome_map]
  | readall b => exact readall_refines h hflat
  | clear b => exact clear_refines h hflat

/-! ## Runs -/

/-- The results of the operations are those on strings, the sizes are the lengths of the strings,
and no free node is linked in a buffer. -/
def Agrees (ops : List BufferOp) : Prop :=
  ∃ trf f tr m, exec flatSocket (fun _ ↦ []) ops = .ok (trf, f) ∧
    exec luaSocket .init ops = .ok (tr, m) ∧
    tr.map Event.output = trf.map Event.output ∧ (∀ b, (m.buffer b).size = (f b).length) ∧
    ∃ (free : List ℕ) (linked : ℕ → List ℕ), LinkQueue.Chain m.links m.freeNode free ∧
      ∀ b, LinkQueue.Chain m.links (m.buffer b).head (linked b) ∧ ∀ n ∈ linked b, n ∉ free

theorem Holds.apart (h : Holds m f) :
    ∃ (free : List ℕ) (linked : ℕ → List ℕ), LinkQueue.Chain m.links m.freeNode free ∧
      ∀ b, LinkQueue.Chain m.links (m.buffer b).head (linked b) ∧ ∀ n ∈ linked b, n ∉ free := by
  obtain ⟨l, hfilled⟩ := h.filled
  refine ⟨l none, fun b ↦ l (some b), hfilled.threads.chain none, fun b ↦
    ⟨hfilled.threads.chain (some b), fun n hn hfree ↦ ?_⟩⟩
  exact Option.some_ne_none b (hfilled.threads.apart hn hfree)

/-- **Buffers are strings**, for operations whose sizes are not cut down. -/
theorem buffers_agree {ops : List BufferOp}
    (hops : Along flatSocket (fun f op ↦ Proper f op ∧ FitsInt f op) (fun _ ↦ []) ops) :
    Agrees ops := by
  obtain ⟨trf, f, hflat⟩ := exec_total (m := flatSocket) (fun _ ↦ []) ops
  obtain ⟨tr, m, hexec, houtputs, hholds⟩ :=
    exec_refines luaSocket flatSocket Holds step_refines holds_init hops hflat
  exact ⟨trf, f, tr, m, hflat, hexec, houtputs, hholds.size, hholds.apart⟩

/-- A separator over two nodes, and a pop that leaves a part of one. -/
theorem buffers_agree_lines :
    Along flatSocket (fun f op ↦ Proper f op ∧ FitsInt f op) (fun _ ↦ [])
      [.push 0 [97, 13], .push 0 [10, 98, 99], .readline 0 [13, 10], .pop 0 1,
      .pop 0 7, .readall 0] ∧
    Agrees
      [.push 0 [97, 13], .push 0 [10, 98, 99], .readline 0 [13, 10], .pop 0 1, .pop 0 7,
      .readall 0] :=
  ⟨by decide +kernel, buffers_agree (by decide +kernel)⟩

/-- With two bytes held, `2 ^ 32 + 1` are popped: it is one, and not `nil`. -/
theorem not_buffers_agree :
    ¬ ∀ ops, Along flatSocket Proper (fun _ ↦ []) ops → Agrees ops := by
  intro h
  obtain ⟨trf, f, tr, m, hflat, hexec, houtputs, -⟩ :=
    h [.push 0 [97, 98], .pop 0 (2 ^ 32 + 1)] (by decide +kernel)
  have hnone : Passes flatSocket (fun _ ↦ []) [.push 0 [97, 98], .pop 0 (2 ^ 32 + 1)]
      fun tr _ ↦ tr.map Event.output = [.size 2, .bytes none 2] := by decide +kernel
  have hone : Passes luaSocket .init [.push 0 [97, 98], .pop 0 (2 ^ 32 + 1)]
      fun tr _ ↦ tr.map Event.output = [.size 2, .bytes (some [97]) 1] := by decide +kernel
  rw [Passes, hflat] at hnone
  rw [Passes, hexec] at hone
  cases hone.symm.trans (houtputs.trans hnone)

end LuaSockets

end ZTask
