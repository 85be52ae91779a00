import ZTask.Crypt.Buffer
import ZTask.Crypt.DesBlock
import Mathlib.Data.List.Induction

/-!
# DES texts

`ldesencode` and `ldesdecode`. A string is filled up with the byte `0x80` and zeros to whole blocks,
at least one byte of it; the decoder looks for the byte `0x80` in the last block from its end.

The counters are of type `int`, but the conditions of the decoder compare them with values of type
`size_t`. So a text that has `2 ^ 31` bytes makes a counter overflow, and the search for `0x80` in a
text of a single block goes on in front of the buffer.

## The two ranges

The encoder compares values of type `int`, and its loop is over the whole blocks of the string. The
decoder goes over the blocks of the text until the counter has reached the length; at `2 ^ 31` bytes
it overflows before (`desdecodeLoop_overflow`). Shorter texts are decoded block by block, and the
padding is searched for from the end.

## Exactness

`padded_inj` says that padding can be taken off in one way at most, so `Unpadded` is what the
decoder should do with any blocks. `desdecode_unpadded` says that it does, and `desdecode_zeros` is
the one block for which the search leaves the buffer.
-/

namespace ZTask

open Lib

/-! ## Encoding -/

/-- `des_key`. -/
def desKey (key : List UInt8) : Crypt (List DesWord) :=
  if key.length ≠ 8 then .error (.raised s!"Invalid key size {toInt32 key.length}, need 8 bytes")
  else .ok (desMainKs key)

/-- The loop of `ldesencode`, which goes on as long as `i` is below `stop`, with the counter and
what is left of the text in the end. -/
def desencodeLoop (sk : List DesWord) (stop : ℤ) (buffer : Block UInt8) (i : ℕ)
    (text : List UInt8) :
    Crypt (Block UInt8 × ℕ × List UInt8) :=
  if i < stop then
    if _h : text.length < 8 then .error .outside
    else do
      let buffer ← storeBytes buffer i (desCrypt sk (text.take 8))
      let i ← toCounter (i + 8)
      desencodeLoop sk stop buffer i (text.drop 8)
  else .ok (buffer, i, text)
termination_by text.length
decreasing_by
  rw [List.length_drop]
  omega

/-- The array `tail` of `ldesencode`. -/
def desTail (bytes : ℤ) (text : List UInt8) : List UInt8 :=
  (List.range 8).map fun j : ℕ ↦
    if (j : ℤ) < bytes then text.getD j 0 else if (j : ℤ) = bytes then 0x80 else 0

/-- `ldesencode`. -/
def desencode (key text : List UInt8) : Crypt (List UInt8) := do
  let sk ← desKey key
  let textsz := text.length
  let chunksz := (textsz + 8) / 8 * 8
  let buffer := newBuffer chunksz
  if toInt32 textsz - 7 < -2 ^ 31 then .error .overflow
  else
    let (buffer, i, text) ← desencodeLoop sk (toInt32 textsz - 7) buffer 0 text
    let buffer ← storeBytes buffer i (desCrypt sk (desTail (toInt32 (textsz - i)) text))
    pushBuffer buffer chunksz

/-! ## Decoding -/

/-- The loop of `ldesdecode` over the blocks. -/
def desdecodeLoop (sk : List DesWord) (buffer : Block UInt8) (i : ℕ) (text : List UInt8) :
    Crypt (Block UInt8) :=
  if text = [] then .ok buffer
  else if _h : text.length < 8 then .error .outside
  else do
    let buffer ← storeBytes buffer i (desCrypt sk (text.take 8))
    let i ← toCounter (i + 8)
    desdecodeLoop sk buffer i (text.drop 8)
termination_by text.length
decreasing_by
  rw [List.length_drop]
  omega

/-- The loop that counts the padding, for the counter plus one. It compares values of type `size_t`,
of which -1 is the largest. -/
def countPadding (buffer : Block UInt8) (textsz : ℕ) : ℕ → ℕ → Crypt ℕ
  | 0, padding => if 2 ^ 64 - 1 < textsz - 8 then .ok padding else .error .outside
  | i + 1, padding =>
    if i < textsz - 8 then .ok padding
    else
      match buffer[i]? with
      | some (some b) =>
        if b = 0 then countPadding buffer textsz i (padding + 1)
        else if b = 0x80 then .ok padding
        else .error (.raised "Invalid des crypt text")
      | _ => .error .outside

/-- `ldesdecode`. -/
def desdecode (key text : List UInt8) : Crypt (List UInt8) := do
  let esk ← desKey key
  let sk := reverseKeys esk
  let textsz := text.length
  if textsz % 8 ≠ 0 ∨ textsz = 0 then
    .error (.raised s!"Invalid des crypt text length {toInt32 textsz}")
  else
    let buffer := newBuffer textsz
    let buffer ← desdecodeLoop sk buffer 0 text
    let padding ← countPadding buffer textsz textsz 1
    if 8 < padding then .error (.raised "Invalid des crypt text")
    else pushBuffer buffer (textsz - padding)

/-! ## Blocks -/

/-- The blocks of a text, encrypted or decrypted. -/
def cryptBlocks (sk : List DesWord) (text : List UInt8) : List UInt8 :=
  if _h : text.length < 8 then [] else desCrypt sk (text.take 8) ++ cryptBlocks sk (text.drop 8)
termination_by text.length
decreasing_by
  rw [List.length_drop]
  omega

/-- A string with its padding. -/
def desPadded (s : List UInt8) : List UInt8 := s ++ 0x80 :: List.replicate (7 - s.length % 8) 0

variable {sk : List DesWord} {buffer : Block UInt8} {front text : List UInt8}

private theorem cryptBlocks_block (sk : List DesWord) {block : List UInt8} (h : block.length = 8)
    (text : List UInt8) : cryptBlocks sk (block ++ text) = desCrypt sk block ++
    cryptBlocks sk text := by
  rw [cryptBlocks, dif_neg (by rw [List.length_append]; omega), List.take_left' h,
    List.drop_left' h]

private theorem cryptBlocks_nil (sk : List DesWord) : cryptBlocks sk [] = [] := by
  rw [cryptBlocks, dif_pos (by decide)]

private theorem length_cryptBlocks (h : text.length % 8 = 0) :
    (cryptBlocks sk text).length = text.length := by
  fun_induction cryptBlocks sk text with
  | case1 text hshort =>
    rw [List.length_nil]
    omega
  | case2 text hlong ih =>
    rw [List.length_drop] at ih
    rw [List.length_append, length_desCrypt, ih (by omega)]
    omega

private theorem cryptBlocks_cryptBlocks {sk sk' : List DesWord}
    (hback : ∀ block : List UInt8, block.length = 8 → desCrypt sk' (desCrypt sk block) = block)
    {text : List UInt8} (h : text.length % 8 = 0) :
    cryptBlocks sk' (cryptBlocks sk text) = text := by
  fun_induction cryptBlocks sk text with
  | case1 text hshort =>
    have hnil : text = [] := List.length_eq_zero_iff.mp (by omega)
    rw [cryptBlocks_nil, hnil]
  | case2 text hlong ih =>
    rw [List.length_drop] at ih
    rw [cryptBlocks_block sk' (length_desCrypt sk _), ih (by omega),
      hback _ (by rw [List.length_take]; omega), List.take_append_drop]

/-! ## The padding -/

theorem length_desPadded (s : List UInt8) : (desPadded s).length = (s.length + 8) / 8 * 8 := by
  rw [desPadded, List.length_append, List.length_cons, List.length_replicate]
  omega

private theorem desPadded_block {block : List UInt8} (h : block.length = 8) (s : List UInt8) :
    desPadded (block ++ s) = block ++ desPadded s := by
  have hlen : (block ++ s).length % 8 = s.length % 8 := by
    rw [List.length_append]
    omega
  rw [desPadded, desPadded, hlen, List.append_assoc]

/-- The last bytes and their padding. -/
theorem desTail_eq (h : text.length < 8) : desTail text.length text = desPadded text := by
  refine List.ext_getElem ?_ fun j hj hj' ↦ ?_
  · rw [length_desPadded, desTail, List.length_map, List.length_range]
    omega
  · rw [length_desPadded] at hj'
    simp only [desTail, desPadded, List.getElem_map, List.getElem_range, List.getElem_append]
    split
    next hlt =>
      rw [dif_pos (by omega), List.getD_eq_getElem?_getD, List.getElem?_eq_getElem (by omega),
        Option.getD_some]
    next hge =>
      rw [dif_neg (by omega), List.getElem_cons]
      split
      next heq => rw [dif_pos (by omega)]
      next hne => rw [dif_neg (by omega), List.getElem_replicate]

/-! ## The encoder -/

/-- The loop leaves less than a block. -/
theorem desencodeLoop_eq {i sz : ℕ} (h : buffer.At 0 front) (hi : front.length = i)
    (hsz : i + text.length = sz) (hlt : sz < 2 ^ 31) (hfits : sz ≤ buffer.length) :
    ∃ buffer' front' rest, desencodeLoop sk (sz - 7 : ℤ) buffer i text =
        .ok (buffer', front'.length, rest) ∧ buffer'.At 0 front' ∧ buffer'.length = buffer.length ∧
      front'.length + rest.length = sz ∧ rest.length < 8 ∧
      front' ++ cryptBlocks sk (desPadded rest) = front ++ cryptBlocks sk (desPadded text) := by
  induction hlen : text.length using Nat.strongRecOn generalizing buffer front text i with
  | ind n ih =>
    rw [desencodeLoop]
    by_cases hlong : 8 ≤ text.length
    · have htake : (text.take 8).length = 8 := by
        rw [List.length_take]
        omega
      obtain ⟨buffer₁, hstore, h₁, hlen₁⟩ := storeBytes_front (desCrypt sk (text.take 8)) h
        (by rw [length_desCrypt]; omega)
      have hfront : (front ++ desCrypt sk (text.take 8)).length = i + 8 := by
        rw [List.length_append, length_desCrypt, hi]
      have hdrop : (text.drop 8).length = text.length - 8 := List.length_drop
      obtain ⟨buffer', front', rest, hloop, h', hlen', hrest, hshort, htext⟩ :=
        ih (text.length - 8) (by omega) h₁ hfront (hdrop.symm ▸ by omega) (by omega) hdrop
      refine ⟨buffer', front', rest, ?_, h', hlen'.trans hlen₁, hrest, hshort, ?_⟩
      · rw [if_pos (by omega), dif_neg (by omega), ← hi, hstore, ok_bind, hi,
          toCounter_of_lt (by omega), ok_bind, hloop]
      · rw [htext, List.append_assoc, ← cryptBlocks_block sk htake, ← desPadded_block htake,
          List.take_append_drop]
    · refine ⟨buffer, front, text, ?_, h, rfl, by omega, by omega, rfl⟩
      rw [if_neg (by omega), hi]

/-- **A string is encoded as the blocks of the padded string.** -/
theorem desencode_eq {key s : List UInt8} (hkey : key.length = 8) (hlt : s.length < 2 ^ 31 - 8) :
    desencode key s = .ok (cryptBlocks (desMainKs key) (desPadded s)) := by
  have hsz : toInt32 s.length = s.length := toInt32_of_lt (by omega) (by omega)
  have hroom := le_length_newBuffer ((s.length + 8) / 8 * 8 : ℕ)
  have hpadded := length_desPadded s
  rw [desencode, desKey, if_neg (not_not.mpr hkey), ok_bind]
  dsimp only
  rw [hsz, if_neg (by omega)]
  generalize newBuffer ((s.length + 8) / 8 * 8 : ℕ) = buffer at *
  obtain ⟨buffer₁, front, rest, hloop, h₁, hlen₁, hrest, hshort, htext⟩ :=
    desencodeLoop_eq (i := 0) (Block.at_nil buffer 0) rfl
      (Nat.zero_add s.length) (by omega) (by omega)
  have hbytes : toInt32 (s.length - front.length : ℤ) = rest.length := by
    rw [toInt32_of_lt (by omega) (by omega)]
    omega
  have htail : cryptBlocks (desMainKs key) (desPadded rest) =
      desCrypt (desMainKs key) (desPadded rest) := by
    have hblock : (desPadded rest).length = 8 := by
      rw [length_desPadded]
      omega
    have := cryptBlocks_block (desMainKs key) hblock []
    rwa [List.append_nil, cryptBlocks_nil, List.append_nil] at this
  rw [List.nil_append, htail] at htext
  have hchunk : (cryptBlocks (desMainKs key) (desPadded s)).length = (s.length + 8) / 8 * 8 := by
    rw [length_cryptBlocks (by omega), hpadded]
  have hfits : front.length + 8 = (s.length + 8) / 8 * 8 := by
    calc front.length + 8
        = (front ++ desCrypt (desMainKs key) (desPadded rest)).length := by
          rw [List.length_append, length_desCrypt]
      _ = (s.length + 8) / 8 * 8 := by rw [htext, hchunk]
  obtain ⟨buffer₂, hstore, h₂, -⟩ :=
    storeBytes_front (desCrypt (desMainKs key) (desPadded rest)) h₁ (by rw [length_desCrypt]; omega)
  rw [hloop, ok_bind]
  dsimp only
  rw [hbytes, desTail_eq hshort, hstore, ok_bind]
  rw [htext] at h₂
  rw [← hchunk]
  exact pushBuffer_front h₂

/-! ## The decoder -/

private theorem desdecodeLoop_eq {i : ℕ} (h : buffer.At 0 front) (hi : front.length = i)
    (hblocks : text.length % 8 = 0) (hlt : i + text.length < 2 ^ 31)
    (hfits : i + text.length ≤ buffer.length) :
    ∃ buffer', desdecodeLoop sk buffer i text = .ok buffer' ∧
      buffer'.At 0 (front ++ cryptBlocks sk text) := by
  fun_induction cryptBlocks sk text generalizing buffer front i with
  | case1 text hshort =>
    have hnil : text = [] := List.length_eq_zero_iff.mp (by omega)
    rw [desdecodeLoop, if_pos hnil, List.append_nil]
    exact ⟨buffer, rfl, h⟩
  | case2 text hlong ih =>
    obtain ⟨buffer₁, hstore, h₁, hlen₁⟩ := storeBytes_front (desCrypt sk (text.take 8)) h
      (by rw [length_desCrypt]; omega)
    have hfront : (front ++ desCrypt sk (text.take 8)).length = i + 8 := by
      rw [List.length_append, length_desCrypt, hi]
    rw [List.length_drop] at ih
    obtain ⟨buffer', hloop, h'⟩ := ih h₁ hfront (by omega) (by omega) (by omega)
    have hne : text ≠ [] := by
      rintro rfl
      exact hlong (by decide)
    refine ⟨buffer', ?_, by rwa [List.append_assoc] at h'⟩
    rw [desdecodeLoop, if_neg hne, dif_neg hlong, ← hi, hstore, ok_bind, hi,
      toCounter_of_lt (by omega), ok_bind, hloop]

/-- The counter of a long text leaves its range. -/
theorem desdecodeLoop_overflow {i : ℕ} (h : buffer.At 0 front) (hi : front.length = i)
    (hcount : i % 8 = 0) (hsmall : i < 2 ^ 31) (hblocks : text.length % 8 = 0)
    (hlong : 2 ^ 31 ≤ i + text.length) (hfits : i + text.length ≤ buffer.length) :
    desdecodeLoop sk buffer i text = .error .overflow := by
  fun_induction cryptBlocks sk text generalizing buffer front i with
  | case1 text hshort => omega
  | case2 text hblock ih =>
    obtain ⟨buffer₁, hstore, h₁, hlen₁⟩ := storeBytes_front (desCrypt sk (text.take 8)) h
      (by rw [length_desCrypt]; omega)
    have hfront : (front ++ desCrypt sk (text.take 8)).length = i + 8 := by
      rw [List.length_append, length_desCrypt, hi]
    have hne : text ≠ [] := by
      rintro rfl
      exact hblock (by decide)
    rw [desdecodeLoop, if_neg hne, dif_neg hblock, ← hi, hstore, ok_bind, hi]
    by_cases hend : i + 8 < 2 ^ 31
    · rw [List.length_drop] at ih
      rw [toCounter_of_lt hend, ok_bind]
      exact ih h₁ hfront (by omega) hend (by omega) (by omega) (by omega)
    · rw [toCounter_of_ge (by omega), error_bind]

private theorem countPadding_zeros {textsz n : ℕ} (z padding : ℕ)
    (hzeros : ∀ j < z, buffer[n + j]? = some (some 0)) (hn : textsz - 8 ≤ n) :
    countPadding buffer textsz (n + z) padding = countPadding buffer textsz n (padding + z) := by
  induction z generalizing padding with
  | zero => rfl
  | succ z ih =>
    rw [← Nat.add_assoc, countPadding, if_neg (by omega), hzeros z (by omega)]
    dsimp only
    rw [if_pos rfl, ih _ fun j hj ↦ hzeros j (by omega)]
    congr 1
    omega

theorem countPadding_byte {textsz n : ℕ} {padding : ℕ} {b : UInt8} (hb : buffer[n]? = some (some b))
    (hne : b ≠ 0) (hn : textsz - 8 ≤ n) :
    countPadding buffer textsz (n + 1) padding =
      if b = 0x80 then .ok padding else .error (.raised "Invalid des crypt text") := by
  rw [countPadding, if_neg (by omega), hb]
  dsimp only
  rw [if_neg hne]

private theorem exists_zeros (l : List UInt8) :
    ∃ front z, l = front ++ List.replicate z 0 ∧
      (front = [] ∨ ∃ f b, front = f ++ [b] ∧ b ≠ 0) := by
  induction l using List.reverseRecOn with
  | nil => exact ⟨[], 0, rfl, .inl rfl⟩
  | append_singleton l b ih =>
    by_cases hb : b = 0
    · obtain ⟨front, z, hl, hfront⟩ := ih
      refine ⟨front, z + 1, ?_, hfront⟩
      rw [hl, hb, List.append_assoc, List.replicate_succ']
    · exact ⟨l ++ [b], 0, by rw [List.replicate_zero, List.append_nil], .inr ⟨l, b, rfl, hb⟩⟩

/-- What the decoder is to do with decrypted blocks: to take the padding off, or to raise its error.
-/
inductive Unpadded (plain : List UInt8) : Crypt (List UInt8) → Prop
  | stripped (f : List UInt8) (z : ℕ) (hz : z < 8)
    (hplain : plain = f ++ 0x80 :: List.replicate z 0) :
    Unpadded plain (.ok f)
  | refused (hno : ∀ f z, z < 8 → plain ≠ f ++ 0x80 :: List.replicate z 0) :
    Unpadded plain (.error (.raised "Invalid des crypt text"))

/-- There is one way to take padding off. -/
theorem padded_inj {f f' : List UInt8} {b b' : UInt8} {z z' : ℕ} (hb : b ≠ 0) (hb' : b' ≠ 0)
    (h : f ++ b :: List.replicate z 0 = f' ++ b' :: List.replicate z' 0) :
    f = f' ∧ b = b' ∧ z = z' := by
  induction z generalizing z' with
  | zero =>
    cases z' with
    | zero =>
      obtain ⟨hf, hbb⟩ := List.append_inj' h rfl
      injection hbb with hbb _
      exact ⟨hf, hbb, rfl⟩
    | succ z' =>
      rw [List.replicate_succ', List.replicate_zero, ← List.cons_append, ← List.append_assoc] at h
      injection (List.append_inj' h rfl).2 with hzero _
      exact absurd hzero hb
  | succ z ih =>
    cases z' with
    | zero =>
      rw [List.replicate_succ', List.replicate_zero, ← List.cons_append, ← List.append_assoc] at h
      injection (List.append_inj' h rfl).2 with hzero _
      exact absurd hzero.symm hb'
    | succ z' =>
      rw [List.replicate_succ', List.replicate_succ', ← List.cons_append, ← List.cons_append,
        ← List.append_assoc, ← List.append_assoc] at h
      obtain ⟨hf, hbb, hz⟩ := ih (List.append_inj' h rfl).1
      exact ⟨hf, hbb, by rw [hz]⟩

variable {key : List UInt8}

private theorem desdecode_loop (hkey : key.length = 8) (hblocks : text.length % 8 = 0)
    (hpos : 0 < text.length) :
    desdecode key text =
      (desdecodeLoop (reverseKeys (desMainKs key)) (newBuffer text.length) 0 text >>= fun buffer ↦
        countPadding buffer text.length text.length 1 >>= fun padding ↦
          if 8 < padding then .error (.raised "Invalid des crypt text")
          else pushBuffer buffer (text.length - padding)) := by
  have hno : ¬(text.length % 8 ≠ 0 ∨ text.length = 0) := by omega
  rw [desdecode, desKey, if_neg (not_not.mpr hkey), ok_bind]
  dsimp only
  rw [if_neg hno]

/-- **A text is decoded by taking the padding off,** unless it is a single block of zeros. -/
theorem desdecode_unpadded (hkey : key.length = 8) (hblocks : text.length % 8 = 0)
    (hpos : 0 < text.length) (hlt : text.length < 2 ^ 31)
    (hzeros : cryptBlocks (reverseKeys (desMainKs key)) text ≠ List.replicate 8 0) :
    Unpadded (cryptBlocks (reverseKeys (desMainKs key)) text) (desdecode key text) := by
  have hroom := le_length_newBuffer text.length
  have hlen := @length_cryptBlocks (reverseKeys (desMainKs key)) text hblocks
  obtain ⟨buffer, hloop, h⟩ := @desdecodeLoop_eq (reverseKeys (desMainKs key)) _ _ _ 0
    (Block.at_nil (newBuffer text.length) 0) rfl hblocks (by omega) (by omega)
  rw [List.nil_append] at h
  rw [desdecode_loop hkey hblocks hpos, hloop, ok_bind]
  generalize cryptBlocks (reverseKeys (desMainKs key)) text = plain at *
  have hcell : ∀ (i : ℕ) (x : UInt8), plain[i]? = some x → buffer[i]? = some (some x) := by
    intro i x hx
    have := h i x hx
    rwa [Nat.zero_add] at this
  obtain ⟨front, z, hplain, hfront⟩ := exists_zeros plain
  have hplainlen : front.length + z = text.length := by
    rw [← hlen, hplain, List.length_append, List.length_replicate]
  have hzero : ∀ j < z, plain[front.length + j]? = some 0 := by
    intro j hj
    rw [hplain, List.getElem?_append_right (by omega), Nat.add_sub_cancel_left,
      List.getElem?_replicate, if_pos hj]
  by_cases hz : 8 ≤ z
  · -- The last block is zero; there is another block, and the search ends in front of the last one.
    have hmore : 8 < text.length := by
      by_contra hone
      have hnil : front = [] := List.length_eq_zero_iff.mp (by omega)
      refine hzeros ?_
      rw [hplain, hnil, List.nil_append, show z = 8 by omega]
    have hcount := countPadding_zeros
      (n := text.length - 8) 8 1 (fun j hj ↦ hcell _ _ (by
        have := hzero (text.length - 8 + j - front.length) (by omega)
        rwa [show front.length + (text.length - 8 + j - front.length) =
          text.length - 8 + j by omega]
          at this)) (Nat.le_refl _)
    rw [show text.length - 8 + 8 = text.length by omega] at hcount
    obtain ⟨m, hm⟩ : ∃ m, text.length - 8 = m + 1 := ⟨text.length - 9, by omega⟩
    have hend : countPadding buffer text.length (text.length - 8) (1 + 8) = .ok (1 + 8) := by
      rw [hm, countPadding, if_pos (by omega)]
    rw [hcount, hend, ok_bind, if_pos (by decide)]
    refine .refused fun f z' hz' hpad ↦ ?_
    -- The byte `0x80` would be among the zeros.
    have hbyte : plain[f.length]? = some 0x80 := by
      rw [hpad, List.getElem?_append_right (Nat.le_refl _), Nat.sub_self]
      rfl
    have hflen : f.length + 1 + z' = text.length := by
      rw [← hlen, hpad, List.length_append, List.length_cons, List.length_replicate]
      omega
    have hzerobyte := hzero (f.length - front.length) (by omega)
    rw [show front.length + (f.length - front.length) = f.length by omega, hbyte] at hzerobyte
    cases hzerobyte
  · rcases hfront with rfl | ⟨f, b, rfl, hb⟩
    · rw [List.length_nil] at hplainlen
      omega
    · rw [List.append_assoc, List.singleton_append] at hplain
      rw [List.length_append, List.length_singleton] at hplainlen hzero
      have hbyte : plain[f.length]? = some b := by
        rw [hplain, List.getElem?_append_right (Nat.le_refl _), Nat.sub_self]
        rfl
      have hcount := @countPadding_zeros buffer text.length (f.length + 1) z 1
        (fun j hj ↦ hcell _ _ (hzero j hj)) (by omega)
      rw [hplainlen, countPadding_byte (hcell _ _ hbyte) hb (by omega)] at hcount
      rw [hcount]
      by_cases hpad : b = 0x80
      · subst hpad
        rw [if_pos rfl, ok_bind, if_neg (by omega), show text.length - (1 + z) = f.length by omega]
        rw [hplain] at h
        rw [pushBuffer_front h.left]
        exact .stripped f z (by omega) hplain
      · rw [if_neg hpad, error_bind]
        refine .refused fun f' z' hz' hpad' ↦ ?_
        rw [hplain] at hpad'
        exact hpad (padded_inj hb (by decide) hpad').2.1

/-- In a single block of zeros the search leaves the buffer. -/
theorem desdecode_zeros (hkey : key.length = 8) (hlen : text.length = 8)
    (hzeros : cryptBlocks (reverseKeys (desMainKs key)) text = List.replicate 8 0) :
    desdecode key text = .error .outside := by
  have hroom := le_length_newBuffer text.length
  obtain ⟨buffer, hloop, h⟩ := @desdecodeLoop_eq (reverseKeys (desMainKs key)) _ _ text 0
    (Block.at_nil (newBuffer text.length) 0) rfl (by omega) (by omega) (by omega)
  rw [List.nil_append, hzeros] at h
  have hcount := @countPadding_zeros buffer 8 0 8 1 (fun j hj ↦
    h j 0 (by rw [List.getElem?_replicate, if_pos hj])) (by decide)
  have hend : countPadding buffer 8 0 (1 + 8) = .error .outside := by
    rw [countPadding, if_neg (by decide)]
  rw [desdecode_loop hkey (by omega) (by omega), hloop, ok_bind, hlen, hcount, hend]
  rfl

private theorem desdecode_overflow (hkey : key.length = 8) (hblocks : text.length % 8 = 0)
    (hlong : 2 ^ 31 ≤ text.length) : desdecode key text = .error .overflow := by
  have hroom := le_length_newBuffer text.length
  rw [desdecode_loop hkey hblocks (by omega), desdecodeLoop_overflow (i := 0)
    (Block.at_nil (newBuffer text.length) 0) rfl (by decide) (by decide) hblocks
      (by omega) (by omega)]
  rfl

private theorem length_of_desencode {s : List UInt8} (h : desencode key s = .ok text) :
    text.length = (s.length + 8) / 8 * 8 := by
  rw [desencode] at h
  obtain ⟨sk, -, h⟩ := of_bind_eq_ok h
  dsimp only at h
  split at h
  · cases h
  · obtain ⟨⟨buffer, i, rest⟩, -, h⟩ := of_bind_eq_ok h
    obtain ⟨buffer', -, h⟩ := of_bind_eq_ok h
    exact length_of_pushBuffer h

/-! ## What the functions are for -/

/-- The string is encrypted, and its text is decrypted to it. -/
def DesRoundTrip (key s : List UInt8) : Prop :=
  ∃ text, desencode key s = .ok text ∧ desdecode key text = .ok s

/-- **The round trip.** With a key of eight bytes a string is given back if and only if its blocks
have fewer than `2 ^ 31` bytes. -/
theorem desRoundTrip_iff (key s : List UInt8) (hkey : key.length = 8) :
    DesRoundTrip key s ↔ s.length < 2 ^ 31 - 8 := by
  have hpadded := length_desPadded s
  constructor
  · rintro ⟨text, hencode, hdecode⟩
    have hlen := length_of_desencode hencode
    by_contra hlong
    rw [desdecode_overflow hkey (by omega) (by omega)] at hdecode
    cases hdecode
  · intro hlt
    refine ⟨_, desencode_eq hkey hlt, ?_⟩
    have hlen := @length_cryptBlocks (desMainKs key) (desPadded s) (by omega)
    have hback := @cryptBlocks_cryptBlocks (desMainKs key) (reverseKeys (desMainKs key))
      (fun block hblock ↦ decrypt_encrypt hblock) (desPadded s) (by omega)
    -- the padding ends in 0x80 and zeros, so stripping the zeros finds it again
    have hunpadded := @desdecode_unpadded (cryptBlocks (desMainKs key) (desPadded s)) key hkey
      (by omega) (by omega) (by omega) ?_
    · rw [hback] at hunpadded
      generalize desdecode key (cryptBlocks (desMainKs key) (desPadded s)) = result at hunpadded ⊢
      cases hunpadded with
      | stripped f z hz hplain =>
        rw [(padded_inj (by decide) (by decide) hplain).1]
      | refused hno => exact absurd rfl (hno s _ (by omega))
    · rw [hback]
      intro hzeros
      have hmem : (0x80 : UInt8) ∈ desPadded s :=
        List.mem_append_right _ List.mem_cons_self
      rw [hzeros] at hmem
      exact absurd (List.eq_of_mem_replicate hmem) (by decide)

/-- Strings of no byte, of a block and of a block and a part come back, also with the byte of the
padding; one of `2 ^ 31 - 8` bytes does not. -/
theorem desRoundTrip_iff_short :
    DesRoundTrip [1, 2, 3, 4, 5, 6, 7, 8] [] ∧
      DesRoundTrip [1, 2, 3, 4, 5, 6, 7, 8] (ascii "a block.") ∧
      DesRoundTrip [1, 2, 3, 4, 5, 6, 7, 8] (ascii "more than it") ∧
      DesRoundTrip [1, 2, 3, 4, 5, 6, 7, 8] [0x80, 0, 0x80] ∧
      ¬DesRoundTrip [1, 2, 3, 4, 5, 6, 7, 8] (List.replicate (2 ^ 31 - 8) 0) := by
  refine ⟨(desRoundTrip_iff _ [] rfl).mpr (by decide),
    (desRoundTrip_iff _ (ascii "a block.") rfl).mpr (by decide +kernel),
    (desRoundTrip_iff _ (ascii "more than it") rfl).mpr (by decide +kernel),
    (desRoundTrip_iff _ [0x80, 0, 0x80] rfl).mpr (by decide), fun hback ↦ ?_⟩
  have hlt := (desRoundTrip_iff _ (List.replicate (2 ^ 31 - 8) 0) rfl).mp hback
  rw [List.length_replicate] at hlt
  exact Nat.lt_irrefl _ hlt

/-- A string of `2 ^ 31 - 8` bytes does not come back. -/
theorem not_desRoundTrip : ¬∀ key s : List UInt8, key.length = 8 → DesRoundTrip key s := by
  intro h
  obtain ⟨text, hencode, hdecode⟩ :=
    h (List.replicate 8 0) (List.replicate (2 ^ 31 - 8) 0) List.length_replicate
  have hlen := length_of_desencode hencode
  rw [List.length_replicate] at hlen
  rw [desdecode_overflow List.length_replicate (by omega) (by omega)] at hdecode
  cases hdecode

/-- The padding is taken off the decrypted blocks, or an error is raised: if there is no padding, or
if the key has not eight bytes. -/
def DecodesDes (key text : List UInt8) : Prop :=
  if key.length = 8 then
    Unpadded (cryptBlocks (reverseKeys (desMainKs key)) text) (desdecode key text)
  else ∃ message, desdecode key text = .error (.raised message)

/-- **What is decrypted.** Whole blocks are decoded or refused as they should be if and only if the
key is refused, or they have fewer than `2 ^ 31` bytes and are not the encryption of a block of
zeros. -/
theorem decodesDes_iff (key text : List UInt8) (hblocks : text.length % 8 = 0)
    (hpos : 0 < text.length) :
    DecodesDes key text ↔ key.length ≠ 8 ∨
      (text.length < 2 ^ 31 ∧ text ≠ desCrypt (desMainKs key) (List.replicate 8 0)) := by
  by_cases hkey : key.length ≠ 8
  · have hraised : ∃ message, desdecode key text = .error (.raised message) := by
      rw [desdecode, desKey, if_pos hkey]
      exact ⟨_, rfl⟩
    rw [DecodesDes, if_neg hkey]
    exact ⟨fun _ ↦ .inl hkey, fun _ ↦ hraised⟩
  rw [or_iff_right hkey, DecodesDes, if_pos (not_not.mp hkey)]
  replace hkey : key.length = 8 := not_not.mp hkey
  -- only one block decrypts to zeros alone, and stripping them steps before the buffer
  have hzeros : cryptBlocks (reverseKeys (desMainKs key)) text = List.replicate 8 0 ↔
      text = desCrypt (desMainKs key) (List.replicate 8 0) := by
    have hblock : ∀ sk, ∀ block : List UInt8, block.length = 8 →
        cryptBlocks sk block = desCrypt sk block := by
      intro sk block hlen
      have := cryptBlocks_block sk hlen []
      rwa [List.append_nil, cryptBlocks_nil, List.append_nil] at this
    constructor
    · intro h
      have hlen : text.length = 8 := by
        rw [← @length_cryptBlocks (reverseKeys (desMainKs key)) text hblocks, h,
          List.length_replicate]
      rw [hblock _ text hlen] at h
      rw [← h, encrypt_decrypt hlen]
    · rintro rfl
      rw [hblock _ _ (length_desCrypt _ _), decrypt_encrypt List.length_replicate]
  constructor
  · intro hunpadded
    constructor
    · by_contra hlong
      rw [desdecode_overflow hkey hblocks (by omega)] at hunpadded
      cases hunpadded
    · intro heq
      have hlen : text.length = 8 := by rw [heq, length_desCrypt]
      rw [desdecode_zeros hkey hlen (hzeros.mpr heq)] at hunpadded
      cases hunpadded
  · rintro ⟨hlt, hne⟩
    exact desdecode_unpadded hkey hblocks hpos hlt fun h ↦ hne (hzeros.mp h)

theorem decodesDes_iff_short :
    DecodesDes [1, 2, 3, 4, 5, 6, 7, 8] (List.replicate 8 7) ↔ [1, 2, 3, 4, 5, 6, 7,
      (8 : UInt8)].length ≠ 8 ∨
      ((List.replicate 8 (7 : UInt8)).length < 2 ^ 31 ∧
        List.replicate 8 7 ≠ desCrypt (desMainKs [1, 2, 3, 4, 5, 6, 7, 8]) (List.replicate 8 0)) :=
  decodesDes_iff [1, 2, 3, 4, 5, 6, 7, 8] (List.replicate 8 7) (by decide) (by decide)

/-- The encryption of a block of zeros makes the decoder read in front of its buffer. -/
theorem not_decodesDes :
    ¬∀ key text : List UInt8, text.length % 8 = 0 → 0 < text.length → DecodesDes key text := by
  intro h
  have hdecodes := h [1, 2, 3, 4, 5, 6, 7, 8]
    (desCrypt (desMainKs [1, 2, 3, 4, 5, 6, 7, 8]) (List.replicate 8 0)) rfl (by decide)
  have hout : desdecode [1, 2, 3, 4, 5, 6, 7, 8]
      (desCrypt (desMainKs [1, 2, 3, 4, 5, 6, 7, 8]) (List.replicate 8 0)) = .error .outside := by
    refine desdecode_zeros rfl rfl ?_
    have hblock := @cryptBlocks_block (reverseKeys (desMainKs [1, 2, 3, 4, 5, 6, 7, 8]))
      (desCrypt (desMainKs [1, 2, 3, 4, 5, 6, 7, 8]) (List.replicate 8 0)) rfl []
    rw [List.append_nil, cryptBlocks_nil, List.append_nil, decrypt_encrypt List.length_replicate]
      at hblock
    exact hblock
  rw [DecodesDes, if_pos (by decide), hout] at hdecodes
  cases hdecodes

end ZTask
