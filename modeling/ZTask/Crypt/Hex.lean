import Mathlib.Data.FinEnum
import ZTask.Crypt.Buffer

/-!
# The hex codec

`ltohex` and `lfromhex`. A byte becomes two digits, and two digits become a byte again. `HEX` takes
a character for a digit if the value it computes is at most 16, so `g` and the characters from `W`
to the backquote pass for digits too.

## The counters

Both loops count in an `int`. The encoder makes two digits of a byte and counts the digits, which
stays in range for at most `2 ^ 30` bytes (`hexencode_eq`). The decoder goes over pairs of
characters and comes to the end of a text shorter than `2 ^ 31` (`hexdecode_passes`). In a longer
text it either comes to a character that does not pass, and raises (`hexdecode_raised`), or the
counter leaves its range (`fromHexLoop_overflow`).

## Which characters pass

`PassesAsHex` is what the comparison with 16 lets through. More characters pass than are digits, so
a text of characters that pass is accepted even if some of them are no digits. `DecidesHex` leaves
these texts out, and those that are too long for the counter.
-/

namespace ZTask

open Lib

/-! ## Encoding -/

/-- The array `hex` of `ltohex`. -/
def hexDigits : List UInt8 := ascii "0123456789abcdef"

/-- The digit of a value below 16. -/
def nibbleDigit (v : UInt8) : UInt8 := hexDigits.getD v.toNat 0

/-- The loop of `ltohex`, from byte `i` on. -/
def toHexLoop (buffer : Block UInt8) (i : ℕ) : List UInt8 → Crypt (Block UInt8)
  | [] => .ok buffer
  | b :: text => do
    let j ← toCounter (i * 2)
    let buffer ← storeBytes buffer j [nibbleDigit (b >>> 4)]
    let j ← toCounter (i * 2 + 1)
    let buffer ← storeBytes buffer j [nibbleDigit (b &&& 0xf)]
    let i ← toCounter (i + 1)
    toHexLoop buffer i text

/-- `ltohex`. -/
def hexencode (text : List UInt8) : Crypt (List UInt8) := do
  let sz := text.length
  let buffer := if smallChunk / 2 < sz then .alloc (sz * 2) else .alloc smallChunk
  let buffer ← toHexLoop buffer 0 text
  pushBuffer buffer (sz * 2)

/-! ## Decoding -/

/-- `HEX`; the difference is converted to `uint8_t`. -/
def hexValue (c : UInt8) : UInt8 :=
  if 48 ≤ c ∧ c ≤ 57 then c - 48 else c - 97 + 10

/-- The loop of `lfromhex`, from character `i` on, with the counter in the end. The characters are
even in number. -/
def fromHexLoop (buffer : Block UInt8) (i : ℕ) : List UInt8 → Crypt (Block UInt8 × ℕ)
  | [] => .ok (buffer, i)
  | [_] => .error .outside
  | c :: c' :: text => do
    let hi := hexValue c
    let low := hexValue c'
    if 16 < hi ∨ 16 < low then .error (.raised "Invalid hex text")
    else
      let buffer ← storeBytes buffer (i / 2) [hi <<< 4 ||| low]
      let i ← toCounter (i + 2)
      fromHexLoop buffer i text

/-- `lfromhex`. -/
def hexdecode (text : List UInt8) : Crypt (List UInt8) := do
  let sz := text.length
  if sz % 2 = 1 then .error (.raised s!"Invalid hex text size {toInt32 sz}")
  else
    let buffer := if smallChunk * 2 < sz then .alloc (sz / 2) else .alloc smallChunk
    let (buffer, i) ← fromHexLoop buffer 0 text
    pushBuffer buffer (i / 2)

/-! ## Bytes and digits -/

/-- The digits from `0` to `9` and from `a` to `f`. -/
def IsHexDigit (c : UInt8) : Prop := (48 ≤ c ∧ c ≤ 57) ∨ (97 ≤ c ∧ c ≤ 102)

/-- The characters that `HEX` lets pass. -/
def PassesAsHex (c : UInt8) : Prop := (48 ≤ c ∧ c ≤ 57) ∨ (87 ≤ c ∧ c ≤ 103)

instance decidableIsHexDigit (c : UInt8) : Decidable (IsHexDigit c) :=
  inferInstanceAs (Decidable (_ ∨ _))

instance decidablePassesAsHex (c : UInt8) : Decidable (PassesAsHex c) :=
  inferInstanceAs (Decidable (_ ∨ _))

/-- The text of a string. -/
def hexOf (s : List UInt8) : List UInt8 :=
  s.flatMap fun b : UInt8 ↦ [nibbleDigit (b >>> 4), nibbleDigit (b &&& 0xf)]

/-- The byte of two characters. -/
def hexByte (c c' : UInt8) : UInt8 := hexValue c <<< 4 ||| hexValue c'

/-- The bytes of a text. -/
def hexBytes : List UInt8 → List UInt8
  | c :: c' :: text => hexByte c c' :: hexBytes text
  | _ => []

theorem IsHexDigit.passes {c : UInt8} : IsHexDigit c → PassesAsHex c :=
  forall_byte (P := fun c ↦ IsHexDigit c → PassesAsHex c) (by decide +kernel) c

private theorem hexValue_gt_iff (c : UInt8) : 16 < hexValue c ↔ ¬PassesAsHex c :=
  forall_byte (P := fun c ↦ 16 < hexValue c ↔ ¬PassesAsHex c) (by decide +kernel) c

private theorem hexValue_nibbleDigit {v : UInt8} : v < 16 → IsHexDigit (nibbleDigit v) ∧
    hexValue (nibbleDigit v) = v :=
  forall_byte (P := fun v ↦ v < 16 → IsHexDigit (nibbleDigit v) ∧ hexValue (nibbleDigit v) = v)
    (by decide +kernel) v

private theorem nibbleDigit_hexValue {c : UInt8} :
    IsHexDigit c → hexValue c < 16 ∧ nibbleDigit (hexValue c) = c :=
  forall_byte (P := fun c ↦ IsHexDigit c → hexValue c < 16 ∧ nibbleDigit (hexValue c) = c)
    (by decide +kernel) c

private theorem halves_eq (b : UInt8) :
    b >>> 4 < 16 ∧ b &&& 0xf < 16 ∧ (b >>> 4) <<< 4 ||| (b &&& 0xf) = b :=
  forall_byte (P := fun b ↦ b >>> 4 < 16 ∧ b &&& 0xf < 16 ∧ (b >>> 4) <<< 4 ||| (b &&& 0xf) = b)
    (by decide +kernel) b

private theorem byte_halves {hi low : UInt8} (hhi : hi < 16) (hlow : low < 16) :
    (hi <<< 4 ||| low) >>> 4 = hi ∧ (hi <<< 4 ||| low) &&& 0xf = low := by
  have hall : ∀ m < 16, ∀ n < 16,
      (UInt8.ofNat m <<< 4 ||| UInt8.ofNat n) >>> 4 = UInt8.ofNat m ∧
        (UInt8.ofNat m <<< 4 ||| UInt8.ofNat n) &&& 0xf = UInt8.ofNat n := by
    decide +kernel
  have h := hall hi.toNat (UInt8.lt_iff_toNat_lt.mp hhi) low.toNat (UInt8.lt_iff_toNat_lt.mp hlow)
  rwa [UInt8.ofNat_toNat, UInt8.ofNat_toNat] at h

private theorem hexOf_cons (b : UInt8) (s : List UInt8) :
    hexOf (b :: s) = nibbleDigit (b >>> 4) :: nibbleDigit (b &&& 0xf) :: hexOf s := rfl

private theorem length_hexOf (s : List UInt8) : (hexOf s).length = s.length * 2 := by
  induction s with
  | nil => rfl
  | cons b s ih =>
    rw [hexOf_cons, List.length_cons, List.length_cons, ih, List.length_cons]
    omega

private theorem isHexDigit_of_mem_hexOf {s : List UInt8} {c : UInt8} (hc : c ∈ hexOf s) :
    IsHexDigit c := by
  rw [hexOf, List.mem_flatMap] at hc
  obtain ⟨b, -, hc⟩ := hc
  obtain ⟨hhi, hlow, -⟩ := halves_eq b
  rcases List.mem_pair.mp hc with rfl | rfl
  · exact (hexValue_nibbleDigit hhi).1
  · exact (hexValue_nibbleDigit hlow).1

private theorem hexBytes_hexOf (s : List UInt8) : hexBytes (hexOf s) = s := by
  induction s with
  | nil => rfl
  | cons b s ih =>
    obtain ⟨hhi, hlow, hb⟩ := halves_eq b
    rw [hexOf_cons, hexBytes, ih, hexByte, (hexValue_nibbleDigit hhi).2,
      (hexValue_nibbleDigit hlow).2, hb]

private theorem length_hexBytes (text : List UInt8) : (hexBytes text).length = text.length / 2 := by
  fun_induction hexBytes text with
  | case1 c c' text ih =>
    rw [List.length_cons, ih, List.length_cons, List.length_cons]
    omega
  | case2 text hshort =>
    rcases text with _ | ⟨c, _ | ⟨c', text⟩⟩
    · rfl
    · simp
    · exact absurd rfl (hshort c c' text)

/-- Two digits are given back by their byte. -/
theorem hexOf_hexBytes {text : List UInt8} (heven : text.length % 2 = 0)
    (h : ∀ c ∈ text, IsHexDigit c) : hexOf (hexBytes text) = text := by
  fun_induction hexBytes text with
  | case1 c c' text ih =>
    rw [List.forall_mem_cons, List.forall_mem_cons] at h
    obtain ⟨hlt, hc⟩ := nibbleDigit_hexValue h.1
    obtain ⟨hlt', hc'⟩ := nibbleDigit_hexValue h.2.1
    obtain ⟨hhi, hlow⟩ := byte_halves hlt hlt'
    rw [List.length_cons, List.length_cons] at heven
    rw [hexOf_cons, ih (by omega) h.2.2, hexByte, hhi, hlow, hc, hc']
  | case2 text hshort =>
    rcases text with _ | ⟨c, _ | ⟨c', text⟩⟩
    · rfl
    · cases heven
    · exact absurd rfl (hshort c c' text)

/-! ## The loops -/

private theorem toHexLoop_eq (s : List UInt8) {buffer : Block UInt8} {front : List UInt8} {i : ℕ}
    (h : buffer.At 0 front) (hlen : front.length = i * 2)
    (hfits : front.length + s.length * 2 ≤ buffer.length) (hlt : i + s.length ≤ 2 ^ 30) :
    ∃ buffer', toHexLoop buffer i s = .ok buffer' ∧ buffer'.At 0 (front ++ hexOf s) := by
  induction s generalizing buffer front i with
  | nil => exact ⟨buffer, rfl, by rwa [hexOf, List.flatMap_nil, List.append_nil]⟩
  | cons b s ih =>
    rw [List.length_cons] at hfits hlt
    obtain ⟨buffer₁, hstore₁, h₁, hlen₁⟩ := storeBytes_front [nibbleDigit (b >>> 4)] h
      (by rw [List.length_singleton]; omega)
    have hfront₁ : (front ++ [nibbleDigit (b >>> 4)]).length = i * 2 + 1 := by
      rw [List.length_append, hlen, List.length_singleton]
    obtain ⟨buffer₂, hstore₂, h₂, hlen₂⟩ := storeBytes_front [nibbleDigit (b &&& 0xf)] h₁
      (by rw [List.length_singleton]; omega)
    have hfront₂ : (front ++ [nibbleDigit (b >>> 4)] ++ [nibbleDigit (b &&& 0xf)]).length =
        (i + 1) * 2 := by
      rw [List.length_append, hfront₁, List.length_singleton]
      omega
    rw [hlen] at hstore₁
    rw [hfront₁] at hstore₂
    obtain ⟨buffer', hloop, h'⟩ := ih h₂ hfront₂ (by omega) (by omega)
    refine ⟨buffer', ?_, ?_⟩
    · rw [toHexLoop, toCounter_of_lt (by omega), ok_bind, hstore₁, ok_bind,
        toCounter_of_lt (by omega), ok_bind, hstore₂, ok_bind, toCounter_of_lt (by omega), ok_bind,
        hloop]
    · rw [List.append_assoc, List.append_assoc] at h'
      exact h'

/-- One pair that passes. -/
theorem fromHexLoop_pair {buffer : Block UInt8} {front : List UInt8} {c c' : UInt8}
    (text : List UInt8) (h : buffer.At 0 front) (hfits : front.length < buffer.length)
    (hc : PassesAsHex c) (hc' : PassesAsHex c') :
    ∃ buffer', buffer'.At 0 (front ++ [hexByte c c']) ∧ buffer'.length = buffer.length ∧
      fromHexLoop buffer (front.length * 2) (c :: c' :: text) =
        (toCounter (front.length * 2 + 2) >>= fun i ↦ fromHexLoop buffer' i text) := by
  obtain ⟨buffer', hstore, h', hlen'⟩ := storeBytes_front [hexByte c c'] h hfits
  refine ⟨buffer', h', hlen', ?_⟩
  have hpass : ¬(16 < hexValue c ∨ 16 < hexValue c') := by
    rw [hexValue_gt_iff, hexValue_gt_iff]
    exact fun hno ↦ hno.elim (fun h ↦ h hc) fun h ↦ h hc'
  have hhalf : front.length * 2 / 2 = front.length := by omega
  rw [fromHexLoop, if_neg hpass, hhalf, ← hexByte, hstore, ok_bind]

theorem fromHexLoop_refused {buffer : Block UInt8} {i : ℕ} {c c' : UInt8} (text : List UInt8)
    (hno : ¬(PassesAsHex c ∧ PassesAsHex c')) :
    fromHexLoop buffer i (c :: c' :: text) = .error (.raised "Invalid hex text") := by
  rw [fromHexLoop, if_pos]
  rw [hexValue_gt_iff, hexValue_gt_iff]
  exact not_and_or.mp hno

variable {buffer : Block UInt8} {front text : List UInt8}

/-- Characters that pass become bytes. -/
theorem fromHexLoop_passes (h : buffer.At 0 front) (heven : text.length % 2 = 0)
    (hfits : front.length + text.length / 2 ≤ buffer.length)
    (hlt : front.length * 2 + text.length < 2 ^ 31) (hpass : ∀ c ∈ text, PassesAsHex c) :
    ∃ buffer', buffer'.At 0 (front ++ hexBytes text) ∧ fromHexLoop buffer (front.length * 2) text =
      .ok (buffer', (front ++ hexBytes text).length * 2) := by
  fun_induction hexBytes text generalizing buffer front with
  | case1 c c' text ih =>
    rw [List.forall_mem_cons, List.forall_mem_cons] at hpass
    rw [List.length_cons, List.length_cons] at heven hfits hlt
    obtain ⟨buffer₁, h₁, hlen₁, hstep⟩ :=
      fromHexLoop_pair text h (by omega) hpass.1 hpass.2.1
    have hfront : (front ++ [hexByte c c']).length = front.length + 1 := List.length_append
    obtain ⟨buffer', h', hloop⟩ := ih h₁ (by omega) (by omega) (by omega) hpass.2.2
    rw [List.append_assoc, List.singleton_append] at h' hloop
    refine ⟨buffer', h', ?_⟩
    rw [hstep, toCounter_of_lt (by omega), ok_bind, ← hloop, hfront, Nat.add_mul]
  | case2 text hshort =>
    rcases text with _ | ⟨c, _ | ⟨c', text⟩⟩
    · rw [List.append_nil]
      exact ⟨buffer, h, rfl⟩
    · cases heven
    · exact absurd rfl (hshort c c' text)

/-- A character that does not is noticed, if the counter gets to it. -/
theorem fromHexLoop_raised (h : buffer.At 0 front) (heven : text.length % 2 = 0)
    (hfits : front.length + text.length / 2 ≤ buffer.length)
    (hno : ∃ c ∈ text.take (2 ^ 31 - front.length * 2), ¬PassesAsHex c) :
    fromHexLoop buffer (front.length * 2) text = .error (.raised "Invalid hex text") := by
  fun_induction hexBytes text generalizing buffer front with
  | case1 c c' text ih =>
    by_cases hpair : PassesAsHex c ∧ PassesAsHex c'
    · rw [List.length_cons, List.length_cons] at heven hfits
      obtain ⟨d, hd, hno⟩ := hno
      -- The counter gets past this pair, because the character stands behind it.
      obtain ⟨m, hm⟩ : ∃ m, 2 ^ 31 - front.length * 2 = m + 2 + 1 := by
        refine ⟨2 ^ 31 - front.length * 2 - 3, ?_⟩
        by_contra hcount
        have hm : 2 ^ 31 - front.length * 2 = 0 ∨ 2 ^ 31 - front.length * 2 = 2 := by omega
        rcases hm with hm | hm
        · rw [hm, List.take_zero] at hd
          cases hd
        · rw [hm] at hd
          rcases List.mem_pair.mp hd with rfl | rfl
          · exact hno hpair.1
          · exact hno hpair.2
      rw [hm, List.take_succ_cons, List.take_succ_cons, List.mem_cons, List.mem_cons] at hd
      obtain ⟨buffer₁, h₁, hlen₁, hstep⟩ := fromHexLoop_pair text h (by omega) hpair.1 hpair.2
      have hfront : (front ++ [hexByte c c']).length = front.length + 1 := List.length_append
      have hbehind : ∃ d ∈ text.take (2 ^ 31 - (front ++ [hexByte c c']).length * 2),
          ¬PassesAsHex d := by
        have hcount : 2 ^ 31 - (front ++ [hexByte c c']).length * 2 = m + 1 := by omega
        rcases hd with rfl | rfl | hd
        · exact absurd hpair.1 hno
        · exact absurd hpair.2 hno
        · exact ⟨d, by rwa [hcount], hno⟩
      have hloop := ih h₁ (by omega) (by omega) hbehind
      rw [hstep, toCounter_of_lt (by omega), ok_bind, ← hloop, hfront, Nat.add_mul]
    · exact fromHexLoop_refused text hpair
  | case2 text hshort =>
    rcases text with _ | ⟨c, _ | ⟨c', text⟩⟩
    · obtain ⟨c, hc, -⟩ := hno
      rw [List.take_nil] at hc
      cases hc
    · cases heven
    · exact absurd rfl (hshort c c' text)

/-- The counter leaves its range on a long text. -/
theorem fromHexLoop_overflow (h : buffer.At 0 front) (heven : text.length % 2 = 0)
    (hfits : front.length + text.length / 2 ≤ buffer.length) (hfront : front.length * 2 < 2 ^ 31)
    (hlong : 2 ^ 31 ≤ front.length * 2 + text.length)
    (hpass : ∀ c ∈ text.take (2 ^ 31 - front.length * 2), PassesAsHex c) :
    fromHexLoop buffer (front.length * 2) text = .error .overflow := by
  fun_induction hexBytes text generalizing buffer front with
  | case1 c c' text ih =>
    obtain ⟨m, hm⟩ : ∃ m, 2 ^ 31 - front.length * 2 = m + 1 + 1 :=
      ⟨2 ^ 31 - front.length * 2 - 2, by omega⟩
    rw [hm, List.take_succ_cons, List.take_succ_cons, List.forall_mem_cons,
      List.forall_mem_cons] at hpass
    rw [List.length_cons, List.length_cons] at heven hfits hlong
    obtain ⟨buffer₁, h₁, hlen₁, hstep⟩ := fromHexLoop_pair text h (by omega) hpass.1 hpass.2.1
    have hfront₁ : (front ++ [hexByte c c']).length = front.length + 1 := List.length_append
    rw [hstep]
    by_cases hend : m = 0
    · rw [toCounter_of_ge (by omega), error_bind]
    · have hcount : 2 ^ 31 - (front ++ [hexByte c c']).length * 2 = m := by omega
      have hloop := ih h₁ (by omega) (by omega) (by omega) (by omega)
        (by rw [hcount]; exact hpass.2.2)
      rw [toCounter_of_lt (by omega), ok_bind, ← hloop, hfront₁, Nat.add_mul]
  | case2 text hshort =>
    rcases text with _ | ⟨c, _ | ⟨c', text⟩⟩
    · rw [List.length_nil] at hlong
      omega
    · cases heven
    · exact absurd rfl (hshort c c' text)

/-! ## The two functions -/

/-- **A string becomes its digits,** if it has at most `2 ^ 30` bytes. -/
theorem hexencode_eq {s : List UInt8} (hlt : s.length ≤ 2 ^ 30) :
    hexencode s = .ok (hexOf s) := by
  rw [hexencode]
  generalize hbuffer : (if smallChunk / 2 < s.length then
    Block.alloc (s.length * 2) else Block.alloc smallChunk : Block UInt8) = buffer
  have hfits : s.length * 2 ≤ buffer.length := by
    rw [← hbuffer]
    by_cases hlarge : smallChunk / 2 < s.length
    · rw [if_pos hlarge]
      exact Nat.le_of_eq (Block.length_alloc _).symm
    · rw [if_neg hlarge, Block.length_alloc]
      omega
  obtain ⟨buffer', hloop, h'⟩ := toHexLoop_eq s (i := 0) (Block.at_nil buffer 0) rfl
    (by rw [List.length_nil]; omega) (by omega)
  rw [hloop, ok_bind, ← length_hexOf, List.nil_append] at *
  exact pushBuffer_front h'

private theorem hexdecode_eq {text : List UInt8} (heven : text.length % 2 = 0) :
    ∃ buffer : Block UInt8, text.length / 2 ≤ buffer.length ∧
      hexdecode text = (fromHexLoop buffer 0 text >>= fun p ↦ pushBuffer p.1 (p.2 / 2)) := by
  refine ⟨if smallChunk * 2 < text.length then .alloc (text.length / 2) else .alloc smallChunk, ?_,
    ?_⟩
  · split
    next => exact Nat.le_of_eq (Block.length_alloc _).symm
    next hsmall =>
      rw [Block.length_alloc]
      omega
  · rw [hexdecode, if_neg (by omega)]

/-- **A text whose characters pass is decoded,** if it is shorter than `2 ^ 31`. -/
theorem hexdecode_passes {text : List UInt8} (heven : text.length % 2 = 0)
    (hlt : text.length < 2 ^ 31) (hpass : ∀ c ∈ text, PassesAsHex c) :
    hexdecode text = .ok (hexBytes text) := by
  obtain ⟨buffer, hfits, heq⟩ := hexdecode_eq heven
  obtain ⟨buffer', h', hloop⟩ := fromHexLoop_passes (Block.at_nil buffer 0) heven
    (by rw [List.length_nil]; omega) (by rw [List.length_nil]; omega) hpass
  rw [List.length_nil, Nat.zero_mul, List.nil_append] at hloop
  rw [heq, hloop, ok_bind, Nat.mul_div_cancel _ (by decide)]
  exact pushBuffer_front h'

/-- **Another text is refused,** if the counter gets to the character. -/
theorem hexdecode_raised {text : List UInt8} (heven : text.length % 2 = 0)
    (hno : ∃ c ∈ text.take (2 ^ 31), ¬PassesAsHex c) :
    hexdecode text = .error (.raised "Invalid hex text") := by
  obtain ⟨buffer, hfits, heq⟩ := hexdecode_eq heven
  have hloop := fromHexLoop_raised (Block.at_nil buffer 0) heven
    (by rw [List.length_nil]; omega) hno
  rw [List.length_nil, Nat.zero_mul] at hloop
  rw [heq, hloop, error_bind]

private theorem hexdecode_overflow {text : List UInt8} (heven : text.length % 2 = 0)
    (hlong : 2 ^ 31 ≤ text.length) (hpass : ∀ c ∈ text.take (2 ^ 31), PassesAsHex c) :
    hexdecode text = .error .overflow := by
  obtain ⟨buffer, hfits, heq⟩ := hexdecode_eq heven
  have hloop := fromHexLoop_overflow (Block.at_nil buffer 0) heven
    (by rw [List.length_nil]; omega) (by decide) (by rw [List.length_nil]; omega) hpass
  rw [List.length_nil, Nat.zero_mul] at hloop
  rw [heq, hloop, error_bind]

/-- What is decoded was a short text of characters that pass. -/
theorem of_hexdecode {text s : List UInt8} (h : hexdecode text = .ok s) :
    text.length % 2 = 0 ∧ text.length < 2 ^ 31 ∧ (∀ c ∈ text, PassesAsHex c) ∧
      s = hexBytes text := by
  have heven : text.length % 2 = 0 := by
    by_contra hodd
    rw [hexdecode, if_pos (by omega)] at h
    cases h
  have hpass : ∀ c ∈ text.take (2 ^ 31), PassesAsHex c := by
    intro c hc
    by_contra hno
    rw [hexdecode_raised heven ⟨c, hc, hno⟩] at h
    cases h
  have hlt : text.length < 2 ^ 31 := by
    by_contra hlong
    rw [hexdecode_overflow heven (by omega) hpass] at h
    cases h
  rw [List.take_of_length_le (by omega)] at hpass
  rw [hexdecode_passes heven hlt hpass] at h
  cases h
  exact ⟨heven, hlt, hpass, rfl⟩

/-! ## What the codec is for -/

/-- The string is encoded, and its text is decoded to it. -/
def ComesBack (s : List UInt8) : Prop :=
  ∃ text, hexencode s = .ok text ∧ hexdecode text = .ok s

/-- Texts of hexadecimal digits, and no others, are accepted, and their strings are encoded to them.
-/
def DecodesHex (text : List UInt8) : Prop :=
  if text.length % 2 = 0 ∧ ∀ c ∈ text, IsHexDigit c then
    ∃ s, hexdecode text = .ok s ∧ hexencode s = .ok text
  else ∃ message, hexdecode text = .error (.raised message)

/-- A text of odd length, a text with a character early enough that `HEX` does not let pass, or a
text of digits that the counter can run through. -/
def DecidesHex (text : List UInt8) : Prop :=
  text.length % 2 = 1 ∨ (∃ c ∈ text.take (2 ^ 31), ¬PassesAsHex c) ∨
    (text.length < 2 ^ 31 ∧ ∀ c ∈ text, IsHexDigit c)

private theorem comesBack_iff (s : List UInt8) : ComesBack s ↔ s.length < 2 ^ 30 := by
  constructor
  · rintro ⟨text, -, hdecode⟩
    obtain ⟨heven, hlt, -, hs⟩ := of_hexdecode hdecode
    rw [hs, length_hexBytes]
    omega
  · intro hlt
    have hlen := length_hexOf s
    refine ⟨hexOf s, hexencode_eq (Nat.le_of_lt hlt), ?_⟩
    rw [hexdecode_passes (by omega) (by omega) fun c hc ↦ (isHexDigit_of_mem_hexOf hc).passes,
      hexBytes_hexOf]

private theorem decodesHex_iff (text : List UInt8) : DecodesHex text ↔ DecidesHex text := by
  rw [DecodesHex]
  split
  next hdigits =>
    constructor
    · rintro ⟨s, hdecode, -⟩
      exact .inr (.inr ⟨(of_hexdecode hdecode).2.1, hdigits.2⟩)
    · rintro (hodd | ⟨c, hc, hno⟩ | ⟨hlt, -⟩)
      · omega
      · exact absurd (hdigits.2 c (List.mem_of_mem_take hc)).passes hno
      · refine ⟨hexBytes text,
          hexdecode_passes hdigits.1 hlt fun c hc ↦ (hdigits.2 c hc).passes, ?_⟩
        rw [hexencode_eq (by rw [length_hexBytes]; omega), hexOf_hexBytes hdigits.1 hdigits.2]
  next hdigits =>
    constructor
    · rintro ⟨message, hraised⟩
      by_contra hno
      rw [DecidesHex, not_or, not_or] at hno
      obtain ⟨heven, hpass, hlong⟩ := hno
      replace heven : text.length % 2 = 0 := by omega
      replace hpass : ∀ c ∈ text.take (2 ^ 31), PassesAsHex c := fun c hc ↦
        not_not.mp fun h ↦ hpass ⟨c, hc, h⟩
      by_cases hlt : text.length < 2 ^ 31
      · rw [List.take_of_length_le (Nat.le_of_lt hlt)] at hpass
        rw [hexdecode_passes heven hlt hpass] at hraised
        cases hraised
      · rw [hexdecode_overflow heven (by omega) hpass] at hraised
        cases hraised
    · rintro (hodd | hno | ⟨-, hall⟩)
      · exact ⟨_, by rw [hexdecode, if_pos hodd]⟩
      · by_cases hodd : text.length % 2 = 1
        · exact ⟨_, by rw [hexdecode, if_pos hodd]⟩
        · exact ⟨_, hexdecode_raised (by omega) hno⟩
      · exact ⟨_, by rw [hexdecode, if_pos]; exact Nat.mod_two_ne_zero.mp fun h ↦ hdigits ⟨h, hall⟩⟩

/-- **The hex codec.** A string comes back if and only if it is shorter than `2 ^ 30` bytes, and a
text is accepted or refused as it should be if and only if it has odd length, has a character among
the first `2 ^ 31` that `HEX` does not let pass, or is a text of digits shorter than `2 ^ 31`. -/
theorem hexCodec_iff (s text : List UInt8) :
    (ComesBack s ↔ s.length < 2 ^ 30) ∧ (DecodesHex text ↔ DecidesHex text) :=
  ⟨comesBack_iff s, decodesHex_iff text⟩

/-- `g0` is accepted as the byte `0`. -/
theorem not_hexCodec : ¬((∀ s, ComesBack s) ∧ ∀ text, DecodesHex text) := by
  rintro ⟨-, h⟩
  have hg := h (ascii "g0")
  have hno : ¬((ascii "g0").length % 2 = 0 ∧ ∀ c ∈ ascii "g0", IsHexDigit c) := by decide +kernel
  rw [DecodesHex, if_neg hno] at hg
  obtain ⟨message, hraised⟩ := hg
  have hdecode : hexdecode (ascii "g0") = .ok [0] := by decide +kernel
  rw [hdecode] at hraised
  cases hraised

end ZTask
