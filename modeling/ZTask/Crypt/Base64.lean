import ZTask.Crypt.Buffer

/-!
# The base64 codec

`lb64encode` and `lb64decode`. Three bytes become four symbols; the last group is filled up with
`=`. The decoder gathers four symbols at a time and skips what is no symbol, so a text may have
other characters anywhere before its last symbol.

## The encoder

`b64encodeLoop` goes on in steps of three bytes and leaves two bytes at most, which the `switch`
behind it fills up. Its counters stay in the range of an `int`, and its buffer has the room, for
strings shorter than `2 ^ 30` bytes (`b64encode_eq`).

## The decoder

`Decoding` is the invariant of the outer loop: the counters are in range, and the buffer has room
for the groups that are still to come, as a group takes up at least four characters of the text
(`Decoding.round`). The inner loop gathers the next four symbols, whatever stands between them
(`b64gather_group`). For the text of a string the loop gives back the string, with other characters
put in or without (`Decoding.inserted`). For any other text it ends with a string or with its error
(`Decoding.cases`), and writes nothing outside of the buffer.
-/

namespace ZTask

open Lib

/-! ## Encoding -/

/-- The string `encoding` of `lb64encode`. -/
def b64symbols : List UInt8 :=
  ascii "ABCDEFGHIJKLMNOPQRSTUVWXYZabcdefghijklmnopqrstuvwxyz0123456789+/"

/-- The symbol of a value below 64. -/
def b64symbol (v : ℕ) : UInt8 := b64symbols.getD v 0

/-- `=`. -/
def b64pad : UInt8 := 61

/-- The symbols of three bytes. -/
def encodeThree (b₀ b₁ b₂ : UInt8) : List UInt8 :=
  let v := b₀.toNat <<< 16 ||| b₁.toNat <<< 8 ||| b₂.toNat
  [b64symbol (v >>> 18), b64symbol ((v >>> 12) &&& 0x3f), b64symbol ((v >>> 6) &&& 0x3f),
    b64symbol (v &&& 0x3f)]

/-- The symbols of two bytes at the end. -/
def encodeTwo (b₀ b₁ : UInt8) : List UInt8 :=
  let v := b₀.toNat <<< 8 ||| b₁.toNat
  [b64symbol (v >>> 10), b64symbol ((v >>> 4) &&& 0x3f), b64symbol ((v &&& 0xf) <<< 2), b64pad]

/-- The symbols of one byte at the end. -/
def encodeOne (b₀ : UInt8) : List UInt8 :=
  let v := b₀.toNat
  [b64symbol (v >>> 2), b64symbol ((v &&& 3) <<< 4), b64pad, b64pad]

/-- The loop of `lb64encode`, which goes on as long as `i` is below `stop`, with the counters and
what is left of the text in the end. -/
def b64encodeLoop (stop : ℤ) (buffer : Block UInt8) (i j : ℕ) :
    List UInt8 → Crypt (Block UInt8 × ℕ × ℕ × List UInt8)
  | b₀ :: b₁ :: b₂ :: text => do
    if i < stop then
      let buffer ← storeBytes buffer j (encodeThree b₀ b₁ b₂)
      let j ← toCounter (j + 4)
      let i ← toCounter (i + 3)
      b64encodeLoop stop buffer i j text
    else .ok (buffer, i, j, b₀ :: b₁ :: b₂ :: text)
  | text => .ok (buffer, i, j, text)

/-- The `switch` behind the loop. -/
def b64encodeTail (padding : ℤ) (buffer : Block UInt8) (j : ℕ) : List UInt8 → Crypt (Block UInt8)
  | b₀ :: b₁ :: _ =>
    if padding = 1 then storeBytes buffer j (encodeOne b₀)
    else if padding = 2 then storeBytes buffer j (encodeTwo b₀ b₁)
    else .ok buffer
  | b₀ :: _ => if padding = 1 then storeBytes buffer j (encodeOne b₀) else .ok buffer
  | [] => .ok buffer

/-- `lb64encode`. A negative size becomes a `size_t` that no string can have. -/
def b64encode (text : List UInt8) : Crypt (List UInt8) := do
  let sz := text.length
  let encodeSz := toInt32 ((sz + 2) / 3 * 4 : ℕ)
  let buffer := newBuffer encodeSz
  if toInt32 sz - 2 < -2 ^ 31 then .error .overflow
  else
    let (buffer, i, j, rest) ← b64encodeLoop (toInt32 sz - 2) buffer 0 0 text
    let buffer ← b64encodeTail (toInt32 (sz - i)) buffer j rest
    if encodeSz < 0 then .error (.raised "memory allocation error: block too big")
    else pushBuffer buffer encodeSz.toNat

/-! ## Decoding -/

/-- The array `decoding` of `b64index`. -/
def b64decoding : List ℤ :=
  [62, -1, -1, -1, 63, 52, 53, 54, 55, 56, 57, 58, 59, 60, 61, -1, -1, -1, -2, -1, -1, -1,
    0, 1, 2, 3, 4, 5, 6, 7, 8, 9, 10, 11, 12, 13, 14, 15, 16, 17, 18, 19, 20, 21, 22, 23, 24, 25,
    -1, -1, -1, -1, -1, -1,
    26, 27, 28, 29, 30, 31, 32, 33, 34, 35, 36, 37, 38, 39, 40, 41, 42, 43, 44, 45, 46, 47, 48, 49,
    50, 51]

/-- `b64index`: -1 for what is no symbol, and -2 for `=`. -/
def b64index (c : UInt8) : ℤ :=
  if c < 43 then -1
  else if b64decoding.length ≤ (c - 43).toNat then -1
  else b64decoding.getD (c - 43).toNat (-1)

/-- The inner loop of `lb64decode`, which gathers `c` from character `i` on. -/
def b64gather (i padding : ℕ) (c : List ℤ) : List UInt8 → Crypt (ℕ × ℕ × List ℤ × List UInt8)
  | [] => if c.length < 4 then .error (.raised "Invalid base64 text") else .ok (i, padding, c, [])
  | x :: text =>
    if c.length < 4 then
      if b64index x = -1 then do
        let i ← toCounter (i + 1)
        b64gather i padding c text
      else do
        let i ← toCounter (i + 1)
        b64gather i (if b64index x = -2 then padding + 1 else padding) (c ++ [b64index x]) text
    else .ok (i, padding, c, x :: text)

/-- The `switch` of `lb64decode`: what is put into the buffer. -/
def b64group (padding : ℕ) : List ℤ → Crypt (List UInt8)
  | [c₀, c₁, c₂, c₃] =>
    if padding = 0 then
      let v := c₀.toNat <<< 18 ||| c₁.toNat <<< 12 ||| c₂.toNat <<< 6 ||| c₃.toNat
      .ok [.ofNat (v >>> 16), .ofNat ((v >>> 8) &&& 0xff), .ofNat (v &&& 0xff)]
    else if padding = 1 then
      if c₃ ≠ -2 ∨ c₂ % 4 ≠ 0 then .error (.raised "Invalid base64 text")
      else
        let v := c₀.toNat <<< 10 ||| c₁.toNat <<< 4 ||| c₂.toNat >>> 2
        .ok [.ofNat (v >>> 8), .ofNat (v &&& 0xff)]
    else if padding = 2 then
      if c₃ ≠ -2 ∨ c₂ ≠ -2 ∨ c₁ % 16 ≠ 0 then .error (.raised "Invalid base64 text")
      else
        let v := c₀.toNat <<< 2 ||| c₁.toNat >>> 4
        .ok [.ofNat v]
    else .error (.raised "Invalid base64 text")
  | _ => .error .outside

/-- The outer loop of `lb64decode`. -/
def b64decodeLoop : ℕ → Block UInt8 → ℕ → ℕ → List UInt8 → Crypt (Block UInt8 × ℕ)
  | _, buffer, _, output, [] => .ok (buffer, output)
  | 0, _, _, _, _ :: _ => .error .unbounded
  | bound + 1, buffer, i, output, x :: text => do
    let (i, padding, c, text) ← b64gather i 0 [] (x :: text)
    let bytes ← b64group padding c
    let buffer ← storeBytes buffer output bytes
    let output ← toCounter (output + bytes.length)
    b64decodeLoop bound buffer i output text

/-- `lb64decode`. -/
def b64decode (text : List UInt8) : Crypt (List UInt8) := do
  let sz := text.length
  let decodeSz := toInt32 ((sz + 3) / 4 * 3 : ℕ)
  let buffer := newBuffer decodeSz
  let (buffer, output) ← b64decodeLoop sz buffer 0 0 text
  pushBuffer buffer output

/-! ## Symbols -/

/-- A base64 symbol, or `=`. -/
def IsBase64 (x : UInt8) : Prop := x ∈ b64symbols ∨ x = b64pad

instance decidableIsBase64 (x : UInt8) : Decidable (IsBase64 x) :=
  inferInstanceAs (Decidable (_ ∨ _))

/-- `text` is `code` with other characters put in before its last symbol. -/
def Inserted (code text : List UInt8) : Prop :=
  (text.filter fun x ↦ IsBase64 x) = code ∧ ∀ x ∈ text.getLast?, IsBase64 x

/-- The text of a string. -/
def b64text : List UInt8 → List UInt8
  | b₀ :: b₁ :: b₂ :: s => encodeThree b₀ b₁ b₂ ++ b64text s
  | [b₀, b₁] => encodeTwo b₀ b₁
  | [b₀] => encodeOne b₀
  | [] => []

/-- The symbols as numbers. -/
def b64numbers : List ℕ := List.range' 65 26 ++ List.range' 97 26 ++ List.range' 48 10 ++ [43, 47]

private theorem b64symbols_eq : b64symbols = b64numbers.map UInt8.ofNat := by decide +kernel

/-- Letters, digits, `+` and `/`. -/
theorem mem_b64symbols (x : UInt8) : x ∈ b64symbols ↔
    (65 ≤ x.toNat ∧ x.toNat < 91) ∨ (97 ≤ x.toNat ∧ x.toNat < 123) ∨
      (48 ≤ x.toNat ∧ x.toNat < 58) ∨ x.toNat = 43 ∨ x.toNat = 47 := by
  have hmem : ∀ n, n ∈ b64numbers ↔ (65 ≤ n ∧ n < 91) ∨ (97 ≤ n ∧ n < 123) ∨
      (48 ≤ n ∧ n < 58) ∨ n = 43 ∨ n = 47 := by
    intro n
    simp only [b64numbers, List.mem_append, List.mem_range'_1, List.mem_cons, List.not_mem_nil,
      or_false, or_assoc]
  rw [b64symbols_eq, List.mem_map, ← hmem]
  constructor
  · rintro ⟨n, hn, rfl⟩
    have hsmall : n < 256 := by
      have := (hmem n).mp hn
      omega
    rwa [UInt8.toNat_ofNat_of_lt' hsmall]
  · exact fun hx ↦ ⟨x.toNat, hx, UInt8.ofNat_toNat⟩

private theorem b64index_eq_neg_one_iff (x : UInt8) : b64index x = -1 ↔ ¬IsBase64 x := by
  rw [IsBase64, mem_b64symbols]
  revert x
  exact forall_byte (by decide +kernel)

theorem b64index_symbol : ∀ v < 64, b64index (b64symbol v) = v ∧ IsBase64 (b64symbol v) := by
  have hindex : ∀ v < 64, b64index (b64symbol v) = v := by
    rw [show b64symbol = fun v ↦ (b64numbers.map UInt8.ofNat).getD v 0 by
      funext v
      rw [b64symbol, b64symbols_eq]]
    decide +kernel
  intro v hv
  refine ⟨hindex v hv, not_not.mp fun hno ↦ ?_⟩
  have hneg := (b64index_eq_neg_one_iff _).mpr hno
  rw [hindex v hv] at hneg
  omega

private theorem b64index_pad : b64index b64pad = -2 := by decide +kernel

private theorem isBase64_pad : IsBase64 b64pad := .inr rfl

private theorem shiftLeft_or {a b k : ℕ} (h : b < 2 ^ k) : a <<< k ||| b = a * 2 ^ k + b := by
  rw [← Nat.shiftLeft_add_eq_or_of_lt h, Nat.shiftLeft_eq]

private theorem and_low (a : ℕ) {k m : ℕ} (h : m + 1 = 2 ^ k) : a &&& m = a % 2 ^ k := by
  have hmask : m = 2 ^ k - 1 := by omega
  rw [hmask, Nat.and_two_pow_sub_one_eq_mod]

private theorem mask_two : 3 + 1 = 2 ^ 2 := by decide

private theorem mask_four : 15 + 1 = 2 ^ 4 := by decide

private theorem mask_six : 63 + 1 = 2 ^ 6 := by decide

private theorem mask_eight : 255 + 1 = 2 ^ 8 := by decide

private theorem sixBits_three (v : ℕ) : (v / 2 ^ 18) <<< 18 ||| (v / 2 ^ 12 % 2 ^ 6) <<< 12 |||
    (v / 2 ^ 6 % 2 ^ 6) <<< 6 ||| v % 2 ^ 6 = v := by
  have h₁ : v / 2 ^ 12 = v / 2 ^ 6 / 2 ^ 6 := (Nat.div_div_eq_div_mul v (2 ^ 6) (2 ^ 6)).symm
  have h₂ : v / 2 ^ 18 = v / 2 ^ 12 / 2 ^ 6 := (Nat.div_div_eq_div_mul v (2 ^ 12) (2 ^ 6)).symm
  rw [Nat.or_assoc, Nat.or_assoc, shiftLeft_or (k := 6) (by omega),
    shiftLeft_or (k := 12) (by omega), shiftLeft_or (k := 18) (by omega)]
  omega

private theorem sixBits_two (v : ℕ) : (v / 2 ^ 10) <<< 10 ||| (v / 2 ^ 4 % 2 ^ 6) <<< 4 |||
    (v % 2 ^ 4 * 2 ^ 2) >>> 2 = v := by
  have h₁ : v / 2 ^ 10 = v / 2 ^ 4 / 2 ^ 6 := (Nat.div_div_eq_div_mul v (2 ^ 4) (2 ^ 6)).symm
  rw [Nat.or_assoc, Nat.shiftRight_eq_div_pow, shiftLeft_or (k := 4) (by omega),
    shiftLeft_or (k := 10) (by omega)]
  omega

/-- The four values of three bytes, and the bytes of these values. -/
theorem b64group_three (b₀ b₁ b₂ : UInt8) :
    ∃ v₀ v₁ v₂ v₃ : ℕ, (v₀ < 64 ∧ v₁ < 64 ∧ v₂ < 64 ∧ v₃ < 64) ∧
      encodeThree b₀ b₁ b₂ = [b64symbol v₀, b64symbol v₁, b64symbol v₂, b64symbol v₃] ∧
      b64group 0 [(v₀ : ℤ), v₁, v₂, v₃] = .ok [b₀, b₁, b₂] := by
  have h₀ := b₀.toNat_lt
  have h₁ := b₁.toNat_lt
  have h₂ := b₂.toNat_lt
  have hv : b₀.toNat <<< 16 ||| b₁.toNat <<< 8 ||| b₂.toNat =
      b₀.toNat * 2 ^ 16 + (b₁.toNat * 2 ^ 8 + b₂.toNat) := by
    rw [Nat.or_assoc, shiftLeft_or (k := 8) h₂, shiftLeft_or (by omega)]
  generalize hdef : b₀.toNat * 2 ^ 16 + (b₁.toNat * 2 ^ 8 + b₂.toNat) = v at hv
  refine ⟨v / 2 ^ 18, v / 2 ^ 12 % 2 ^ 6, v / 2 ^ 6 % 2 ^ 6, v % 2 ^ 6,
    ⟨by omega, by omega, by omega, by omega⟩, ?_, ?_⟩
  · rw [encodeThree, hv, and_low _ mask_six, and_low _ mask_six, and_low _ mask_six,
      Nat.shiftRight_eq_div_pow, Nat.shiftRight_eq_div_pow, Nat.shiftRight_eq_div_pow]
  · have hsum := sixBits_three v
    rw [b64group, if_pos rfl, Int.toNat_natCast, Int.toNat_natCast, Int.toNat_natCast,
      Int.toNat_natCast, hsum]
    dsimp only
    rw [and_low _ mask_eight, and_low _ mask_eight, Nat.shiftRight_eq_div_pow,
      Nat.shiftRight_eq_div_pow]
    have e₀ : v / 2 ^ 16 = b₀.toNat := by omega
    have e₁ : v / 2 ^ 8 % 2 ^ 8 = b₁.toNat := by omega
    have e₂ : v % 2 ^ 8 = b₂.toNat := by omega
    rw [e₀, e₁, e₂, UInt8.ofNat_toNat, UInt8.ofNat_toNat, UInt8.ofNat_toNat]

private theorem b64group_two (b₀ b₁ : UInt8) :
    ∃ v₀ v₁ v₂ : ℕ, (v₀ < 64 ∧ v₁ < 64 ∧ v₂ < 64) ∧
      encodeTwo b₀ b₁ = [b64symbol v₀, b64symbol v₁, b64symbol v₂, b64pad] ∧
      b64group 1 [(v₀ : ℤ), v₁, v₂, -2] = .ok [b₀, b₁] := by
  have h₀ := b₀.toNat_lt
  have h₁ := b₁.toNat_lt
  have hv : b₀.toNat <<< 8 ||| b₁.toNat = b₀.toNat * 2 ^ 8 + b₁.toNat := shiftLeft_or h₁
  generalize hdef : b₀.toNat * 2 ^ 8 + b₁.toNat = v at hv
  refine ⟨v / 2 ^ 10, v / 2 ^ 4 % 2 ^ 6, v % 2 ^ 4 * 2 ^ 2, ⟨by omega, by omega, by omega⟩, ?_, ?_⟩
  · rw [encodeTwo, hv, and_low _ mask_six, and_low _ mask_four, Nat.shiftRight_eq_div_pow,
      Nat.shiftRight_eq_div_pow, Nat.shiftLeft_eq]
  · have hsum := sixBits_two v
    have hno : ¬((-2 : ℤ) ≠ -2 ∨ ((v % 2 ^ 4 * 2 ^ 2 : ℕ) : ℤ) % 4 ≠ 0) := by omega
    rw [b64group, if_neg (by decide), if_pos rfl, if_neg hno]
    rw [Int.toNat_natCast, Int.toNat_natCast, Int.toNat_natCast, hsum]
    dsimp only
    rw [and_low _ mask_eight, Nat.shiftRight_eq_div_pow]
    have e₀ : v / 2 ^ 8 = b₀.toNat := by omega
    have e₁ : v % 2 ^ 8 = b₁.toNat := by omega
    rw [e₀, e₁, UInt8.ofNat_toNat, UInt8.ofNat_toNat]

private theorem b64group_one (b₀ : UInt8) :
    ∃ v₀ v₁ : ℕ, (v₀ < 64 ∧ v₁ < 64) ∧
      encodeOne b₀ = [b64symbol v₀, b64symbol v₁, b64pad, b64pad] ∧
      b64group 2 [(v₀ : ℤ), v₁, -2, -2] = .ok [b₀] := by
  have h₀ := b₀.toNat_lt
  refine ⟨b₀.toNat / 2 ^ 2, b₀.toNat % 2 ^ 2 * 2 ^ 4, ⟨by omega, by omega⟩, ?_, ?_⟩
  · rw [encodeOne, and_low _ mask_two, Nat.shiftRight_eq_div_pow, Nat.shiftLeft_eq]
  · have hsum : (b₀.toNat / 2 ^ 2) <<< 2 ||| (b₀.toNat % 2 ^ 2 * 2 ^ 4) >>> 4 = b₀.toNat := by
      rw [Nat.shiftRight_eq_div_pow, shiftLeft_or (k := 2) (by omega)]
      omega
    have hno : ¬((-2 : ℤ) ≠ -2 ∨ (-2 : ℤ) ≠ -2 ∨
        ((b₀.toNat % 2 ^ 2 * 2 ^ 4 : ℕ) : ℤ) % 16 ≠ 0) := by
      omega
    rw [b64group, if_neg (by decide), if_neg (by decide), if_pos rfl, if_neg hno]
    rw [Int.toNat_natCast, Int.toNat_natCast, hsum]
    dsimp only
    rw [UInt8.ofNat_toNat]

/-! ## The encoder -/

private theorem length_b64text (s : List UInt8) : (b64text s).length = (s.length + 2) / 3 * 4 := by
  fun_induction b64text s with
  | case1 b₀ b₁ b₂ s ih =>
    rw [List.length_append, ih, List.length_cons, List.length_cons, List.length_cons]
    show 4 + _ = _
    omega
  | case2 b₀ b₁ => simp [encodeTwo]
  | case3 b₀ => simp [encodeOne]
  | case4 => rfl

/-- The loop leaves at most two bytes. -/
theorem b64encodeLoop_eq {s : List UInt8} {buffer : Block UInt8} {front : List UInt8} {i sz : ℕ}
    (h : buffer.At 0 front) (hfits : front.length + (b64text s).length ≤ buffer.length)
    (hsz : i + s.length = sz) (hi : sz < 2 ^ 31)
    (hj : front.length + (b64text s).length < 2 ^ 31) :
    ∃ buffer' front' i' rest,
      b64encodeLoop (sz - 2 : ℤ) buffer i front.length s = .ok (buffer', i', front'.length, rest) ∧
        buffer'.At 0 front' ∧ buffer'.length = buffer.length ∧ i' + rest.length = sz ∧
        rest.length < 3 ∧ front' ++ b64text rest = front ++ b64text s := by
  fun_induction b64text s generalizing buffer front i with
  | case1 b₀ b₁ b₂ s ih =>
    rw [List.length_append] at hfits hj
    have hfour : (encodeThree b₀ b₁ b₂).length = 4 := rfl
    rw [List.length_cons, List.length_cons, List.length_cons] at hsz
    obtain ⟨buffer₁, hstore, h₁, hlen₁⟩ := storeBytes_front (encodeThree b₀ b₁ b₂) h
      (by omega)
    have hfront : (front ++ encodeThree b₀ b₁ b₂).length = front.length + 4 := by
      rw [List.length_append, hfour]
    obtain ⟨buffer', front', i', rest, hloop, h', hlen', hsz', hrest, htext⟩ :=
      ih h₁ (i := i + 3) (by omega) (by omega) (by omega)
    refine ⟨buffer', front', i', rest, ?_, h', hlen'.trans hlen₁, hsz', hrest, ?_⟩
    · rw [b64encodeLoop, if_pos (by omega), hstore, ok_bind, toCounter_of_lt (by omega), ok_bind,
        toCounter_of_lt (by omega), ok_bind, ← hfront, hloop]
    · rw [htext, List.append_assoc]
  | case2 b₀ b₁ => exact ⟨buffer, front, i, [b₀, b₁], rfl, h, rfl, hsz, by simp, rfl⟩
  | case3 b₀ => exact ⟨buffer, front, i, [b₀], rfl, h, rfl, hsz, by simp, rfl⟩
  | case4 => exact ⟨buffer, front, i, [], rfl, h, rfl, hsz, by simp, rfl⟩

/-- What is left is put behind. -/
theorem b64encodeTail_eq {rest : List UInt8} {buffer : Block UInt8} {front : List UInt8}
    (h : buffer.At 0 front) (hfits : front.length + (b64text rest).length ≤ buffer.length)
    (hrest : rest.length < 3) :
    ∃ buffer', b64encodeTail rest.length buffer front.length rest = .ok buffer' ∧
      buffer'.At 0 (front ++ b64text rest) := by
  rcases rest with _ | ⟨b₀, _ | ⟨b₁, _ | ⟨b₂, rest⟩⟩⟩
  · exact ⟨buffer, rfl, by rwa [b64text, List.append_nil]⟩
  · obtain ⟨buffer', hstore, h', -⟩ := storeBytes_front _ h hfits
    exact ⟨buffer', hstore, h'⟩
  · obtain ⟨buffer', hstore, h', -⟩ := storeBytes_front _ h hfits
    exact ⟨buffer', hstore, h'⟩
  · rw [List.length_cons, List.length_cons, List.length_cons] at hrest
    omega

/-- **A string becomes its symbols.** -/
theorem b64encode_eq {s : List UInt8} (hlt : s.length < 2 ^ 30) :
    b64encode s = .ok (b64text s) := by
  have hlen := length_b64text s
  have hencode : toInt32 ((s.length + 2) / 3 * 4 : ℕ) = (b64text s).length := by
    rw [toInt32_of_lt (by omega) (by omega), hlen]
  have hsz : toInt32 s.length = s.length := toInt32_of_lt (by omega) (by omega)
  have hroom := le_length_newBuffer (b64text s).length
  rw [b64encode, hencode, hsz, if_neg (by omega)]
  generalize newBuffer (b64text s).length = buffer at *
  obtain ⟨buffer₁, front, i, rest, hloop, h₁, hlen₁, hi, hrest, htext⟩ :=
    b64encodeLoop_eq (Block.at_nil buffer 0) (by rw [List.length_nil]; omega)
      (Nat.zero_add s.length) (by omega) (by rw [List.length_nil]; omega)
  rw [List.nil_append] at htext
  have hall : front.length + (b64text rest).length = (b64text s).length := by
    rw [← List.length_append, htext]
  obtain ⟨buffer₂, htail, h₂⟩ := b64encodeTail_eq h₁ (by omega) hrest
  have hpadding : toInt32 (s.length - i : ℤ) = rest.length := by
    rw [toInt32_of_lt (by omega) (by omega)]
    omega
  rw [List.length_nil] at hloop
  rw [hloop, ok_bind]
  dsimp only
  rw [hpadding, htail, ok_bind, if_neg (by omega), Int.toNat_natCast]
  rw [htext] at h₂
  exact pushBuffer_front h₂

/-! ## The decoder -/

theorem Inserted.tail {x : UInt8} {code text : List UInt8} (h : Inserted code (x :: text)) :
    Inserted (text.filter fun x ↦ IsBase64 x) text := by
  refine ⟨rfl, fun y hy ↦ ?_⟩
  rcases text with _ | ⟨z, text⟩
  · cases hy
  · refine h.2 y ?_
    rwa [List.getLast?_cons_cons]

theorem Inserted.eq_nil {text : List UInt8} (h : Inserted [] text) : text = [] := by
  cases hlast : text.getLast? with
  | none => exact List.getLast?_eq_none_iff.mp hlast
  | some x =>
    have hx : x ∈ text.filter fun x ↦ IsBase64 x :=
      List.mem_filter.mpr ⟨List.mem_of_getLast? hlast, decide_eq_true (h.2 x hlast)⟩
    rw [h.1] at hx
    cases hx

theorem b64gather_full {i padding : ℕ} {c : List ℤ} (text : List UInt8) (hc : c.length = 4) :
    b64gather i padding c text = .ok (i, padding, c, text) := by
  have hno : ¬c.length < 4 := by omega
  cases text with
  | nil => rw [b64gather, if_neg hno]
  | cons x text => rw [b64gather, if_neg hno]

/-- The padding after one more symbol. -/
def addPad (padding : ℕ) (x : UInt8) : ℕ := if b64index x = -2 then padding + 1 else padding

/-- The next symbol of a group, behind what is skipped. -/
theorem b64gather_symbol {i padding : ℕ} {c : List ℤ} {x : UInt8} {code text : List UInt8}
    (hc : c.length < 4) (h : Inserted (x :: code) text) (hi : i + text.length < 2 ^ 31) :
    ∃ i' text', b64gather i padding c text =
        b64gather i' (addPad padding x) (c ++ [b64index x]) text' ∧
      Inserted code text' ∧ i' + text'.length = i + text.length ∧ text'.length < text.length := by
  induction text generalizing i with
  | nil => cases h.1
  | cons y text ih =>
    rw [List.length_cons] at hi
    by_cases hy : IsBase64 y
    · have hfilter := h.1
      rw [List.filter_cons, if_pos (decide_eq_true hy)] at hfilter
      injection hfilter with hyx hfilter
      subst hyx
      refine ⟨i + 1, text, ?_, hfilter ▸ h.tail, by rw [List.length_cons]; omega,
        by rw [List.length_cons]; omega⟩
      rw [b64gather, if_pos hc, if_neg fun hneg ↦ (b64index_eq_neg_one_iff y).mp hneg hy,
        toCounter_of_lt (by omega), ok_bind, addPad]
    · have hfilter := h.1
      rw [List.filter_cons, if_neg (by rwa [decide_eq_true_iff])] at hfilter
      obtain ⟨i', text', hgather, h', hlen, hlt⟩ := ih (i := i + 1) (hfilter ▸ h.tail) (by omega)
      refine ⟨i', text', ?_, h', by rw [List.length_cons]; omega, by rw [List.length_cons]; omega⟩
      rw [b64gather, if_pos hc, if_pos ((b64index_eq_neg_one_iff y).mpr hy),
        toCounter_of_lt (by omega), ok_bind, hgather]

/-- The next group. -/
theorem b64gather_group {i : ℕ} {x₀ x₁ x₂ x₃ : UInt8} {code text : List UInt8}
    (h : Inserted (x₀ :: x₁ :: x₂ :: x₃ :: code) text) (hi : i + text.length < 2 ^ 31) :
    ∃ i' text', b64gather i 0 [] text = .ok (i', [x₀, x₁, x₂, x₃].foldl addPad 0,
        [b64index x₀, b64index x₁, b64index x₂, b64index x₃], text') ∧
      Inserted code text' ∧ i' + text'.length = i + text.length ∧
        text'.length + 4 ≤ text.length := by
  obtain ⟨i₀, t₀, hg₀, h₀, hlen₀, hlt₀⟩ := @b64gather_symbol i 0 [] _ _ _ (by decide) h hi
  obtain ⟨i₁, t₁, hg₁, h₁, hlen₁, hlt₁⟩ := @b64gather_symbol i₀ (addPad 0 x₀) [b64index x₀] _ _ _
    (by simp) h₀ (by omega)
  obtain ⟨i₂, t₂, hg₂, h₂, hlen₂, hlt₂⟩ := @b64gather_symbol i₁ (addPad (addPad 0 x₀) x₁)
    [b64index x₀, b64index x₁] _ _ _ (by simp) h₁ (by omega)
  obtain ⟨i₃, t₃, hg₃, h₃, hlen₃, hlt₃⟩ :=
    @b64gather_symbol i₂ (addPad (addPad (addPad 0 x₀) x₁) x₂)
    [b64index x₀, b64index x₁, b64index x₂] _ _ _ (by simp) h₂ (by omega)
  refine ⟨i₃, t₃, ?_, h₃, by omega, by omega⟩
  rw [List.nil_append] at hg₀
  simp only [List.cons_append, List.nil_append] at hg₁ hg₂ hg₃
  rw [hg₀, hg₁, hg₂, hg₃, b64gather_full t₃ (by simp), List.foldl_cons, List.foldl_cons,
    List.foldl_cons, List.foldl_cons, List.foldl_nil]

/-- The outer loop, with the counters in range and room in the buffer. -/
structure Decoding (bound : ℕ) (buffer : Block UInt8) (front : List UInt8) (i : ℕ)
    (text : List UInt8) : Prop where
  filled : buffer.At 0 front
  bounded : text.length ≤ bound
  fits : front.length + (text.length + 3) / 4 * 3 ≤ buffer.length
  output : front.length + (text.length + 3) / 4 * 3 < 2 ^ 31
  counter : i + text.length < 2 ^ 31

/-- One round of the outer loop. -/
theorem Decoding.round {bound i i' padding : ℕ}
    {buffer : Block UInt8} {front bytes text text' : List UInt8}
    {c : List ℤ} (h : Decoding bound buffer front i text)
    (hgather : b64gather i 0 [] text = .ok (i', padding, c, text'))
    (hgroup : b64group padding c = .ok bytes) (hbytes : bytes.length ≤ 3)
    (hi : i' + text'.length = i + text.length) (hlen : text'.length + 4 ≤ text.length) :
    ∃ bound' buffer', Decoding bound' buffer' (front ++ bytes) i' text' ∧
      b64decodeLoop bound buffer i front.length text =
        b64decodeLoop bound' buffer' i' (front ++ bytes).length text' := by
  obtain ⟨hfilled, hbounded, hfits, houtput, hcounter⟩ := h
  rcases text with _ | ⟨x, text⟩
  · rw [List.length_nil] at hlen
    omega
  obtain ⟨bound', rfl⟩ : ∃ bound', bound = bound' + 1 := by
    rw [List.length_cons] at hbounded
    exact ⟨bound - 1, by omega⟩
  obtain ⟨buffer', hstore, hfilled', hlen'⟩ := storeBytes_front bytes hfilled (by omega)
  have hfront : (front ++ bytes).length = front.length + bytes.length := List.length_append
  refine ⟨bound', buffer', ⟨hfilled', by omega, by omega, by omega, by omega⟩, ?_⟩
  rw [b64decodeLoop, hgather, ok_bind]
  dsimp only
  rw [hgroup, ok_bind, hstore, ok_bind, toCounter_of_lt (by omega), ok_bind, hfront]

private theorem addPad_symbol {v : ℕ} (padding : ℕ) (hv : v < 64) :
    addPad padding (b64symbol v) = padding := by
  rw [addPad, (b64index_symbol v hv).1, if_neg (by omega)]

private theorem addPad_pad (padding : ℕ) : addPad padding b64pad = padding + 1 := by
  rw [addPad, b64index_pad, if_pos rfl]

/-- The loop gives back the string. -/
theorem Decoding.inserted {s text : List UInt8} {bound i : ℕ} {buffer : Block UInt8}
    {front : List UInt8} (h : Decoding bound buffer front i text)
    (htext : Inserted (b64text s) text) :
    ∃ buffer', b64decodeLoop bound buffer i front.length text = .ok (buffer', (front ++ s).length) ∧
      buffer'.At 0 (front ++ s) := by
  -- along the encoder: three bytes at a time, and a last group of two, of one or of none
  fun_induction b64text s generalizing bound i buffer front text with
  | case1 b₀ b₁ b₂ s ih =>
    obtain ⟨v₀, v₁, v₂, v₃, ⟨h₀, h₁, h₂, h₃⟩, hencode, hgroup⟩ := b64group_three b₀ b₁ b₂
    rw [hencode] at htext
    obtain ⟨i', text', hgather, htext', hi, hlen⟩ := b64gather_group htext h.counter
    rw [(b64index_symbol v₀ h₀).1, (b64index_symbol v₁ h₁).1, (b64index_symbol v₂ h₂).1,
      (b64index_symbol v₃ h₃).1, List.foldl_cons, List.foldl_cons, List.foldl_cons, List.foldl_cons,
      List.foldl_nil, addPad_symbol _ h₀, addPad_symbol _ h₁, addPad_symbol _ h₂,
      addPad_symbol _ h₃] at hgather
    obtain ⟨bound', buffer₁, h', hround⟩ := h.round hgather hgroup (by simp) hi hlen
    obtain ⟨buffer', hloop, hfilled⟩ := ih h' htext'
    rw [List.append_assoc] at hloop hfilled
    exact ⟨buffer', hround.trans hloop, hfilled⟩
  | case2 b₀ b₁ =>
    obtain ⟨v₀, v₁, v₂, ⟨h₀, h₁, h₂⟩, hencode, hgroup⟩ := b64group_two b₀ b₁
    rw [hencode] at htext
    obtain ⟨i', text', hgather, htext', hi, hlen⟩ := b64gather_group htext h.counter
    rw [(b64index_symbol v₀ h₀).1, (b64index_symbol v₁ h₁).1,
      (b64index_symbol v₂ h₂).1, b64index_pad,
      List.foldl_cons, List.foldl_cons, List.foldl_cons, List.foldl_cons, List.foldl_nil,
      addPad_symbol _ h₀, addPad_symbol _ h₁, addPad_symbol _ h₂, addPad_pad] at hgather
    obtain ⟨bound', buffer', h', hround⟩ := h.round hgather hgroup (by simp) hi hlen
    rw [htext'.eq_nil, b64decodeLoop] at hround
    exact ⟨buffer', hround, h'.filled⟩
  | case3 b₀ =>
    obtain ⟨v₀, v₁, ⟨h₀, h₁⟩, hencode, hgroup⟩ := b64group_one b₀
    rw [hencode] at htext
    obtain ⟨i', text', hgather, htext', hi, hlen⟩ := b64gather_group htext h.counter
    rw [(b64index_symbol v₀ h₀).1, (b64index_symbol v₁ h₁).1, b64index_pad,
      List.foldl_cons, List.foldl_cons, List.foldl_cons, List.foldl_cons, List.foldl_nil,
      addPad_symbol _ h₀, addPad_symbol _ h₁, addPad_pad, addPad_pad] at hgather
    obtain ⟨bound', buffer', h', hround⟩ := h.round hgather hgroup (by simp) hi hlen
    rw [htext'.eq_nil, b64decodeLoop] at hround
    exact ⟨buffer', hround, h'.filled⟩
  | case4 =>
    rw [htext.eq_nil, b64decodeLoop, List.append_nil]
    exact ⟨buffer, rfl, h.filled⟩

/-! ## Any text -/

/-- The error of `lb64decode`. -/
def invalidBase64 : CryptError := .raised "Invalid base64 text"

private theorem b64gather_cases {i padding : ℕ} {c : List ℤ} {text : List UInt8} (hc : c.length ≤ 4)
    (hi : i + text.length < 2 ^ 31) :
    b64gather i padding c text = .error invalidBase64 ∨
      ∃ i' padding' c' text', b64gather i padding c text = .ok (i', padding', c', text') ∧
        c'.length = 4 ∧ i' + text'.length = i + text.length ∧
        text'.length + 4 ≤ text.length + c.length := by
  induction text generalizing i padding c with
  | nil =>
    rw [b64gather]
    split
    · exact .inl rfl
    · exact .inr ⟨i, padding, c, [], rfl, by omega, rfl, by omega⟩
  | cons x text ih =>
    rw [List.length_cons] at hi ⊢
    by_cases hlt : c.length < 4
    · rw [b64gather, if_pos hlt, toCounter_of_lt (by omega), ok_bind, ok_bind]
      split
      · rcases ih (i := i + 1) hc (by omega) with
          herror | ⟨i', padding', c', text', hok, hc', hi', hlen⟩
        · exact .inl herror
        · exact .inr ⟨i', padding', c', text', hok, hc', by omega, by omega⟩
      · have hlength : (c ++ [b64index x]).length = c.length + 1 := List.length_append
        rcases ih (i := i + 1)
          (c := c ++ [b64index x]) (by omega) (by omega) with
          herror | ⟨i', padding', c', text', hok, hc', hi', hlen⟩
        · exact .inl herror
        · exact .inr ⟨i', padding', c', text', hok, hc', by omega, by omega⟩
    · exact .inr ⟨i, padding, c, x :: text, b64gather_full _ (by omega), by omega, rfl, by
        rw [List.length_cons]
        omega⟩

private theorem b64group_cases (padding : ℕ) {c : List ℤ} (hc : c.length = 4) :
    b64group padding c = .error invalidBase64 ∨
      ∃ bytes, b64group padding c = .ok bytes ∧ bytes.length ≤ 3 := by
  obtain ⟨c₀, c₁, c₂, c₃, rfl⟩ := List.length_eq_four.mp hc
  rw [b64group]
  split_ifs
  · exact .inr ⟨_, rfl, Nat.le_refl 3⟩
  · exact .inl rfl
  · exact .inr ⟨_, rfl, by simp⟩
  · exact .inl rfl
  · exact .inr ⟨_, rfl, by simp⟩
  · exact .inl rfl

/-- The loop ends with the text, or raises its error. -/
theorem Decoding.cases {text : List UInt8} {bound i : ℕ} {buffer : Block UInt8} {front : List UInt8}
    (h : Decoding bound buffer front i text) :
    b64decodeLoop bound buffer i front.length text = .error invalidBase64 ∨
      ∃ buffer' front', b64decodeLoop bound buffer i front.length text =
        .ok (buffer', front'.length) ∧
        buffer'.At 0 front' := by
  induction hlen : text.length using Nat.strongRecOn generalizing bound i buffer front text with
  | ind n ih =>
    rcases text with _ | ⟨x, text⟩
    · rw [b64decodeLoop]
      exact .inr ⟨buffer, front, rfl, h.filled⟩
    · rcases b64gather_cases (c := []) (Nat.zero_le 4) h.counter with
        hraised | ⟨i', padding, c, text', hgather, hc, hi, hlt⟩
      · obtain ⟨bound, rfl⟩ : ∃ bound', bound = bound' + 1 := by
          have hbounded := h.bounded
          rw [List.length_cons] at hbounded
          exact ⟨bound - 1, by omega⟩
        rw [b64decodeLoop, hraised]
        exact .inl rfl
      · rw [List.length_nil] at hlt
        rcases b64group_cases padding hc with hraised | ⟨bytes, hgroup, hbytes⟩
        · obtain ⟨bound, rfl⟩ : ∃ bound', bound = bound' + 1 := by
            have hbounded := h.bounded
            rw [List.length_cons] at hbounded
            exact ⟨bound - 1, by omega⟩
          rw [b64decodeLoop, hgather, ok_bind]
          dsimp only
          rw [hraised]
          exact .inl rfl
        · obtain ⟨bound', buffer', h', hround⟩ := h.round hgather hgroup hbytes hi hlt
          rw [hround]
          exact ih _ (by omega) h' rfl

/-- What `lb64decode` starts with. -/
theorem b64decode_eq {text : List UInt8} (hlt : text.length < 2 ^ 31) :
    ∃ buffer, Decoding text.length buffer [] 0 text ∧
      b64decode text = (b64decodeLoop text.length buffer 0 0 text >>=
        fun p ↦ pushBuffer p.1 p.2) := by
  have hdecode : toInt32 ((text.length + 3) / 4 * 3 : ℕ) = ((text.length + 3) / 4 * 3 : ℕ) :=
    toInt32_of_lt (by omega) (by omega)
  have hroom := le_length_newBuffer ((text.length + 3) / 4 * 3 : ℕ)
  refine ⟨newBuffer ((text.length + 3) / 4 * 3 : ℕ),
    ⟨Block.at_nil _ 0, Nat.le_refl _, ?_, ?_, ?_⟩, ?_⟩
  · rw [List.length_nil]
    omega
  · rw [List.length_nil]
    omega
  · omega
  · rw [b64decode, hdecode]

/-- **Decoding stays inside its buffer** and ends with a string or with its error. -/
theorem b64decode_cases {text : List UInt8} (hlt : text.length < 2 ^ 31) :
    b64decode text = .error invalidBase64 ∨ ∃ s, b64decode text = .ok s := by
  obtain ⟨buffer, hstart, heq⟩ := b64decode_eq hlt
  rw [heq]
  rcases hstart.cases with herror | ⟨buffer', front', hok, hfilled⟩
  · rw [List.length_nil] at herror
    rw [herror]
    exact .inl rfl
  · rw [List.length_nil] at hok
    rw [hok]
    exact .inr ⟨front', pushBuffer_front hfilled⟩

/-- **The symbols of a string are decoded to it,** with other characters put in or without. -/
theorem b64decode_inserted {s text : List UInt8} (htext : Inserted (b64text s) text)
    (hlt : text.length < 2 ^ 31) : b64decode text = .ok s := by
  obtain ⟨buffer, hstart, heq⟩ := b64decode_eq hlt
  obtain ⟨buffer', hok, hfilled⟩ := hstart.inserted htext
  rw [List.length_nil, List.nil_append] at hok
  rw [heq, hok]
  exact pushBuffer_front hfilled

private theorem inserted_b64text (s : List UInt8) : Inserted (b64text s) (b64text s) := by
  have hall : ∀ x ∈ b64text s, IsBase64 x := by
    fun_induction b64text s with
    | case1 b₀ b₁ b₂ s ih =>
      obtain ⟨v₀, v₁, v₂, v₃, ⟨h₀, h₁, h₂, h₃⟩, hencode, -⟩ := b64group_three b₀ b₁ b₂
      intro x hx
      rw [hencode] at hx
      simp only [List.mem_append, List.mem_cons, List.not_mem_nil, or_false] at hx
      rcases hx with (rfl | rfl | rfl | rfl) | hx
      · exact (b64index_symbol v₀ h₀).2
      · exact (b64index_symbol v₁ h₁).2
      · exact (b64index_symbol v₂ h₂).2
      · exact (b64index_symbol v₃ h₃).2
      · exact ih x hx
    | case2 b₀ b₁ =>
      obtain ⟨v₀, v₁, v₂, ⟨h₀, h₁, h₂⟩, hencode, -⟩ := b64group_two b₀ b₁
      intro x hx
      rw [hencode] at hx
      simp only [List.mem_cons, List.not_mem_nil, or_false] at hx
      rcases hx with rfl | rfl | rfl | rfl
      · exact (b64index_symbol v₀ h₀).2
      · exact (b64index_symbol v₁ h₁).2
      · exact (b64index_symbol v₂ h₂).2
      · exact isBase64_pad
    | case3 b₀ =>
      obtain ⟨v₀, v₁, ⟨h₀, h₁⟩, hencode, -⟩ := b64group_one b₀
      intro x hx
      rw [hencode] at hx
      simp only [List.mem_cons, List.not_mem_nil, or_false] at hx
      rcases hx with rfl | rfl | rfl | rfl
      · exact (b64index_symbol v₀ h₀).2
      · exact (b64index_symbol v₁ h₁).2
      · exact isBase64_pad
      · exact isBase64_pad
    | case4 => exact fun x hx ↦ (nomatch hx)
  refine ⟨List.filter_eq_self.mpr fun x hx ↦ decide_eq_true (hall x hx), fun x hx ↦ ?_⟩
  exact hall x (List.mem_of_getLast? hx)

/-- **The base64 codec.** A string shorter than `2 ^ 30` bytes is encoded inside the buffer, and its
text is decoded to it, also with other characters put in before the last symbol. No text shorter
than `2 ^ 31` makes the decoder write outside its buffer. -/
theorem base64_round_trip {s : List UInt8} (hs : s.length < 2 ^ 30) :
    ∃ code, b64encode s = .ok code ∧ b64decode code = .ok s ∧
      (∀ text, Inserted code text → text.length < 2 ^ 31 → b64decode text = .ok s) ∧
      ∀ text, text.length < 2 ^ 31 →
        b64decode text = .error invalidBase64 ∨ ∃ s', b64decode text = .ok s' := by
  have hlen := length_b64text s
  exact ⟨b64text s, b64encode_eq hs, b64decode_inserted (inserted_b64text s) (by omega),
    fun text htext hlt ↦ b64decode_inserted htext hlt, fun text hlt ↦ b64decode_cases hlt⟩

theorem base64_round_trip_pleas :
    b64encode (ascii "pleas.") = .ok (ascii "cGxlYXMu") ∧
    ∀ s ∈ [ascii "pleas.", ascii "leasure.", ascii "easure.", []], s.length < 2 ^ 30 ∧
      ∃ code, b64encode s = .ok code ∧ b64decode code = .ok s ∧
        (∀ text, Inserted code text → text.length < 2 ^ 31 → b64decode text = .ok s) ∧
        ∀ text, text.length < 2 ^ 31 →
          b64decode text = .error invalidBase64 ∨ ∃ s', b64decode text = .ok s' := by
  refine ⟨by decide +kernel, fun s hs ↦ ?_⟩
  have hlen : s.length < 2 ^ 30 := by
    have hall : ∀ s ∈ [ascii "pleas.", ascii "leasure.", ascii "easure.", []],
        s.length < 2 ^ 30 := by decide +kernel
    exact hall s hs
  exact ⟨hlen, base64_round_trip hlen⟩

end ZTask
