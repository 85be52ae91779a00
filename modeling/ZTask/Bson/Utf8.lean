import ZTask.Bson.Spelling
import ZTask.Lib.Utf8

/-!
# Texts that are UTF-8

The check of `write_string`: a text passes it if and only if it is UTF-8 (`textFault_eq_none`). The
bytes are copied on the way, up to where the check fails; with the memory that they are copied to,
this is `copyString` (`copyString_eq`).

## From bits to forms

`utf8_copy` shifts the first byte to the left as long as the bit behind its highest one is set, and
takes one more byte each time. What it compares in the end is a number put together from the bits of
the bytes (`utf8Number`). `LeadsTails.passes_iff` does the comparison once for each number of bytes
that follow, and `form_cons_iff` collects the cases: the forms that pass are those of `Lib.Utf8`.

## The memory

The functions are modelled twice, on the text alone and with the memory that they write to.
`utf8CopyTo_eq` and `copyString_eq` say that the second does what the first does, and that it writes
what it has taken. So the theorem about `write_string` is one about texts and one about bytes in
memory at the same time.
-/

namespace ZTask

open Lib

variable {s tails rest : List UInt8} {bound count : ℕ} {c res : UInt32}

/-! ## The bytes behind the first one -/

/-- How often the loop of `utf8_copy` goes round. -/
def utf8Ones : ℕ → UInt32 → ℕ
  | 0, _ => 0
  | bound + 1, c => if c &&& 0x40 = 0 then 0 else utf8Ones bound (c <<< 1) + 1

/-- `c` after so many shifts. -/
def utf8Shift : ℕ → UInt32 → UInt32
  | 0, c => c
  | n + 1, c => utf8Shift n (c <<< 1)

/-- The bits of the bytes behind the first one. -/
def utf8Bits (res : UInt32) (tails : List UInt8) : UInt32 :=
  tails.foldl (fun res cc ↦ (res <<< 6) ||| (cc &&& 0x3F).toUInt32) res

private theorem isTail_iff (cc : UInt8) : ¬cc &&& 0xC0 ≠ 0x80 ↔ Utf8.IsTail cc :=
  forall_byte (P := fun cc ↦ ¬cc &&& 0xC0 ≠ 0x80 ↔ Utf8.IsTail cc) (by decide +kernel) cc

/-- The loop goes over as many bytes as the first byte says, if they all go on with a form. -/
theorem utf8Tail_eq_ok {r : UInt32 × ℕ × UInt32} :
    utf8Tail s bound c count res = .ok r ↔
      ∃ tails rest, s.drop (count + 1) = tails ++ rest ∧ tails.length = utf8Ones bound c ∧
        (∀ cc ∈ tails, Utf8.IsTail cc) ∧
        r = (utf8Shift tails.length c, count + tails.length, utf8Bits res tails) := by
  -- on the bits that are left in the first byte, of which each 1 asks for one more byte
  induction bound generalizing c count res with
  | zero =>
    constructor
    · intro h
      cases h
      exact ⟨[], _, rfl, rfl, fun cc hcc ↦ (nomatch hcc), rfl⟩
    · rintro ⟨tails, rest, -, hlen, -, rfl⟩
      rw [List.eq_nil_of_length_eq_zero hlen]
      rfl
  | succ bound ih =>
    rw [utf8Tail, utf8Ones]
    by_cases hc : c &&& 0x40 = 0
    · rw [if_pos hc, if_pos hc]
      constructor
      · intro h
        cases h
        exact ⟨[], _, rfl, rfl, fun cc hcc ↦ (nomatch hcc), rfl⟩
      · rintro ⟨tails, rest, -, hlen, -, rfl⟩
        rw [List.eq_nil_of_length_eq_zero hlen]
        rfl
    · rw [if_neg hc, if_neg hc]
      cases hget : s[count + 1]? with
      | none =>
        have hdrop : s.drop (count + 1) = [] :=
          List.drop_eq_nil_of_le (List.getElem?_eq_none_iff.mp hget)
        constructor
        · intro h
          cases h
        · rintro ⟨tails, rest, hsplit, hlen, -, -⟩
          rw [hdrop] at hsplit
          rw [(List.append_eq_nil_iff.mp hsplit.symm).1] at hlen
          cases hlen
      | some cc =>
        obtain ⟨hlt, hcc⟩ := List.getElem?_eq_some_iff.mp hget
        have hdrop : s.drop (count + 1) = cc :: s.drop (count + 1 + 1) := by
          rw [List.drop_eq_getElem_cons hlt, hcc]
        dsimp only
        -- the next byte is no continuation byte
        by_cases htail : cc &&& 0xC0 ≠ 0x80
        · rw [if_pos htail]
          constructor
          · intro h
            cases h
          · rintro ⟨tails, rest, hsplit, hlen, hall, -⟩
            rw [hdrop] at hsplit
            cases tails with
            | nil => cases hlen
            | cons cc' tails =>
              obtain ⟨rfl, -⟩ := List.cons.inj hsplit
              exact absurd htail ((isTail_iff cc).mpr (hall cc List.mem_cons_self))
        · rw [if_neg htail, ih]
          constructor
          · rintro ⟨tails, rest, hsplit, hlen, hall, rfl⟩
            refine ⟨cc :: tails, rest, by rw [hdrop, hsplit]; rfl,
              by rw [List.length_cons, hlen], ?_, ?_⟩
            · intro b hb
              rcases List.mem_cons.mp hb with rfl | hb
              · exact (isTail_iff b).mp htail
              · exact hall b hb
            · rw [List.length_cons, Nat.add_assoc, Nat.add_comm 1]
              rfl
          · rintro ⟨tails, rest, hsplit, hlen, hall, rfl⟩
            rw [hdrop] at hsplit
            cases tails with
            | nil => cases hlen
            | cons cc' tails =>
              obtain ⟨rfl, hbehind⟩ := List.cons.inj hsplit
              refine ⟨tails, rest, hbehind, Nat.succ.inj hlen,
                  fun b hb ↦ hall b (List.mem_cons_of_mem _ hb), ?_⟩
              rw [List.length_cons, Nat.add_assoc, Nat.add_comm 1]
              rfl

private theorem toNat_utf8Bits_one {cc : UInt8} (h : res.toNat < 2 ^ 26) :
    ((res <<< 6) ||| (cc &&& 0x3F).toUInt32).toNat = 64 * res.toNat + cc.toNat % 64 := by
  have hlow : (cc &&& 0x3F).toNat = cc.toNat % 64 := by
    rw [UInt8.toNat_and]
    exact Nat.and_two_pow_sub_one_eq_mod cc.toNat 6
  have hhigh : (res <<< 6).toNat = 2 ^ 6 * res.toNat := by
    rw [UInt32.toNat_shiftLeft]
    show res.toNat <<< 6 % 2 ^ 32 = _
    rw [Nat.shiftLeft_eq, Nat.mod_eq_of_lt (by omega), Nat.mul_comm]
  rw [UInt32.toNat_or, hhigh, UInt8.toNat_toUInt32, hlow,
    ← Nat.two_pow_add_eq_or_of_lt (Nat.mod_lt _ (by decide))]

/-- The bits are those of the number that is spelled, as long as they do not leave the word. -/
theorem toNat_utf8Bits (h : (res.toNat + 1) * 64 ^ tails.length ≤ 2 ^ 32) :
    (utf8Bits res tails).toNat = Utf8.spelled res.toNat tails := by
  induction tails generalizing res with
  | nil => rfl
  | cons cc tails ih =>
    rw [List.length_cons, Nat.pow_succ, ← Nat.mul_assoc] at h
    have hpos : 0 < 64 ^ tails.length := Nat.pow_pos (by decide)
    have hmul : (res.toNat + 1) * 64 ≤ (res.toNat + 1) * 64 ^ tails.length * 64 :=
      Nat.mul_le_mul_right 64 (Nat.le_mul_of_pos_right _ hpos)
    have hone := @toNat_utf8Bits_one res cc (by omega)
    have hnext : (64 * res.toNat + cc.toNat % 64 + 1) * 64 ^ tails.length ≤ 2 ^ 32 := by
      calc (64 * res.toNat + cc.toNat % 64 + 1) * 64 ^ tails.length
          ≤ ((res.toNat + 1) * 64) * 64 ^ tails.length := Nat.mul_le_mul_right _ (by omega)
        _ = (res.toNat + 1) * 64 ^ tails.length * 64 := Nat.mul_right_comm _ _ _
        _ ≤ 2 ^ 32 := h
    rw [← hone] at hnext
    show (utf8Bits _ tails).toNat = Utf8.spelled _ tails
    rw [ih hnext, hone]

/-! ## The first byte -/

/-- `c` at the first byte of a form that is longer than one byte. -/
def utf8First (b : UInt8) : UInt32 := 0xFFFFFF00 ||| b.toUInt32

/-- The bits of the first byte in front of those of so many bytes. -/
def utf8Front (b : UInt8) (n : ℕ) : UInt32 :=
  (utf8Shift n (utf8First b) &&& 0x7F) <<< (n * 5).toUInt32

/-- The first byte is at least `lo` with the bits behind it, and says that `n` bytes follow. -/
def LeadsTails (n lo : ℕ) (b : UInt8) : Prop :=
  utf8Ones 7 (utf8First b) = n ∧ (utf8Front b n).toNat = 64 ^ n * (b.toNat - lo)

instance LeadsTails.decidable (n lo : ℕ) (b : UInt8) : Decidable (LeadsTails n lo b) :=
  inferInstanceAs (Decidable (_ ∧ _))

private theorem leadsTails_cases (b : UInt8) : b.toNat < 0x80 ∨
    0x80 ≤ b.toNat ∧ b.toNat < 0xC0 ∧ LeadsTails 0 0x80 b ∨
    0xC0 ≤ b.toNat ∧ b.toNat < 0xE0 ∧ LeadsTails 1 0xC0 b ∨
    0xE0 ≤ b.toNat ∧ b.toNat < 0xF0 ∧ LeadsTails 2 0xE0 b ∨
    0xF0 ≤ b.toNat ∧ b.toNat < 0xF8 ∧ LeadsTails 3 0xF0 b ∨
    0xF8 ≤ b.toNat ∧ 3 < utf8Ones 7 (utf8First b) :=
  forall_byte (P := fun b ↦ b.toNat < 0x80 ∨
    0x80 ≤ b.toNat ∧ b.toNat < 0xC0 ∧ LeadsTails 0 0x80 b ∨
    0xC0 ≤ b.toNat ∧ b.toNat < 0xE0 ∧ LeadsTails 1 0xC0 b ∨
    0xE0 ≤ b.toNat ∧ b.toNat < 0xF0 ∧ LeadsTails 2 0xE0 b ∨
    0xF0 ≤ b.toNat ∧ b.toNat < 0xF8 ∧ LeadsTails 3 0xF0 b ∨
    0xF8 ≤ b.toNat ∧ 3 < utf8Ones 7 (utf8First b)) (by decide +kernel) b

/-- The number that `utf8_copy` has in the end. -/
def utf8Number (b : UInt8) (tails : List UInt8) : UInt32 :=
  utf8Bits 0 tails ||| utf8Front b tails.length

private theorem toNat_utf8Number {b : UInt8} {front : ℕ} (hsmall : tails.length ≤ 3)
    (hfront : (utf8Front b tails.length).toNat = 64 ^ tails.length * front) :
    (utf8Number b tails).toNat = Utf8.spelled front tails := by
  have hbits : (utf8Bits 0 tails).toNat = Utf8.spelled 0 tails := by
    refine toNat_utf8Bits ?_
    calc (0 + 1) * 64 ^ tails.length ≤ (0 + 1) * 64 ^ 3 :=
          Nat.mul_le_mul_left _ (Nat.pow_le_pow_right (by decide) hsmall)
      _ ≤ 2 ^ 32 := by decide
  have hlt : Utf8.spelled 0 tails < 2 ^ (6 * tails.length) := by
    rw [Nat.pow_mul]
    exact Utf8.spelled_lt tails
  have hpow : 64 ^ tails.length = 2 ^ (6 * tails.length) := (Nat.pow_mul 2 6 _).symm
  rw [utf8Number, UInt32.toNat_or, hbits, hfront, Nat.or_comm, Utf8.spelled_eq front,
    Nat.mul_comm front, hpow, Nat.two_pow_add_eq_or_of_lt hlt]

/-! ## One character -/

/-- What `utf8_copy` takes of a text that begins with a byte of eight bits. -/
theorem utf8Copy_eq_ok_of_le {b : UInt8} {n : ℕ} (hb : 0x80 ≤ b.toNat) :
    utf8Copy (b :: s) = .ok n ↔ ∃ tails rest, s = tails ++ rest ∧
      tails.length = utf8Ones 7 (utf8First b) ∧ (∀ cc ∈ tails, Utf8.IsTail cc) ∧
      (tails.length ≤ 3 ∧ (utf8Number b tails).toNat ≤ 0x10FFFF ∧
        (utf8Limit tails.length).toNat < (utf8Number b tails).toNat) ∧ n = tails.length + 1 := by
  have hbig : ¬b < 0x80 := by
    rw [UInt8.lt_iff_toNat_lt]
    exact Nat.not_lt.mpr hb
  have hcheck : ∀ tails : List UInt8, ¬(3 < tails.length ∨ 0x10FFFF < utf8Number b tails ∨
        utf8Number b tails ≤ utf8Limit tails.length) ↔
      tails.length ≤ 3 ∧ (utf8Number b tails).toNat ≤ 0x10FFFF ∧
        (utf8Limit tails.length).toNat < (utf8Number b tails).toNat := by
    intro tails
    rw [UInt32.lt_iff_toNat_lt, UInt32.le_iff_toNat_le, not_or, not_or, Nat.not_lt,
      Nat.not_lt, Nat.not_le]
    rfl
  rw [utf8Copy, if_neg hbig]
  constructor
  · intro h
    split at h
    next => cases h
    next c count res htail =>
      obtain ⟨tails, rest, hsplit, hlen, hall, heq⟩ := utf8Tail_eq_ok.mp htail
      rw [Nat.zero_add] at heq
      cases heq
      dsimp only at h
      split at h
      next => cases h
      next hok =>
        cases h
        exact ⟨tails, rest, hsplit, hlen, hall, (hcheck tails).mp hok, rfl⟩
  · rintro ⟨tails, rest, hsplit, hlen, hall, hok, rfl⟩
    have htail : utf8Tail (b :: s) 7 (0xFFFFFF00 ||| b.toUInt32) 0 0 =
        .ok (utf8Shift tails.length (utf8First b), tails.length, utf8Bits 0 tails) :=
      utf8Tail_eq_ok.mpr ⟨tails, rest, hsplit, hlen, hall, by rw [Nat.zero_add]; rfl⟩
    rw [htail]
    exact if_neg ((hcheck tails).mpr hok)

/-- The check, when it is known how many bytes follow. -/
theorem LeadsTails.passes_iff {b : UInt8} {n lo : ℕ} (h : LeadsTails n lo b) :
    (tails.length = utf8Ones 7 (utf8First b) ∧ (∀ cc ∈ tails, Utf8.IsTail cc) ∧ tails.length ≤ 3 ∧
        (utf8Number b tails).toNat ≤ 0x10FFFF ∧
        (utf8Limit tails.length).toNat < (utf8Number b tails).toNat) ↔
      tails.length = n ∧ (∀ cc ∈ tails, Utf8.IsTail cc) ∧ n ≤ 3 ∧
        Utf8.spelled (b.toNat - lo) tails ≤ 0x10FFFF ∧
        (utf8Limit n).toNat < Utf8.spelled (b.toNat - lo) tails := by
  obtain ⟨hones, hfront⟩ := h
  rw [hones]
  refine and_congr_right fun hlen ↦ and_congr_right fun _ ↦ ?_
  subst hlen
  refine and_congr_right fun hsmall ↦ ?_
  rw [toNat_utf8Number hsmall hfront]

private theorem not_form_tail {b : UInt8} (hlo : 0x80 ≤ b.toNat) (hhi : b.toNat < 0xC0) :
    ¬Utf8.Form (b :: tails) := by
  intro h
  cases h <;> omega

private theorem form_two_iff {b : UInt8} (hlo : 0xC0 ≤ b.toNat) (hhi : b.toNat < 0xE0) :
    Utf8.Form (b :: tails) ↔ tails.length = 1 ∧ (∀ cc ∈ tails, Utf8.IsTail cc) ∧ 1 ≤ 3 ∧
      Utf8.spelled (b.toNat - 0xC0) tails ≤ 0x10FFFF ∧
      (utf8Limit 1).toNat < Utf8.spelled (b.toNat - 0xC0) tails := by
  constructor
  · intro h
    cases h with
    | one | three | four => omega
    | @two _ c _ _ hc hmin =>
      have hlt := Utf8.spelled_lt [c]
      have heq := Utf8.spelled_eq (b.toNat - 0xC0) [c]
      simp only [List.length_singleton] at hlt heq
      exact ⟨rfl, List.forall_mem_singleton.mpr hc, by decide, by omega, hmin⟩
  · rintro ⟨hlen, hall, -, -, hmin⟩
    obtain ⟨c, rfl⟩ := List.length_eq_one_iff.mp hlen
    exact .two hlo hhi (hall c (by simp)) hmin

private theorem form_three_iff {b : UInt8} (hlo : 0xE0 ≤ b.toNat) (hhi : b.toNat < 0xF0) :
    Utf8.Form (b :: tails) ↔ tails.length = 2 ∧ (∀ cc ∈ tails, Utf8.IsTail cc) ∧ 2 ≤ 3 ∧
      Utf8.spelled (b.toNat - 0xE0) tails ≤ 0x10FFFF ∧
      (utf8Limit 2).toNat < Utf8.spelled (b.toNat - 0xE0) tails := by
  constructor
  · intro h
    cases h with
    | one | two | four => omega
    | @three _ c d _ _ hc hd hmin =>
      have hlt := Utf8.spelled_lt [c, d]
      have heq := Utf8.spelled_eq (b.toNat - 0xE0) [c, d]
      simp only [List.length_cons, List.length_nil] at hlt heq
      exact ⟨rfl, by simp [hc, hd], by decide, by omega, hmin⟩
  · rintro ⟨hlen, hall, -, -, hmin⟩
    obtain ⟨c, d, rfl⟩ := List.length_eq_two.mp hlen
    exact .three hlo hhi (hall c (by simp)) (hall d (by simp)) hmin

private theorem form_four_iff {b : UInt8} (hlo : 0xF0 ≤ b.toNat) (hhi : b.toNat < 0xF8) :
    Utf8.Form (b :: tails) ↔ tails.length = 3 ∧ (∀ cc ∈ tails, Utf8.IsTail cc) ∧ 3 ≤ 3 ∧
      Utf8.spelled (b.toNat - 0xF0) tails ≤ 0x10FFFF ∧
      (utf8Limit 3).toNat < Utf8.spelled (b.toNat - 0xF0) tails := by
  constructor
  · intro h
    cases h with
    | one | two | three => omega
    | @four _ c d e _ _ hc hd he hmin hmax =>
        exact ⟨rfl, by simp [hc, hd, he], by decide, hmax, hmin⟩
  · rintro ⟨hlen, hall, -, hmax, hmin⟩
    obtain ⟨c, d, e, rfl⟩ := List.length_eq_three.mp hlen
    exact .four hlo hhi (hall c (by simp)) (hall d (by simp)) (hall e (by simp)) hmin hmax

/-- The forms of more than one byte are those that pass. -/
theorem form_cons_iff {b : UInt8} (hb : 0x80 ≤ b.toNat) :
    Utf8.Form (b :: tails) ↔ tails.length = utf8Ones 7 (utf8First b) ∧
      (∀ cc ∈ tails, Utf8.IsTail cc) ∧
      tails.length ≤ 3 ∧ (utf8Number b tails).toNat ≤ 0x10FFFF ∧
        (utf8Limit tails.length).toNat < (utf8Number b tails).toNat := by
  rcases leadsTails_cases b with h | ⟨hlo, hhi, h⟩ | ⟨hlo, hhi, h⟩ | ⟨hlo, hhi, h⟩ | ⟨hlo, hhi, h⟩ |
    ⟨hlo, hmore⟩
  · omega
  · refine iff_of_false (not_form_tail hlo hhi) fun hpasses ↦ ?_
    obtain ⟨hlen, -, -, -, hmin⟩ := h.passes_iff.mp hpasses
    rw [List.eq_nil_of_length_eq_zero hlen] at hmin
    have hsmall : 0xFF < b.toNat - 0x80 := hmin
    omega
  · rw [h.passes_iff, form_two_iff hlo hhi]
  · rw [h.passes_iff, form_three_iff hlo hhi]
  · rw [h.passes_iff, form_four_iff hlo hhi]
  · refine iff_of_false (fun h ↦ ?_) fun ⟨hlen, _, hsmall, _⟩ ↦ by omega
    cases h <;> omega

/-- `utf8_copy` takes a form from the front, and nothing else. -/
theorem utf8Copy_eq_ok {n : ℕ} :
    utf8Copy s = .ok n ↔ ∃ form rest, s = form ++ rest ∧ Utf8.Form form ∧ n = form.length := by
  cases s with
  | nil =>
    constructor
    · intro h
      cases h
    · rintro ⟨form, rest, hsplit, hform, -⟩
      have hpos := hform.length_pos
      rw [(List.append_eq_nil_iff.mp hsplit.symm).1] at hpos
      exact absurd hpos (Nat.lt_irrefl 0)
  | cons b s =>
    by_cases hb : b.toNat < 0x80
    · have hsmall : b < 0x80 := UInt8.lt_iff_toNat_lt.mpr hb
      rw [utf8Copy, if_pos hsmall]
      constructor
      · intro h
        cases h
        exact ⟨[b], s, rfl, .one hb, rfl⟩
      · rintro ⟨form, rest, hsplit, hform, rfl⟩
        cases hform with
        | one => rfl
        | two hlo | three hlo | four hlo =>
          obtain ⟨rfl, -⟩ := List.cons.inj hsplit
          omega
    · rw [utf8Copy_eq_ok_of_le (Nat.le_of_not_lt hb)]
      constructor
      · rintro ⟨tails, rest, rfl, hlen, hall, hok, rfl⟩
        exact ⟨b :: tails, rest, rfl,
          (form_cons_iff (Nat.le_of_not_lt hb)).mpr ⟨hlen, hall, hok⟩, rfl⟩
      · rintro ⟨form, rest, hsplit, hform, rfl⟩
        cases form with
        | nil => exact absurd hform.length_pos (Nat.lt_irrefl 0)
        | cons b' tails =>
          obtain ⟨rfl, rfl⟩ := List.cons.inj hsplit
          obtain ⟨hlen, hall, hok⟩ := (form_cons_iff (Nat.le_of_not_lt hb)).mp hform
          exact ⟨tails, rest, rfl, hlen, hall, hok, rfl⟩

/-! ## The whole text -/

theorem utf8Fault_eq_none (hbound : s.length ≤ bound) : utf8Fault bound s = none ↔ Utf8.Text s := by
  induction bound generalizing s with
  | zero =>
    rw [List.eq_nil_of_length_eq_zero (Nat.le_zero.mp hbound)]
    exact iff_of_true rfl .nil
  | succ bound ih =>
    rw [utf8Fault]
    by_cases hs : s = []
    · rw [if_pos hs, hs]
      exact iff_of_true rfl .nil
    · rw [if_neg hs]
      cases hcopy : utf8Copy s with
      | error copied =>
        refine iff_of_false (by simp) fun htext ↦ ?_
        obtain ⟨form, rest, hsplit, hform, -⟩ := htext.of_ne_nil hs
        rw [utf8Copy_eq_ok.mpr ⟨form, rest, hsplit, hform, rfl⟩] at hcopy
        cases hcopy
      | ok n =>
        obtain ⟨form, rest, rfl, hform, rfl⟩ := utf8Copy_eq_ok.mp hcopy
        have hpos := hform.length_pos
        rw [List.length_append] at hbound
        dsimp only
        rw [Option.map_eq_none_iff, List.drop_left, ih (by omega)]
        constructor
        · exact fun h ↦ .cons hform h
        · intro htext
          obtain ⟨form', rest', hsplit, hform', hrest⟩ := htext.of_ne_nil hs
          -- The form at the front is the only one.
          rw [hsplit, utf8Copy_eq_ok.mpr ⟨form', rest', rfl, hform', rfl⟩] at hcopy
          obtain ⟨-, rfl⟩ := List.append_inj hsplit (Except.ok.inj hcopy).symm
          exact hrest

theorem textFault_eq_none {text : List UInt8} : textFault text = none ↔ Utf8.Text text :=
  utf8Fault_eq_none (Nat.le_refl _)

/-! ## The bytes that are written -/

/-- Memory in which bytes have been put at an address. -/
def putAt (mem : ℕ → UInt8) (dst : ℕ) (xs : List UInt8) : ℕ → UInt8 := fun i ↦
  if dst ≤ i then (xs[i - dst]?).getD (mem i) else mem i

/-- The loop of `utf8_copy` with the memory at `dst`. -/
def utf8CopyTail (s : List UInt8) (dst : ℕ) :
    ℕ → UInt32 → ℕ → UInt32 → (ℕ → UInt8) → Option (UInt32 × ℕ × UInt32) × (ℕ → UInt8)
  | 0, c, count, res, mem => (some (c, count, res), mem)
  | bound + 1, c, count, res, mem =>
    if c &&& 0x40 = 0 then (some (c, count, res), mem)
    else
      match s[count + 1]? with
      | none => (none, mem)
      | some cc =>
        if cc &&& 0xC0 ≠ 0x80 then (none, mem)
        else
          utf8CopyTail s dst bound (c <<< 1) (count + 1) ((res <<< 6) ||| (cc &&& 0x3F).toUInt32)
            (Function.update mem (dst + (count + 1)) cc)

/-- `utf8_copy`; it returns 0 where the text is not valid. For a byte `0xFF` with seven bytes of
continuation behind it the source shifts an `unsigned int` by 35 places, and C says nothing of a
count from 32 on; here it is taken modulo 32, and the sequence is refused for its length whatever
the shift gives. -/
def utf8CopyTo (s : List UInt8) (dst : ℕ) (mem : ℕ → UInt8) : ℕ × (ℕ → UInt8) :=
  match s with
  | [] => (0, mem)
  | b :: bs =>
    let mem := Function.update mem dst b
    if b < 0x80 then (1, mem)
    else
      match utf8CopyTail (b :: bs) dst 7 (0xFFFFFF00 ||| b.toUInt32) 0 0 mem with
      | (none, mem) => (0, mem)
      | (some (c, count, res), mem) =>
        let res := res ||| ((c &&& 0x7F) <<< (count * 5).toUInt32)
        if 3 < count ∨ 0x10FFFF < res ∨ res ≤ utf8Limit count then (0, mem)
        else (count + 1, mem)

/-- The loop of `write_string`, with whether it comes to the end of the text. The count of the shift
in `utf8_copy` reaches 32 only for `0xFF` with seven bytes of continuation (`utf8CopyTo`). -/
def copyString : ℕ → List UInt8 → ℕ → (ℕ → UInt8) → Bool × (ℕ → UInt8)
  | 0, _, _, mem => (true, mem)
  | bound + 1, src, dst, mem =>
    if src = [] then (true, mem)
    else
      match utf8CopyTo src dst mem with
      | (0, mem) => (false, mem)
      | (c + 1, mem) => copyString bound (src.drop (c + 1)) (dst + (c + 1)) mem

section Memory

variable {mem : ℕ → UInt8} {dst : ℕ} {xs ys : List UInt8}

private theorem putAt_nil : putAt mem dst [] = mem := by
  funext i
  rw [putAt]
  split <;> rfl

theorem putAt_putAt : putAt (putAt mem dst xs) (dst + xs.length) ys = putAt mem dst (xs ++ ys) := by
  funext i
  simp only [putAt]
  by_cases hi : dst ≤ i
  · by_cases hbehind : dst + xs.length ≤ i
    · rw [if_pos hbehind, if_pos hi, if_pos hi, List.getElem?_append_right (by omega),
        List.getElem?_eq_none (show xs.length ≤ i - dst by omega), Option.getD_none]
      congr 2
      omega
    · rw [if_neg hbehind, if_pos hi, if_pos hi, List.getElem?_append_left (by omega)]
  · rw [if_neg hi, if_neg hi, if_neg (by omega)]

private theorem putAt_singleton (b : UInt8) : putAt mem dst [b] = Function.update mem dst b := by
  funext i
  rw [putAt]
  by_cases hi : i = dst
  · rw [hi, Function.update_self, if_pos (Nat.le_refl _), Nat.sub_self]
    rfl
  · rw [Function.update_of_ne hi]
    split
    · rw [List.getElem?_eq_none (by rw [List.length_singleton]; omega), Option.getD_none]
    · rfl

private theorem update_putAt_take {n : ℕ} {b : UInt8} (h : s[n]? = some b) :
    Function.update (putAt mem dst (s.take n)) (dst + n) b = putAt mem dst (s.take (n + 1)) := by
  obtain ⟨hlt, hb⟩ := List.getElem?_eq_some_iff.mp h
  have hlen : (s.take n).length = n := by
    rw [List.length_take]
    omega
  have htake : s.take (n + 1) = s.take n ++ [b] := by
    rw [List.take_add_one, h]
    rfl
  have hput := @putAt_putAt mem dst (s.take n) [b]
  rw [htake, ← hput, putAt_singleton, hlen]

private theorem utf8CopyTail_eq (bound : ℕ) (c : UInt32) (count : ℕ) (res : UInt32) :
    utf8CopyTail s dst bound c count res (putAt mem dst (s.take (count + 1))) =
      match utf8Tail s bound c count res with
      | .ok r => (some r, putAt mem dst (s.take (r.2.1 + 1)))
      | .error copied => (none, putAt mem dst (s.take copied)) := by
  induction bound generalizing c count res with
  | zero => rfl
  | succ bound ih =>
    rw [utf8CopyTail, utf8Tail]
    by_cases hc : c &&& 0x40 = 0
    · rw [if_pos hc, if_pos hc]
    · rw [if_neg hc, if_neg hc]
      cases hget : s[count + 1]? with
      | none => rfl
      | some cc =>
        dsimp only
        by_cases htail : cc &&& 0xC0 ≠ 0x80
        · rw [if_pos htail, if_pos htail]
        · rw [if_neg htail, if_neg htail, update_putAt_take hget, ih]

/-- `utf8_copy` copies the bytes that it takes, or those up to where it fails. -/
theorem utf8CopyTo_eq (s : List UInt8) (dst : ℕ) (mem : ℕ → UInt8) :
    utf8CopyTo s dst mem =
      match utf8Copy s with
      | .ok c => (c, putAt mem dst (s.take c))
      | .error copied => (0, putAt mem dst (s.take copied)) := by
  cases s with
  | nil =>
    rw [utf8CopyTo, utf8Copy]
    dsimp only
    rw [List.take_nil, putAt_nil]
  | cons b bs =>
    rw [utf8CopyTo, utf8Copy, ← putAt_singleton]
    dsimp only
    by_cases hb : b < 0x80
    · rw [if_pos hb, if_pos hb]
      rfl
    · have htail := @utf8CopyTail_eq (b :: bs) mem dst 7 (0xFFFFFF00 ||| b.toUInt32) 0 0
      rw [if_neg hb, if_neg hb]
      change utf8CopyTail (b :: bs) dst 7 _ 0 0 (putAt mem dst [b]) = _ at htail
      rw [htail]
      cases utf8Tail (b :: bs) 7 (0xFFFFFF00 ||| b.toUInt32) 0 0 with
      | error copied => rfl
      | ok r =>
        obtain ⟨c, count, res⟩ := r
        dsimp only
        split <;> rfl

/-- The loop copies the text, or the bytes up to where it is not valid. -/
theorem copyString_eq (hbound : s.length ≤ bound) :
    copyString bound s dst mem =
      match utf8Fault bound s with
      | none => (true, putAt mem dst s)
      | some copied => (false, putAt mem dst (s.take copied)) := by
  induction bound generalizing s dst mem with
  | zero =>
    rw [List.eq_nil_of_length_eq_zero (Nat.le_zero.mp hbound)]
    exact congrArg (Prod.mk true) putAt_nil.symm
  | succ bound ih =>
    rw [copyString, utf8Fault]
    by_cases hs : s = []
    · rw [if_pos hs, if_pos hs, hs, putAt_nil]
    · rw [if_neg hs, if_neg hs, utf8CopyTo_eq]
      cases hcopy : utf8Copy s with
      | error copied => rfl
      | ok c =>
        obtain ⟨form, rest, rfl, hform, rfl⟩ := utf8Copy_eq_ok.mp hcopy
        obtain ⟨n, hn⟩ := Nat.exists_eq_succ_of_ne_zero (Nat.ne_of_gt hform.length_pos)
        rw [List.length_append] at hbound
        have hrest : copyString bound rest (dst + form.length) (putAt mem dst form) =
            _ := ih (by omega)
        have hdrop : (form ++ rest).drop (n + 1) = rest := List.drop_left' hn
        dsimp only
        rw [List.take_left, List.drop_left]
        rw [hn] at hrest ⊢
        dsimp only
        rw [hdrop, hrest]
        cases utf8Fault bound rest with
        | none =>
          dsimp only [Option.map_none]
          rw [← hn, putAt_putAt]
        | some copied =>
          dsimp only [Option.map_some]
          rw [← hn, putAt_putAt, List.take_length_add_append]

end Memory

/-- `write_string` takes a text if and only if it is UTF-8, and writes its bytes then. -/
theorem copyString_iff (text : List UInt8) (dst : ℕ) (mem : ℕ → UInt8) :
    ((copyString text.length text dst mem).1 = true ↔ Utf8.Text text) ∧
      ((copyString text.length text dst mem).1 = true →
        (copyString text.length text dst mem).2 = putAt mem dst text) ∧
      ∀ b b' u, writeString text b = .ok (u, b') →
        Utf8.Text text ∧ b'.written = b.written ++ (text ++ [0]) := by
  have hcopy := @copyString_eq text text.length mem dst (Nat.le_refl _)
  -- the fault of the text says both whether it is valid and how far the copy went
  change _ = (match textFault text with | none => _ | some copied => _) at hcopy
  refine ⟨?_, ?_, ?_⟩
  · rw [← textFault_eq_none, hcopy]
    cases textFault text <;> simp
  · rw [hcopy]
    cases textFault text with
    | none => exact fun _ ↦ rfl
    | some copied => exact fun h ↦ (nomatch h)
  · intro b b' u hrun
    rw [writeString_eq] at hrun
    obtain ⟨xs, hout, hwritten⟩ := Layout.of_run hrun
    obtain ⟨hvalid, rfl⟩ := layCstring_out.mp hout
    exact ⟨textFault_eq_none.mp hvalid, hwritten⟩

theorem copyString_iff_accent :
    (copyString 2 [0xC3, 0xA9] 5 fun _ ↦ 0).2 = putAt (fun _ ↦ 0) 5 [0xC3, 0xA9] :=
  (copyString_iff [0xC3, 0xA9] 5 fun _ ↦ 0).2.1 rfl

end ZTask
