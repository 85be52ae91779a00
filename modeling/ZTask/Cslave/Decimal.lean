import ZTask.Cslave.Service

/-!
# Numbers in texts

The slave and the harbor service tell each other numbers in decimal. What `%d` writes, `sscanf` and
`tonumber` read (`scanConnect_connectText`, `tonumber_decimal`).
-/

namespace ZTask

variable {rest : List UInt8}

/-! ## Digits -/

private theorem digit_bounds {c : Char} (hc : c.isDigit = true) : 48 ≤ c.toNat ∧ c.toNat ≤ 57 := by
  rw [Char.isDigit, Bool.and_eq_true, decide_eq_true_eq, decide_eq_true_eq] at hc
  exact ⟨hc.1, hc.2⟩

theorem toNat_digit {c : Char} (hc : c.isDigit = true) : (UInt8.ofNat c.toNat).toNat = c.toNat := by
  have hbounds := digit_bounds hc
  rw [UInt8.toNat_ofNat']
  omega

theorem isDigit_of_mem_decimal {n : ℕ} {b : UInt8} (hb : b ∈ decimal n) : isDigit b = true := by
  obtain ⟨c, hc, rfl⟩ := List.mem_map.mp hb
  have hdigit := Nat.isDigit_of_mem_toDigits (by decide) (by decide) hc
  have hbounds := digit_bounds hdigit
  rw [isDigit, Bool.and_eq_true, decide_eq_true_eq, decide_eq_true_eq, UInt8.le_iff_toNat_le,
    UInt8.le_iff_toNat_le, toNat_digit hdigit]
  exact hbounds

private theorem decimal_ne_nil (n : ℕ) : decimal n ≠ [] := by
  rw [decimal, ne_eq, List.map_eq_nil_iff]
  exact Nat.toDigits_ne_nil

/-- The value of digits. -/
theorem foldl_decimal (n : ℕ) :
    (decimal n).foldl (fun n b ↦ 10 * n + (b.toNat - 48)) 0 = n := by
  have hfold : ∀ (cs : List Char) (init : ℕ), (∀ c ∈ cs, c.isDigit = true) →
      (cs.map fun c ↦ UInt8.ofNat c.toNat).foldl (fun n b ↦ 10 * n + (b.toNat - 48)) init =
        Nat.ofDigitChars 10 cs init := by
    intro cs
    induction cs with
    | nil => exact fun _ _ ↦ rfl
    | cons c cs ih =>
      intro init hcs
      rw [List.map_cons, List.foldl_cons, ih _ fun c' hc' ↦ hcs c' (List.mem_cons_of_mem _ hc'),
        toNat_digit (hcs c List.mem_cons_self), Nat.ofDigitChars_cons]
      rfl
  rw [decimal, hfold _ _ fun c hc ↦ Nat.isDigit_of_mem_toDigits (by decide) (by decide) hc,
    Nat.ofDigitChars_ten_toDigits]

private theorem isDigit_cases {b : UInt8} (hb : isDigit b = true) :
    isSpace b = false ∧ b ≠ 45 ∧ b ≠ 43 := by
  simp only [isDigit, Bool.and_eq_true, decide_eq_true_eq, UInt8.le_iff_toNat_le] at hb
  have h48 : (48 : UInt8).toNat = 48 := rfl
  rw [h48] at hb
  refine ⟨?_, ?_, ?_⟩
  · rw [isSpace, Bool.or_eq_false_iff, beq_eq_false_iff_ne, Bool.and_eq_false_iff]
    refine ⟨?_, Or.inr (decide_eq_false ?_)⟩
    · rintro rfl
      exact absurd hb.1 (by decide)
    · rw [UInt8.le_iff_toNat_le]
      have h13 : (13 : UInt8).toNat = 13 := rfl
      omega
  · rintro rfl
    exact absurd hb.1 (by decide)
  · rintro rfl
    exact absurd hb.1 (by decide)

/-! ## Scanning -/

/-- The number that digits in front of a text stand for, and what follows them. -/
def leadingNumber (text : List UInt8) : ℕ × List UInt8 :=
  ((text.takeWhile isDigit).foldl (fun n b ↦ 10 * n + (b.toNat - 48)) 0, text.dropWhile isDigit)

private theorem scanInt_cons {b : UInt8} (hb : isDigit b = true) (text : List UInt8) :
    scanInt (b :: text) =
      some (((leadingNumber (b :: text)).1 : ℤ), (leadingNumber (b :: text)).2) := by
  obtain ⟨hspace, hminus, hplus⟩ := isDigit_cases hb
  simp only [scanInt, List.dropWhile_cons_of_neg (show ¬isSpace b = true by simp [hspace]),
    if_neg hminus, if_neg hplus, List.takeWhile_cons_of_pos hb, List.cons_ne_nil, if_false,
    leadingNumber, Int.one_mul]

private theorem scanInt_minus {b : UInt8} (hb : isDigit b = true) (text : List UInt8) :
    scanInt (45 :: b :: text) =
      some (-((leadingNumber (b :: text)).1 : ℤ), (leadingNumber (b :: text)).2) := by
  simp only [scanInt, List.dropWhile_cons_of_neg (show ¬isSpace 45 = true by decide), if_true,
    List.takeWhile_cons_of_pos hb, List.cons_ne_nil, if_false, leadingNumber, Int.neg_mul,
    Int.one_mul]

/-- Digits are read up to the first byte that is none. -/
theorem leadingNumber_decimal (n : ℕ) (hrest : ∀ b ∈ rest.head?, isDigit b = false) :
    leadingNumber (decimal n ++ rest) = (n, rest) := by
  have hall : ∀ b ∈ decimal n, isDigit b = true := fun b hb ↦ isDigit_of_mem_decimal hb
  have htake : (decimal n ++ rest).takeWhile isDigit = decimal n := by
    rw [List.takeWhile_append_of_pos hall]
    cases rest with
    | nil => rw [List.takeWhile_nil, List.append_nil]
    | cons b rest => rw [List.takeWhile_cons_of_neg (by simp [hrest b rfl]), List.append_nil]
  have hdrop : (decimal n ++ rest).dropWhile isDigit = rest := by
    rw [List.dropWhile_append_of_pos hall]
    cases rest with
    | nil => rfl
    | cons b rest => rw [List.dropWhile_cons_of_neg (by simp [hrest b rfl])]
  rw [leadingNumber, htake, hdrop, foldl_decimal]

theorem scanInt_decimal (n : ℕ) (hrest : ∀ b ∈ rest.head?, isDigit b = false) :
    scanInt (decimal n ++ rest) = some ((n : ℤ), rest) := by
  have hnumber := leadingNumber_decimal n hrest
  obtain ⟨b, digits, hcons⟩ := List.exists_cons_of_ne_nil (decimal_ne_nil n)
  have hb : isDigit b = true := isDigit_of_mem_decimal (by rw [hcons]; exact List.mem_cons_self)
  rw [hcons, List.cons_append] at hnumber ⊢
  rw [scanInt_cons hb, hnumber]

/-- The same for numbers with a sign. -/
theorem scanInt_decimalInt (n : ℤ) (hrest : ∀ b ∈ rest.head?, isDigit b = false) :
    scanInt (decimalInt n ++ rest) = some (n, rest) := by
  rw [decimalInt]
  split
  next hneg =>
    have hnumber := leadingNumber_decimal n.natAbs hrest
    obtain ⟨b, digits, hcons⟩ := List.exists_cons_of_ne_nil (decimal_ne_nil n.natAbs)
    have hb : isDigit b = true := isDigit_of_mem_decimal (by rw [hcons]; exact List.mem_cons_self)
    rw [hcons, List.cons_append] at hnumber
    rw [hcons, List.cons_append, List.cons_append, scanInt_minus hb, hnumber]
    have habs : -(n.natAbs : ℤ) = n := by omega
    rw [habs]
  next hpos =>
    have habs : (n.natAbs : ℤ) = n := by omega
    rw [scanInt_decimal _ hrest, habs]

/-! ## Commands -/

/-- **What the harbor reads of `S fd id` and `A fd id`.** -/
theorem scanConnect_connectText (command : UInt8) (fd : ℕ) (id : ℤ) :
    scanConnect ((connectText command fd id).drop 2) = ((fd : ℤ), id) := by
  have hid : scanInt (32 :: decimalInt id) = some (id, []) := by
    have hscan : scanInt (decimalInt id ++ []) = some (id, []) :=
      scanInt_decimalInt id fun b hb ↦ nomatch hb
    rwa [List.append_nil] at hscan
  have hfd : scanInt (decimal fd ++ 32 :: decimalInt id) =
      some ((fd : ℤ), 32 :: decimalInt id) := by
    refine scanInt_decimal fd fun b hb ↦ ?_
    rw [← Option.some.inj hb]
    rfl
  rw [connectText, List.drop_succ_cons, List.drop_succ_cons, List.drop_zero, scanConnect, hfd]
  dsimp only
  rw [hid]

theorem tonumber_decimal (n : ℕ) : tonumber (decimal n) = some (n : ℤ) := by
  have hscan : scanInt (decimal n ++ []) = some ((n : ℤ), []) :=
    scanInt_decimal n fun b hb ↦ nomatch hb
  rw [List.append_nil] at hscan
  rw [tonumber, hscan]

end ZTask
