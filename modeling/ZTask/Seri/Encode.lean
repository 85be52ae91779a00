import ZTask.Seri.Format

/-!
# Packing writes the format

What `pack_one` appends to the blocks is an encoding of the value, if the value is plain and not
nested too deep; `seri` copies what has been appended.

## Steps that append

`Appends` has a set of byte strings rather than one, since a table may be written in any order of
its pairs. Steps are put one behind the other, and the sets with them. The blocks are no more than
where the bytes are: all but the last one are full, and `seri` goes over them
(`WriteBlock.Ok.seriCopy`).
-/

namespace ZTask

open Lib

/-! ## Blocks -/

namespace WriteBlock

/-- What has been written. -/
def contents (b : WriteBlock) : List UInt8 := b.filled.flatten ++ b.current

/-- All blocks but the last one are full. -/
structure Ok (b : WriteBlock) : Prop where
  full : ∀ block ∈ b.filled, block.length = seriBlockSize
  fits : b.current.length ≤ seriBlockSize
  len_eq : b.len = b.contents.length

theorem ok_init : init.Ok := ⟨fun _ hb ↦ (nomatch hb), Nat.zero_le _, rfl⟩

variable {b : WriteBlock}

theorem contents_copy (buffer : List UInt8) : (b.copy buffer).contents = b.contents ++ buffer := by
  simp only [contents, copy, List.append_assoc]

private theorem contents_alloc : b.alloc.contents = b.contents := by
  simp [contents, alloc]

theorem Ok.copy {buffer : List UInt8} (hb : b.Ok) (hfits : b.ptr + buffer.length ≤ seriBlockSize) :
    (b.copy buffer).Ok where
  full := hb.full
  fits := by
    simp only [WriteBlock.copy, List.length_append]
    exact hfits
  len_eq := by
    rw [contents_copy, List.length_append, ← hb.len_eq]
    rfl

theorem Ok.alloc (hb : b.Ok) (hfull : b.ptr = seriBlockSize) : b.alloc.Ok where
  full := by
    intro block hmem
    rcases List.mem_append.mp hmem with h | h
    · exact hb.full block h
    · rw [List.mem_singleton.mp h]
      exact hfull
  fits := Nat.zero_le _
  len_eq := by
    rw [contents_alloc]
    exact hb.len_eq

/-- The loop ends with the buffer appended, if it may go on for as many blocks as the buffer takes.
-/
theorem Ok.copyBlocks {n : ℕ} {buffer : List UInt8} (hb : b.Ok)
    (hn : b.ptr + buffer.length ≤ seriBlockSize * (n + 1)) :
    (b.copyBlocks n buffer).Ok ∧ (b.copyBlocks n buffer).contents = b.contents ++ buffer := by
  induction n generalizing b buffer with
  | zero =>
    rw [Nat.zero_add, Nat.mul_one] at hn
    exact ⟨hb.copy hn, contents_copy buffer⟩
  | succ n ih =>
    rw [WriteBlock.copyBlocks]
    split
    next hfits => exact ⟨hb.copy hfits, contents_copy buffer⟩
    next =>
      have hptr := hb.fits
      change b.ptr ≤ seriBlockSize at hptr
      have htake : (buffer.take (seriBlockSize - b.ptr)).length = seriBlockSize - b.ptr := by
        rw [List.length_take]
        omega
      have hcopy : (b.copy (buffer.take (seriBlockSize - b.ptr))).Ok := hb.copy (by omega)
      have hfull : (b.copy (buffer.take (seriBlockSize - b.ptr))).ptr = seriBlockSize := by
        simp only [ptr, WriteBlock.copy, List.length_append] at hptr htake ⊢
        omega
      have hrest : (b.copy (buffer.take (seriBlockSize - b.ptr))).alloc.ptr +
          (buffer.drop (seriBlockSize - b.ptr)).length ≤ seriBlockSize * (n + 1) := by
        rw [List.length_drop]
        show 0 + _ ≤ _
        rw [Nat.mul_succ] at hn
        omega
      obtain ⟨hok, hcontents⟩ := ih (hcopy.alloc hfull) hrest
      refine ⟨hok, ?_⟩
      rw [hcontents, contents_alloc, contents_copy, List.append_assoc, List.take_append_drop]

theorem room_of_blocks {p : ℕ} (n : ℕ) (hp : p ≤ seriBlockSize) :
    p + n ≤ seriBlockSize * (n / seriBlockSize + 1 + 1) := by
  have hdiv := Nat.div_add_mod n seriBlockSize
  have hmod := Nat.mod_lt n (show 0 < seriBlockSize by decide)
  rw [Nat.mul_succ, Nat.mul_succ]
  omega

/-- **`wb_push` appends.** -/
theorem Ok.push (hb : b.Ok) (buffer : List UInt8) :
    (b.push buffer).Ok ∧ (b.push buffer).contents = b.contents ++ buffer := by
  simp only [WriteBlock.push]
  split
  next hfull =>
    have h := (hb.alloc hfull).copyBlocks (room_of_blocks buffer.length (Nat.zero_le _))
    rwa [contents_alloc] at h
  next => exact hb.copyBlocks (room_of_blocks _ hb.fits)

end WriteBlock

private theorem seriCopy_full {block : List UInt8} {blocks : List (List UInt8)} {len : ℕ}
    (hblock : block.length = seriBlockSize) :
    seriCopy (block :: blocks) (seriBlockSize + len) = (seriCopy blocks len).map (block ++ ·) := by
  obtain ⟨n, hn⟩ : ∃ n, seriBlockSize + len = n + 1 := ⟨127 + len, by rw [seriBlockSize]; omega⟩
  have hle : seriBlockSize ≤ n + 1 := by omega
  have hlen : n + 1 - seriBlockSize = len := by omega
  rw [hn, seriCopy, if_pos hle, if_neg (by omega), hlen]

private theorem seriCopy_last {current : List UInt8} (hlt : current.length < seriBlockSize) :
    seriCopy [current] current.length = some current := by
  cases hn : current.length with
  | zero =>
    rw [List.length_eq_zero_iff.mp hn]
    rfl
  | succ n =>
    rw [seriCopy, if_neg (by omega), if_neg (by omega), ← hn, List.take_length]

/-- What is copied from full blocks and the one behind them. -/
theorem seriCopy_eq {filled : List (List UInt8)} {current : List UInt8}
    (hfull : ∀ block ∈ filled, block.length = seriBlockSize)
    (hfits : current.length ≤ seriBlockSize) :
    seriCopy (filled ++ [current]) (filled.flatten ++ current).length =
      some (filled.flatten ++ current) := by
  induction filled with
  | nil =>
    rcases Nat.lt_or_eq_of_le hfits with hlt | heq
    · exact seriCopy_last hlt
    · show seriCopy [current] current.length = some current
      have hfull := @seriCopy_full current [] 0 heq
      rw [Nat.add_zero, ← heq] at hfull
      rw [hfull]
      simp [seriCopy]
  | cons block filled ih =>
    have hblock := hfull block List.mem_cons_self
    rw [List.flatten_cons, List.append_assoc, List.length_append, hblock, List.cons_append,
      seriCopy_full hblock, ih fun b hb ↦ hfull b (List.mem_cons_of_mem _ hb)]
    rfl

/-- **`seri` copies what has been written.** -/
theorem WriteBlock.Ok.seriCopy {b : WriteBlock} (hb : b.Ok) :
    seriCopy (b.filled ++ [b.current]) b.len = some b.contents := by
  rw [hb.len_eq]
  exact seriCopy_eq hb.full hb.fits

/-! ## What is appended -/

/-- The step appends one of these byte strings. -/
def Appends (x : WriteBlock → Except PackError WriteBlock) (S : List UInt8 → Prop) : Prop :=
  ∀ b : WriteBlock, b.Ok → ∃ b' e, x b = .ok b' ∧ b'.Ok ∧ b'.contents = b.contents ++ e ∧ S e

namespace Appends

variable {x y : WriteBlock → Except PackError WriteBlock} {S T : List UInt8 → Prop}

theorem mono (h : Appends x S) (hST : ∀ e, S e → T e) : Appends x T := by
  intro b hb
  obtain ⟨b', e, hx, hb', he, hS⟩ := h b hb
  exact ⟨b', e, hx, hb', he, hST e hS⟩

theorem push (bytes : List UInt8) : Appends (fun b ↦ .ok (b.push bytes)) (· = bytes) :=
  fun _ hb ↦ ⟨_, bytes, rfl, (hb.push bytes).1, (hb.push bytes).2, rfl⟩

theorem bind (hx : Appends x S) (hy : Appends y T) :
    Appends (fun b ↦ x b >>= y) fun e ↦ ∃ e₁ e₂, e = e₁ ++ e₂ ∧ S e₁ ∧ T e₂ := by
  intro b hb
  obtain ⟨b₁, e₁, hx, hb₁, he₁, hS⟩ := hx b hb
  obtain ⟨b₂, e₂, hy, hb₂, he₂, hT⟩ := hy b₁ hb₁
  refine ⟨b₂, e₁ ++ e₂, ?_, hb₂, ?_, e₁, e₂, rfl, hS, hT⟩
  · show (x b).bind y = .ok b₂
    rw [hx]
    exact hy
  · rw [he₂, he₁, List.append_assoc]

theorem foldlM {ι α : Type} {l : List ι} {f : WriteBlock → ι → Except PackError WriteBlock}
    {R : List UInt8 → α → Prop} {g : ι → α} (h : ∀ i ∈ l, Appends (f · i) (R · (g i))) :
    Appends (fun b ↦ l.foldlM f b) (Concat R · (l.map g)) := by
  induction l with
  | nil => exact fun b hb ↦ ⟨b, [], rfl, hb, (List.append_nil _).symm, .nil⟩
  | cons i l ih =>
    have hstep := (h i List.mem_cons_self).bind (ih fun j hj ↦ h j (List.mem_cons_of_mem _ hj))
    refine hstep.mono ?_
    rintro e ⟨e₁, e₂, rfl, hi, hl⟩
    exact .cons hi hl

end Appends

theorem kindOf_combineType {t : ℕ} {v : Int} (ht : t < 8) :
    kindOf (combineType t v) = t := by
  have hbyte : (UInt8.ofNat ((t + 8 * v) % 256).toNat).toNat = ((t + 8 * v) % 256).toNat % 256 := by
    simp
  rw [kindOf, combineType, hbyte]
  omega

theorem cookieOf_combineType {t c : ℕ} (ht : t < 8) (hc : c < 32) :
    cookieOf (combineType t c) = c := by
  have hbyte : (UInt8.ofNat ((t + 8 * (c : Int)) % 256).toNat).toNat =
      ((t + 8 * (c : Int)) % 256).toNat % 256 := by
    simp
  rw [cookieOf, combineType, hbyte]
  omega

private theorem appends_typed (t : ℕ) (v : Int) (bytes : List UInt8) :
    Appends (fun b ↦ .ok ((b.pushType t v).push bytes)) (· = combineType t v :: bytes) := by
  refine ((Appends.push [combineType t v]).bind (.push bytes)).mono ?_
  rintro e ⟨e₁, e₂, rfl, rfl, rfl⟩
  rfl

/-- An integer with its type byte. -/
def IntegerEncodes (e : List UInt8) (v : Int64) : Prop :=
  ∃ t bytes, e = t :: bytes ∧ kindOf t = typeNumber ∧ cookieOf t ≠ typeNumberReal ∧
    IntegerBytes (cookieOf t) bytes v

private theorem appends_integer_bytes {v : Int64} {c : ℕ} {bytes : List UInt8} (hc : c < 8)
    (h : IntegerBytes c bytes v) :
    Appends (fun b ↦ .ok ((b.pushType typeNumber c).push bytes)) (IntegerEncodes · v) := by
  refine (appends_typed typeNumber c bytes).mono ?_
  rintro e rfl
  have hcookie : cookieOf (combineType typeNumber c) = c :=
    cookieOf_combineType (by decide) (by omega)
  refine ⟨_, _, rfl, kindOf_combineType (by decide), ?_, ?_⟩
  · rw [hcookie, typeNumberReal]
    omega
  · rwa [hcookie]

theorem toNat_toUInt64 (v : Int64) : (v.toUInt64.toNat : Int) = v.toInt % 2 ^ 64 := by
  have hbits : v.toInt = Int.bmod v.toUInt64.toNat (2 ^ 64) := BitVec.toInt_eq_toNat_bmod _
  have hlt := v.toUInt64.toNat_lt
  rw [hbits, Int.bmod]
  omega

/-- **The widths of `wb_integer`**: each is read back as the integer that it is chosen for. -/
theorem integerBytes_of_width (v : Int64) :
    IntegerBytes typeNumberQword (toLittle 8 v.toUInt64.toNat) v ∧
    (v.toInt = toInt32 v.toInt →
      IntegerBytes typeNumberDword (toLittle 4 v.toUInt64.toNat) v) ∧
    (0 ≤ v.toInt ∧ v.toInt < 0x10000 →
      IntegerBytes typeNumberWord (toLittle 2 v.toUInt64.toNat) v) ∧
    (0 ≤ v.toInt ∧ v.toInt < 0x100 →
      IntegerBytes typeNumberByte (toLittle 1 v.toUInt64.toNat) v) := by
  have hlo := v.le_toInt
  have hhi := v.toInt_lt
  have hbits := toNat_toUInt64 v
  have hnat : ∀ w, (Int.bmod (v.toUInt64.toNat % 256 ^ w : ℕ) Int64.size = v.toInt) →
      v = .ofNat (ofLittle (toLittle w v.toUInt64.toNat)) := by
    intro w hw
    rw [← Int64.toInt_inj, Int64.toInt_ofNat', ofLittle_toLittle, hw]
  refine ⟨?_, fun h ↦ ?_, fun h ↦ ?_, fun h ↦ ?_⟩
  · have hv := hnat 8 (by rw [Int.bmod, Int64.size]; omega)
    conv => rhs; rw [hv]
    exact .qword (length_toLittle ..)
  · have hv : v = .ofInt (toInt32 (ofLittle (toLittle 4 v.toUInt64.toNat))) := by
      rw [toInt32, Int.bmod] at h
      rw [← Int64.toInt_inj, Int64.toInt_ofInt, ofLittle_toLittle, toInt32, Int.bmod, Int.bmod,
        Int64.size]
      omega
    conv => rhs; rw [hv]
    exact .dword (length_toLittle ..)
  · have hv := hnat 2 (by rw [Int.bmod, Int64.size]; omega)
    conv => rhs; rw [hv]
    exact .word (length_toLittle ..)
  · have hv := hnat 1 (by rw [Int.bmod, Int64.size]; omega)
    conv => rhs; rw [hv]
    exact .byte (length_toLittle ..)

/-- **`wb_integer` writes the integer.** -/
theorem appends_integer (v : Int64) : Appends (fun b ↦ .ok (b.integer v)) (IntegerEncodes · v) := by
  obtain ⟨hqword, hdword, hword, hbyte⟩ := integerBytes_of_width v
  by_cases hzero : v = 0
  · subst hzero
    refine (Appends.push [combineType typeNumber typeNumberZero]).mono ?_
    rintro e rfl
    exact ⟨_, [], rfl, by decide, by decide, .zero⟩
  by_cases hint : v.toInt ≠ toInt32 v.toInt
  · simp only [WriteBlock.integer, if_neg hzero, if_pos hint]
    exact appends_integer_bytes (by decide) hqword
  rw [ne_eq, not_not] at hint
  by_cases hneg : v.toInt < 0
  · simp only [WriteBlock.integer, if_neg hzero, if_neg (not_not.mpr hint), if_pos hneg]
    exact appends_integer_bytes (by decide) (hdword hint)
  have hnonneg := Int.not_lt.mp hneg
  by_cases hlt : v.toInt < 0x100
  · simp only [WriteBlock.integer, if_neg hzero, if_neg (not_not.mpr hint), if_neg hneg, if_pos hlt]
    exact appends_integer_bytes (by decide) (hbyte ⟨hnonneg, hlt⟩)
  by_cases hlt' : v.toInt < 0x10000
  · simp only [WriteBlock.integer, if_neg hzero, if_neg (not_not.mpr hint), if_neg hneg, if_neg hlt,
      if_pos hlt']
    exact appends_integer_bytes (by decide) (hword ⟨hnonneg, hlt'⟩)
  · simp only [WriteBlock.integer, if_neg hzero, if_neg (not_not.mpr hint), if_neg hneg, if_neg hlt,
      if_neg hlt']
    exact appends_integer_bytes (by decide) (hdword hint)

/-- **`wb_string` writes the string**, behind a length that fits. -/
theorem appends_string {str : List UInt8} (hlen : str.length < 2 ^ 31) :
    Appends (fun b ↦ .ok (b.string str (toInt32 str.length))) (Encodes ·
      (.scalar (.string str))) := by
  have hint : toInt32 str.length = str.length := toInt32_of_lt (by omega) (by omega)
  by_cases hshort : (str.length : Int) < maxCookie
  · have hcookie : cookieOf (combineType typeShortString str.length) = str.length :=
      cookieOf_combineType (by decide) (by rw [maxCookie] at hshort; omega)
    have hkind : kindOf (combineType typeShortString str.length) = typeShortString :=
      kindOf_combineType (by decide)
    by_cases hpos : 0 < (str.length : Int)
    · simp only [WriteBlock.string, hint, if_pos hshort, if_pos hpos, Int.toNat_natCast,
        List.take_length]
      refine (appends_typed _ _ _).mono ?_
      rintro e rfl
      exact .shortString hkind hcookie.symm
    · simp only [WriteBlock.string, hint, if_pos hshort, if_neg hpos]
      refine (Appends.push [_]).mono ?_
      rintro e rfl
      have hnil : str = [] := List.length_eq_zero_iff.mp (by omega)
      subst hnil
      exact .shortString hkind hcookie.symm
  by_cases hword : (str.length : Int) < 0x10000
  · simp only [WriteBlock.string, hint, if_neg hshort, if_pos hword, Int.toNat_natCast,
      List.take_length]
    refine ((appends_typed typeLongString 2 _).bind (.push str)).mono ?_
    rintro e ⟨_, _, rfl, rfl, rfl⟩
    refine .wordString (kindOf_combineType (by decide)) (by decide) (length_toLittle ..) ?_
    rw [ofLittle_toLittle_of_lt (by omega)]
  · simp only [WriteBlock.string, hint, if_neg hshort, if_neg hword, Int.toNat_natCast,
      List.take_length]
    refine ((appends_typed typeLongString 4 _).bind (.push str)).mono ?_
    rintro e ⟨_, str, rfl, rfl, rfl⟩
    have hback : ofLittle (toLittle 4 str.length) = str.length := ofLittle_toLittle_of_lt (by omega)
    refine .dwordString (kindOf_combineType (by decide)) (by decide) (length_toLittle ..) ?_ ?_
    · rw [hback]
    · rwa [hback]

theorem appends_nil : Appends (fun b ↦ .ok b.nil) (Encodes · .nil) := by
  refine (Appends.push [combineType typeNil 0]).mono ?_
  rintro e rfl
  exact .nil (by decide)

/-- A value that is not a table. -/
theorem appends_scalar {s : LuaScalar} (hs : s.Plain) (depth : ℕ) :
    Appends (fun b ↦ packOne (depth + 1) b (.scalar s)) (Encodes · (.scalar s)) := by
  cases s with
  | nil => exact appends_nil
  | boolean x =>
    refine (Appends.push [combineType typeBoolean (if x then 1 else 0)]).mono ?_
    rintro e rfl
    cases x
    · exact .boolean (by decide)
    · exact .boolean (by decide)
  | integer x =>
    refine (appends_integer x).mono ?_
    rintro e ⟨t, bytes, rfl, hkind, -, hbytes⟩
    exact .integer hkind hbytes
  | real n =>
    refine (appends_typed typeNumber typeNumberReal (toLittle 8 n.toNat)).mono ?_
    rintro e rfl
    conv => arg 2; rw [← ofNat_bytes n]
    exact .real (by decide) (by decide) (length_toLittle ..)
  | string str => exact appends_string hs
  | userdata p =>
    refine ((Appends.push [.ofNat typeUserdata]).bind (.push (toLittle 8 p.toNat))).mono ?_
    rintro e ⟨_, _, rfl, rfl, rfl⟩
    conv => arg 2; rw [← ofNat_bytes p]
    exact .userdata (by decide) (length_toLittle ..)
  | other typename => exact hs.elim

end ZTask
