import ZTask.Bson.Grammar

/-!
# Reading a value

What each function of the reader does in front of given bytes (`BsonReader.Shows`), and that the
decoder computes the scalar values (`unpackValue_scalar`).

## Functions in front of bytes

`BsonReader.Shows` says what is left to a reader, and `Computes` what a function makes of it: it
takes some bytes and returns a value, or it raises an error. What comes behind the bytes does not
matter. So a function that calls two others computes what they compute one after the other, and
`unpackValue_scalar` goes through the types with these lemmas.
-/

namespace ZTask

open Lib

attribute [local irreducible] toInt32

/-- The reader has `rest` left, which ends at `e` in the block. -/
structure BsonReader.Shows (block : List UInt8) (e : ℕ) (br : BsonReader) (rest : List UInt8) :
    Prop where
  small : block.length < 2 ^ 31
  le_length : e ≤ block.length
  stands : rest <:+ block.take e
  ptr_eq : br.ptr + rest.length = e
  size_eq : br.size = rest.length

namespace BsonReader.Shows

variable {block rest : List UInt8} {e : ℕ} {br : BsonReader}

theorem length_le (h : br.Shows block e rest) : rest.length ≤ e := by
  have hle := h.stands.length_le
  rw [List.length_take] at hle
  omega

/-- The reader goes on within what is left. -/
theorem advance (h : br.Shows block e rest) {n : ℕ} (hn : n ≤ rest.length) :
    (br.advance n).Shows block e (rest.drop n) where
  small := h.small
  le_length := h.le_length
  stands := (List.drop_suffix n rest).trans h.stands
  ptr_eq := by
    have hptr := h.ptr_eq
    rw [List.length_drop]
    show br.ptr + n + _ = _
    omega
  size_eq := by
    have hsmall := h.small
    have hle := h.le_length
    have hrest := h.length_le
    rw [List.length_drop]
    show toInt32 (br.size - n) = _
    rw [h.size_eq, toInt32_of_lt (by omega) (by omega)]
    omega

theorem split (h : br.Shows block e rest) :
    ∃ before after, block = before ++ rest ++ after ∧ br.ptr = before.length := by
  obtain ⟨before, hbefore⟩ := h.stands
  refine ⟨before, block.drop e, ?_, ?_⟩
  · rw [hbefore, List.take_append_drop]
  · have hlen := congrArg List.length hbefore
    have hptr := h.ptr_eq
    have hle := h.le_length
    rw [List.length_append, List.length_take] at hlen
    omega

theorem bytesAt (h : br.Shows block e rest) {off n : ℕ} (hn : off + n ≤ rest.length) :
    bytesAt block (br.ptr + off) n = .ok ((rest.drop off).take n) := by
  obtain ⟨before, after, rfl, hptr⟩ := h.split
  have hsplit : ((before ++ rest ++ after).drop (before.length + off)).take n =
      (rest.drop off).take n := by
    rw [List.append_assoc, ← List.drop_drop, List.drop_left,
      List.drop_append_of_le_length (by omega),
      List.take_append_of_le_length (by rw [List.length_drop]; omega)]
  have htoNat : (br.ptr + off).toNat = before.length + off := by omega
  rw [ZTask.bytesAt, if_pos (.inr ⟨by omega, by simp only [List.length_append]; omega⟩),
    htoNat, hsplit]

private theorem bytesAt_front (h : br.Shows block e rest) {n : ℕ} (hn : n ≤ rest.length) :
    ZTask.bytesAt block br.ptr n = .ok (rest.take n) := by
  have hbytes := h.bytesAt (show 0 + n ≤ rest.length by omega)
  rwa [Int.natCast_zero, Int.add_zero, List.drop_zero] at hbytes

theorem byteAt (h : br.Shows block e rest) {i : ℕ} {b : UInt8} (hb : rest[i]? = some b) :
    byteAt block (br.ptr + i) = .ok b := by
  obtain ⟨before, after, rfl, hptr⟩ := h.split
  have hlt := (List.getElem?_eq_some_iff.mp hb).1
  have htoNat : (br.ptr + i).toNat = before.length + i := by omega
  rw [ZTask.byteAt, if_pos (by omega), htoNat, List.append_assoc,
    List.getElem?_append_right (by omega), Nat.add_sub_cancel_left,
      List.getElem?_append_left hlt, hb]

/-! ## The functions of the reader -/

theorem readRaw (h : br.Shows block e rest) {n : ℕ} (hn : n ≤ rest.length) :
    readRaw block n br = (.ok (rest.take n), br.advance n) := by
  have hcheck : checkReader n br = (.ok (), br) := by
    rw [checkReader, if_neg (by rw [h.size_eq]; omega)]
  refine (Failing.bind_ok hcheck).trans ((Failing.bind_ok (show readerPtr br = (.ok br.ptr, br) from
    rfl)).trans ?_)
  rw [h.bytesAt_front hn]
  rfl

theorem readRaw_short (h : br.Shows block e rest) {n : ℕ} (hn : rest.length < n) :
    ∃ m, ZTask.readRaw block n br = (.error (.raised m), br) := by
  have hcheck : checkReader n br = (.error (.raised (.invalidBlock br.size n)), br) := by
    rw [checkReader, if_pos (by rw [h.size_eq]; omega)]
  exact ⟨_, Failing.bind_error hcheck⟩

theorem readInt32 (h : br.Shows block e rest) (hn : 4 ≤ rest.length) :
    readInt32 block br = (.ok (frontInt rest), br.advance (4 : ℕ)) :=
  Failing.bind_ok (h.readRaw hn)

theorem readBsonByte {b : UInt8} (h : br.Shows block e (b :: rest)) :
    readBsonByte block br = (.ok b, br.advance (1 : ℕ)) := by
  have hbyte : UInt8.ofNat (ofLittle [b]) = b := by
    rw [ofLittle, ofLittle, Nat.mul_zero, Nat.add_zero, UInt8.ofNat_toNat]
  refine (Failing.bind_ok (h.readRaw (Nat.succ_le_succ (Nat.zero_le rest.length)))).trans ?_
  show (Except.ok (UInt8.ofNat (ofLittle [b])), _) = _
  rw [hbyte]

theorem cstringLength {key : List UInt8} (h : br.Shows block e (key ++ 0 :: rest)) (hkey : 0 ∉ key)
    {bound i : ℕ} (hi : i ≤ key.length) (hbound : key.length < bound + i) :
    cstringLength block br bound i = .ok key.length := by
  induction bound generalizing i with
  | zero => omega
  | succ bound ih =>
    have hsize : (i : ℤ) ≠ br.size := by
      rw [h.size_eq, List.length_append, List.length_cons]
      omega
    rw [ZTask.cstringLength, if_neg hsize]
    by_cases hend : i = key.length
    · have hzero : (key ++ 0 :: rest)[i]? = some 0 := by
        rw [hend, List.getElem?_append_right (Nat.le_refl _), Nat.sub_self]
        rfl
      rw [h.byteAt hzero, hend]
      rfl
    · have hget : (key ++ 0 :: rest)[i]? = some key[i] := by
        rw [List.getElem?_append_left (by omega), List.getElem?_eq_getElem]
      have hne : key[i] ≠ 0 := fun heq ↦ hkey (heq ▸ List.getElem_mem _)
      rw [h.byteAt hget]
      show (if key[i] = 0 then _ else _) = _
      rw [if_neg hne]
      exact ih (by omega) (by omega)

theorem readCstring {key : List UInt8} (h : br.Shows block e (key ++ 0 :: rest)) (hkey : 0 ∉ key) :
    readCstring block br = (.ok key, br.advance (key.length + 1 : ℕ)) := by
  have hlen := h.length_le
  have hle := h.le_length
  rw [List.length_append, List.length_cons] at hlen
  have hloop := h.cstringLength hkey (Nat.zero_le _)
    (show key.length < block.length + 1 + 0 by omega)
  have hbytes := h.bytesAt_front (show key.length ≤ (key ++ 0 :: rest).length by
    rw [List.length_append]
    omega)
  rw [List.take_left] at hbytes
  refine (Failing.bind_ok (show (ZTask.cstringLength block br (block.length + 1) 0, br) = _ by
    rw [hloop])).trans ?_
  refine (Failing.bind_ok (show readerPtr br = (.ok br.ptr, br) from rfl)).trans ?_
  rw [hbytes]
  rfl

/-- The loop comes to the end of what is left. -/
theorem cstringLength_none (h : br.Shows block e rest) (hno : 0 ∉ rest) {bound i : ℕ}
    (hi : i ≤ rest.length) (hbound : rest.length < bound + i) :
    ZTask.cstringLength block br bound i = .error (.raised .invalidCstring) := by
  induction bound generalizing i with
  | zero => omega
  | succ bound ih =>
    rw [ZTask.cstringLength]
    by_cases hend : (i : ℤ) = br.size
    · rw [if_pos hend]
    · rw [h.size_eq] at hend
      rw [h.size_eq, if_neg hend]
      have hlt : i < rest.length := by omega
      have hne : rest[i] ≠ 0 := fun heq ↦ hno (heq ▸ List.getElem_mem _)
      rw [h.byteAt (List.getElem?_eq_getElem hlt)]
      show (if rest[i] = 0 then _ else _) = _
      rw [if_neg hne]
      exact ih hlt (by omega)

theorem readCstring_none (h : br.Shows block e rest) (hno : 0 ∉ rest) :
    ZTask.readCstring block br = (.error (.raised .invalidCstring), br) := by
  have hlen := h.length_le
  have hle := h.le_length
  have hloop := h.cstringLength_none hno (Nat.zero_le _)
    (show rest.length < block.length + 1 + 0 by omega)
  exact Failing.bind_error (by rw [hloop])

/-! ## Scalar values -/

end BsonReader.Shows

/-- A value that is read, with the bytes that it uses up; or an error that is raised. -/
def Computes (result : Except BsonError LuaData × BsonReader) (br : BsonReader) :
    Option (LuaData × ℕ) → Prop
  | some (v, n) => result = (.ok v, br.advance n)
  | none => ∃ m br', result = (.error (.raised m), br')

namespace BsonReader.Shows

variable {block rest : List UInt8} {e : ℕ} {br : BsonReader}

theorem fixed {α : Type} (h : br.Shows block e rest) (n : ℕ) (read : List UInt8 → α)
    (value : α → LuaScalar) :
    Computes (((ZTask.readRaw block n >>= fun bytes ↦ pure (read bytes)) >>= fun a ↦
      (pure (.scalar (value a)) : BsonDecode LuaData)) br) br
      (fixedOf n (fun bytes ↦ value (read bytes)) rest) := by
  rw [fixedOf]
  split_ifs with hn
  · exact Failing.bind_ok (Failing.bind_ok (h.readRaw hn))
  · obtain ⟨m, hshort⟩ := h.readRaw_short (Nat.lt_of_not_le hn)
    exact ⟨m, br, Failing.bind_error (Failing.bind_error hshort)⟩

/-- A value for which nothing is read. -/
theorem none (h : br.Shows block e rest) (s : LuaScalar) :
    Computes ((pure (.scalar s) : BsonDecode LuaData) br) br (fixedOf 0 (fun _ ↦ s) rest) := by
  have hsmall := h.small
  have hle := h.le_length
  have hrest := h.length_le
  have hsize := h.size_eq
  have hadvance : br.advance (0 : ℕ) = br := by
    rw [BsonReader.advance, Int.natCast_zero, Int.add_zero, Int.sub_zero,
      toInt32_of_lt (by omega) (by omega)]
  rw [fixedOf, if_pos (Nat.zero_le _)]
  show _ = _
  rw [hadvance]
  rfl

theorem readBytes {sz : ℤ} (hsz : sz ≤ br.size) :
    ZTask.readBytes sz br = (.ok br.ptr, br.advance sz) := by
  have hcheck : checkReader sz br = (.ok (), br) := by
    rw [checkReader, if_neg (by omega)]
  exact (Failing.bind_ok (show readerPtr br = (.ok br.ptr, br) from rfl)).trans
    (Failing.bind_ok hcheck)

theorem readBytes_short {sz : ℤ} (hsz : br.size < sz) :
    ∃ m, ZTask.readBytes sz br = (.error (.raised m), br) := by
  have hcheck : checkReader sz br = (.error (.raised (.invalidBlock br.size sz)), br) := by
    rw [checkReader, if_pos hsz]
  exact ⟨_, (Failing.bind_ok (show readerPtr br = (.ok br.ptr, br) from rfl)).trans
    (Failing.bind_error hcheck)⟩

/-- Going on twice is going on once. -/
theorem advance_advance (h : br.Shows block e rest) {n : ℕ} (hn : n ≤ rest.length) (z : ℤ) :
    (br.advance n).advance z = br.advance (n + z) := by
  have hsize := (h.advance hn).size_eq
  have hsmall := h.small
  have hle := h.le_length
  have hrest := h.length_le
  rw [List.length_drop] at hsize
  have hsz := h.size_eq
  rw [BsonReader.advance, hsize]
  refine congrArg₂ BsonReader.mk (Int.add_assoc ..) ?_
  show toInt32 (_ - z) = toInt32 (br.size - (n + z))
  rw [hsz]
  congr 1
  omega

theorem makeObject (h : br.Shows block e rest) {type : BsonType} {n : ℕ} (hn : n ≤ rest.length)
    (br' : BsonReader) :
    ZTask.makeObject block type br.ptr n br' =
      (.ok (.scalar (.string (0 :: type.code :: rest.take n))), br') := by
  have hadd : addlstring block 2 br.ptr n = .ok (rest.take n) := by
    rw [addlstring, if_neg (by omega), Int.toNat_natCast, h.bytesAt_front hn]
  exact Failing.bind_ok (by rw [hadd]; rfl)

theorem makeObject_negative {type : BsonType} {p len : ℤ} (hlen : len < 0) (br' : BsonReader) :
    ∃ m, ZTask.makeObject block type p len br' = (.error (.raised m), br') := by
  have hadd : ∃ m, addlstring block 2 p len = .error (.raised m) := ⟨_, if_pos hlen⟩
  obtain ⟨m, hm⟩ := hadd
  exact ⟨m, Failing.bind_error (by rw [hm]; rfl)⟩

/-- Code, a symbol or a pointer: the length, so many bytes from the length on, and both together. -/
theorem counted (h : br.Shows block e rest) {type : BsonType} {extra : ℕ} {skip len : ℤ → ℤ}
    (hskip : ∀ sz, -2 ^ 31 ≤ sz → sz < 2 ^ 31 → skip sz = toInt32 (sz + extra - 4))
    (hlen : ∀ sz, -2 ^ 31 ≤ sz → sz < 2 ^ 31 → len sz = toInt32 (sz + extra))
    (hextra : extra < 2 ^ 31) :
    Computes ((readerPtr >>= fun ptr ↦ ZTask.readInt32 block >>= fun sz ↦
      ZTask.readBytes (skip sz) >>= fun _ ↦ ZTask.makeObject block type ptr (len sz)) br) br
      (countedOf type extra rest) := by
  have hsmall := h.small
  have hle := h.le_length
  have hrest := h.length_le
  have hlo : -2 ^ 31 ≤ frontInt rest := toInt32_ge _
  have hhi : frontInt rest < 2 ^ 31 := toInt32_lt _
  rw [countedOf, Failing.bind_ok (show readerPtr br = (.ok br.ptr, br) from rfl)]
  by_cases hfour : 4 ≤ rest.length
  · rw [Failing.bind_ok (h.readInt32 hfour), hskip _ hlo hhi, hlen _ hlo hhi]
    have hsize := (h.advance hfour).size_eq
    rw [List.length_drop] at hsize
    split_ifs with hfits
    · -- The bytes are there.
      obtain ⟨-, hnonneg, hfits⟩ := hfits
      obtain ⟨n, hn⟩ := Int.eq_ofNat_of_zero_le hnonneg
      have hsum : (4 : ℕ) + ((n : ℤ) - 4) = n := by omega
      rw [hn, Int.toNat_natCast, toInt32_of_lt (by omega) (by omega),
        toInt32_of_lt (by omega) (by omega)]
      have hread := readBytes (show (n : ℤ) - 4 ≤ (br.advance (4 : ℕ)).size by omega)
      rw [h.advance_advance hfour, hsum] at hread
      exact (Failing.bind_ok hread).trans (h.makeObject (by omega) _)
    · by_cases hshort : (br.advance (4 : ℕ)).size < toInt32 (frontInt rest + extra - 4)
      · obtain ⟨m, hm⟩ := readBytes_short hshort
        exact ⟨m, _, Failing.bind_error hm⟩
      · -- The reader moves, but the object cannot be made.
        obtain ⟨k, hk⟩ := toInt32_eq (frontInt rest + extra)
        obtain ⟨l, hl⟩ := toInt32_eq (frontInt rest + extra - 4)
        have hklo := toInt32_ge (frontInt rest + extra)
        have hkhi := toInt32_lt (frontInt rest + extra)
        have hllo := toInt32_ge (frontInt rest + extra - 4)
        have hlhi := toInt32_lt (frontInt rest + extra - 4)
        have hnegative : toInt32 (frontInt rest + extra) < 0 := by omega
        obtain ⟨m, hm⟩ := @makeObject_negative block type br.ptr _ hnegative
          ((br.advance (4 : ℕ)).advance (toInt32 (frontInt rest + extra - 4)))
        have hread := readBytes (Int.not_lt.mp hshort)
        exact ⟨m, _, (Failing.bind_ok hread).trans hm⟩
  · obtain ⟨m, hm⟩ := h.readRaw_short (Nat.lt_of_not_le hfour)
    rw [if_neg (fun hall ↦ hfour hall.1)]
    exact ⟨m, br, Failing.bind_error (Failing.bind_error hm)⟩

/-- Two numbers of four bytes. -/
theorem timestamp (h : br.Shows block e rest) :
    Computes ((ZTask.readRaw block 4 >>= fun inc ↦ ZTask.readRaw block 4 >>= fun ts ↦
      (pure (.scalar (.string (0 :: BsonType.timestamp.code :: (inc ++ ts)))) :
      BsonDecode LuaData)) br)
      br (fixedOf 8 (fun bytes ↦ .string (0 :: BsonType.timestamp.code :: bytes)) rest) := by
  rw [fixedOf]
  by_cases hfour : 4 ≤ rest.length
  · have hbehind := h.advance hfour
    have hlen : (rest.drop 4).length = rest.length - 4 := List.length_drop
    rw [Failing.bind_ok (h.readRaw hfour)]
    split_ifs with hn
    · have hmove := h.advance_advance hfour (4 : ℕ)
      have htake : rest.take 4 ++ (rest.drop 4).take 4 = rest.take 8 := (List.take_add).symm
      refine (Failing.bind_ok (hbehind.readRaw (by omega))).trans ?_
      rw [htake, hmove]
      rfl
    · obtain ⟨m, hm⟩ := hbehind.readRaw_short (show (rest.drop 4).length < 4 by omega)
      exact ⟨m, _, Failing.bind_error hm⟩
  · obtain ⟨m, hm⟩ := h.readRaw_short (Nat.lt_of_not_le hfour)
    rw [if_neg (by omega)]
    exact ⟨m, br, Failing.bind_error hm⟩

/-- A string, whose length must be positive. -/
theorem string (h : br.Shows block e rest) :
    Computes ((ZTask.readInt32 block >>= fun sz ↦
      if sz ≤ 0 then bsonRaise (.invalidString sz)
      else ZTask.readBytes sz >>= fun p ↦
        Failing.lift (ZTask.bytesAt block p (sz - 1).toNat) >>= fun bytes ↦
        pure (.scalar (.string bytes))) br) br (stringOf rest) := by
  rw [stringOf]
  by_cases hfour : 4 ≤ rest.length
  · have hsize := (h.advance hfour).size_eq
    rw [List.length_drop] at hsize
    rw [Failing.bind_ok (h.readInt32 hfour)]
    split_ifs with hpos hfits hfits
    · exact absurd hfits.2.1 (by omega)
    · exact ⟨_, _, rfl⟩
    · obtain ⟨-, -, hfits⟩ := hfits
      obtain ⟨n, hn⟩ := Int.eq_ofNat_of_zero_le (Int.le_of_lt (Int.not_le.mp hpos))
      rw [hn] at hfits hpos ⊢
      have hread := readBytes (show (n : ℤ) ≤ (br.advance (4 : ℕ)).size by omega)
      have hbytes := (h.advance hfour).bytesAt_front (show (n - 1 : ℤ).toNat ≤ _ by
        rw [List.length_drop]
        omega)
      rw [h.advance_advance hfour] at hread
      refine (Failing.bind_ok hread).trans ?_
      rw [hbytes]
      rfl
    · obtain ⟨m, hm⟩ := readBytes_short (show (br.advance (4 : ℕ)).size < frontInt rest by omega)
      exact ⟨m, _, Failing.bind_error hm⟩
  · obtain ⟨m, hm⟩ := h.readRaw_short (Nat.lt_of_not_le hfour)
    rw [if_neg (fun hall ↦ hfour hall.1)]
    exact ⟨m, br, Failing.bind_error (Failing.bind_error hm)⟩

/-- A subtype and bytes. A negative length moves the reader, but no buffer can be made for it. -/
theorem binary (h : br.Shows block e rest) :
    Computes ((ZTask.readInt32 block >>= fun sz ↦ ZTask.readBsonByte block >>= fun subtype ↦
      ZTask.readBytes sz >>= fun p ↦ Failing.lift (addlstring block 3 p sz) >>= fun bytes ↦
      pure (.scalar (.string (0 :: BsonType.binary.code :: subtype :: bytes)))) br) br
      (binaryOf rest) := by
  rw [binaryOf]
  by_cases hfour : 4 ≤ rest.length
  · rw [Failing.bind_ok (h.readInt32 hfour)]
    have hfront := h.advance hfour
    generalize hrest : rest.drop 4 = behind at hfront
    have hlen : behind.length = rest.length - 4 := by rw [← hrest, List.length_drop]
    cases behind with
    | nil =>
      obtain ⟨m, hm⟩ := hfront.readRaw_short (show ([] : List UInt8).length < 1 by decide)
      rw [if_neg (fun hall ↦ by rw [List.length_nil] at hlen; omega)]
      exact ⟨m, _, Failing.bind_error (Failing.bind_error hm)⟩
    | cons subtype bytes =>
      rw [List.length_cons] at hlen
      have hbyte := hfront.readBsonByte
      have hbehind := hfront.advance (show 1 ≤ (subtype :: bytes).length from
        Nat.succ_le_succ (Nat.zero_le _))
      rw [h.advance_advance hfour] at hbyte hbehind
      have hsize := hbehind.size_eq
      rw [List.drop_succ_cons, List.drop_zero] at hsize hbehind
      rw [Failing.bind_ok hbyte]
      by_cases hshort : (br.advance ((4 : ℕ) + (1 : ℕ))).size < frontInt rest
      · obtain ⟨m, hm⟩ := readBytes_short hshort
        rw [if_neg (fun hall ↦ by omega)]
        exact ⟨m, _, Failing.bind_error hm⟩
      · have hread := readBytes (Int.not_lt.mp hshort)
        rw [Failing.bind_ok hread]
        split_ifs with hfits
        · obtain ⟨n, hn⟩ := Int.eq_ofNat_of_zero_le hfits.2.1
          have hn' : n ≤ bytes.length := by omega
          have hadd : addlstring block 3 (br.advance ((4 : ℕ) + (1 : ℕ))).ptr n =
              .ok (bytes.take n) := by
            rw [addlstring, if_neg (by omega), Int.toNat_natCast, hbehind.bytesAt_front hn']
          have hmove := h.advance_advance (show 5 ≤ rest.length by omega) n
          rw [hn, Int.toNat_natCast, Nat.add_comm 1 n, List.take_succ_cons]
          refine (Failing.bind_ok (show Failing.lift (addlstring block 3 _ n) _ = _ by
            rw [hadd]
            rfl)).trans ?_
          exact congrArg _ hmove
        · -- The length is negative.
          have hnegative : frontInt rest < 0 := by omega
          have hadd : ∃ m, addlstring block 3 (br.advance ((4 : ℕ) + (1 : ℕ))).ptr (frontInt rest) =
              .error (.raised m) := ⟨_, if_pos hnegative⟩
          obtain ⟨m, hm⟩ := hadd
          refine ⟨m, _, Failing.bind_error (show Failing.lift (addlstring block 3 _ _) _ = _ by
            rw [hm]
            rfl)⟩
  · obtain ⟨m, hm⟩ := h.readRaw_short (Nat.lt_of_not_le hfour)
    rw [if_neg (fun hall ↦ by omega)]
    exact ⟨m, br, Failing.bind_error (Failing.bind_error hm)⟩

/-- Two C strings. -/
theorem regex (h : br.Shows block e rest) :
    Computes ((ZTask.readCstring block >>= fun r1 ↦ ZTask.readCstring block >>= fun r2 ↦
      pure (.scalar (.string (0 :: BsonType.regex.code :: (r1 ++ 0 :: (r2 ++ [0])))))) br) br
      (regexOf rest) := by
  rcases cstring_cases rest with ⟨r1, rest₁, rfl, h1⟩ | hno
  · have hlen : r1.length + 1 ≤ (r1 ++ 0 :: rest₁).length := by
      rw [List.length_append, List.length_cons]
      omega
    have hdrop : (r1 ++ 0 :: rest₁).drop (r1.length + 1) = rest₁ := by
      rw [← List.drop_drop, List.drop_left]
      rfl
    have hbehind := h.advance hlen
    rw [hdrop] at hbehind
    rw [regexOf, splitCstring_append _ h1, Failing.bind_ok (h.readCstring h1)]
    rcases cstring_cases rest₁ with ⟨r2, rest₂, rfl, h2⟩ | hno
    · have hmove := h.advance_advance hlen (r2.length + 1 : ℕ)
      simp only [splitCstring_append _ h2]
      rw [Failing.bind_ok (hbehind.readCstring h2)]
      exact congrArg _ hmove
    · simp only [splitCstring_none hno]
      exact ⟨_, _, Failing.bind_error (hbehind.readCstring_none hno)⟩
  · rw [regexOf, splitCstring_none hno]
    exact ⟨_, _, Failing.bind_error (h.readCstring_none hno)⟩

end BsonReader.Shows

section Value

variable {block rest : List UInt8} {e : ℕ} {br : BsonReader} {type : BsonType}

/-- The decoder computes the scalar values. -/
theorem unpackValue_scalar (h : br.Shows block e rest) (dict : Bool → BsonDecode LuaData)
    (hdocument : type ≠ .document) (harray : type ≠ .array) :
    Computes (unpackValue block dict type.code br) br (scalarOf type rest) := by
  have hsmall : ∀ sz : ℤ, -2 ^ 31 ≤ sz → sz < 2 ^ 31 → sz = toInt32 sz := fun sz hlo hhi ↦
    (toInt32_of_lt hlo hhi).symm
  rw [unpackValue, BsonType.ofCode?_code]
  cases type with
  | document => exact absurd rfl hdocument
  | array => exact absurd rfl harray
  | real => exact h.fixed 8 (fun bytes ↦ UInt64.ofNat (ofLittle bytes)) .real
  | int32 => exact h.fixed 4 (fun bytes ↦ toInt32 (ofLittle bytes)) fun i ↦ .integer (.ofInt i)
  | int64 => exact h.fixed 8 (fun bytes ↦ Int64.ofNat (ofLittle bytes)) .integer
  | boolean => exact h.fixed 1 (fun bytes ↦ UInt8.ofNat (ofLittle bytes)) fun b ↦ .boolean (b ≠ 0)
  | date =>
    exact h.fixed 8 (fun bytes ↦ Int64.ofNat (ofLittle bytes)) fun date ↦
      .string (0 :: BsonType.date.code :: toLittle 4 (date.toInt.tdiv 1000 % 2 ^ 32).toNat)
  | string => exact h.string
  | binary => exact h.binary
  | regex => exact h.regex
  | minKey | maxKey | null => exact h.none _
  | undefined => exact ⟨_, _, rfl⟩
  | objectId =>
    rw [scalarOf, fixedOf]
    split_ifs with hn
    · have hread := BsonReader.Shows.readBytes (show ((12 : ℕ) : ℤ) ≤ br.size by
        rw [h.size_eq]
        omega)
      exact (Failing.bind_ok hread).trans (h.makeObject hn _)
    · obtain ⟨m, hm⟩ := BsonReader.Shows.readBytes_short (show br.size < ((12 : ℕ) : ℤ) by
        rw [h.size_eq]
        omega)
      exact ⟨m, br, Failing.bind_error hm⟩
  | timestamp => exact h.timestamp
  | dbPointer =>
    exact h.counted (fun sz _ _ ↦ by rw [show sz + ((16 : ℕ) : ℤ) - 4 = sz + 12 by omega])
      (fun _ _ _ ↦ rfl) (by decide)
  | jsCode | symbol =>
    exact h.counted (fun sz hlo hhi ↦ by
        rw [show sz + ((4 : ℕ) : ℤ) - 4 = sz by omega]
        exact hsmall sz hlo hhi) (fun _ _ _ ↦ rfl) (by decide)
  | codeWs =>
    exact h.counted (fun sz _ _ ↦ by rw [Int.natCast_zero, Int.add_zero])
      (fun sz hlo hhi ↦ by
        rw [Int.natCast_zero, Int.add_zero]
        exact hsmall sz hlo hhi) (by decide)

/-- A value that the grammar reads is the one that the decoder computes. -/
theorem unpackValue_of_scalarOf {v : LuaData} {n : ℕ} (h : br.Shows block e rest)
    (dict : Bool → BsonDecode LuaData) (hv : scalarOf type rest = some (v, n)) :
    unpackValue block dict type.code br = (.ok v, br.advance n) := by
  have hinner : type ≠ .document ∧ type ≠ .array := by
    constructor <;> rintro rfl <;> cases hv
  have hvalue := unpackValue_scalar h dict hinner.1 hinner.2
  rwa [hv] at hvalue

theorem unpackValue_unknown {bt : UInt8} (hbt : BsonType.ofCode? bt = none)
    (dict : Bool → BsonDecode LuaData) :
    unpackValue block dict bt br = (.error (.raised (.invalidType bt)), br) := by
  rw [unpackValue, hbt]
  rfl

end Value

end ZTask
