import ZTask.Lib.Mask
import ZTask.Lib.Packets
import ZTask.Netpack.Queue

/-!
# Reassembly

Whatever the chunks in which the bytes of a socket arrive, and whatever arrives on other sockets in
between, the filter delivers the packages that are complete in what has arrived, in order, and holds
the bytes of the one that is not in at most one record of the table.

`Queue.Holds` says what the table holds for a socket, `Queue.Moved` what a part of the filter does
to the rest of the queue. Each function of the filter splits the bytes it gets into packages
(`pushMore_splits`, `fillUncomplete_splits`, `startPackage_splits`), a call of the filter splits
what is held and the chunk (`filterData_splits`), and so a run splits the stream (`receive_run`).
-/

namespace ZTask

open Lib

namespace Netpack

/-! ## The format -/

/-- The number with the two bytes, big-endian. -/
def packetSize (high low : UInt8) : ℕ := high.toNat <<< 8 ||| low.toNat

/-- A header of two bytes, which are the length of the body. -/
def packetFormat : PacketFormat UInt8 where
  headerLength := 2
  bodyLength
    | [high, low] => packetSize high low
    | _ => 0

/-- A package of the socket. -/
def ofBytes (fd : Int32) (bytes : List UInt8) : Netpack := ⟨fd, bytes.length, bytes.map some⟩

variable {q q' q'' : Queue} {fd : Int32} {high low : UInt8} {body got : List UInt8}

theorem incomplete_nil : packetFormat.Incomplete [] := .inl (by decide)

private theorem incomplete_lone (b : UInt8) : packetFormat.Incomplete [b] :=
  .inl (by rw [packetFormat, List.length_singleton]; decide)

private theorem incomplete_part (h : body.length < packetSize high low) :
    packetFormat.Incomplete (high :: low :: body) := by
  refine .inr ?_
  simp only [packetFormat, List.length_cons, List.take_succ_cons, List.take_zero]
  omega

private theorem splits_package {bodies : List (List UInt8)} {rest last : List UInt8}
    (h : body.length = packetSize high low) (hrest : packetFormat.Splits rest bodies last) :
    packetFormat.Splits (high :: low :: (body ++ rest)) (body :: bodies) last :=
  @PacketFormat.Splits.packet _ packetFormat [high, low] _ _ _ _ rfl h hrest

theorem packetSize_writeSize {len : ℕ} (h : len < 0x10000) :
    packetSize (UInt8.ofNat (len >>> 8 &&& 0xff)) (UInt8.ofNat (len &&& 0xff)) = len := by
  have hhigh : len >>> 8 % 256 = len / 256 := by
    rw [Nat.shiftRight_eq_div_pow]
    omega
  rw [packetSize, ofNat_low_byte, ofNat_low_byte, UInt8.toNat_ofNat', UInt8.toNat_ofNat', hhigh,
    ← Nat.shiftLeft_add_eq_or_of_lt (Nat.mod_lt _ (by decide)), Nat.shiftLeft_eq]
  omega

theorem lpack_eq (h : body.length < 0x10000) : lpack body = .ok (writeSize body.length ++ body) :=
  if_neg (Nat.not_le.mpr h)

/-! ## Blocks -/

/-- A block whose front has been written. -/
def partBlock (size : ℕ) (got : List UInt8) : Block UInt8 :=
  got.map some ++ malloc (size - got.length)

private theorem partBlock_nil (size : ℕ) : partBlock size [] = malloc size := rfl

private theorem partBlock_full (got : List UInt8) : partBlock got.length got = got.map some := by
  rw [partBlock, Nat.sub_self, malloc, Block.alloc, List.replicate_zero, List.append_nil]

/-- Writing goes on where it ended. -/
theorem memcpy_partBlock {size count : ℕ} {src : List UInt8} (hcount : count ≤ src.length)
    (hsize : got.length + count ≤ size) :
    memcpy (partBlock size got) got.length src count =
      .ok (partBlock size (got ++ src.take count)) := by
  have htoNat : (count : ℤ).toNat = count := Int.toNat_natCast count
  have hlen : (src.take count).length = count := by rw [List.length_take, Nat.min_eq_left hcount]
  have hfits : (src.take count).length ≤ (malloc (size - got.length)).length := by
    rw [hlen, malloc, Block.length_alloc]
    omega
  have hrest : (malloc (size - got.length)).drop count = malloc (size - (got.length + count)) := by
    rw [malloc, malloc, Block.alloc, Block.alloc, List.drop_replicate, Nat.sub_sub]
  rw [memcpy, htoNat, if_pos ⟨Int.natCast_nonneg count, hcount⟩, partBlock,
    Block.write?_front hfits, hlen, hrest, partBlock, List.length_append, hlen]

private theorem memcpy_malloc {size count : ℕ} {src : List UInt8} (hcount : count ≤ src.length)
    (hsize : count ≤ size) :
    memcpy (malloc size) 0 src count = .ok (partBlock size (src.take count)) := by
  have hfits : ([] : List UInt8).length + count ≤ size := (Nat.zero_add count).symm ▸ hsize
  have h := memcpy_partBlock hcount hfits
  rwa [partBlock_nil, List.length_nil, List.nil_append] at h

/-! ## What the queue holds -/

/-- The record of a package that has begun to arrive. -/
def partRecord (fd : Int32) (high low : UInt8) (got : List UInt8) (header : ℕ) : Uncomplete :=
  ⟨⟨fd, packetSize high low, partBlock (packetSize high low) got⟩, got.length, header⟩

/-- The bytes that a record stands for. -/
inductive Uncomplete.Holds : Uncomplete → List UInt8 → Prop
  | header (fd : Int32) (b : UInt8) : Holds ⟨⟨fd, 0, []⟩, -1, b.toNat⟩ [b]
  | part (fd : Int32) {high low : UInt8} {got : List UInt8} (header : ℕ) :
      got.length < packetSize high low →
        Holds (partRecord fd high low got header) (high :: low :: got)

/-- The records of a socket. -/
def Queue.records (q : Queue) (fd : Int32) : List Uncomplete := chaining.entries q.hash fd

/-- The bytes that the queue holds for a socket, in at most one record. -/
def Queue.Holds (q : Queue) (fd : Int32) (bytes : List UInt8) : Prop :=
  (q.records fd = [] ∧ bytes = []) ∨ ∃ uc, q.records fd = [uc] ∧ uc.Holds bytes

/-- Packages of the socket have been queued, and nothing else but its records has changed. -/
structure Queue.Moved (q q' : Queue) (fd : Int32) (bodies : List (List UInt8)) : Prop where
  waiting : q'.ring.toList = q.ring.toList ++ bodies.map (ofBytes fd)
  others : ∀ fd' ≠ fd, q'.records fd' = q.records fd'
  filed : chaining.Filed q.hash → chaining.Filed q'.hash

theorem Queue.Moved.refl (q : Queue) (fd : Int32) : q.Moved q fd [] :=
  ⟨(List.append_nil _).symm, fun _ _ ↦ rfl, fun h ↦ h⟩

theorem Queue.Moved.trans {bodies bodies' : List (List UInt8)} (h : q.Moved q' fd bodies)
    (h' : q'.Moved q'' fd bodies') : q.Moved q'' fd (bodies ++ bodies') where
  waiting := by rw [h'.waiting, h.waiting, List.map_append, List.append_assoc]
  others fd' hne := (h'.others fd' hne).trans (h.others fd' hne)
  filed hq := h'.filed (h.filed hq)

theorem Queue.Holds.length_records_le {bytes : List UInt8} (h : q.Holds fd bytes) :
    (q.records fd).length ≤ 1 := by
  obtain ⟨hnone, -⟩ | ⟨uc, hone, -⟩ := h
  · rw [hnone]
    exact Nat.zero_le 1
  · rw [hone]
    exact Nat.le_refl 1

theorem Queue.Holds.congr {bytes : List UInt8} (h : q.Holds fd bytes)
    (hrecords : q'.records fd = q.records fd) : q'.Holds fd bytes := by
  rwa [Queue.Holds, hrecords]

/-! ## The functions of the filter -/

private theorem insert_moved {uc : Uncomplete} {bytes : List UInt8} (hfd : uc.pack.id = fd)
    (hnone : q.records fd = []) (hholds : uc.Holds bytes) :
    let q' := { q with hash := chaining.insert q.hash uc }
    q.Moved q' fd [] ∧ q'.Holds fd bytes := by
  have hrecords : ∀ fd', chaining.entries (chaining.insert q.hash uc) fd' =
      if fd = fd' then uc :: q.records fd' else q.records fd' := by
    intro fd'
    rw [Chaining.entries_insert]
    simp only [chaining, hfd, Queue.records]
  refine ⟨⟨(List.append_nil _).symm, fun fd' hne ↦ ?_, fun h ↦ h.insert⟩, .inr ⟨uc, ?_, hholds⟩⟩
  · rw [Queue.records, hrecords, if_neg (Ne.symm hne)]
  · rw [Queue.records, hrecords, if_pos rfl, hnone]

/-- **A pushed package is the new end of the queue**, whether or not the queue had to grow. -/
theorem toList_pushBlock (q : Option Queue) (fd : Int32) (buffer : Block UInt8) (size : ℕ) :
    (pushBlock q fd buffer size).ring.toList = (getQueue q).ring.toList ++ [⟨fd, size, buffer⟩] ∧
      (pushBlock q fd buffer size).hash = (getQueue q).hash := by
  rw [pushBlock]
  split
  next hfull =>
    have hcap : (getQueue q).ring.cap < (getQueue q).ring.cap + queueSize :=
      Nat.lt_add_of_pos_right (by decide)
    exact ⟨RingBuffer.toList_grow hcap hfull, rfl⟩
  next hfull => exact ⟨RingBuffer.toList_write fun h ↦ hfull h.symm, rfl⟩

private theorem pushBlock_moved (q : Option Queue) (fd : Int32) (body : List UInt8) :
    (getQueue q).Moved (pushBlock q fd (body.map some) body.length) fd [body] := by
  obtain ⟨hlist, hhash⟩ := toList_pushBlock q fd (body.map some) body.length
  refine ⟨hlist, fun fd' _ ↦ ?_, fun h ↦ ?_⟩
  · rw [Queue.records, hhash, Queue.records]
  · rwa [hhash]

private theorem readSize_cons (high low : UInt8) (body : List UInt8) :
    readSize (high :: low :: body) = .ok (packetSize high low) := rfl

theorem saveHeader_splits {q : Option Queue} (b : UInt8) (hnone : (getQueue q).records fd = []) :
    ∃ q', saveHeader q fd [b] = .ok q' ∧ (getQueue q).Moved q' fd [] ∧ q'.Holds fd [b] := by
  have h := @insert_moved _ fd _ _ rfl hnone (.header fd b)
  exact ⟨_, rfl, h⟩

private theorem savePart_splits {q : Option Queue} (hnone : (getQueue q).records fd = [])
    (hpart : body.length < packetSize high low) :
    ∃ q', savePart q fd body (packetSize high low) = .ok q' ∧ (getQueue q).Moved q' fd [] ∧
      q'.Holds fd (high :: low :: body) := by
  have hcopy := memcpy_malloc (Nat.le_refl body.length) (Nat.le_of_lt hpart)
  rw [List.take_length] at hcopy
  have h := @insert_moved _ fd _ _ rfl hnone (.part fd 0 hpart)
  refine ⟨_, ?_, h⟩
  rw [savePart, hcopy]
  rfl

private theorem memcpy_package {size : ℕ} (hsize : size ≤ body.length) :
    memcpy (malloc size) 0 body size = .ok ((body.take size).map some) := by
  have hlen : (body.take size).length = size := by rw [List.length_take, Nat.min_eq_left hsize]
  have hfull := partBlock_full (body.take size)
  rw [hlen] at hfull
  rw [memcpy_malloc hsize (Nat.le_refl size), hfull]

private theorem pushData_eq {q : Option Queue} {size : ℕ} (hsize : size ≤ body.length) :
    pushData q fd body size =
      .ok (pushBlock q fd ((body.take size).map some) (body.take size).length) := by
  rw [pushData, memcpy_package hsize, List.length_take, Nat.min_eq_left hsize]
  rfl

private theorem splits_take_drop {size : ℕ} {bodies : List (List UInt8)} {last : List UInt8}
    (hsize : size = packetSize high low) (hle : size ≤ body.length)
    (hrest : packetFormat.Splits (body.drop size) bodies last) :
    packetFormat.Splits (high :: low :: body) (body.take size :: bodies) last := by
  have hlen : (body.take size).length = packetSize high low := by
    rw [List.length_take, Nat.min_eq_left hle, hsize]
  have h := splits_package hlen hrest
  rwa [List.take_append_drop] at h

private theorem pushMore_lone (q : Option Queue) (fd : Int32) (b : UInt8) :
    pushMore q fd [b] = saveHeader q fd [b] := by
  rw [pushMore, if_pos (List.length_singleton)]

private theorem pushMore_part {q : Option Queue} (hpart : body.length < packetSize high low) :
    pushMore q fd (high :: low :: body) = savePart q fd body (packetSize high low) := by
  have hlone : ¬(high :: low :: body).length = 1 := by
    rw [List.length_cons, List.length_cons]
    omega
  rw [pushMore, if_neg hlone, readSize_cons]
  exact if_pos hpart

private theorem pushMore_package {q : Option Queue} (hle : packetSize high low ≤ body.length) :
    pushMore q fd (high :: low :: body) =
      let package := body.take (packetSize high low)
      let rest := body.drop (packetSize high low)
      let q' := pushBlock q fd (package.map some) package.length
      if 0 < rest.length then pushMore (some q') fd rest else .ok q' := by
  have hlone : ¬(high :: low :: body).length = 1 := by
    rw [List.length_cons, List.length_cons]
    omega
  rw [pushMore, if_neg hlone, readSize_cons]
  refine (if_neg (Nat.not_lt.mpr hle)).trans ?_
  have hpush : pushData q fd ((high :: low :: body).drop 2) (packetSize high low) = _ :=
    pushData_eq hle
  simp only [hpush]
  rfl

private theorem pushMore_splits {q : Option Queue} {buffer : List UInt8} (hne : buffer ≠ [])
    (hnone : (getQueue q).records fd = []) :
    ∃ q' bodies last, pushMore q fd buffer = .ok q' ∧ packetFormat.Splits buffer bodies last ∧
      (getQueue q).Moved q' fd bodies ∧ q'.Holds fd last := by
  induction hn : buffer.length using Nat.strongRecOn generalizing q buffer with
  | ind n ih =>
    match buffer with
    | [] => exact absurd rfl hne
    | [b] =>
      obtain ⟨q', hsave, hmoved, hholds⟩ := saveHeader_splits b hnone
      rw [pushMore_lone]
      exact ⟨q', [], [b], hsave, .done (incomplete_lone b), hmoved, hholds⟩
    | high :: low :: body =>
      by_cases hpart : body.length < packetSize high low
      · obtain ⟨q', hsave, hmoved, hholds⟩ := savePart_splits hnone hpart
        rw [pushMore_part hpart]
        exact ⟨q', [], _, hsave, .done (incomplete_part hpart), hmoved, hholds⟩
      · have hle := Nat.not_lt.mp hpart
        have hmoved := pushBlock_moved q fd (body.take (packetSize high low))
        have hhash := (toList_pushBlock q fd ((body.take (packetSize high low)).map some)
          (body.take (packetSize high low)).length).2
        rw [pushMore_package hle]
        dsimp only
        generalize pushBlock q fd ((body.take (packetSize high low)).map some)
          (body.take (packetSize high low)).length = q₁ at hmoved hhash ⊢
        have hnone₁ : q₁.records fd = [] := by rw [Queue.records, hhash, ← Queue.records, hnone]
        by_cases hrest : 0 < (body.drop (packetSize high low)).length
        · have hlt : (body.drop (packetSize high low)).length < n := by
            rw [← hn, List.length_drop, List.length_cons, List.length_cons]
            omega
          obtain ⟨q', bodies, last, hpush, hsplits, hmoved', hholds⟩ :=
            ih _ hlt (q := some q₁) (List.ne_nil_of_length_pos hrest) hnone₁ rfl
          rw [if_pos hrest]
          exact ⟨q', _, last, hpush, splits_take_drop rfl hle hsplits, hmoved.trans hmoved', hholds⟩
        · have hnil : body.drop (packetSize high low) = [] :=
            List.eq_nil_of_length_eq_zero (by omega)
          have hend : packetFormat.Splits (body.drop (packetSize high low)) [] [] := by
            rw [hnil]
            exact .done incomplete_nil
          rw [if_neg hrest]
          exact ⟨q₁, _, [], rfl, splits_take_drop rfl hle hend, hmoved, .inl ⟨hnone₁, rfl⟩⟩

/-! ## A call of the filter -/

/-- What the filter says of the packages that have become complete. -/
inductive Reports (q q' : Queue) (fd : Int32) : Filtered → List (List UInt8) → Prop
  | nothing : q.Moved q' fd [] → Reports q q' fd .nothing []
  | data {body : List UInt8} : q.Moved q' fd [] → Reports q q' fd (.data (ofBytes fd body)) [body]
  | more {bodies : List (List UInt8)} : q.Moved q' fd bodies → Reports q q' fd .more bodies

/-- With its header complete, a record has got part of the body. -/
theorem completeHeader_splits {uc : Uncomplete} {bytes chunk : List UInt8} (hfd : uc.pack.id = fd)
    (hholds : uc.Holds bytes) (hne : chunk ≠ []) :
    ∃ high low got header rest,
      completeHeader uc chunk = .ok (partRecord fd high low got header, rest) ∧
        bytes ++ chunk = high :: low :: (got ++ rest) ∧ got.length ≤ packetSize high low := by
  cases hholds with
  | header fd' high =>
    cases hfd
    obtain ⟨low, rest, rfl⟩ := List.exists_cons_of_ne_nil hne
    have hsize : low.toNat ||| high.toNat <<< 8 = packetSize high low := Nat.or_comm _ _
    refine ⟨high, low, [], high.toNat, rest, ?_, rfl, Nat.zero_le _⟩
    rw [completeHeader, if_pos (show (-1 : ℤ) < 0 by decide), if_pos rfl]
    simp only [readByte, bind, Except.bind, pure, Except.pure, hsize]
    rfl
  | @part fd' high low got header hpart =>
    cases hfd
    have hread : ¬(partRecord fd' high low got header).read < 0 :=
      Int.not_lt.mpr (Int.natCast_nonneg _)
    refine ⟨high, low, got, header, chunk, ?_, rfl, Nat.le_of_lt hpart⟩
    rw [completeHeader, if_neg hread]
    rfl

private theorem fillUncomplete_splits {uc : Uncomplete} {bytes chunk : List UInt8}
    (hnone : q.records fd = []) (hfd : uc.pack.id = fd) (hholds : uc.Holds bytes)
    (hne : chunk ≠ []) :
    ∃ q' filtered bodies last, fillUncomplete q fd uc chunk = .ok (q', filtered) ∧
      packetFormat.Splits (bytes ++ chunk) bodies last ∧ Reports q q' fd filtered bodies ∧
        q'.Holds fd last := by
  obtain ⟨high, low, got, header, rest, hheader, hbytes, hgot⟩ :=
    completeHeader_splits hfd hholds hne
  have hneed : (packetSize high low - got.length : ℤ) = (packetSize high low - got.length : ℕ) := by
    omega
  rw [hbytes, fillUncomplete, hheader]
  simp only [bind, Except.bind, partRecord, hneed, Int.toNat_natCast, Int.ofNat_lt]
  -- the chunk does not complete the package
  by_cases hpart : rest.length < packetSize high low - got.length
  · have hlt : (got ++ rest).length < packetSize high low := by
      rw [List.length_append]
      omega
    have hcopy := @memcpy_partBlock got (packetSize high low) rest.length rest (Nat.le_refl _)
      (by omega)
    rw [List.take_length] at hcopy
    obtain ⟨hmoved, hholds'⟩ := insert_moved rfl hnone (.part fd header hlt)
    rw [partRecord, List.length_append, Int.natCast_add] at hmoved hholds'
    rw [if_pos hpart, hcopy]
    exact ⟨_, _, _, _, rfl, .done (incomplete_part hlt), .nothing hmoved, hholds'⟩
  · have hle := Nat.not_lt.mp hpart
    have hlen : (got ++ rest.take (packetSize high low - got.length)).length =
        packetSize high low := by
      rw [List.length_append, List.length_take, Nat.min_eq_left hle]
      omega
    have hcopy := @memcpy_partBlock got (packetSize high low) _ rest hle (by omega)
    generalize hbody : got ++ rest.take (packetSize high low - got.length) = body at hlen hcopy
    have hstream : got ++ rest = body ++ rest.drop (packetSize high low - got.length) := by
      rw [← hbody, List.append_assoc, List.take_append_drop]
    rw [← hlen, partBlock_full, hlen] at hcopy
    rw [if_neg hpart, hcopy, hstream]
    generalize rest.drop (packetSize high low - got.length) = rest'
    dsimp only
    -- the package ends the chunk and is reported alone, or it is queued with those behind it
    by_cases hend : rest'.length = 0
    · cases List.eq_nil_of_length_eq_zero hend
      have hsplits := splits_package hlen (.done incomplete_nil)
      rw [if_pos hend, ← hlen]
      exact ⟨q, _, _, [], rfl, hsplits, .data (.refl q fd), .inl ⟨hnone, rfl⟩⟩
    · have hmoved := pushBlock_moved (some q) fd body
      have hhash := (toList_pushBlock (some q) fd (body.map some) body.length).2
      rw [if_neg hend, ← hlen]
      generalize pushBlock (some q) fd (body.map some) body.length = q₁ at hmoved hhash ⊢
      have hnone₁ : q₁.records fd = [] := by
        rw [Queue.records, hhash]
        exact hnone
      obtain ⟨q', bodies, last, hpush, hsplits, hmoved', hholds'⟩ :=
        @pushMore_splits fd (some q₁) rest' (fun h ↦ hend (by rw [h, List.length_nil])) hnone₁
      rw [hpush]
      exact ⟨q', _, _, last, rfl, splits_package hlen hsplits,
        .more (hmoved.trans hmoved'), hholds'⟩

private theorem startPackage_splits {q : Option Queue} {chunk : List UInt8}
    (hnone : (getQueue q).records fd = []) (hne : chunk ≠ []) :
    ∃ q' filtered bodies last, startPackage q fd chunk = .ok (q', filtered) ∧
      packetFormat.Splits chunk bodies last ∧
        Reports (getQueue q) (getQueue q') fd filtered bodies ∧
        (getQueue q').Holds fd last := by
  match chunk with
  | [] => exact absurd rfl hne
  | [b] =>
    obtain ⟨q', hsave, hmoved, hholds⟩ := saveHeader_splits b hnone
    rw [startPackage, if_pos (List.length_singleton), hsave]
    exact ⟨some q', _, _, _, rfl, .done (incomplete_lone b), .nothing hmoved, hholds⟩
  | high :: low :: body =>
    have hlone : ¬(high :: low :: body).length = 1 := by
      rw [List.length_cons, List.length_cons]
      omega
    rw [startPackage, if_neg hlone, readSize_cons]
    simp only [bind, Except.bind, List.drop_succ_cons, List.drop_zero]
    by_cases hpart : body.length < packetSize high low
    · obtain ⟨q', hsave, hmoved, hholds⟩ := savePart_splits hnone hpart
      rw [if_pos hpart, hsave]
      exact ⟨some q', _, _, _, rfl, .done (incomplete_part hpart), .nothing hmoved, hholds⟩
    · have hle := Nat.not_lt.mp hpart
      rw [if_neg hpart]
      by_cases hexact : body.length = packetSize high low
      · have hcopy := memcpy_package (Nat.le_of_eq hexact.symm)
        have hsplits := splits_package hexact (.done incomplete_nil)
        rw [List.append_nil] at hsplits
        rw [if_pos hexact, hcopy, ← hexact, List.take_length]
        exact ⟨q, _, _, [], rfl, hsplits, .data (.refl _ fd), .inl ⟨hnone, rfl⟩⟩
      · have hmoved := pushBlock_moved q fd (body.take (packetSize high low))
        have hhash := (toList_pushBlock q fd ((body.take (packetSize high low)).map some)
          (body.take (packetSize high low)).length).2
        have hrest : body.drop (packetSize high low) ≠ [] := by
          intro h
          rw [List.drop_eq_nil_iff] at h
          omega
        rw [if_neg hexact, pushData_eq hle]
        generalize pushBlock q fd ((body.take (packetSize high low)).map some)
          (body.take (packetSize high low)).length = q₁ at hmoved hhash ⊢
        have hnone₁ : q₁.records fd = [] := by rw [Queue.records, hhash, ← Queue.records, hnone]
        obtain ⟨q', bodies, last, hpush, hsplits, hmoved', hholds⟩ :=
          @pushMore_splits fd (some q₁) _ hrest hnone₁
        dsimp only
        rw [hpush]
        exact ⟨some q', _, _, last, rfl, splits_take_drop rfl hle hsplits,
          .more (hmoved.trans hmoved'), hholds⟩

/-- Taking a record out. -/
theorem findUncomplete_some {q : Option Queue} {uc : Uncomplete}
    (hfind : findUncomplete q fd = some (uc, q')) :
    uc.pack.id = fd ∧ (getQueue q).records fd = uc :: q'.records fd ∧
      (getQueue q).ring = q'.ring ∧ (∀ fd' ≠ fd, q'.records fd' = (getQueue q).records fd') ∧
        (chaining.Filed (getQueue q).hash → chaining.Filed q'.hash) := by
  cases q with
  | none => cases hfind
  | some q =>
    rw [findUncomplete, Option.map_eq_some_iff] at hfind
    obtain ⟨⟨uc', hash⟩, htake, hp⟩ := hfind
    cases hp
    obtain ⟨hkey, hsame, hother⟩ := Chaining.take?_eq_some htake
    exact ⟨hkey, hsame, rfl, hother, fun h ↦ h.take? htake⟩

theorem findUncomplete_none {q : Option Queue} (hfind : findUncomplete q fd = none) :
    (getQueue q).records fd = [] := by
  cases q with
  | none => rfl
  | some q =>
    rw [findUncomplete, Option.map_eq_none_iff, Chaining.take?_eq_none_iff] at hfind
    exact hfind

/-- **A call of the filter** splits what is held of the socket's stream and the chunk. -/
theorem filterData_splits {q : Option Queue} {bytes chunk : List UInt8}
    (hholds : (getQueue q).Holds fd bytes) (hne : chunk ≠ []) :
    ∃ q' filtered bodies last, filterData q fd chunk = .ok (q', filtered) ∧
      packetFormat.Splits (bytes ++ chunk) bodies last ∧
        Reports (getQueue q) (getQueue q') fd filtered bodies ∧ (getQueue q').Holds fd last := by
  rw [filterData]
  cases hfind : findUncomplete q fd with
  | none =>
    have hnone := findUncomplete_none hfind
    obtain ⟨-, rfl⟩ | ⟨uc, hone, -⟩ := hholds
    · exact startPackage_splits hnone hne
    · rw [hnone] at hone
      cases hone
  | some p =>
    obtain ⟨uc, q₁⟩ := p
    obtain ⟨hid, hsame, hring, hother, hfiled⟩ := findUncomplete_some hfind
    obtain ⟨hnone, -⟩ | ⟨uc', hone, huc⟩ := hholds
    · rw [hsame] at hnone
      cases hnone
    · rw [hsame, List.cons_eq_cons] at hone
      obtain ⟨rfl, hnone⟩ := hone
      obtain ⟨q', filtered, bodies, last, hfill, hsplits, hreports, hholds⟩ :=
        fillUncomplete_splits hnone hid huc hne
      have htaken : (getQueue q).Moved q₁ fd [] :=
        ⟨by rw [hring, List.map_nil, List.append_nil], hother, hfiled⟩
      dsimp only
      rw [hfill]
      refine ⟨some q', filtered, bodies, last, rfl, hsplits, ?_, hholds⟩
      cases hreports with
      | nothing hmoved => exact .nothing (htaken.trans hmoved)
      | data hmoved => exact .data (htaken.trans hmoved)
      | more hmoved => exact .more (htaken.trans hmoved)

end Netpack

end ZTask
