import ZTask.Http.Headers
import ZTask.Http.Httpd
import Mathlib.Data.List.TakeWhile
import Mathlib.Data.Nat.Digits.Lemmas

/-!
# Chunked bodies come back

What `writeall` writes of the pieces of a body, `recvchunkedbody` reads back, however it is
delivered. Each of the functions that it is made of reads what stands next in the string that is
buffered followed by the bytes still to be delivered; how these are cut into chunks decides only
what is buffered afterwards (`chunksize_reads`, `readcrln_reads`, `takeChunk_reads`).

## Nothing depends on the chunks

The reading functions are given the string that is buffered and a function that delivers more. What
they return is stated on the concatenation of both, and so is what they leave. `recvchunks_reads` is
the induction over the pieces: each is a size line, as many bytes and a line end.

## Sizes

A size is written with `%x` and read with `tonumber` (`numeral_hexText`). A piece of no bytes is not
written at all, since its size would be the one that ends the body. The end is a size of 0 and an
empty trailer (`recvheader_reads`).
-/

namespace ZTask

open Lib

variable {feed : Feed} {body line rest payload result bytes : List UInt8} {sz : ℤ}

/-! ## Hexadecimal numbers -/

private theorem xDigit_spec : ∀ d < 16, isAlnum (xDigit d) = true ∧ digitValue (xDigit d) = d ∧
    isSpace (xDigit d) = false ∧ xDigit d ≠ 45 ∧ xDigit d ≠ 43 ∧ xDigit d ≠ 13 := by
  decide

private theorem exists_digits (n : ℕ) : ∃ ds : List ℕ, ds ≠ [] ∧ (∀ d ∈ ds, d < 16) ∧
    hexText n = ds.reverse.map xDigit ∧ Nat.ofDigits 16 ds = n := by
  rw [hexText]
  split
  next hn => exact ⟨[0], by decide, by decide, rfl, hn.symm⟩
  next hn =>
    exact ⟨Nat.digits 16 n, Nat.digits_ne_nil_iff_ne_zero.mpr hn,
      fun d hd ↦ Nat.digits_lt_base (by decide) hd, rfl, Nat.ofDigits_digits 16 n⟩

private theorem foldl_xDigit {ds : List ℕ} (hds : ∀ d ∈ ds, d < 16) :
    (ds.reverse.map xDigit).foldl (fun n b ↦ n * 16 + digitValue b) 0 = Nat.ofDigits 16 ds := by
  rw [List.map_reverse, List.foldl_reverse]
  induction ds with
  | nil => rfl
  | cons d ds ih =>
    rw [List.map_cons, List.foldr_cons, ih fun d' hd' ↦ hds d' (List.mem_cons_of_mem d hd'),
      (xDigit_spec d (hds d List.mem_cons_self)).2.1, Nat.ofDigits_cons]
    omega

/-- **What `%x` writes** `tonumber` reads. -/
theorem numeral_hexText (n : ℕ) : numeral 16 (hexText n) = some (n : ℤ) := by
  obtain ⟨ds, hne, hds, htext, hvalue⟩ := exists_digits n
  have hall : ∀ b ∈ hexText n, ∃ d < 16, xDigit d = b := by
    intro b hb
    rw [htext] at hb
    obtain ⟨d, hd, rfl⟩ := List.mem_map.mp hb
    exact ⟨d, hds d (List.mem_reverse.mp hd), rfl⟩
  have halnum : ∀ b ∈ hexText n, isAlnum b = true := by
    intro b hb
    obtain ⟨d, hd, rfl⟩ := hall b hb
    exact (xDigit_spec d hd).1
  obtain ⟨b, text, hcons⟩ : ∃ b text, hexText n = b :: text := by
    refine List.exists_cons_of_ne_nil ?_
    rw [htext]
    simpa using hne
  obtain ⟨d, hd, rfl⟩ := hall b (by rw [hcons]; exact List.mem_cons_self)
  obtain ⟨-, -, hspace, hminus, hplus, -⟩ := xDigit_spec d hd
  have htrim : (hexText n).dropWhile isSpace = hexText n := by
    rw [hcons, List.dropWhile_cons_of_neg (by simp [hspace])]
  have hsigned : signed (hexText n) = (1, hexText n) := by
    rw [hcons, signed, if_neg hminus, if_neg hplus]
  rw [numeral, htrim, hsigned]
  dsimp only
  rw [List.takeWhile_eq_self_iff.mpr halnum, List.dropWhile_eq_nil_iff.mpr halnum, if_neg, htext,
    foldl_xDigit hds, hvalue, Int.one_mul]
  rintro (hnil | ⟨b, hb, hle⟩ | hrest)
  · rw [hcons] at hnil
    exact nomatch hnil
  · obtain ⟨d', hd', rfl⟩ := hall b hb
    rw [(xDigit_spec d' hd').2.1] at hle
    omega
  · exact hrest rfl

private theorem not_mem_hexText (n : ℕ) : (13 : UInt8) ∉ hexText n := by
  obtain ⟨ds, -, hds, htext, -⟩ := exists_digits n
  rw [htext]
  intro hmem
  obtain ⟨d, hd, heq⟩ := List.mem_map.mp hmem
  exact (xDigit_spec d (hds d (List.mem_reverse.mp hd))).2.2.2.2.2 heq

/-- The line end behind a number is the first one. -/
theorem splitLine_hexText (n : ℕ) (rest : List UInt8) :
    splitLine crln (hexText n ++ (crln ++ rest)) = some (hexText n, rest) := by
  have hline : ∀ line : List UInt8, 13 ∉ line →
      splitLine crln (line ++ (crln ++ rest)) = some (line, rest) := by
    intro line hline
    induction line with
    | nil => exact splitLine_starts (by decide) rest
    | cons c line ih =>
      have hstarts : ¬crln <+: c :: (line ++ (crln ++ rest)) := by
        rintro ⟨t, ht⟩
        exact hline (by rw [(List.cons.inj ht).1]; exact List.mem_cons_self)
      rw [List.cons_append, splitLine, if_neg hstarts,
        ih fun hmem ↦ hline (List.mem_cons_of_mem c hmem)]
      rfl
  exact hline _ (not_mem_hexText n)

private theorem length_hexText_le {n : ℕ} (hn : n < 2 ^ 63) : (hexText n).length ≤ 16 := by
  rw [hexText]
  split
  · exact Nat.le_of_ble_eq_true rfl
  · rw [List.length_map, List.length_reverse]
    exact (Nat.digits_length_le_iff (by decide) n).mpr (Nat.lt_trans hn (by decide))

private theorem tonumberBase_hexText {n : ℕ} (hn : n < 2 ^ 63) :
    tonumberBase (hexText n) 16 = some (n : ℤ) := by
  rw [tonumberBase, numeral_hexText, Option.map_some, toInt64_of_lt (by omega) (by omega)]

/-! ## What stands next is read -/

/-- A size line of so few bytes is read. -/
theorem chunksize_reads (hline : splitLine crln (body ++ feed.bytes) = some (line, rest))
    (hsz : tonumberBase line 16 = some sz) (hlen : line.length ≤ 127) :
    ∃ body' feed', chunksize feed body = some (some (sz, body'), feed') ∧
      body' ++ feed'.bytes = rest := by
  induction feed generalizing body with
  | nil =>
    rw [Feed.bytes_nil, List.append_nil] at hline
    refine ⟨rest, [], ?_, List.append_nil rest⟩
    rw [chunksize.eq_def, hline]
    dsimp only
    rw [hsz]
    rfl
  | cons chunk feed ih =>
    cases hsplit : splitLine crln body with
    | some p =>
      obtain ⟨line', rest'⟩ := p
      rw [splitLine_append_right hsplit] at hline
      obtain ⟨rfl, rfl⟩ := Prod.mk.inj (Option.some.inj hline)
      refine ⟨rest', chunk :: feed, ?_, rfl⟩
      rw [chunksize.eq_def, hsplit]
      dsimp only
      rw [hsz]
      rfl
    | none =>
      -- the line is not there yet, so not much is
      have hshort : ¬128 < body.length := by
        intro hlong
        have htake := splitLine_take (n := body.length) (by decide) hline
        have hle : line.length + crln.length ≤ body.length := by
          show line.length + 2 ≤ body.length
          omega
        rw [List.take_left' rfl, hsplit, if_pos hle] at htake
        cases htake
      rw [Feed.bytes_cons, ← List.append_assoc] at hline
      obtain ⟨body', feed', hread, hrest⟩ := ih hline
      refine ⟨body', feed', ?_, hrest⟩
      rw [chunksize.eq_def, hsplit]
      dsimp only
      rw [if_neg hshort]
      exact hread

private theorem readcrln_reads (h : body ++ feed.bytes = crln ++ rest) :
    ∃ body' feed', readcrln feed body = some (some body', feed') ∧ body' ++ feed'.bytes = rest := by
  rw [readcrln]
  by_cases hlen : 2 ≤ body.length
  · have htake := congrArg (List.take 2) h
    have hdrop := congrArg (List.drop 2) h
    rw [List.take_append_of_le_length hlen, List.take_left' length_crln] at htake
    rw [List.drop_append_of_le_length hlen, List.drop_left' length_crln] at hdrop
    refine ⟨body.drop 2, feed, ?_, hdrop⟩
    rw [if_pos hlen, if_neg (not_ne_iff.mpr htake)]
  · have htotal := congrArg List.length h
    rw [List.length_append, List.length_append, length_crln] at htotal
    have htake := congrArg (List.take 2) h
    have hdrop := congrArg (List.drop 2) h
    rw [List.take_append, List.take_of_length_le (by omega), List.take_left' length_crln] at htake
    rw [List.drop_append, List.drop_of_length_le (by omega), List.drop_left' length_crln,
      List.nil_append] at hdrop
    refine ⟨[], feed.skip (2 - body.length), ?_, by rw [Feed.bytes_skip, hdrop]; rfl⟩
    rw [if_neg hlen, Feed.read_enough (by omega)]
    dsimp only
    rw [if_neg (not_ne_iff.mpr htake)]

private theorem takeChunk_reads (result : List UInt8) (h : body ++ feed.bytes = payload ++ rest)
    (hfits : result.length + payload.length < maxString) :
    ∃ body' feed', takeChunk payload.length result feed body =
      some (result ++ payload, body', feed') ∧
      body' ++ feed'.bytes = rest := by
  have htake := congrArg (List.take payload.length) h
  have hdrop := congrArg (List.drop payload.length) h
  rw [List.take_left' rfl, List.take_append] at htake
  rw [List.drop_left' rfl, List.drop_append] at hdrop
  rw [takeChunk]
  by_cases hle : payload.length ≤ body.length
  · rw [Nat.sub_eq_zero_of_le hle, List.take_zero, List.append_nil] at htake
    rw [Nat.sub_eq_zero_of_le hle, List.drop_zero] at hdrop
    refine ⟨body.drop payload.length, feed, ?_, hdrop⟩
    rw [if_pos (Int.ofNat_le.mpr hle), luaSub_first, luaSub_rest, htake, luaConcat, if_pos hfits]
    rfl
  · have htotal := congrArg List.length h
    rw [List.length_append, List.length_append] at htotal
    rw [List.take_of_length_le (by omega)] at htake
    rw [List.drop_of_length_le (by omega), List.nil_append] at hdrop
    have hn : ((payload.length : ℤ) - body.length).toNat = payload.length - body.length := by omega
    refine ⟨[], feed.skip (payload.length - body.length), ?_, by rw [Feed.bytes_skip, hdrop]; rfl⟩
    rw [if_neg (by omega), hn, Feed.read_enough (by omega)]
    dsimp only
    rw [htake, luaConcat, if_pos hfits]
    rfl

/-- An empty trailer is read to its end. -/
theorem recvheader_reads (h : body ++ feed.bytes = crln) :
    recvheader feed [] body = some (some ([], []), []) := by
  have hempty : ∀ {f : Feed}, f.bytes = [] → f = [] := by
    intro f hf
    cases f with
    | nil => rfl
    | cons chunk f => exact absurd (List.append_eq_nil_iff.mp hf).1 chunk.2
  have hlen := congrArg List.length h
  rw [List.length_append, length_crln] at hlen
  by_cases hbody : body = crln
  · subst hbody
    have hfeed := hempty (List.length_eq_zero_iff.mp (Nat.add_left_cancel hlen))
    rw [hfeed]
    decide
  · have hfeed : feed ≠ [] := by
      rintro rfl
      rw [Feed.bytes_nil, List.append_nil] at h
      exact hbody h
    have hshort : body.length < 2 := by
      rcases Nat.lt_or_ge body.length 2 with hlt | hge
      · exact hlt
      · have hnil : feed.bytes = [] := List.length_eq_zero_iff.mp (by omega)
        exact absurd (hempty hnil) hfeed
    -- less than two bytes decide nothing
    have hdec : ¬Decided body := by
      rintro (hstarts | hsome)
      · exact Nat.not_le_of_lt hshort hstarts.length_le
      · rw [splitLine_eq_none (by exact Nat.lt_trans hshort (by decide))] at hsome
        cases hsome
    obtain ⟨a, ha⟩ : ∃ a, firstStop body feed = some a := by
      rw [← Option.isSome_iff_exists, firstStop, List.isSome_findSome?, List.any_eq_true]
      refine ⟨_, last_mem_chunkEnds hfeed, ?_⟩
      rw [h, hlen]
      decide
    have hrem : remaining (recvheaderLoop feed [] body) = _ := remaining_recvheaderLoop hdec []
    rw [ha, h] at hrem
    -- two bytes are neither too many nor a blank line of four
    have hleading : a = .leading := by
      obtain ⟨n, -, hn, hstop⟩ := firstStop_some ha
      rw [h] at hstop
      rw [hlen] at hn
      rcases stop_some hstop with ⟨-, hlimit⟩ | ⟨-, -, p, hp, -⟩ | ⟨rfl, -⟩
      · exact absurd (Nat.lt_of_lt_of_le hlimit hn) (by decide)
      · cases hp
      · rfl
    rw [hleading] at hrem
    rw [recvheader_of_not_decided hdec]
    obtain ⟨⟨o, f⟩, heq, hmap⟩ := Option.map_eq_some_iff.mp hrem
    obtain ⟨⟨ls, r⟩, hr, hpair⟩ := Option.map_eq_some_iff.mp hmap
    obtain ⟨hls, hrest⟩ := Prod.mk.inj hpair
    obtain ⟨hr', hf'⟩ := List.append_eq_nil_iff.mp hrest
    dsimp only at hr hls hr' hf'
    rw [heq, hr, hls, hr', hempty hf']

/-! ## The round trip -/

/-- **The loop** reads the chunks of the pieces. -/
theorem recvchunks_reads {pieces : List (List UInt8)} (result : List UInt8) (size : ℤ)
    (h : body ++ feed.bytes = chunkedText pieces)
    (hfits : result.length + pieces.flatten.length < maxString) :
    ∃ body' feed', recvchunks none result size feed body =
        some (some (result ++ pieces.flatten, body'), feed') ∧ body' ++ feed'.bytes = crln := by
  induction pieces generalizing result size feed body with
  | nil =>
    have hline : splitLine crln (body ++ feed.bytes) = some ([48], crln) := by
      rw [h]
      decide
    have hzero : tonumberBase [48] 16 = some 0 := by decide
    obtain ⟨body', feed', hread, hrest⟩ := chunksize_reads hline hzero (by decide)
    refine ⟨body', feed', ?_, hrest⟩
    rw [recvchunks_eq, hread, List.flatten_nil, List.append_nil]
    exact if_pos rfl
  | cons s pieces ih =>
    rw [List.flatten_cons] at hfits ⊢
    rw [List.length_append] at hfits
    rw [chunkedText] at h
    by_cases hs : s = []
    · rw [if_neg (not_ne_iff.mpr hs)] at h
      rw [hs, List.nil_append]
      exact ih result size h (by omega)
    · rw [if_pos hs] at h
      have hpos := List.length_pos_of_ne_nil hs
      have hsize : s.length < 2 ^ 63 := Nat.lt_trans (by omega : s.length < maxString) (by decide)
      obtain ⟨body₁, feed₁, hchunksize, hrest₁⟩ := chunksize_reads (h ▸ splitLine_hexText _ _)
        (tonumberBase_hexText hsize) (Nat.le_trans (length_hexText_le hsize) (by decide))
      obtain ⟨body₂, feed₂, htake, hrest₂⟩ := takeChunk_reads result hrest₁ (by omega)
      obtain ⟨body₃, feed₃, hcrln, hrest₃⟩ := readcrln_reads hrest₂
      obtain ⟨body', feed', hloop, hrest⟩ :=
        ih (result ++ s) (toInt64 (size + s.length)) hrest₃ (by rw [List.length_append]; omega)
      refine ⟨body', feed', ?_, hrest⟩
      rw [recvchunks_eq, hchunksize]
      dsimp only
      rw [if_neg (by omega), if_neg (fun hlimit ↦ by simp at hlimit), htake]
      dsimp only
      rw [hcrln]
      dsimp only
      rw [hloop, List.append_assoc]

/-- **Chunked bodies.** What `writeall` sends behind the header for the pieces of a body,
`recvchunkedbody` reads as their concatenation and to the end, whatever is buffered of it and
however the rest is delivered. The concatenation has to be a string of Lua. -/
theorem recvchunkedbody_writeall (statuscode : ℕ) (pieces : List (List UInt8))
    (fields : HeaderFields) (header : Header) (sent buffered : List UInt8) (feed : Feed)
    (hsent : (writeall statuscode (.function pieces) fields).flatten =
      (writeHead statuscode fields).flatten ++
        (ascii "transfer-encoding: chunked" ++ blankLine ++ sent))
    (hfeed : buffered ++ feed.bytes = sent) (hfits : pieces.flatten.length < maxString) :
    recvchunkedbody none header feed buffered = some (some (pieces.flatten, some header), []) := by
  rw [flatten_writeall, List.append_cancel_left_eq, List.append_cancel_left_eq] at hsent
  -- the chunks of the writer are what the reader asks for, however the feed cuts them
  obtain ⟨body', feed', hloop, hrest⟩ := recvchunks_reads [] 0
    (hfeed.trans hsent.symm) (by rwa [List.length_nil, Nat.zero_add])
  rw [recvchunkedbody, hloop]
  dsimp only
  rw [recvheader_reads hrest]
  rfl

/-- Two pieces with an empty one between them; the first three bytes are buffered already. -/
theorem recvchunkedbody_writeall_pieces :
    recvchunkedbody none (fun _ ↦ none) [⟨[97, 98, 13], by decide⟩,
      ⟨[10, 49, 13, 10, 99], by decide⟩,
      ⟨[13, 10, 48, 13, 10, 13], by decide⟩, ⟨[10], by decide⟩] [50, 13, 10] =
        some (some ([97, 98, 99], some fun _ ↦ none), []) :=
  recvchunkedbody_writeall 200 [[97, 98], [], [99]] [] (fun _ ↦ none)
    [50, 13, 10, 97, 98, 13, 10, 49, 13, 10, 99, 13, 10, 48, 13, 10, 13, 10] _ _
    (by decide) (by decide) (by decide)

end ZTask
