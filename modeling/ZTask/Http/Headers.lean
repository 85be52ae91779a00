import ZTask.Http.Internal

/-!
# Headers and the chunks they come in

`recvheader` looks at what has come so far whenever a chunk has come, so the ends of the chunks are
the positions at which it may stop. At such a position it gives up if more than `LIMIT` bytes have
come, otherwise it returns the header if the blank line has come, and otherwise it returns an empty
header if the stream begins with a line end (`stop`). What it returns is decided by the first end of
a chunk at which it stops (`remaining_recvheaderLoop`).

Two deliveries of a stream are read in the same way if and only if they are stopped for the same
reason, and that is so for all of them unless the stream is one of two kinds: it goes on beyond the
limit and has its blank line within it, or it begins with a line end and has a blank line or is too
long (`recvheader_independent`).
-/

namespace ZTask

/-! ## Where a reader stops -/

/-- Why `recvheader` stops: there is too much, the blank line has come, or the first bytes are a
line end. -/
inductive Stop
  | limit
  | blank
  | leading
  deriving DecidableEq

/-- The blank line ends within the first `n` bytes. -/
def BlankWithin (stream : List UInt8) (n : ℕ) : Prop :=
  ∃ p ∈ splitLine blankLine stream, p.1.length + blankLine.length ≤ n

instance decidableBlankWithin (stream : List UInt8) (n : ℕ) : Decidable (BlankWithin stream n) :=
  inferInstanceAs (Decidable (∃ p ∈ splitLine blankLine stream, p.1.length + blankLine.length ≤ n))

/-- Whether `recvheader` stops when the first `n` bytes of a stream have come. -/
def stop (stream : List UInt8) (n : ℕ) : Option Stop :=
  if headerLimit < n then some .limit
  else if BlankWithin stream n then some .blank
  else if crln <+: stream ∧ 2 ≤ n then some .leading
  else none

/-- The positions of the ends of the chunks, the first of which begins at `start`. -/
def chunkEnds (start : ℕ) : Feed → List ℕ
  | [] => []
  | chunk :: feed => (start + chunk.1.length) :: chunkEnds (start + chunk.1.length) feed

/-- The reason at the first end of a chunk at which there is one. -/
def firstStop (header : List UInt8) (feed : Feed) : Option Stop :=
  (chunkEnds header.length feed).findSome? (stop (header ++ feed.bytes))

/-- `recvheader` does not read anything. -/
def Decided (header : List UInt8) : Prop := crln <+: header ∨ (splitLine blankLine header).isSome

instance decidableDecided (header : List UInt8) : Decidable (Decided header) :=
  inferInstanceAs (Decidable (crln <+: header ∨ (splitLine blankLine header).isSome))

/-- What is compared: the lines, and the body prefix followed by the bytes not delivered yet. -/
def remaining (r : HeaderResult) : Option (Option (List (List UInt8) × List UInt8)) :=
  r.map fun r ↦ r.1.map fun p ↦ (p.1, p.2 ++ r.2.bytes)

/-- What `recvheader` returns of a whole stream, by the reason for which it stops. -/
def returned (lines : List (List UInt8)) (stream : List UInt8) :
    Stop → Option (List (List UInt8) × List UInt8)
  | .limit => none
  | .blank => (splitLine blankLine stream).map fun p ↦ (lines ++ headerLines stream, p.2)
  | .leading => some (lines, stream.drop 2)

section

variable {header stream line rest more : List UInt8} {lines : List (List UInt8)} {feed feed' : Feed}
  {n m : ℕ} {a b : Stop}

/-! ## The lines of a header -/

private theorem headerLines_eq (h : splitLine crln header = some (line, rest)) :
    headerLines header = if line = [] then [] else line :: headerLines rest := by
  rw [headerLines.eq_def]
  split
  next hnone =>
    rw [h] at hnone
    cases hnone
  next v rest' hsome =>
    rw [h] at hsome
    obtain ⟨rfl, rfl⟩ := Prod.mk.inj (Option.some.inj hsome)
    rfl

private theorem headerLines_crln (rest : List UInt8) : headerLines (crln ++ rest) = [] := by
  rw [headerLines_eq (splitLine_starts (by decide) rest), if_pos rfl]

/-- The first line of a header that ends with a blank line: it is the only one, or the blank line is
in what follows it. -/
theorem firstLine (h : splitLine blankLine header = some (line, rest)) :
    ∃ v tail, splitLine crln header = some (v, tail) ∧
      ((∃ r, tail = crln ++ r) ∨ ∃ l, splitLine blankLine tail = some (l, rest)) := by
  have hwhole : header = line ++ crln ++ (crln ++ rest) := by
    rw [splitLine_append h, List.append_assoc]
    rfl
  have hsome : (splitLine crln (line ++ crln)).isSome := by
    have hline := splitLine_isSome (show crln ≠ [] by decide) line []
    rwa [List.append_nil] at hline
  obtain ⟨⟨v, s⟩, hs⟩ := Option.isSome_iff_exists.mp hsome
  have hv := splitLine_append hs
  have hfirst : splitLine crln header = some (v, s ++ (crln ++ rest)) := by
    rw [hwhole]
    exact splitLine_append_right hs _
  refine ⟨v, s ++ (crln ++ rest), hfirst, ?_⟩
  have hlen := congrArg List.length hv
  simp only [List.length_append, show crln.length = 2 from rfl] at hlen
  cases s with
  | nil => exact Or.inl ⟨rest, rfl⟩
  | cons x s =>
    right
    cases s with
    | nil =>
      -- a line end cannot begin within a line end
      have hlast : line = v ++ [13] := by
        have htake := congrArg (List.take (v.length + 1)) hv
        rw [List.take_left' (by rw [List.length_cons, List.length_nil] at hlen; omega)] at htake
        rw [htake, List.take_append, List.take_of_length_le (Nat.le_succ _),
          Nat.add_sub_cancel_left]
        rfl
      rw [hlast, List.append_assoc, List.append_cancel_left_eq] at hv
      exact absurd (List.cons.inj (List.cons.inj hv).2).1 (by decide)
    | cons y s =>
      have hk : v.length + 2 ≤ line.length := by
        simp only [List.length_cons] at hlen
        omega
      have hdrop := splitLine_drop h hk
      have htail : header.drop (v.length + 2) = _ := drop_splitLine hfirst
      exact ⟨_, htail ▸ hdrop⟩

private theorem headerLines_append (h : splitLine blankLine header = some (line, rest)) :
    headerLines (header ++ more) = headerLines header := by
  induction hn : header.length using Nat.strong_induction_on generalizing header line with
  | _ n ih =>
    obtain ⟨v, tail, hfirst, htail⟩ := firstLine h
    rw [headerLines_eq hfirst, headerLines_eq (splitLine_append_right hfirst more)]
    split
    · rfl
    · rcases htail with ⟨r, rfl⟩ | ⟨l, hl⟩
      · rw [List.append_assoc, headerLines_crln, headerLines_crln]
      · rw [ih tail.length (hn ▸ splitLine_length_lt hfirst (by decide)) hl rfl]

/-! ## The run of the reader -/

/-- Looking at the last bytes only finds what looking at all of them does. -/
theorem find_last (h : splitLine blankLine header = none) (bytes : List UInt8) :
    (splitLine blankLine ((header ++ bytes).drop
    ((header ++ bytes).length - (bytes.length + 3)))).map
      Prod.snd = (splitLine blankLine (header ++ bytes)).map Prod.snd := by
  cases hall : splitLine blankLine (header ++ bytes) with
  | none => rw [splitLine_drop_eq_none hall]
  | some p =>
    obtain ⟨l, r⟩ := p
    have hlong : header.length < l.length + 4 := by
      by_contra hle
      have htake := splitLine_take (n := header.length) (by decide) hall
      have hle' : l.length + blankLine.length ≤ header.length := Nat.le_of_not_lt hle
      rw [List.take_left' rfl, h, if_pos hle'] at htake
      cases htake
    rw [splitLine_drop hall (by rw [List.length_append]; omega)]
    rfl

private theorem blankWithin_append (n : ℕ) (hn : n = header.length) :
    BlankWithin (header ++ more) n ↔ (splitLine blankLine header).isSome := by
  constructor
  · rintro ⟨p, hp, hle⟩
    have htake := splitLine_take (n := n) (by decide) hp
    rw [List.take_left' hn.symm, if_pos hle] at htake
    rw [htake]
    rfl
  · intro hsome
    obtain ⟨⟨l, r⟩, hl⟩ := Option.isSome_iff_exists.mp hsome
    refine ⟨(l, r ++ more), splitLine_append_right hl more, ?_⟩
    have hlen := congrArg List.length (splitLine_append hl)
    simp only [List.length_append] at hlen
    show l.length + blankLine.length ≤ n
    omega

private theorem crln_prefix_append (n : ℕ) (hn : n = header.length) :
    (crln <+: header ++ more ∧ 2 ≤ n) ↔ crln <+: header := by
  constructor
  · rintro ⟨hstarts, hle⟩
    exact List.prefix_of_prefix_length_le hstarts (List.prefix_append header more) (hn ▸ hle)
  · exact fun h ↦ ⟨h.trans (List.prefix_append header more), hn ▸ h.length_le⟩

private theorem firstStop_cons (chunk : { chunk : List UInt8 // chunk ≠ [] }) (feed : Feed) :
    firstStop header (chunk :: feed) =
      (stop (header ++ chunk.1 ++ feed.bytes) (header ++ chunk.1).length).or
        (firstStop (header ++ chunk.1) feed) := by
  rw [firstStop, firstStop, chunkEnds, List.findSome?_cons, Feed.bytes_cons, List.append_assoc,
    List.length_append]
  cases stop (header ++ (chunk.1 ++ feed.bytes)) (header.length + chunk.1.length) <;> rfl

/-- **The loop** returns what the first end of a chunk at which it stops decides. -/
theorem remaining_recvheaderLoop (h : ¬Decided header) (lines : List (List UInt8)) :
    remaining (recvheaderLoop feed lines header) =
      (firstStop header feed).map (returned lines (header ++ feed.bytes)) := by
  -- on the deliveries; the loop looks at what has come only between two of them
  induction feed generalizing header with
  | nil => rfl
  | cons chunk feed ih =>
    obtain ⟨bytes, hne⟩ := chunk
    obtain ⟨-, hnoblank⟩ := not_or.mp h
    have hfind := find_last (Option.not_isSome_iff_eq_none.mp hnoblank) bytes
    rw [firstStop_cons, Feed.bytes_cons, ← List.append_assoc, recvheaderLoop, stop]
    dsimp only
    by_cases hlimit : headerLimit < (header ++ bytes).length
    · rw [if_pos hlimit, if_pos hlimit]
      rfl
    · rw [if_neg hlimit, if_neg hlimit]
      by_cases hblank : (splitLine blankLine (header ++ bytes)).isSome
      · rw [if_pos ((blankWithin_append _ rfl).mpr hblank)]
        obtain ⟨⟨l, r⟩, hl⟩ := Option.isSome_iff_exists.mp hblank
        rw [hl] at hfind
        obtain ⟨⟨l', r'⟩, hl', hr⟩ := Option.map_eq_some_iff.mp hfind
        rw [hl']
        dsimp only at hr ⊢
        rw [hr, remaining, Option.map_some, Option.map_some, Option.some_or,
          Option.map_some, returned, splitLine_append_right hl, headerLines_append hl]
        rfl
      · rw [if_neg fun hw ↦ hblank ((blankWithin_append _ rfl).mp hw)]
        rw [Option.not_isSome_iff_eq_none.mp hblank, Option.map_none,
          Option.map_eq_none_iff] at hfind
        rw [hfind]
        dsimp only
        by_cases hlead : crln <+: header ++ bytes
        · rw [if_pos hlead, if_pos ((crln_prefix_append _ rfl).mpr hlead), Option.some_or]
          have hle : 2 ≤ (header ++ bytes).length := hlead.length_le
          rw [remaining, Option.map_some, Option.map_some, Option.map_some, returned,
            List.drop_append_of_le_length hle]
        · rw [if_neg hlead, if_neg fun hl ↦ hlead ((crln_prefix_append _ rfl).mp hl),
            Option.none_or]
          exact ih (not_or.mpr ⟨hlead, hblank⟩)

theorem recvheader_of_not_decided (h : ¬Decided header) :
    recvheader feed lines header = recvheaderLoop feed lines header := by
  obtain ⟨hlead, hblank⟩ := not_or.mp h
  rw [recvheader, if_neg fun hl ↦ hlead hl.2, Option.not_isSome_iff_eq_none.mp hblank]

private theorem remaining_recvheader_of_decided (lines : List (List UInt8)) (h : Decided header) :
    ∃ r : List (List UInt8) × List UInt8, ∀ feed : Feed,
      remaining (recvheader feed lines header) = some (some (r.1, r.2 ++ feed.bytes)) := by
  by_cases hlead : crln <+: header
  · refine ⟨(lines, header.drop 2), fun feed ↦ ?_⟩
    rw [recvheader, if_pos ⟨hlead.length_le, hlead⟩]
    rfl
  · obtain ⟨⟨l, r⟩, hl⟩ := Option.isSome_iff_exists.mp (h.resolve_left hlead)
    refine ⟨(lines ++ headerLines header, r), fun feed ↦ ?_⟩
    rw [recvheader, if_neg fun h' ↦ hlead h'.2, hl]
    rfl

/-! ## Two deliveries -/

theorem stop_some (h : stop stream n = some a) :
    a = .limit ∧ headerLimit < n ∨ a = .blank ∧ n ≤ headerLimit ∧ BlankWithin stream n ∨
      a = .leading ∧ n ≤ headerLimit ∧ ¬BlankWithin stream n ∧ crln <+: stream ∧ 2 ≤ n := by
  rw [stop] at h
  by_cases hlimit : headerLimit < n
  · rw [if_pos hlimit] at h
    exact Or.inl ⟨(Option.some.inj h).symm, hlimit⟩
  · rw [if_neg hlimit] at h
    have hle := Nat.le_of_not_lt hlimit
    by_cases hblank : BlankWithin stream n
    · rw [if_pos hblank] at h
      exact Or.inr (Or.inl ⟨(Option.some.inj h).symm, hle, hblank⟩)
    · rw [if_neg hblank] at h
      by_cases hlead : crln <+: stream ∧ 2 ≤ n
      · rw [if_pos hlead] at h
        exact Or.inr (Or.inr ⟨(Option.some.inj h).symm, hle, hblank, hlead⟩)
      · rw [if_neg hlead] at h
        cases h

private theorem stop_limit (h : headerLimit < n) : stop stream n = some .limit := if_pos h

private theorem stop_blank (hn : n ≤ headerLimit) (h : BlankWithin stream n) :
    stop stream n = some .blank := by
  rw [stop, if_neg (Nat.not_lt_of_le hn), if_pos h]

theorem stop_leading (hn : n ≤ headerLimit) (h : ¬BlankWithin stream n) (hlead : crln <+: stream)
    (h2 : 2 ≤ n) : stop stream n = some .leading := by
  rw [stop, if_neg (Nat.not_lt_of_le hn), if_neg h, if_pos ⟨hlead, h2⟩]

theorem BlankWithin.mono (h : BlankWithin stream n) (hnm : n ≤ m) : BlankWithin stream m := by
  obtain ⟨p, hp, hle⟩ := h
  exact ⟨p, hp, Nat.le_trans hle hnm⟩

theorem stop_mono (h : stop stream n = some a) (hnm : n ≤ m) : ∃ b, stop stream m = some b := by
  by_cases hlimit : headerLimit < m
  · exact ⟨_, stop_limit hlimit⟩
  · have hm := Nat.le_of_not_lt hlimit
    by_cases hblank : BlankWithin stream m
    · exact ⟨_, stop_blank hm hblank⟩
    · rcases stop_some h with ⟨-, hn⟩ | ⟨-, -, hb⟩ | ⟨-, -, -, hlead, h2⟩
      · omega
      · exact absurd (hb.mono hnm) hblank
      · exact ⟨_, stop_leading hm hblank hlead (Nat.le_trans h2 hnm)⟩

/-- Different reasons have different results. -/
theorem returned_injective (hn : stop stream n = some a) (hm : stop stream m = some b)
    (h : returned lines stream a = returned lines stream b) : a = b := by
  have hblank : ∀ {k}, BlankWithin stream k → ∃ l r, splitLine blankLine stream = some (l, r) ∧
      returned lines stream .blank = some (lines ++ headerLines stream, r) := by
    rintro k ⟨⟨l, r⟩, hp, -⟩
    refine ⟨l, r, hp, ?_⟩
    rw [returned, Option.mem_def.mp hp]
    rfl
  have hapart : ∀ {k}, BlankWithin stream k →
      returned lines stream .blank ≠ returned lines stream .leading := by
    intro k hk heq
    obtain ⟨l, r, hsplit, hr⟩ := hblank hk
    rw [hr, returned] at heq
    have hrest := (Prod.mk.inj (Option.some.inj heq)).2
    have hlen := congrArg List.length (splitLine_append hsplit)
    have hlen' := congrArg List.length hrest
    rw [List.length_append, List.length_append, show blankLine.length = 4 from rfl] at hlen
    rw [List.length_drop] at hlen'
    omega
  rcases stop_some hn with ⟨rfl, -⟩ | ⟨rfl, -, hbn⟩ | ⟨rfl, -⟩ <;>
    rcases stop_some hm with ⟨rfl, -⟩ | ⟨rfl, -, hbm⟩ | ⟨rfl, -⟩
  · rfl
  · obtain ⟨l, r, -, hr⟩ := hblank hbm
    exact nomatch h.trans hr
  · exact nomatch h
  · obtain ⟨l, r, -, hr⟩ := hblank hbn
    exact nomatch hr.symm.trans h
  · rfl
  · exact absurd h (hapart hbn)
  · exact nomatch h
  · exact absurd h.symm (hapart hbm)
  · rfl

private theorem mem_chunkEnds {start : ℕ} (h : n ∈ chunkEnds start feed) :
    start < n ∧ n ≤ start + feed.bytes.length := by
  induction feed generalizing start with
  | nil => exact nomatch h
  | cons chunk feed ih =>
    have hpos := List.length_pos_of_ne_nil chunk.2
    rw [Feed.bytes_cons, List.length_append]
    rcases List.mem_cons.mp h with rfl | h
    · omega
    · have hn := ih h
      omega

theorem last_mem_chunkEnds {start : ℕ} (h : feed ≠ []) :
    start + feed.bytes.length ∈ chunkEnds start feed := by
  induction feed generalizing start with
  | nil => exact absurd rfl h
  | cons chunk feed ih =>
    rw [Feed.bytes_cons, List.length_append, ← Nat.add_assoc, chunkEnds]
    cases feed with
    | nil => exact List.mem_cons_self
    | cons chunk' feed => exact List.mem_cons_of_mem _ (ih (List.cons_ne_nil _ _))

theorem firstStop_some (h : firstStop header feed = some a) :
    ∃ n, header.length < n ∧ n ≤ header.length + feed.bytes.length ∧
      stop (header ++ feed.bytes) n = some a := by
  obtain ⟨n, hn, hstop⟩ := List.exists_of_findSome?_eq_some h
  obtain ⟨hlo, hhi⟩ := mem_chunkEnds hn
  exact ⟨n, hlo, hhi, hstop⟩

theorem firstStop_isSome (hbytes : feed.bytes = feed'.bytes) (h : firstStop header feed = some a) :
    ∃ b, firstStop header feed' = some b := by
  obtain ⟨n, hlo, hhi, hn⟩ := firstStop_some h
  rw [hbytes] at hhi hn
  obtain ⟨b, hb⟩ := stop_mono hn hhi
  have hne : feed' ≠ [] := by
    rintro rfl
    exact absurd hhi (Nat.not_le_of_lt hlo)
  refine Option.isSome_iff_exists.mp ?_
  rw [firstStop, List.isSome_findSome?, List.any_eq_true]
  exact ⟨_, last_mem_chunkEnds hne, by rw [hb]; rfl⟩

/-- **Two deliveries** of a stream are read in the same way if and only if they are stopped for the
same reason. -/
theorem remaining_eq_iff (hbytes : feed.bytes = feed'.bytes) :
    remaining (recvheader feed lines header) = remaining (recvheader feed' lines header) ↔
      Decided header ∨ firstStop header feed = firstStop header feed' := by
  by_cases hdec : Decided header
  · obtain ⟨r, hr⟩ := remaining_recvheader_of_decided lines hdec
    rw [hr, hr, hbytes]
    exact iff_of_true rfl (Or.inl hdec)
  · rw [recvheader_of_not_decided hdec, recvheader_of_not_decided hdec,
      remaining_recvheaderLoop hdec, remaining_recvheaderLoop hdec, hbytes]
    constructor
    · intro h
      right
      cases hf : firstStop header feed with
      | none =>
        cases hg : firstStop header feed' with
        | none => rfl
        | some b =>
          obtain ⟨a, ha⟩ := firstStop_isSome hbytes.symm hg
          exact nomatch hf.symm.trans ha
      | some a =>
        obtain ⟨b, hb⟩ := firstStop_isSome hbytes hf
        obtain ⟨n, -, -, hn⟩ := firstStop_some hf
        obtain ⟨m, -, -, hm⟩ := firstStop_some hb
        rw [hbytes] at hn
        rw [hf, hb, Option.map_some, Option.map_some] at h
        rw [hb, returned_injective hn hm (Option.some.inj h)]
    · intro h
      rw [h.resolve_left hdec]

/-- The stream may end a chunk at any position. -/
theorem exists_firstStop (hlo : header.length < n) (hhi : n ≤ (header ++ stream).length)
    (hn : stop (header ++ stream) n = some a) :
    ∃ feed : Feed, feed.bytes = stream ∧ firstStop header feed = some a := by
  rw [List.length_append] at hhi
  have hfirst : stream.take (n - header.length) ≠ [] := by
    intro hnil
    have hlen := congrArg List.length hnil
    rw [List.length_take, List.length_nil] at hlen
    omega
  have hend : (header ++ stream.take (n - header.length)).length = n := by
    rw [List.length_append, List.length_take]
    omega
  have hcons : ∀ rest : Feed, rest.bytes = stream.drop (n - header.length) →
      Feed.bytes (⟨_, hfirst⟩ :: rest) = stream ∧
        firstStop header (⟨_, hfirst⟩ :: rest) = some a := by
    intro rest hrest
    refine ⟨by rw [Feed.bytes_cons, hrest, List.take_append_drop], ?_⟩
    rw [firstStop_cons, hrest, List.append_assoc, List.take_append_drop, hend, hn, Option.some_or]
  by_cases hrest : stream.drop (n - header.length) = []
  · exact ⟨[⟨_, hfirst⟩], hcons [] (by rw [hrest]; rfl)⟩
  · exact ⟨[⟨_, hfirst⟩, ⟨_, hrest⟩], hcons [⟨_, hrest⟩] (List.append_nil _)⟩

end

/-- All deliveries of the stream behind a header are stopped for the same reason. -/
def Uniform (header stream : List UInt8) : Prop :=
  if crln <+: header ++ stream then
    (header ++ stream).length ≤ headerLimit ∧ splitLine blankLine (header ++ stream) = none
  else (header ++ stream).length ≤ headerLimit ∨ ¬BlankWithin (header ++ stream) headerLimit

section

variable {header stream : List UInt8} {n m : ℕ} {a b : Stop}

private theorem stop_of_uniform (h : Uniform header stream) (hn : n ≤ (header ++ stream).length)
    (hm : m ≤ (header ++ stream).length) (ha : stop (header ++ stream) n = some a)
    (hb : stop (header ++ stream) m = some b) : a = b := by
  rw [Uniform] at h
  by_cases hlead : crln <+: header ++ stream
  · -- it stops at the line end in front
    rw [if_pos hlead] at h
    have hleading : ∀ {k c}, k ≤ (header ++ stream).length →
        stop (header ++ stream) k = some c → c = .leading := by
      intro k c hk hc
      rcases stop_some hc with ⟨-, hlimit⟩ | ⟨-, -, p, hp, -⟩ | ⟨rfl, -⟩
      · omega
      · exact nomatch h.2.symm.trans hp
      · rfl
    rw [hleading hn ha, hleading hm hb]
  · rw [if_neg hlead] at h
    rcases h with hlen | hblank
    · have hblank : ∀ {k c}, k ≤ (header ++ stream).length →
          stop (header ++ stream) k = some c → c = .blank := by
        intro k c hk hc
        rcases stop_some hc with ⟨-, hlimit⟩ | ⟨rfl, -⟩ | ⟨-, -, -, hl, -⟩
        · omega
        · rfl
        · exact absurd hl hlead
      rw [hblank hn ha, hblank hm hb]
    · have hlimit : ∀ {k c}, stop (header ++ stream) k = some c → c = .limit := by
        intro k c hc
        rcases stop_some hc with ⟨rfl, -⟩ | ⟨-, hk, hw⟩ | ⟨-, -, -, hl, -⟩
        · rfl
        · exact absurd (hw.mono hk) hblank
        · exact absurd hl hlead
      rw [hlimit ha, hlimit hb]

/-- On other streams there are two positions at which it stops for different reasons. -/
theorem uniform_of_stop (hdec : ¬Decided header)
    (h : ∀ {n m a b}, header.length < n → n ≤ (header ++ stream).length → header.length < m →
      m ≤ (header ++ stream).length → stop (header ++ stream) n = some a →
        stop (header ++ stream) m = some b → a = b) : Uniform header stream := by
  obtain ⟨hlead, hblank⟩ := not_or.mp hdec
  -- the header so far has no blank line, so the first one ends in what is still to come
  have hmore : ∀ {n}, BlankWithin (header ++ stream) n → header.length < n := by
    intro n hn
    by_contra hle
    exact hblank ((blankWithin_append _ rfl).mp (hn.mono (Nat.le_of_not_lt hle)))
  rw [Uniform]
  -- a stream that starts with an empty line is cut there if only two bytes have come
  by_cases hwhole : crln <+: header ++ stream
  · rw [if_pos hwhole]
    have hshort : header.length < 2 := by
      by_contra hle
      exact hlead ((crln_prefix_append _ rfl).mp ⟨hwhole, Nat.le_of_not_lt hle⟩)
    have h2 : 2 ≤ (header ++ stream).length := hwhole.length_le
    have hnot2 : ¬BlankWithin (header ++ stream) 2 := by
      rintro ⟨p, -, hle⟩
      rw [show blankLine.length = 4 from rfl] at hle
      omega
    have hstop2 := stop_leading (by decide) hnot2 hwhole (Nat.le_refl 2)
    have hlen : (header ++ stream).length ≤ headerLimit := by
      by_contra hlt
      exact nomatch h hshort h2 (Nat.lt_of_lt_of_le hshort h2) (Nat.le_refl _) hstop2
        (stop_limit (Nat.lt_of_not_le hlt))
    refine ⟨hlen, ?_⟩
    cases hsplit : splitLine blankLine (header ++ stream) with
    | none => rfl
    | some p =>
      have hw : BlankWithin (header ++ stream) (header ++ stream).length := by
        refine ⟨p, hsplit, ?_⟩
        have hlen' := congrArg List.length (splitLine_append hsplit)
        show p.1.length + blankLine.length ≤ (header ++ stream).length
        rw [hlen', List.length_append, List.length_append]
        omega
      exact nomatch h hshort h2 (hmore hw) (Nat.le_refl _) hstop2 (stop_blank hlen hw)
  · rw [if_neg hwhole]
    by_contra hno
    obtain ⟨hlen, hw⟩ := not_or.mp hno
    have hlt := Nat.lt_of_not_le hlen
    have hw := not_not.mp hw
    exact nomatch h (hmore hw) (Nat.le_of_lt hlt) (Nat.lt_trans (hmore hw) hlt) (Nat.le_refl _)
      (stop_blank (Nat.le_refl _) hw) (stop_limit hlt)

end

/-- **Headers.** Two deliveries of a stream are read in the same way if and only if nothing is to be
read or the first end of a chunk at which the reader stops is of the same kind in both: beyond the
limit, behind the blank line, or neither, behind the line end with which the stream begins. This
holds for all deliveries of a stream if and only if nothing is to be read or the stream is uniform.
-/
theorem recvheader_independent (lines : List (List UInt8)) (header stream : List UInt8) :
    (∀ f g : Feed, f.bytes = stream → g.bytes = stream →
      (remaining (recvheader f lines header) = remaining (recvheader g lines header) ↔
        Decided header ∨ firstStop header f = firstStop header g)) ∧
    ((∀ f g : Feed, f.bytes = stream → g.bytes = stream →
      remaining (recvheader f lines header) = remaining (recvheader g lines header)) ↔
        Decided header ∨ Uniform header stream) := by
  refine ⟨fun f g hf hg ↦ remaining_eq_iff (hf.trans hg.symm), ?_⟩
  constructor
  · intro h
    by_cases hdec : Decided header
    · exact Or.inl hdec
    · -- two stops of the stream give two deliveries, each cut at one of them
      refine Or.inr (uniform_of_stop hdec fun hn hn' hm hm' ha hb ↦ ?_)
      obtain ⟨f, hf, hfa⟩ := exists_firstStop hn hn' ha
      obtain ⟨g, hg, hgb⟩ := exists_firstStop hm hm' hb
      have hsame := ((remaining_eq_iff (hf.trans hg.symm)).mp (h f g hf hg)).resolve_left hdec
      exact Option.some.inj (hfa.symm.trans (hsame.trans hgb))
  · intro h f g hf hg
    refine (remaining_eq_iff (hf.trans hg.symm)).mpr (h.imp_right fun hu ↦ ?_)
    cases hfa : firstStop header f with
    | none =>
      cases hgb : firstStop header g with
      | none => rfl
      | some b =>
        obtain ⟨a, ha⟩ := firstStop_isSome (hg.trans hf.symm) hgb
        exact nomatch hfa.symm.trans ha
    | some a =>
      obtain ⟨b, hb⟩ := firstStop_isSome (hf.trans hg.symm) hfa
      obtain ⟨n, -, hn, hstopn⟩ := firstStop_some hfa
      obtain ⟨m, -, hm, hstopm⟩ := firstStop_some hb
      rw [hf] at hn hstopn
      rw [hg] at hm hstopm
      rw [← List.length_append] at hn hm
      rw [hb, stop_of_uniform hu hn hm hstopn hstopm]

/-- `"\r\na\r\n\r\n"` in one piece and with its first two bytes apart: nothing follows the header
in one case, and `"a\r\n\r\n"` in the other. -/
theorem not_recvheader_independent :
    ∃ f g : Feed, f.bytes = [13, 10, 97, 13, 10, 13, 10] ∧ g.bytes = f.bytes ∧
      remaining (recvheader f [] []) = some (some ([], [])) ∧
      remaining (recvheader g [] []) = some (some ([], [97, 13, 10, 13, 10])) :=
  ⟨[⟨[13, 10, 97, 13, 10, 13, 10], by decide⟩],
    [⟨[13, 10], by decide⟩, ⟨[97, 13, 10, 13, 10], by decide⟩], by decide +kernel⟩

end ZTask
