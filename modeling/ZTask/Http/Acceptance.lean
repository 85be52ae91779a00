import ZTask.Http.Internal

/-!
# Which bodies are accepted

A stream is a chunked body if it consists of chunks, each with the number of its bytes on a line in
front of it, up to one of size zero (`Chunked`). `recvchunkedbody` reads the sizes with `tonumber`,
which also reads negative numbers, and cuts large ones down to a `lua_Integer`; with a negative size
it takes bytes for the body that it reads once more, and the limit is not kept either. What it
returns is a chunked body if and only if no size line that it comes to is of this kind
(`recvchunkedbody_accepts`).
-/

namespace ZTask

/-! ## Chunked bodies -/

/-- The stream begins with chunks of these payloads and a last one of size zero, and `rest` follows.
A size stands in front of the first line end. -/
inductive Chunked : List UInt8 → List (List UInt8) → List UInt8 → Prop
  | last {stream line rest : List UInt8} : splitLine crln stream = some (line, rest) →
      numeral 16 line = some 0 → Chunked stream [] rest
  | chunk {stream line payload more rest : List UInt8} {payloads : List (List UInt8)} :
      splitLine crln stream = some (line, payload ++ (crln ++ more)) →
      numeral 16 line = some (payload.length : ℤ) → payload ≠ [] → Chunked more payloads rest →
      Chunked stream (payload :: payloads) rest

/-- The body is the concatenation of the payloads of the chunks that the stream consists of. -/
def Accepted (bodylimit : Option ℕ) (stream result : List UInt8) : Prop :=
  ∃ payloads rest, Chunked stream payloads rest ∧ result = payloads.flatten ∧
    result.length = (payloads.map List.length).sum ∧ ∀ limit ∈ bodylimit, result.length ≤ limit

/-- The size is a number of bytes that a `lua_Integer` can hold. -/
def SizeFits (line : List UInt8) : Prop := ∃ n : ℕ, numeral 16 line = some (n : ℤ) ∧ n < 2 ^ 63

/-- The lines in front of the chunks, up to the first with a size that is not positive. -/
def sizeLines (stream : List UInt8) : List (List UInt8) :=
  match _h : splitLine crln stream with
  | none => []
  | some (line, rest) =>
    match tonumberBase line 16 with
    | none => [line]
    | some sz => if sz ≤ 0 then [line] else line :: sizeLines (rest.drop (sz.toNat + crln.length))
termination_by stream.length
decreasing_by
  have hlt := splitLine_length_lt _h (by decide)
  rw [List.length_drop]
  omega

section

variable {bodylimit : Option ℕ} {feed feed' : Feed}
  {body body' stream line rest result result' : List UInt8} {size sz : ℤ} {n : ℕ}
  {payloads : List (List UInt8)}

private theorem sizeLines_eq (h : splitLine crln stream = some (line, rest))
    (hsz : tonumberBase line 16 = some sz) : sizeLines stream =
      if sz ≤ 0 then [line] else line :: sizeLines (rest.drop (sz.toNat + crln.length)) := by
  rw [sizeLines.eq_def]
  split
  next hnone => exact nomatch h.symm.trans hnone
  next line' rest' hsome =>
    obtain ⟨rfl, rfl⟩ := Prod.mk.inj (Option.some.inj (h.symm.trans hsome))
    rw [hsz]

private theorem tonumberBase_of_numeral (h : numeral 16 line = some (n : ℤ)) (hn : n < 2 ^ 63) :
    tonumberBase line 16 = some (n : ℤ) := by
  rw [tonumberBase, h, Option.map_some, toInt64_of_lt (by omega) (by omega)]

private theorem sizeLines_last (h : splitLine crln stream = some (line, rest))
    (hzero : numeral 16 line = some 0) : sizeLines stream = [line] := by
  rw [sizeLines_eq h (tonumberBase_of_numeral (n := 0) hzero (by decide))]
  exact if_pos (Int.le_refl 0)

private theorem sizeLines_chunk (h : splitLine crln stream = some (line, rest))
    (hsz : numeral 16 line = some (n : ℤ)) (hn : n < 2 ^ 63) (hpos : 0 < n) :
    sizeLines stream = line :: sizeLines (rest.drop (n + crln.length)) := by
  rw [sizeLines_eq h (tonumberBase_of_numeral hsz hn), if_neg (by omega), Int.toNat_natCast]

/-- The sizes in front of chunks that are there fit, if the chunks together make a string. -/
theorem Chunked.sizeFits (h : Chunked stream payloads rest)
    (hlen : payloads.flatten.length < 2 ^ 63) : ∀ line ∈ sizeLines stream, SizeFits line := by
  induction h with
  | last hline hzero =>
    rw [sizeLines_last hline hzero]
    intro line' hmem
    rw [List.mem_singleton.mp hmem]
    exact ⟨0, hzero, by decide⟩
  | @chunk stream line payload more rest payloads hline hsz hne _ ih =>
    rw [List.flatten_cons, List.length_append] at hlen
    have hpos := List.length_pos_of_ne_nil hne
    have hmore : (payload ++ (crln ++ more)).drop (payload.length + crln.length) = more := by
      rw [← List.append_assoc, List.drop_left' List.length_append]
    rw [sizeLines_chunk hline hsz (by omega) hpos, hmore]
    intro line' hmem
    rcases List.mem_cons.mp hmem with rfl | hmem
    · exact ⟨_, hsz, by omega⟩
    · exact ih (by omega) line' hmem

/-! ## The reader -/

private theorem luaConcat_eq_some {a b c : List UInt8} (h : luaConcat a b = some c) :
    c = a ++ b ∧ c.length < maxString := by
  rw [luaConcat] at h
  by_cases hlt : a.length + b.length < maxString
  · rw [if_pos hlt] at h
    rw [← Option.some.inj h, List.length_append]
    exact ⟨rfl, hlt⟩
  · rw [if_neg hlt] at h
    cases h

private theorem takeChunk_length (h : takeChunk sz result feed body = some (result', rest, feed')) :
    result'.length < maxString := by
  rw [takeChunk] at h
  split at h
  · obtain ⟨r, hr, heq⟩ := Option.map_eq_some_iff.mp h
    rw [← (Prod.mk.inj heq).1]
    exact (luaConcat_eq_some hr).2
  · split at h
    · cases h
    · obtain ⟨r, hr, heq⟩ := Option.map_eq_some_iff.mp h
      rw [← (Prod.mk.inj heq).1]
      exact (luaConcat_eq_some hr).2

/-- **A round** of the loop that comes to an end: the last one, or one that reads a chunk. -/
theorem recvchunks_cases
    (h : recvchunks bodylimit result size feed body = some (some (result', body'), feed')) :
    (chunksize feed body = some (some (0, body'), feed') ∧ result' = result) ∨
      ∃ sz b₁ f₁ r₂ b₂ f₂ b₃ f₃, sz ≠ 0 ∧ chunksize feed body = some (some (sz, b₁), f₁) ∧
        (∀ limit ∈ bodylimit, toInt64 (size + sz) ≤ (limit : ℤ)) ∧
        takeChunk sz result f₁ b₁ = some (r₂, b₂, f₂) ∧
        readcrln f₂ b₂ = some (some b₃, f₃) ∧
        recvchunks bodylimit r₂ (toInt64 (size + sz)) f₃ b₃ =
          some (some (result', body'), feed') := by
  rw [recvchunks_eq] at h
  split at h
  next => cases h
  next => exact nomatch (Prod.mk.inj (Option.some.inj h)).1
  next sz b₁ f₁ hsize =>
    by_cases hzero : sz = 0
    · rw [if_pos hzero] at h
      obtain ⟨hpair, rfl⟩ := Prod.mk.inj (Option.some.inj h)
      obtain ⟨rfl, rfl⟩ := Prod.mk.inj (Option.some.inj hpair)
      exact Or.inl ⟨hzero ▸ hsize, rfl⟩
    · rw [if_neg hzero] at h
      by_cases hlimit : ∃ limit ∈ bodylimit, (limit : ℤ) < toInt64 (size + sz)
      · rw [if_pos hlimit] at h
        exact nomatch (Prod.mk.inj (Option.some.inj h)).1
      · rw [if_neg hlimit] at h
        split at h
        next => cases h
        next r₂ b₂ f₂ htake =>
          split at h
          next => cases h
          next => exact nomatch (Prod.mk.inj (Option.some.inj h)).1
          next b₃ f₃ hcrln =>
            exact Or.inr ⟨sz, b₁, f₁, r₂, b₂, f₂, b₃, f₃, hzero, hsize,
              fun limit hmem ↦ Int.not_lt.mp fun hlt ↦ hlimit ⟨limit, hmem, hlt⟩, htake, hcrln, h⟩

private theorem round_lt {b₁ b₂ b₃ r₂ : List UInt8} {f₁ f₂ f₃ : Feed}
    (hsize : chunksize feed body = some (some (sz, b₁), f₁))
    (htake : takeChunk sz result f₁ b₁ = some (r₂, b₂, f₂))
    (hcrln : readcrln f₂ b₂ = some (some b₃, f₃)) :
    b₃.length + f₃.bytes.length < body.length + feed.bytes.length := by
  have hlt := chunksize_lt hsize
  have hle := takeChunk_le htake
  have heq := congrArg List.length (readcrln_spec hcrln)
  simp only [List.length_append] at heq
  omega

private theorem recvchunks_length (hlen : result.length < maxString)
    (h : recvchunks bodylimit result size feed body = some (some (result', body'), feed')) :
    result'.length < maxString := by
  induction hn : body.length + feed.bytes.length using Nat.strong_induction_on
    generalizing result size feed body with
  | _ n ih =>
    rcases recvchunks_cases h with ⟨-, rfl⟩ | ⟨sz, b₁, f₁, r₂, b₂, f₂, b₃, f₃, -, hsize, -, htake,
      hcrln, hrest⟩
    · exact hlen
    · exact ih _ (hn ▸ round_lt hsize htake hcrln) (takeChunk_length htake) hrest rfl

/-- **The loop** reads chunks as long as their sizes fit. -/
theorem recvchunks_accepts
    (h : recvchunks bodylimit result size feed body = some (some (result', body'), feed'))
    (hsize : size = result.length) (hlen : result.length < maxString)
    (hlimit : ∀ limit ∈ bodylimit, result.length ≤ limit)
    (hfits : ∀ line ∈ sizeLines (body ++ feed.bytes), SizeFits line) :
    ∃ payloads, Chunked (body ++ feed.bytes) payloads (body' ++ feed'.bytes) ∧
      result' = result ++ payloads.flatten ∧ ∀ limit ∈ bodylimit, result'.length ≤ limit := by
  -- on the bytes that are left, buffered and to come: every round takes some
  induction hn : body.length + feed.bytes.length using Nat.strong_induction_on
    generalizing result size feed body with
  | _ n ih =>
    rcases recvchunks_cases h with ⟨hlast, rfl⟩ | ⟨sz, b₁, f₁, r₂, b₂, f₂, b₃, f₃, hne, hchunksize,
      hbelow, htake, hcrln, hrest⟩
    · obtain ⟨line, hline, hsz⟩ := chunksize_spec hlast
      have hmem : line ∈ sizeLines (body ++ feed.bytes) := by
        rw [sizeLines_eq hline hsz, if_pos (Int.le_refl 0)]
        exact List.mem_singleton_self line
      obtain ⟨k, hk, hk63⟩ := hfits line hmem
      have hzero : (0 : ℤ) = k :=
        Option.some.inj (hsz.symm.trans (tonumberBase_of_numeral hk hk63))
      exact ⟨[], .last hline (hzero ▸ hk), (List.append_nil _).symm, hlimit⟩
    · obtain ⟨line, hline, hsz⟩ := chunksize_spec hchunksize
      have hmem : line ∈ sizeLines (body ++ feed.bytes) := by
        rw [sizeLines_eq hline hsz]
        split
        · exact List.mem_singleton_self line
        · exact List.mem_cons_self
      obtain ⟨k, hk, hk63⟩ := hfits line hmem
      have hszk : sz = k := Option.some.inj (hsz.symm.trans (tonumberBase_of_numeral hk hk63))
      subst hszk
      have hpos : 0 < k := by omega
      obtain ⟨payload, rfl, hbytes, hconcat⟩ := takeChunk_spec htake
      obtain ⟨rfl, hr₂⟩ := luaConcat_eq_some hconcat
      have hmore := readcrln_spec hcrln
      rw [hmore] at hbytes
      rw [hbytes] at hline
      -- the sum of the sizes does not wrap, since the text itself has room for it
      have hsum : toInt64 (size + payload.length) = ((result ++ payload).length : ℕ) := by
        have hmax : maxString < 2 ^ 63 := by decide
        rw [List.length_append] at hr₂ ⊢
        rw [hsize, toInt64_of_lt (by omega) (by omega)]
        omega
      rw [sizeLines_chunk hline hk hk63 hpos, ← List.append_assoc payload,
        List.drop_left' List.length_append] at hfits
      obtain ⟨payloads, hchunked, hresult, hbound⟩ := ih _
        (hn ▸ round_lt hchunksize htake hcrln) hrest hsum hr₂
        (fun limit hl ↦ Int.ofNat_le.mp (hsum ▸ hbelow limit hl))
        (fun line' hl ↦ hfits line' (List.mem_cons_of_mem _ hl)) rfl
      refine ⟨payload :: payloads, .chunk hline hk (List.ne_nil_of_length_pos hpos) hchunked, ?_,
        hbound⟩
      rw [hresult, List.flatten_cons, List.append_assoc]

end

/-- **Acceptance.** If `recvchunkedbody` returns a body, the stream is a sequence of chunks, the
body is the concatenation of their payloads and within the limit, if and only if the sizes on all
lines that the reader comes to are numbers of bytes below `2 ^ 63`. -/
theorem recvchunkedbody_accepts {bodylimit : Option ℕ} {header : Header} {header' : Option Header}
    {feed feed' : Feed} {body result : List UInt8}
    (h : recvchunkedbody bodylimit header feed body = some (some (result, header'), feed')) :
    Accepted bodylimit (body ++ feed.bytes) result ↔
      ∀ line ∈ sizeLines (body ++ feed.bytes), SizeFits line := by
  -- the trailer is read after the chunks and does not change the body
  obtain ⟨body₁, feed₁, hloop⟩ : ∃ body₁ feed₁,
      recvchunks bodylimit [] 0 feed body = some (some (result, body₁), feed₁) := by
    rw [recvchunkedbody] at h
    split at h
    next => cases h
    next => exact nomatch (Prod.mk.inj (Option.some.inj h)).1
    next result₁ body₁ feed₁ hloop =>
      split at h
      · cases h
      · exact nomatch (Prod.mk.inj (Option.some.inj h)).1
      · obtain ⟨header₁, -, heq⟩ := Option.map_eq_some_iff.mp h
        have hresult := (Prod.mk.inj (Option.some.inj (Prod.mk.inj heq).1)).1
        exact ⟨body₁, feed₁, hresult ▸ hloop⟩
  constructor
  · rintro ⟨payloads, rest, hchunked, hresult, -, -⟩
    have hlen := recvchunks_length (by decide) hloop
    have hmax : maxString < 2 ^ 63 := by decide
    exact hchunked.sizeFits (by rw [← hresult]; omega)
  · intro hfits
    obtain ⟨payloads, hchunked, hresult, hlimit⟩ := recvchunks_accepts hloop rfl (by decide)
      (fun limit _ ↦ Nat.zero_le limit) hfits
    rw [List.nil_append] at hresult
    exact ⟨payloads, _, hchunked, hresult, by rw [hresult, List.length_flatten], hlimit⟩

/-- The stream `"1\r\na\r\n0\r\n\r\n"` is one chunk. -/
theorem recvchunkedbody_accepts_chunk :
    Accepted (some 1) [49, 13, 10, 97, 13, 10, 48, 13, 10, 13, 10] [97] := by
  have h : recvchunkedbody (some 1) (fun _ ↦ none)
      [⟨[49, 13, 10, 97, 13, 10, 48, 13, 10, 13, 10], by decide⟩] [] =
        some (some ([97], some fun _ ↦ none), []) := by
    have hloop : recvchunks (some 1) [] 0
        [⟨[49, 13, 10, 97, 13, 10, 48, 13, 10, 13, 10], by decide⟩] [] =
          some (some ([97], [13, 10]), []) := by decide +kernel
    rw [recvchunkedbody, hloop]
    rfl
  refine (recvchunkedbody_accepts h).mpr ?_
  intro line hline
  have hlines : sizeLines [49, 13, 10, 97, 13, 10, 48, 13, 10, 13, 10] = [[49], [48]] := by
    decide +kernel
  rcases List.mem_pair.mp (hlines ▸ hline) with rfl | rfl
  · exact ⟨1, by decide, by decide⟩
  · exact ⟨0, by decide, by decide⟩

/-- The stream `"-1\r\n\r\n0\r\n\r\n"` is accepted with a body of seven bytes, whatever the limit.
-/
theorem not_recvchunkedbody_accepts :
    (recvchunkedbody (some 0) (fun _ ↦ none)
        [⟨[45, 49, 13, 10, 13, 10, 48, 13, 10, 13, 10], by decide⟩] []).map
          (fun r ↦ r.1.map Prod.fst) = some (some [13, 10, 48, 13, 10, 13, 10]) ∧
      ¬Accepted (some 0) [45, 49, 13, 10, 13, 10, 48, 13, 10, 13, 10]
        [13, 10, 48, 13, 10, 13, 10] := by
  refine ⟨by decide +kernel, ?_⟩
  rintro ⟨payloads, rest, hchunked, hresult, -⟩
  have hfits := hchunked.sizeFits (by rw [← hresult]; decide)
  have hline : [45, 49] ∈ sizeLines [45, 49, 13, 10, 13, 10, 48, 13, 10, 13, 10] := by
    decide +kernel
  obtain ⟨n, hn, -⟩ := hfits _ hline
  have hminus : numeral 16 [45, 49] = some (-1) := by decide
  have hneg := Option.some.inj (hminus.symm.trans hn)
  omega

end ZTask
