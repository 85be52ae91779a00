import ZTask.Harbor.Service
import ZTask.LuaSocket.Lines
import Mathlib.Algebra.Order.Ring.Unbundled.Basic
import Mathlib.Logic.Function.Basic

/-!
# Reading headers and bodies

`http.internal`: the functions that read the header and the chunked body of a message through
`readbytes`. `readbytes()` returns the next chunk of what the peer sends and `readbytes(n)` exactly
the next `n` bytes; both raise when there is not so much. A *feed* is what they still return: reads
without a size take it chunk by chunk, so how the bytes are cut into chunks is how they are
delivered.

The functions fail in two ways. They return `nil`, which is `none` here, or `readbytes` or the
function itself raises an error, which is `none` outside of that.
-/

namespace ZTask

/-! ## What is delivered -/

/-- The chunks that the reads without a size return, one after another. -/
abbrev Feed := List { chunk : List UInt8 // chunk ≠ [] }

namespace Feed

def bytes (feed : Feed) : List UInt8 := feed.flatMap Subtype.val

/-- The feed behind the first `n` bytes. -/
def skip : ℕ → Feed → Feed
  | _, [] => []
  | n, chunk :: feed =>
    if h : n < chunk.1.length then
      ⟨chunk.1.drop n, fun hnil ↦ Nat.not_le_of_lt h (List.drop_eq_nil_iff.mp hnil)⟩ :: feed
    else skip (n - chunk.1.length) feed

/-- `readbytes(n)`. -/
def read (feed : Feed) (n : ℕ) : Option (List UInt8 × Feed) :=
  if n ≤ feed.bytes.length then some (feed.bytes.take n, feed.skip n) else none

@[simp] theorem bytes_nil : bytes [] = [] := rfl

@[simp] theorem bytes_cons (chunk : { chunk : List UInt8 // chunk ≠ [] }) (feed : Feed) :
    bytes (chunk :: feed) = chunk.1 ++ bytes feed := rfl

theorem bytes_skip (n : ℕ) (feed : Feed) : (skip n feed).bytes = feed.bytes.drop n := by
  induction feed generalizing n with
  | nil => rw [skip, bytes_nil, List.drop_nil]
  | cons chunk feed ih =>
    rw [skip, bytes_cons]
    by_cases hlt : n < chunk.1.length
    · rw [dif_pos hlt, bytes_cons, List.drop_append_of_le_length (Nat.le_of_lt hlt)]
    · rw [dif_neg hlt, ih, List.drop_append, List.drop_of_length_le (Nat.le_of_not_lt hlt),
        List.nil_append]

variable {feed feed' : Feed} {n : ℕ} {ret : List UInt8}

private theorem read_eq_some (h : feed.read n = some (ret, feed')) :
    feed.bytes = ret ++ feed'.bytes ∧ ret.length = n := by
  rw [read] at h
  by_cases hle : n ≤ feed.bytes.length
  · rw [if_pos hle] at h
    obtain ⟨rfl, rfl⟩ := Prod.mk.inj (Option.some.inj h)
    rw [bytes_skip, List.take_append_drop]
    exact ⟨rfl, List.length_take_of_le hle⟩
  · rw [if_neg hle] at h
    cases h

theorem read_enough (h : n ≤ feed.bytes.length) :
    feed.read n = some (feed.bytes.take n, feed.skip n) := if_pos h

end Feed

/-! ## Strings and numbers of Lua -/

/-- `"\r\n"`. -/
def crln : List UInt8 := [13, 10]

/-- `"\r\n\r\n"`. -/
def blankLine : List UInt8 := [13, 10, 13, 10]

def isAlnum (b : UInt8) : Bool := isDigit b || (65 ≤ b && b ≤ 90) || (97 ≤ b && b ≤ 122)

def toUpper (b : UInt8) : UInt8 := if 97 ≤ b && b ≤ 122 then b - 32 else b

def toLower (b : UInt8) : UInt8 := if 65 ≤ b && b ≤ 90 then b + 32 else b

/-- The digit that a letter or a decimal digit stands for. -/
def digitValue (b : UInt8) : ℕ := if isDigit b then b.toNat - 48 else (toUpper b).toNat - 65 + 10

/-- The sign in front of a number, and what follows it. -/
def signed : List UInt8 → ℤ × List UInt8
  | b :: rest => if b = 45 then (-1, rest) else if b = 43 then (1, rest) else (1, b :: rest)
  | [] => (1, [])

/-- The integer that a text stands for in a base: spaces, a sign, digits and spaces. -/
def numeral (base : ℕ) (text : List UInt8) : Option ℤ :=
  let number := signed (text.dropWhile isSpace)
  let digits := number.2.takeWhile isAlnum
  if digits = [] ∨ (∃ b ∈ digits, base ≤ digitValue b) ∨
      (number.2.dropWhile isAlnum).dropWhile isSpace ≠ [] then none
  else some (number.1 * (digits.foldl (fun n b ↦ n * base + digitValue b) 0 : ℕ))

/-- `lua_Integer` arithmetic wraps around. -/
def toInt64 (x : ℤ) : ℤ := x.bmod (2 ^ 64)

theorem toInt64_of_lt {x : ℤ} (hlo : -2 ^ 63 ≤ x) (hhi : x < 2 ^ 63) : toInt64 x = x := by
  rw [toInt64, Int.bmod]
  omega

theorem length_crln : crln.length = 2 := rfl

/-- `tonumber(text, base)`: the digits are added up in a `lua_Unsigned`. -/
def tonumberBase (text : List UInt8) (base : ℕ) : Option ℤ := (numeral base text).map toInt64

/-- The position that a position from the end stands for. -/
def posrelat (pos : ℤ) (len : ℕ) : ℤ :=
  if 0 ≤ pos then pos else if len < -pos then 0 else len + pos + 1

/-- `s:sub(i, j)`. -/
def luaSub (s : List UInt8) (i j : ℤ) : List UInt8 :=
  let first := (max 1 (posrelat i s.length)).toNat
  let last := (min (s.length : ℤ) (posrelat j s.length)).toNat
  (s.take last).drop (first - 1)

/-- Strings of Lua are shorter than this. -/
def maxString : ℕ := 2 ^ 63 - 1

/-- `a .. b`, which raises an error if the string becomes too long. -/
def luaConcat (a b : List UInt8) : Option (List UInt8) :=
  if a.length + b.length < maxString then some (a ++ b) else none

theorem posrelat_of_nonneg {pos : ℤ} (h : 0 ≤ pos) (len : ℕ) : posrelat pos len = pos := if_pos h

private theorem posrelat_last (len : ℕ) : posrelat (-1) len = len := by
  rw [posrelat, if_neg (by decide)]
  split <;> omega

theorem luaSub_first (s : List UInt8) (n : ℕ) : luaSub s 1 n = s.take n := by
  rw [luaSub, posrelat_of_nonneg (by decide), posrelat_of_nonneg (Int.natCast_nonneg n)]
  have hlast : (min (s.length : ℤ) n).toNat = min s.length n := by omega
  rw [hlast, show (max 1 (1 : ℤ)).toNat - 1 = 0 from rfl, List.drop_zero, List.take_eq_take_iff]
  omega

theorem luaSub_rest (s : List UInt8) (n : ℕ) : luaSub s (n + 1) (-1) = s.drop n := by
  rw [luaSub, posrelat_last, posrelat_of_nonneg (by omega)]
  have hfirst : (max 1 ((n : ℤ) + 1)).toNat - 1 = n := by omega
  have hlast : (min (s.length : ℤ) s.length).toNat = s.length := by omega
  rw [hfirst, hlast, List.take_length]

/-! ## Headers -/

/-- The lines that `header:gmatch("(.-)\r\n")` finds up to an empty one. -/
def headerLines (header : List UInt8) : List (List UInt8) :=
  match _h : splitLine crln header with
  | none => []
  | some (v, rest) => if v = [] then [] else v :: headerLines rest
termination_by header.length
decreasing_by exact splitLine_length_lt _h (by decide)

def headerLimit : ℕ := 8192

/-- What `recvheader` returns: the lines, to which it has added, and what follows the header. -/
abbrev HeaderResult := Option (Option (List (List UInt8) × List UInt8) × Feed)

/-- The loop of `recvheader`: each round appends what `readbytes()` returns. -/
def recvheaderLoop : Feed → List (List UInt8) → List UInt8 → HeaderResult
  | [], _, _ => none
  | ⟨bytes, _⟩ :: feed, lines, header =>
    let header := header ++ bytes
    if headerLimit < header.length then some (none, feed)
    else
      -- `header:find("\r\n\r\n", -#bytes-3, true)`
      match splitLine blankLine (header.drop (header.length - (bytes.length + 3))) with
      | some (_, result) => some (some (lines ++ headerLines header, result), feed)
      | none =>
        if crln <+: header then some (some (lines, header.drop 2), feed)
        else recvheaderLoop feed lines header

def recvheader (feed : Feed) (lines : List (List UInt8)) (header : List UInt8) : HeaderResult :=
  if 2 ≤ header.length ∧ crln <+: header then some (some (lines, header.drop 2), feed)
  else
    match splitLine blankLine header with
    | some (_, result) => some (some (lines ++ headerLines header, result), feed)
    | none => recvheaderLoop feed lines header

/-- A field of a header: a string, or the strings of several fields of that name. -/
inductive HeaderValue
  | one (value : List UInt8)
  | many (values : List (List UInt8))
  deriving DecidableEq

abbrev Header := List UInt8 → Option HeaderValue

/-- The loop of `parseheader`; `name` is that of the line before. -/
def parseheaderLoop : List (List UInt8) → Option (List UInt8) → Header → Option (Option Header)
  | [], _, header => some (some header)
  | line :: lines, name, header =>
    if line.head? = some 9 then
      match name with
      | none => some none
      | some name =>
        match header name with
        | some (.one value) =>
          parseheaderLoop lines (some name)
            (Function.update header name (some (.one (value ++ line.drop 1))))
        -- a table or `nil` cannot be appended to
        | some (.many _) => none
        | none => none
    else
      -- `line:match "^(.-):%s*(.*)"`
      match splitLine [58] line with
      | none => some none
      | some (name, rest) =>
        let name := name.map toLower
        let value := rest.dropWhile isSpace
        let entry : HeaderValue := match header name with
          | none => .one value
          | some (.one v) => .many [v, value]
          | some (.many vs) => .many (vs ++ [value])
        parseheaderLoop lines (some name) (Function.update header name (some entry))

/-- `parseheader`, of the lines from number `start` on. -/
def parseheader (lines : List (List UInt8)) (start : ℕ) (header : Header) :
    Option (Option Header) :=
  parseheaderLoop (lines.drop (start - 1)) none header

/-! ## Chunked bodies -/

/-- The size line at the beginning of `body`, and what follows it. -/
def chunksize (feed : Feed) (body : List UInt8) : Option (Option (ℤ × List UInt8) × Feed) :=
  match splitLine crln body with
  | some (line, rest) => some ((tonumberBase line 16).map fun sz ↦ (sz, rest), feed)
  | none =>
    if 128 < body.length then some (none, feed)
    else
      match feed with
      | [] => none
      | ⟨bytes, _⟩ :: feed => chunksize feed (body ++ bytes)

def readcrln (feed : Feed) (body : List UInt8) : Option (Option (List UInt8) × Feed) :=
  if 2 ≤ body.length then
    if body.take 2 ≠ crln then some (none, feed) else some (some (body.drop 2), feed)
  else
    match feed.read (2 - body.length) with
    | none => none
    | some (bytes, feed) =>
      if body ++ bytes ≠ crln then some (none, feed) else some (some [], feed)

/-- The next `sz` bytes are appended to the result. -/
def takeChunk (sz : ℤ) (result : List UInt8) (feed : Feed) (body : List UInt8) :
    Option (List UInt8 × List UInt8 × Feed) :=
  if sz ≤ body.length then
    (luaConcat result (luaSub body 1 sz)).map fun result ↦ (result, luaSub body (sz + 1) (-1), feed)
  else
    match feed.read (sz - body.length).toNat with
    | none => none
    | some (bytes, feed) => (luaConcat result (body ++ bytes)).map fun result ↦ (result, [], feed)

/-! ### The rounds of the loop -/

section

variable {feed feed' : Feed} {body rest result result' : List UInt8} {sz : ℤ}

private theorem chunksize_of_splitLine {line rest' : List UInt8}
    (hline : splitLine crln body = some (line, rest'))
    (h : chunksize feed body = some (some (sz, rest), feed')) :
    tonumberBase line 16 = some sz ∧ rest' = rest ∧ feed = feed' := by
  rw [chunksize.eq_def, hline] at h
  obtain ⟨hsz, rfl⟩ := Prod.mk.inj (Option.some.inj h)
  obtain ⟨sz', hsz', heq⟩ := Option.map_eq_some_iff.mp hsz
  obtain ⟨rfl, rfl⟩ := Prod.mk.inj heq
  exact ⟨hsz', rfl, rfl⟩

/-- **The size line** is what stands before the first line end of what is buffered and delivered. -/
theorem chunksize_spec (h : chunksize feed body = some (some (sz, rest), feed')) :
    ∃ line, splitLine crln (body ++ feed.bytes) = some (line, rest ++ feed'.bytes) ∧
      tonumberBase line 16 = some sz := by
  induction feed generalizing body with
  | nil =>
    cases hline : splitLine crln body with
    | some lines =>
      obtain ⟨hsz, rfl, rfl⟩ := chunksize_of_splitLine hline h
      exact ⟨lines.1, splitLine_append_right hline _, hsz⟩
    | none =>
      rw [chunksize, hline] at h
      dsimp only at h
      by_cases hlong : 128 < body.length
      · rw [if_pos hlong] at h
        cases h
      · rw [if_neg hlong] at h
        cases h
  | cons chunk feed ih =>
    cases hline : splitLine crln body with
    | some lines =>
      obtain ⟨hsz, rfl, rfl⟩ := chunksize_of_splitLine hline h
      exact ⟨lines.1, splitLine_append_right hline _, hsz⟩
    | none =>
      rw [chunksize, hline] at h
      dsimp only at h
      by_cases hlong : 128 < body.length
      · rw [if_pos hlong] at h
        cases h
      · rw [if_neg hlong] at h
        rw [Feed.bytes_cons, ← List.append_assoc]
        exact ih h

theorem chunksize_lt (h : chunksize feed body = some (some (sz, rest), feed')) :
    rest.length + feed'.bytes.length < body.length + feed.bytes.length := by
  obtain ⟨line, hline, -⟩ := chunksize_spec h
  have hlt := splitLine_length_lt hline (by decide)
  rwa [List.length_append, List.length_append] at hlt

theorem readcrln_spec (h : readcrln feed body = some (some rest, feed')) :
    body ++ feed.bytes = crln ++ (rest ++ feed'.bytes) := by
  rw [readcrln] at h
  by_cases htwo : 2 ≤ body.length
  · rw [if_pos htwo] at h
    by_cases htake : body.take 2 = crln
    · rw [if_neg (not_not.mpr htake)] at h
      obtain ⟨hrest, rfl⟩ := Prod.mk.inj (Option.some.inj h)
      rw [← Option.some.inj hrest, ← htake, ← List.append_assoc, List.take_append_drop]
    · rw [if_pos htake] at h
      cases h
  · rw [if_neg htwo] at h
    cases hread : feed.read (2 - body.length) with
    | none =>
      rw [hread] at h
      cases h
    | some next =>
      rw [hread] at h
      dsimp only at h
      by_cases hcrln : body ++ next.1 = crln
      · rw [if_neg (not_not.mpr hcrln)] at h
        obtain ⟨hrest, rfl⟩ := Prod.mk.inj (Option.some.inj h)
        rw [(Feed.read_eq_some hread).1, ← List.append_assoc, hcrln, ← Option.some.inj hrest,
          List.nil_append]
      · rw [if_pos hcrln] at h
        cases h

private theorem length_luaSub_le (s : List UInt8) (i j : ℤ) : (luaSub s i j).length ≤ s.length := by
  rw [luaSub, List.length_drop, List.length_take]
  omega

theorem takeChunk_le (h : takeChunk sz result feed body = some (result', rest, feed')) :
    rest.length + feed'.bytes.length ≤ body.length + feed.bytes.length := by
  rw [takeChunk] at h
  by_cases hle : sz ≤ body.length
  · rw [if_pos hle] at h
    obtain ⟨result₁, -, heq⟩ := Option.map_eq_some_iff.mp h
    obtain ⟨-, hrest⟩ := Prod.mk.inj heq
    obtain ⟨rfl, rfl⟩ := Prod.mk.inj hrest
    have hle := length_luaSub_le body (sz + 1) (-1)
    omega
  · rw [if_neg hle] at h
    cases hread : feed.read (sz - body.length).toNat with
    | none =>
      rw [hread] at h
      cases h
    | some next =>
      rw [hread] at h
      obtain ⟨result₁, -, heq⟩ := Option.map_eq_some_iff.mp h
      obtain ⟨-, hrest⟩ := Prod.mk.inj heq
      obtain ⟨rfl, rfl⟩ := Prod.mk.inj hrest
      rw [(Feed.read_eq_some hread).1, List.length_append, List.length_nil]
      omega

/-- **A chunk** of `n` bytes is the next `n` bytes of what is buffered and delivered. -/
theorem takeChunk_spec {n : ℕ} (h : takeChunk n result feed body = some (result', rest, feed')) :
    ∃ payload, payload.length = n ∧ body ++ feed.bytes = payload ++ (rest ++ feed'.bytes) ∧
      luaConcat result payload = some result' := by
  rw [takeChunk] at h
  by_cases hle : (n : ℤ) ≤ body.length
  · rw [if_pos hle] at h
    obtain ⟨result₁, hconcat, heq⟩ := Option.map_eq_some_iff.mp h
    obtain ⟨rfl, hrest⟩ := Prod.mk.inj heq
    obtain ⟨rfl, rfl⟩ := Prod.mk.inj hrest
    rw [luaSub_first] at hconcat
    refine ⟨body.take n, List.length_take_of_le (Int.ofNat_le.mp hle), ?_, hconcat⟩
    rw [luaSub_rest, ← List.append_assoc, List.take_append_drop]
  · rw [if_neg hle] at h
    cases hread : feed.read ((n : ℤ) - body.length).toNat with
    | none =>
      rw [hread] at h
      cases h
    | some next =>
      rw [hread] at h
      obtain ⟨result₁, hconcat, heq⟩ := Option.map_eq_some_iff.mp h
      obtain ⟨rfl, hrest⟩ := Prod.mk.inj heq
      obtain ⟨rfl, rfl⟩ := Prod.mk.inj hrest
      obtain ⟨hbytes, hlen⟩ := Feed.read_eq_some hread
      refine ⟨body ++ next.1, ?_, ?_, hconcat⟩
      · rw [List.length_append, hlen]
        omega
      · rw [hbytes, List.append_assoc, List.nil_append]

end

/-- The loop of `recvchunkedbody`, which ends with an empty chunk: what it returns is the body so
far and what is buffered behind that chunk's size line. -/
def recvchunks (bodylimit : Option ℕ) (result : List UInt8) (size : ℤ) (feed : Feed)
    (body : List UInt8) : Option (Option (List UInt8 × List UInt8) × Feed) :=
  match _hsize : chunksize feed body with
  | none => none
  | some (none, feed) => some (none, feed)
  | some (some (sz, body), feed) =>
    if sz = 0 then some (some (result, body), feed)
    else
      let size := toInt64 (size + sz)
      if ∃ limit ∈ bodylimit, (limit : ℤ) < size then some (none, feed)
      else
        match _htake : takeChunk sz result feed body with
        | none => none
        | some (result, body, feed) =>
          match _hcrln : readcrln feed body with
          | none => none
          | some (none, feed) => some (none, feed)
          | some (some body, feed) => recvchunks bodylimit result size feed body
termination_by body.length + feed.bytes.length
decreasing_by
  have hlt := chunksize_lt _hsize
  have hle := takeChunk_le _htake
  have heq := congrArg List.length (readcrln_spec _hcrln)
  simp only [List.length_append] at heq
  omega

theorem recvchunks_eq (bodylimit : Option ℕ) (result : List UInt8) (size : ℤ) (feed : Feed)
    (body : List UInt8) : recvchunks bodylimit result size feed body =
      match chunksize feed body with
      | none => none
      | some (none, feed) => some (none, feed)
      | some (some (sz, body), feed) =>
        if sz = 0 then some (some (result, body), feed)
        else if ∃ limit ∈ bodylimit, (limit : ℤ) < toInt64 (size + sz) then some (none, feed)
        else
          match takeChunk sz result feed body with
          | none => none
          | some (result, body, feed) =>
            match readcrln feed body with
            | none => none
            | some (none, feed) => some (none, feed)
            | some (some body, feed) =>
              recvchunks bodylimit result (toInt64 (size + sz)) feed body := by
  rw [recvchunks.eq_def]
  split
  next h => rw [h]
  next h => rw [h]
  next h =>
    rw [h]
    dsimp only
    split
    · rfl
    · split
      · rfl
      · split
        next h => rw [h]
        next h =>
          rw [h]
          dsimp only
          split
          next h => rw [h]
          next h => rw [h]
          next h => rw [h]

/-- The body and the header, with the fields of the trailer; these are `nil` if a line of the
trailer is no field. -/
def recvchunkedbody (bodylimit : Option ℕ) (header : Header) (feed : Feed) (body : List UInt8) :
    Option (Option (List UInt8 × Option Header) × Feed) :=
  match recvchunks bodylimit [] 0 feed body with
  | none => none
  | some (none, feed) => some (none, feed)
  | some (some (result, body), feed) =>
    match recvheader feed [] body with
    | none => none
    | some (none, feed) => some (none, feed)
    | some (some (tmpline, _), feed) =>
      (parseheader tmpline 1 header).map fun header ↦ (some (result, header), feed)

end ZTask
