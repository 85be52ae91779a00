import ZTask.Lib.Block
import ZTask.Lib.Machine

/-!
# The buffer of an HTTP response

`ztask_curl.c` collects a response in one growing buffer: `struct ztask_curl_message`, the cookies,
a NUL, the body, and a NUL behind it. `curl_header_cb` and `curl_write_cb` append to it as libcurl
calls them, the blank line of a header block fixes the length of the cookies, and `l_easy_data`
takes the message apart again.

The struct at the front is kept as its two fields, so that the cells of `data` begin at the offset
16 of `m_data`. A write in front of them or behind the block is a fault, and so is a read of memory
that is not there or was not written. A header callback is given the memory from its buffer on:
`strchr` does not stop at the end of the line.
-/

namespace ZTask

open Lib

inductive CurlFault
  /-- a write outside the buffer -/
  | outside
  /-- a read outside a buffer, or of what was not written -/
  | unread
  /-- a sum that does not fit into an `int` -/
  | overflow
deriving DecidableEq, Repr

/-- `sizeof(struct ztask_curl_message)`. -/
def sizeofCurlMessage : ℕ := 16

/-- `curl_data_t`, but for the addressee, with the fields of the struct that `m_data` begins with.
-/
structure CurlData where
  mPos : ℕ
  mLen : ℕ
  dataLen : ℕ
  cookiesLen : ℕ
  /-- `m_data + sizeof(struct ztask_curl_message)` -/
  data : Block UInt8

/-- What `ztask_curl` allocates. -/
def newCurlData : CurlData where
  mPos := sizeofCurlMessage
  mLen := sizeofCurlMessage + 1024
  dataLen := 0
  cookiesLen := 0
  data := Block.alloc 1024

namespace CurlData

/-- The check in front of a write of `n` bytes: `m_len` grows by `more`, and the buffer with it. -/
def reserve (d : CurlData) (n more : ℕ) : CurlData :=
  if d.mLen - 1 < d.mPos + n then
    { d with mLen := d.mLen + more, data := d.data ++ Block.alloc more }
  else d

/-- A write to `m_data + p`. -/
def store (d : CurlData) (p : ℕ) (bytes : List UInt8) : Except CurlFault CurlData :=
  if p < sizeofCurlMessage then .error .outside
  else
    match d.data.write? (p - sizeofCurlMessage) bytes with
    | none => .error .outside
    | some data => .ok { d with data }

end CurlData

/-- `strchr`, as an offset; the string has to end inside the memory. -/
def strchr : List UInt8 → UInt8 → Except CurlFault (Option ℕ)
  | [], _ => .error .unread
  | b :: rest, c =>
    if b = c then .ok (some 0)
    else if b = 0 then .ok none
    else (strchr rest c).map (·.map (· + 1))

/-- `"Set-Cookie: "` -/
def setCookie : List UInt8 := [83, 101, 116, 45, 67, 111, 111, 107, 105, 101, 58, 32]

/-- `curl_write_cb`. -/
def curlWriteCb (d : CurlData) (inp : List UInt8) (size nmemb : UInt32) :
    Except CurlFault (CurlData × UInt32) :=
  let n := size * nmemb
  let d := d.reserve n.toNat (n + 1024).toNat
  if inp.length < n.toNat then .error .unread
  else do
    let d ← d.store d.mPos (inp.take n.toNat)
    let d := { d with mPos := d.mPos + n.toNat }
    let d ← d.store d.mPos [0]
    return (d, n)

/-- A cookie of `len` bytes is appended, with `"; "` and a NUL behind it. -/
def CurlData.putCookie (d : CurlData) (value : List UInt8) (len n : ℕ) :
    Except CurlFault CurlData :=
  if 2 ^ 31 ≤ len + 2 then .error .overflow
  else do
    let d := d.reserve n (n + 1024)
    let cookies := d.mPos
    let d := { d with mPos := d.mPos + (len + 2) }
    let d ← d.store cookies (value.take len)
    let d ← d.store (cookies + len) [59]
    let d ← d.store (cookies + len + 1) [32]
    d.store (cookies + len + 2) [0]

/-- The end of a header block. -/
def CurlData.endHeader (d : CurlData) (n : ℕ) : Except CurlFault CurlData := do
  let d := d.reserve 1 (n + 1024)
  let d := { d with cookiesLen := d.mPos - sizeofCurlMessage }
  let d ← d.store d.mPos [0]
  return { d with mPos := d.mPos + 1 }

/-- The line that ends a header block. -/
def IsBlank (buffer : List UInt8) : Prop :=
  (buffer[0]? = some 13 ∧ buffer[1]? = some 10) ∨ buffer[0]? = some 10

instance (buffer : List UInt8) : Decidable (IsBlank buffer) :=
  inferInstanceAs (Decidable (_ ∨ _))

/-- `curl_header_cb`, on the memory from `buffer` on. -/
def curlHeaderCb (d : CurlData) (buffer : List UInt8) (size nmemb : ℕ) :
    Except CurlFault (CurlData × ℕ) :=
  if buffer.take 12 = setCookie ∧ 13 < nmemb * size then do
    match ← strchr (buffer.drop 12) 59 with
    | none => return (d, nmemb * size)
    | some len => return (← d.putCookie (buffer.drop 12) len (size * nmemb), nmemb * size)
  else if IsBlank buffer then do
    return (← d.endHeader (size * nmemb), nmemb * size)
  else .ok (d, nmemb * size)

/-- `ztask_http_poll`, when the transfer is done. -/
def CurlData.done (d : CurlData) : CurlData :=
  { d with
    dataLen := if d.mPos = sizeofCurlMessage then 0
      else d.mPos - sizeofCurlMessage - d.cookiesLen - 1 }

/-- `n` bytes from `m_data + p` on. -/
def CurlData.read (d : CurlData) (p n : ℕ) : Except CurlFault (List UInt8) :=
  match Block.read? (d.data.drop (p - sizeofCurlMessage)) n with
  | none => .error .unread
  | some bytes => .ok bytes

/-- `l_easy_data`: the data, and the cookies if there are any. -/
def easyData (msg : CurlData) : Except CurlFault (List UInt8 × Option (List UInt8)) := do
  let data ← msg.read (sizeofCurlMessage + msg.cookiesLen + 1) msg.dataLen
  if msg.cookiesLen ≠ 0 then
    return (data, some (← msg.read sizeofCurlMessage msg.cookiesLen))
  else return (data, none)

/-- A call that libcurl makes: with a header of `size` bytes at the front of the memory `buffer`, or
with a piece of the body. Its own `size` is 1 either way. -/
inductive CurlCallback
  | header (buffer : List UInt8) (size : ℕ)
  | write (chunk : List UInt8)
deriving DecidableEq, Repr

/-- The callbacks as they are called. -/
def curl : Machine CurlData CurlCallback Unit CurlFault
  | d, .header buffer size => do return ((← curlHeaderCb d buffer 1 size).1, ())
  | d, .write chunk => do return ((← curlWriteCb d chunk 1 (.ofNat chunk.length)).1, ())

/-- A bound on what libcurl hands over at a time, far above its own (`CURL_MAX_WRITE_SIZE`, 16384),
that keeps the `unsigned int` sums in `curl_write_cb` from wrapping. -/
def IsChunk (chunk : List UInt8) : Prop := chunk.length + 1024 < 2 ^ 32

/-! ## What is in the buffer -/

namespace CurlData

/-- The bytes `front` are in the buffer, behind the struct, and at least one cell is free. -/
structure Filled (d : CurlData) (front : List UInt8) : Prop where
  mPos : d.mPos = sizeofCurlMessage + front.length
  mLen : d.mLen = sizeofCurlMessage + d.data.length
  lt : d.mPos < d.mLen
  front : d.data.At 0 front

variable {d d' : CurlData} {front bytes : List UInt8} {n more : ℕ}

theorem filled_new : newCurlData.Filled [] where
  mPos := rfl
  mLen := congrArg (sizeofCurlMessage + ·) (Block.length_alloc 1024).symm
  lt := by decide
  front := Block.at_nil _ _

/-- A check leaves what is there, and room for what is asked for. -/
theorem Filled.reserve (h : d.Filled front) (hmore : n ≤ more) :
    (d.reserve n more).Filled front ∧ (d.reserve n more).mPos + n < (d.reserve n more).mLen ∧
      (d.reserve n more).cookiesLen = d.cookiesLen := by
  have hlt := h.lt
  rw [CurlData.reserve]
  split
  · refine ⟨⟨h.mPos, ?_, ?_, ?_⟩, ?_, rfl⟩
    · show d.mLen + more = sizeofCurlMessage + (d.data ++ Block.alloc more).length
      rw [h.mLen, List.length_append, Block.length_alloc, Nat.add_assoc]
    · show d.mPos < d.mLen + more
      omega
    · intro i x hi
      have hcell := h.front i x hi
      exact List.getElem?_append_left (List.getElem?_eq_some_iff.mp hcell).1 ▸ hcell
    · show d.mPos + n < d.mLen + more
      omega
  · exact ⟨h, by omega, rfl⟩

/-- Two stores one behind the other are one store. -/
theorem store_append (d : CurlData) (p : ℕ) (xs ys : List UInt8) :
    (d.store p xs >>= fun d' ↦ d'.store (p + xs.length) ys) = d.store p (xs ++ ys) := by
  by_cases hp : p < sizeofCurlMessage
  · rw [store, if_pos hp, store, if_pos hp]
    rfl
  · have hoff : p + xs.length - sizeofCurlMessage = p - sizeofCurlMessage + xs.length := by omega
    have hwrite := Block.write?_append d.data (p - sizeofCurlMessage) xs ys
    rw [store, if_neg hp, store, if_neg hp, ← hwrite]
    cases hfirst : d.data.write? (p - sizeofCurlMessage) xs with
    | none => rfl
    | some data =>
      show store { d with data } (p + xs.length) ys = _
      rw [store, if_neg (by omega), hoff]
      rfl

private theorem store_mPos (d : CurlData) (k p : ℕ) (xs : List UInt8) :
    { d with mPos := k }.store p xs = (d.store p xs).map ({ · with mPos := k }) := by
  rw [store, store]
  split
  · rfl
  · cases d.data.write? (p - sizeofCurlMessage) xs <;> rfl

private theorem mPos_of_store {p : ℕ} (hok : d.store p bytes = .ok d') : d'.mPos = d.mPos := by
  rw [store] at hok
  split at hok
  · cases hok
  · split at hok <;> cases hok
    rfl

theorem Filled.store_eq_ok (h : d.Filled front) (hroom : d.mPos + bytes.length ≤ d.mLen) :
    ∃ d', d.store d.mPos bytes = .ok d' := by
  have hpos := h.mPos
  have hlen := h.mLen
  obtain ⟨data, hdata⟩ := @Block.write?_eq_some _ d.data front.length bytes (by omega)
  exact ⟨{ d with data }, by rw [store, if_neg (by omega), hpos, Nat.add_sub_cancel_left, hdata]⟩

theorem Filled.length_of_store (h : d.Filled front) (hok : d.store d.mPos bytes = .ok d') :
    d.mPos + bytes.length ≤ d.mLen := by
  rw [store, if_neg (by have := h.mPos; omega), Block.write?] at hok
  split at hok
  next => cases hok
  next hfits =>
    split at hfits
    · have := h.mPos
      have := h.mLen
      omega
    · cases hfits

/-- **Append.** Bytes are stored at the position, and those from the new position on may be
overwritten. -/
theorem Filled.of_store (h : d.Filled front) (hok : d.store d.mPos bytes = .ok d')
    (hn : n ≤ bytes.length) (hlt : d.mPos + n < d.mLen) :
    { d' with mPos := d.mPos + n }.Filled (front ++ bytes.take n) ∧
    d'.cookiesLen = d.cookiesLen := by
  have hpos := h.mPos
  rw [store, if_neg (by omega), hpos, Nat.add_sub_cancel_left] at hok
  cases hwrite : d.data.write? front.length bytes with
  | none =>
    rw [hwrite] at hok
    cases hok
  | some data =>
    rw [hwrite] at hok
    cases hok
    have hlen := Block.length_of_write? hwrite
    refine ⟨⟨?_, ?_, hlt, ?_⟩, rfl⟩
    · rw [List.length_append, List.length_take_of_le hn, hpos, Nat.add_assoc]
    · rw [hlen]
      exact h.mLen
    · have hbytes : data.At front.length bytes := Block.At.of_write? hwrite
      rw [← List.take_append_drop n bytes] at hbytes
      refine (h.front.write? hwrite (.inl (by omega))).append ?_
      rw [Nat.zero_add]
      exact hbytes.left

/-! ## What the callbacks append -/

/-- What all writes come to: the check, and one store at the position. -/
def append (d : CurlData) (bytes : List UInt8) (n more : ℕ) : Except CurlFault CurlData :=
  let d := d.reserve n more
  (d.store d.mPos (bytes ++ [0])).map ({ · with mPos := d.mPos + bytes.length })

theorem Filled.append (h : d.Filled front) (hn : bytes.length ≤ n) (hmore : n ≤ more) :
    ∃ d', d.append bytes n more = .ok d' := by
  obtain ⟨hfilled, hroom, -⟩ := h.reserve hmore
  have hlen : (bytes ++ [0]).length = bytes.length + 1 := List.length_append
  obtain ⟨d', hstore⟩ := @Filled.store_eq_ok _ _ (bytes ++ [0]) hfilled (by omega)
  exact ⟨_, by rw [CurlData.append, hstore]; rfl⟩

theorem Filled.of_append (h : d.Filled front) (hmore : n ≤ more)
    (hok : d.append bytes n more = .ok d') :
    d'.Filled (front ++ bytes) ∧ d'.cookiesLen = d.cookiesLen := by
  obtain ⟨hfilled, -, hcookies⟩ := h.reserve hmore
  obtain ⟨r, hr⟩ : ∃ r, r = d.reserve n more := ⟨_, rfl⟩
  rw [CurlData.append, ← hr] at hok
  rw [← hr] at hfilled hcookies
  cases hstore : r.store r.mPos (bytes ++ [0]) with
  | error fault =>
    rw [hstore] at hok
    cases hok
  | ok d₁ =>
    rw [hstore] at hok
    cases hok
    have hfits := hfilled.length_of_store hstore
    rw [List.length_append, List.length_singleton] at hfits
    obtain ⟨hend, hcookies'⟩ := hfilled.of_store hstore
      (show bytes.length ≤ _ by rw [List.length_append]; omega) (by omega)
    rw [List.take_left] at hend
    exact ⟨hend, hcookies'.trans hcookies⟩

private theorem curlWriteCb_eq (d : CurlData) {chunk : List UInt8} (hchunk : IsChunk chunk) :
    curlWriteCb d chunk 1 (.ofNat chunk.length) =
      (d.append chunk chunk.length (chunk.length + 1024)).map ((·, .ofNat chunk.length)) := by
  rw [IsChunk] at hchunk
  have hn : (UInt32.ofNat chunk.length).toNat = chunk.length := by
    rw [UInt32.toNat_ofNat']
    exact Nat.mod_eq_of_lt (by omega)
  have hmore : (UInt32.ofNat chunk.length + 1024).toNat = chunk.length + 1024 := by
    rw [UInt32.toNat_add, hn]
    exact Nat.mod_eq_of_lt hchunk
  rw [curlWriteCb, UInt32.one_mul]
  simp only [hn, hmore]
  rw [if_neg (Nat.lt_irrefl _), List.take_length, append, ← store_append]
  obtain ⟨r, hr⟩ : ∃ r, r = d.reserve chunk.length (chunk.length + 1024) := ⟨_, rfl⟩
  rw [← hr]
  cases hstore : r.store r.mPos chunk with
  | error fault => rfl
  | ok d₁ =>
    simp only [bind, Except.bind, store_mPos, mPos_of_store hstore]
    cases d₁.store (r.mPos + chunk.length) [0] <;> rfl

/-- A cookie: the front of the value, and `"; "`. -/
theorem putCookie_eq (d : CurlData) {value : List UInt8} {len : ℕ} (hlen : len ≤ value.length) :
    d.putCookie value len n =
      if 2 ^ 31 ≤ len + 2 then .error .overflow
      else d.append (value.take len ++ [59, 32]) n (n + 1024) := by
  rw [putCookie]
  split
  · rfl
  have htake : (value.take len).length = len := List.length_take_of_le hlen
  have hparts : value.take len ++ [59, 32] ++ [0] = ((value.take len ++ [59]) ++ [32]) ++ [0] := by
    simp only [List.append_assoc, List.cons_append, List.nil_append]
  obtain ⟨r, hr⟩ : ∃ r, r = d.reserve n (n + 1024) := ⟨_, rfl⟩
  rw [append, ← hr, hparts, ← store_append, ← store_append, ← store_append]
  simp only [List.length_append, htake, List.length_cons, List.length_nil, store_mPos, bind,
    Except.bind]
  -- the new position is carried through the four stores
  cases r.store r.mPos (value.take len) with
  | error fault => rfl
  | ok d₁ =>
    simp only [Except.map, store_mPos]
    cases d₁.store (r.mPos + len) [59] with
    | error fault => rfl
    | ok d₂ =>
      simp only [store_mPos, ← Nat.add_assoc, Nat.zero_add]
      cases d₂.store (r.mPos + len + 1) [32] with
      | error fault => rfl
      | ok d₃ => exact store_mPos d₃ _ _ _

/-- **The end of a header block.** A NUL is appended, and what was there are the cookies. -/
theorem Filled.endHeader (h : d.Filled front) (n : ℕ) :
    ∃ d', d.endHeader n = .ok d' ∧ d'.Filled (front ++ [0]) ∧ d'.cookiesLen = front.length := by
  obtain ⟨hfilled, hroom, -⟩ := @Filled.reserve d front 1 (n + 1024) h (by omega)
  obtain ⟨r, hr⟩ : ∃ r, r = d.reserve 1 (n + 1024) := ⟨_, rfl⟩
  rw [← hr] at hfilled hroom
  have hmarked : { r with cookiesLen := r.mPos - sizeofCurlMessage }.Filled front :=
    ⟨hfilled.mPos, hfilled.mLen, hfilled.lt, hfilled.front⟩
  obtain ⟨d₁, hstore⟩ := @Filled.store_eq_ok _ _ [0] hmarked (Nat.le_of_lt hroom)
  obtain ⟨hend, hcookies⟩ := hmarked.of_store hstore (Nat.le_refl _) hroom
  refine ⟨{ d₁ with mPos := r.mPos + 1 }, ?_, hend, ?_⟩
  · rw [CurlData.endHeader, ← hr]
    dsimp only
    rw [hstore]
    show Except.ok { d₁ with mPos := d₁.mPos + 1 } = _
    rw [mPos_of_store hstore]
  · show d₁.cookiesLen = front.length
    rw [hcookies]
    show r.mPos - sizeofCurlMessage = front.length
    rw [hfilled.mPos, Nat.add_sub_cancel_left]

end CurlData

private theorem strchr_lt {c : UInt8} {s : List UInt8} {len : ℕ} (h : strchr s c = .ok (some len)) :
    len < s.length := by
  induction s generalizing len with
  | nil => cases h
  | cons b s ih =>
    rw [strchr] at h
    split at h
    · cases h
      exact Nat.zero_lt_succ _
    · split at h
      · cases h
      · cases hrest : strchr s c with
        | error fault =>
          rw [hrest] at h
          cases h
        | ok found =>
          rw [hrest] at h
          cases found with
          | none => cases h
          | some k =>
            cases h
            exact Nat.succ_lt_succ (ih hrest)

/-- What a Set-Cookie line adds to the cookies, `value` being the memory behind the name. -/
def storedCookie (value : List UInt8) : List UInt8 :=
  match strchr value 59 with
  | .ok (some len) => value.take len ++ [59, 32]
  | _ => []

/-- What a callback makes of the bytes in the buffer and of the length of the cookies. -/
def appended : List UInt8 × ℕ → CurlCallback → List UInt8 × ℕ
  | (front, cookies), .header buffer size =>
    if buffer.take 12 = setCookie ∧ 13 < size then (front ++ storedCookie (buffer.drop 12), cookies)
    else if IsBlank buffer then (front ++ [0], front.length)
    else (front, cookies)
  | (front, cookies), .write chunk => (front ++ chunk, cookies)

/-- A piece of the body is one libcurl may hand over. -/
def CurlCallback.Sized : CurlCallback → Prop
  | .header _ _ => True
  | .write chunk => IsChunk chunk

/-- A Set-Cookie line, if one, is a string in memory and has its semicolon inside the line. -/
def CurlCallback.Inside : CurlCallback → Prop
  | .header buffer size => buffer.take 12 = setCookie ∧ 13 < size →
      size < 2 ^ 31 ∧ ∃ found, strchr (buffer.drop 12) 59 = .ok found ∧
        ∀ len ∈ found, len + 2 ≤ size
  | .write chunk => IsChunk chunk

theorem CurlCallback.Inside.sized {call : CurlCallback} (h : call.Inside) : call.Sized := by
  cases call with
  | header buffer size => trivial
  | write chunk => exact h

variable {d d' : CurlData} {front : List UInt8} {cookies : ℕ} {call : CurlCallback}

/-- **A callback.** What it appends. -/
theorem filled_appended (h : d.Filled front ∧ d.cookiesLen = cookies) (hsized : call.Sized)
    (hok : curl d call = .ok (d', ())) :
    d'.Filled (appended (front, cookies) call).1 ∧
      d'.cookiesLen = (appended (front, cookies) call).2 := by
  obtain ⟨hfilled, rfl⟩ := h
  cases call with
  | write chunk =>
    rw [curl, CurlData.curlWriteCb_eq d hsized] at hok
    cases happend : d.append chunk chunk.length (chunk.length + 1024) with
    | error fault =>
      rw [happend] at hok
      cases hok
    | ok d₁ =>
      rw [happend] at hok
      cases hok
      exact hfilled.of_append (Nat.le_add_right _ _) happend
  | header buffer size =>
    rw [curl, curlHeaderCb] at hok
    rw [Nat.mul_one] at hok
    -- a cookie up to its semicolon, the blank line that ends the block, or a line that is skipped
    by_cases hcookie : buffer.take 12 = setCookie ∧ 13 < size
    · rw [appended, if_pos hcookie]
      rw [if_pos hcookie] at hok
      cases hfound : strchr (buffer.drop 12) 59 with
      | error fault =>
        rw [hfound] at hok
        cases hok
      | ok found =>
        rw [hfound] at hok
        cases found with
        | none =>
          cases hok
          rw [storedCookie, hfound, List.append_nil]
          exact ⟨hfilled, rfl⟩
        | some len =>
          rw [storedCookie, hfound]
          simp only [bind, Except.bind, pure, Except.pure, Nat.one_mul,
            CurlData.putCookie_eq d (Nat.le_of_lt (strchr_lt hfound))] at hok
          by_cases hint : 2 ^ 31 ≤ len + 2
          · rw [if_pos hint] at hok
            cases hok
          · rw [if_neg hint] at hok
            cases happend : d.append ((buffer.drop 12).take len ++ [59, 32]) size (size + 1024) with
            | error fault =>
              rw [happend] at hok
              cases hok
            | ok d₁ =>
              rw [happend] at hok
              cases hok
              exact hfilled.of_append (Nat.le_add_right _ _) happend
    · rw [appended, if_neg hcookie]
      rw [if_neg hcookie] at hok
      by_cases hblank : IsBlank buffer
      · rw [if_pos hblank]
        rw [if_pos hblank, Nat.one_mul] at hok
        obtain ⟨d₁, hend, hfilled', hcookies⟩ := hfilled.endHeader size
        rw [hend] at hok
        cases hok
        exact ⟨hfilled', hcookies⟩
      · rw [if_neg hblank]
        rw [if_neg hblank] at hok
        cases hok
        exact ⟨hfilled, rfl⟩

/-- A callback goes through, if a cookie ends inside its line. -/
theorem curl_eq_ok (h : d.Filled front) (hinside : call.Inside) :
    ∃ d', curl d call = .ok (d', ()) := by
  cases call with
  | write chunk =>
    obtain ⟨d', happend⟩ := @CurlData.Filled.append _ _ chunk _ (chunk.length + 1024) h
      (Nat.le_refl _) (Nat.le_add_right _ _)
    exact ⟨d', by rw [curl, CurlData.curlWriteCb_eq d hinside, happend]; rfl⟩
  | header buffer size =>
    by_cases hcookie : buffer.take 12 = setCookie ∧ 13 < size
    · obtain ⟨hsize, found, hfound, hlen⟩ := hinside hcookie
      cases found with
      | none =>
        exact ⟨d, by rw [curl, curlHeaderCb, Nat.mul_one, if_pos hcookie, hfound]; rfl⟩
      | some len =>
        have hfits := hlen len rfl
        have hbytes : ((buffer.drop 12).take len ++ [59, 32]).length ≤ size := by
          rw [List.length_append, List.length_take]
          show _ + 2 ≤ size
          omega
        obtain ⟨d', happend⟩ := h.append hbytes (Nat.le_add_right size 1024)
        refine ⟨d', ?_⟩
        rw [curl, curlHeaderCb, Nat.mul_one, if_pos hcookie, hfound]
        simp only [bind, Except.bind, pure, Except.pure, Nat.one_mul,
          CurlData.putCookie_eq d (Nat.le_of_lt (strchr_lt hfound))]
        rw [if_neg (by omega), happend]
    · by_cases hblank : IsBlank buffer
      · obtain ⟨d', hend, -⟩ := h.endHeader size
        refine ⟨d', ?_⟩
        rw [curl, curlHeaderCb, Nat.mul_one, if_neg hcookie, if_pos hblank, Nat.one_mul, hend]
        rfl
      · exact ⟨d, by rw [curl, curlHeaderCb, Nat.mul_one, if_neg hcookie, if_neg hblank]; rfl⟩

private theorem curl_lt {calls : List CurlCallback} {tr : List (Event CurlData CurlCallback Unit)}
    (hsized : ∀ call ∈ calls, call.Sized) (hexec : exec curl newCurlData calls = .ok (tr, d')) :
    ∀ e ∈ tr, e.post.mPos < e.post.mLen := by
  have hmeets : Meets (fun _ call ↦ call.Sized) tr :=
    exec_meets hexec (along_of_mem (fun call hcall _ ↦ hsized call hcall) _)
  have hfilled := (Run.of_exec hexec).throughout (fun d : CurlData ↦ ∃ front, d.Filled front)
    ⟨[], CurlData.filled_new⟩
    (fun ⟨_, hfilled⟩ hsized hok ↦ ⟨_, (filled_appended ⟨hfilled, rfl⟩ hsized hok).1⟩) hmeets
  intro e he
  obtain ⟨front, hfront⟩ := hfilled e he
  exact hfront.lt

/-- **The bounds.** No sequence of callbacks, in whatever order, writes outside the buffer or fills
its last cell, if each cookie ends inside its line. -/
theorem curl_bounds {calls : List CurlCallback} (h : ∀ call ∈ calls, call.Inside) :
    ∃ tr d', exec curl newCurlData calls = .ok (tr, d') ∧ ∀ e ∈ tr, e.post.mPos < e.post.mLen := by
  obtain ⟨tr, d', hexec, -⟩ := exec_of_progress (m := curl) (C := CurlCallback.Inside)
    (fun d : CurlData ↦ ∃ front, d.Filled front) (by
      rintro d call ⟨front, hfilled⟩ hinside
      obtain ⟨d', hok⟩ := curl_eq_ok hfilled hinside
      exact ⟨d', (), hok, _, (filled_appended ⟨hfilled, rfl⟩ hinside.sized hok).1⟩)
    ⟨[], CurlData.filled_new⟩ h
  exact ⟨tr, d', hexec, curl_lt (fun call hcall ↦ (h call hcall).sized) hexec⟩

end ZTask
