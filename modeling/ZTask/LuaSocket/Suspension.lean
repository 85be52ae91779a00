import ZTask.LuaSocket.Lines
import ZTask.LuaSocket.Object
import ZTask.LuaSocket.Refinement

/-!
# Readers are woken, and nothing is lost

While a coroutine is suspended, `read_required` says what it reads for, and the bytes in the buffer
are not enough for that; whatever makes them enough wakes it (`Good`). After a close `read_required`
may be out of date, which does no harm: nobody is suspended any more.

The driver cuts sizes down to an `int`. A size that becomes negative makes `pop` read where there is
nothing, and of a separator of `2 ^ 32` bytes and more only the first bytes are looked for and taken
off the buffer. Short of that (`Fits`), what the reads return and what is still held is what has
come (`socketObject_reads`).
-/

namespace ZTask

open Lib

/-! ## The driver, on strings -/

namespace LuaSockets

variable {m : LuaSockets} {f : ℕ → List UInt8} {b : ℕ} {sep msg : List UInt8} {n : ℤ}

theorem ok_of_map {ε α β : Type} {x : Except ε α} {g : α → β} {y : β} (h : x.map g = .ok y) :
    ∃ p, x = .ok p ∧ g p = y := by
  cases x with
  | error e => cases h
  | ok p => exact ⟨p, rfl, Except.ok.inj h⟩

private theorem pushBuffer_holds (h : Holds m f) (hne : msg ≠ [])
    (hlt : (f b).length + msg.length < 2 ^ 31) :
    ∃ m', m.pushBuffer b msg = .ok (((f b).length + msg.length : ℕ), m') ∧
      Holds m' (Function.update f b (f b ++ msg)) := by
  obtain ⟨m', hpush, hholds⟩ := push_refines (b := b) h ⟨hne, hlt⟩ rfl
  obtain ⟨p, hp, heq⟩ := ok_of_map (x := m.pushBuffer b msg) hpush
  obtain ⟨rfl, hsize⟩ := Prod.mk.inj heq
  exact ⟨p.2, by rw [hp, ← BufferResult.size.inj hsize], hholds⟩

private theorem readAll_holds (h : Holds m f) (b : ℕ) :
    ∃ m', m.readAll b = .ok (f b, m') ∧ Holds m' (Function.update f b []) := by
  obtain ⟨m', hall, hholds⟩ := readall_refines (b := b) h rfl
  obtain ⟨p, hp, heq⟩ := ok_of_map (x := m.readAll b) hall
  obtain ⟨rfl, hbytes⟩ := Prod.mk.inj heq
  exact ⟨p.2, by rw [hp, ← BufferResult.all.inj hbytes], hholds⟩

/-- A pop takes so many bytes as the size is cut down to, or there are not so many as have been
asked for. -/
theorem popBuffer_holds (h : Holds m f) (hn : 0 < n) (hfits : 0 ≤ toInt32 n) :
    (∃ k sz m', m.popBuffer b n = .ok (some ((f b).take k), sz, m') ∧
      Holds m' (Function.update f b ((f b).drop k))) ∨
    (∃ sz, m.popBuffer b n = .ok (none, sz, m)) ∧ ¬ n ≤ (f b).length := by
  obtain ⟨k, hk⟩ := Int.eq_ofNat_of_zero_le hfits
  have hsmall := h.small b
  have hle : (k : ℤ) ≤ n := by
    obtain ⟨j, rfl⟩ := Int.eq_ofNat_of_zero_le (Int.le_of_lt hn)
    exact hk ▸ toInt32_le j
  by_cases hnone : (m.buffer b).size < k ∨ (k : ℤ) = 0
  · refine .inr ⟨⟨_, popBuffer_none (hk ▸ hnone)⟩, fun hall ↦ ?_⟩
    have heq : toInt32 n = n := toInt32_of_lt (by omega) (by omega)
    rw [h.size] at hnone
    omega
  · obtain ⟨l, hfilled⟩ := h.filled
    rw [h.size] at hnone
    obtain ⟨m', l', hpop, hfilled', hsizes⟩ :=
      popString_spec (b := b) k 0 hfilled (by omega)
        (List.ne_nil_of_length_pos (by omega)) (by omega)
    have hz : (m'.buffer b).size - k = ((f b).drop k).length := by
      rw [hsizes, h.size, List.length_drop]
      omega
    refine .inl ⟨k, _, _, popBuffer_some hk (by rw [h.size]; exact hnone) hpop, ?_⟩
    exact h.update hfilled' hsizes hz (by rw [List.length_drop]; omega)

private theorem readLine_holds (h : Holds m f) (hfits : FitsSep (f b) sep) :
    (∃ line rest m', splitLine sep (f b) = some (line, rest) ∧
    m.readLine b sep = .ok (some line, m') ∧
      Holds m' (Function.update f b rest)) ∨
    splitLine sep (f b) = none ∧ m.readLine b sep = .ok (none, m) := by
  cases hsplit : splitLine sep (f b) with
  | none =>
    refine .inr ⟨rfl, ?_⟩
    rw [readLine, findLine_refines h hfits, hsplit]
    rfl
  | some p =>
    have hflat : flatSocket f (.readline b sep) =
        .ok (Function.update f b p.2, .line (some p.1)) := by
      rw [flatSocket, hsplit]
    obtain ⟨m', hline, hholds⟩ := readline_refines h hfits hflat
    refine .inl ⟨p.1, p.2, m', rfl, ?_, hholds⟩
    obtain ⟨q, hq, heq⟩ := ok_of_map (x := m.readLine b sep) hline
    obtain ⟨rfl, hbytes⟩ := Prod.mk.inj heq
    rw [hq, ← BufferResult.line.inj hbytes]

end LuaSockets

/-! ## What is claimed -/

/-- The bytes are enough for what a coroutine reads for. -/
def SocketRead.Satisfied : SocketRead → List UInt8 → Prop
  | .any, bytes => bytes ≠ []
  | .size n, bytes => n ≤ bytes.length
  | .line sep, bytes => splitLine sep bytes ≠ none
  | .all, _ => False

/-- The bytes that come with a message. -/
def ReaderInput.bytes : ReaderInput → List UInt8
  | .data msg => msg
  | _ => []

/-- The bytes that are returned, with the separator of a line. -/
def ReaderOutput.bytes : ReaderOutput → List UInt8
  | .returns (.line sep) (.string s) => s ++ sep
  | .returns _ (.string s) | .returns _ (.failed s) => s
  | _ => []

/-- What `read_required` is while a coroutine is suspended. -/
def SocketRead.required : SocketRead → ReadRequired
  | .any => .number 0
  | .size n => .number n
  | .line sep => .string sep
  | .all => .boolean

namespace SocketObject

/-- The steps of which nothing goes wrong: what is held is less than `2 ^ 31` bytes, no size is cut
down to a negative one, and the separators are looked for as a whole, or not even their first bytes
occur. -/
def Fits (b : ℕ) (s : SocketObject) (i : ReaderInput) : Prop :=
  ∀ f, LuaSockets.Holds s.driver f →
    match i with
    | .data msg => (f b).length + msg.length < 2 ^ 31 ∧
        ∀ sep, s.readRequired = some (.string sep) → FitsSep (f b ++ msg) sep
    | .read (.size n) => 0 < n ∧ 0 ≤ toInt32 n
    | .read (.line sep) => FitsSep (f b) sep
    | .other op => Proper f op ∧ FitsInt f op
    | _ => True

/-! ## The invariant -/

/-- Whoever is suspended waits for what `read_required` says, and for more than there is. -/
structure Good (b : ℕ) (f : ℕ → List UInt8) (s : SocketObject) : Prop where
  holds : LuaSockets.Holds s.driver f
  co : s.co = true → ∃ r, s.reader = .suspended r
  suspended : ∀ {r}, s.reader = .suspended r → s.connected = true ∧
    s.readRequired = some r.required ∧
    s.co = true ∧ ¬ r.Satisfied (f b)
  ready : s.connected = true → (∀ r, s.reader ≠ .suspended r) → s.readRequired = none
  woken : ∀ {r}, s.reader = .woken r → s.connected = true → r.Satisfied (f b)
  size : ∀ {n}, s.reader = .suspended (.size n) ∨ s.reader = .woken (.size n) →
    0 < n ∧ 0 ≤ toInt32 n

variable {b : ℕ} {f f' : ℕ → List UInt8} {s : SocketObject} {r : SocketRead} {driver : LuaSockets}
  {result : ReadResult} {bytes msg : List UInt8}

theorem Good.init (b : ℕ) : Good b (fun _ ↦ []) init where
  holds := LuaSockets.holds_init
  co h := nomatch h
  suspended h := nomatch h
  ready _ _ := rfl
  woken h := nomatch h
  size h := h.elim (fun h ↦ nomatch h) fun h ↦ nomatch h

/-- More bytes are enough, too. -/
theorem satisfied_append (h : r.Satisfied bytes) (msg : List UInt8) :
    r.Satisfied (bytes ++ msg) := by
  cases r with
  | any => exact List.append_ne_nil_of_left_ne_nil h msg
  | size n =>
    have h : n ≤ bytes.length := h
    show n ≤ ((bytes ++ msg).length : ℤ)
    rw [List.length_append]
    omega
  | line sep =>
    obtain ⟨⟨line, rest⟩, hsome⟩ := Option.ne_none_iff_exists'.mp h
    show splitLine sep (bytes ++ msg) ≠ none
    rw [splitLine_append_right hsome]
    exact Option.some_ne_none _
  | all => exact h

/-- Who is suspended is woken: because there are enough bytes, or because no more will come. -/
theorem good_wakeup (hholds : LuaSockets.Holds s.driver f)
    (hco : s.co = true ↔ ∃ r, s.reader = .suspended r)
    (hready : s.connected = true → s.readRequired = none)
    (henough : ∀ r, s.reader = .suspended r ∨ s.reader = .woken r → s.connected = true →
      r.Satisfied (f b))
    (hsize : ∀ {n}, s.reader = .suspended (.size n) ∨ s.reader = .woken (.size n) →
      0 < n ∧ 0 ≤ toInt32 n) : Good b f s.wakeup := by
  rw [SocketObject.wakeup]
  cases hreader : s.reader with
  | suspended r =>
    rw [if_pos (hco.mpr ⟨r, hreader⟩)]
    refine ⟨hholds, (fun h ↦ nomatch h), (fun h ↦ nomatch h), fun hc _ ↦ hready hc,
      fun {r'} hr' hc ↦ ?_, fun {n} hn ↦ ?_⟩
    · obtain rfl := SocketReader.woken.inj hr'
      exact henough r (.inl hreader) hc
    · obtain rfl := SocketReader.woken.inj (hn.resolve_left fun h ↦ nomatch h)
      exact hsize (.inl hreader)
  | idle =>
    have hnot : ¬ s.co = true := fun h ↦ by
      obtain ⟨r, hr⟩ := hco.mp h
      rw [hreader] at hr
      cases hr
    rw [if_neg hnot]
    refine ⟨hholds, fun h ↦ absurd h hnot, fun {r} hr ↦ ?_, fun hc _ ↦ hready hc, fun {r} hr ↦ ?_,
      fun hn ↦ hsize hn⟩
    · rw [hreader] at hr
      cases hr
    · rw [hreader] at hr
      cases hr
  | woken r =>
    have hnot : ¬ s.co = true := fun h ↦ by
      obtain ⟨r', hr'⟩ := hco.mp h
      rw [hreader] at hr'
      cases hr'
    rw [if_neg hnot]
    refine ⟨hholds, fun h ↦ absurd h hnot, fun {r'} hr' ↦ ?_, fun hc _ ↦ hready hc,
      fun {r'} hr' hc ↦ henough r' (.inr hr') hc, fun hn ↦ hsize hn⟩
    rw [hreader] at hr'
    cases hr'

namespace Good

private theorem co_iff (h : Good b f s) : s.co = true ↔ ∃ r, s.reader = .suspended r :=
  ⟨h.co, fun ⟨_, hr⟩ ↦ (h.suspended hr).2.2.1⟩

theorem close (h : Good b f s) : Good b f { s with connected := false }.wakeup :=
  good_wakeup h.holds h.co_iff (fun hc ↦ nomatch hc) (fun _ _ hc ↦ nomatch hc) h.size

theorem returns (h : Good b f s) (hr : ∀ r, s.reader ≠ .suspended r)
    (hholds : LuaSockets.Holds driver f') (r : SocketRead) (result : ReadResult) :
    Good b f' (s.returns driver r result).1 where
  holds := hholds
  co hco := by
    obtain ⟨r, hr'⟩ := h.co hco
    exact absurd hr' (hr r)
  suspended hr' := nomatch hr'
  ready hc _ := h.ready hc hr
  woken hr' := nomatch hr'
  size hn := hn.elim (fun h ↦ nomatch h) fun h ↦ nomatch h

/-- The coroutine is suspended; the assertions do not fail. -/
theorem suspend (h : Good b f s) (hidle : s.reader = .idle) (hc : s.connected = true)
    (hholds : LuaSockets.Holds driver f') (hnot : ¬ r.Satisfied (f' b))
    (hsize : ∀ {n}, r = .size n → 0 < n ∧ 0 ≤ toInt32 n) :
    ∃ s', SocketObject.suspend { s with driver := driver } r r.required = .ok (s', .silent) ∧
      Good b f' s' := by
  have hr : ∀ r, s.reader ≠ .suspended r := fun r hr ↦ by
    rw [hidle] at hr
    cases hr
  have hco : ¬ s.co = true := fun hco ↦ by
    obtain ⟨r, hr'⟩ := h.co hco
    exact hr r hr'
  have hnone : ¬ (s.readRequired.isSome ∨ s.co) := by
    rw [h.ready hc hr]
    exact fun hor ↦ hor.elim (fun h ↦ nomatch h) hco
  refine ⟨_, if_neg hnone, hholds, fun _ ↦ ⟨r, rfl⟩, fun {r'} hr' ↦ ?_,
    fun _ hr' ↦ absurd rfl (hr' r), (fun hr' ↦ nomatch hr'), fun {n} hn ↦ ?_⟩
  · obtain rfl := SocketReader.suspended.inj hr'
    exact ⟨hc, rfl, rfl, hnot⟩
  · exact hsize (SocketReader.suspended.inj (hn.resolve_right fun h ↦ nomatch h))

/-! ## The steps -/

/-- The conclusion for a step: it does not fail, and bytes are neither lost nor made up. -/
def Goes (b : ℕ) (f : ℕ → List UInt8) (bytes : List UInt8)
    (x : Except ReaderFault (SocketObject × ReaderOutput)) : Prop :=
  ∃ f' s' o, x = .ok (s', o) ∧ Good b f' s' ∧ o.bytes ++ f' b = f b ++ bytes

private theorem goes_returns (h : Good b f s) (hr : ∀ r, s.reader ≠ .suspended r)
    (hholds : LuaSockets.Holds driver (Function.update f b bytes))
    (hbytes : (ReaderOutput.returns r result).bytes ++ bytes = f b) :
    Goes b f [] (.ok (s.returns driver r result)) := by
  refine ⟨_, _, _, rfl, h.returns hr hholds r result, ?_⟩
  rw [Function.update_self, List.append_nil]
  exact hbytes

theorem goes_all (h : Good b f s) (hr : ∀ r, s.reader ≠ .suspended r) (hdriver : driver = s.driver)
    (g : List UInt8 → ReadResult) (hg : (ReaderOutput.returns r (g (f b))).bytes = f b) :
    Goes b f [] (do
      let (ret, driver) ← call (driver.readAll b)
      .ok (s.returns driver r (g ret))) := by
  obtain ⟨all, hall, hholds⟩ := LuaSockets.readAll_holds h.holds b
  rw [hdriver, call, hall]
  exact h.goes_returns hr hholds (by rw [hg, List.append_nil])

/-- **A read**, up to where it returns or the coroutine is suspended. -/
theorem read (h : Good b f s) (hidle : s.reader = .idle)
    (hsize : ∀ {n}, r = .size n → 0 < n ∧ 0 ≤ toInt32 n)
    (hsep : ∀ {sep}, r = .line sep → FitsSep (f b) sep) : Goes b f [] (s.read b r) := by
  have hr : ∀ r, s.reader ≠ .suspended r := fun r hr ↦ by
    rw [hidle] at hr
    cases hr
  -- the coroutine is suspended, and nothing has been taken
  have hsuspend : ∀ {f' : ℕ → List UInt8} {driver}, s.connected = true →
      LuaSockets.Holds driver f' →
      f' b = f b → ¬ r.Satisfied (f b) →
      Goes b f [] (SocketObject.suspend { s with driver := driver } r r.required) := by
    intro f' driver hc hholds hsame hnot
    obtain ⟨s', hs', hgood⟩ := h.suspend hidle hc hholds (hsame ▸ hnot) hsize
    exact ⟨f', s', _, hs', hgood, by rw [hsame, List.append_nil]; rfl⟩
  cases r with
  | any =>
    obtain ⟨all, hall, hholds⟩ := LuaSockets.readAll_holds h.holds b
    rw [SocketObject.read, call, hall]
    simp only [Except.mapError, bind, Except.bind]
    by_cases hnil : f b = []
    · rw [if_neg (not_not.mpr hnil)]
      by_cases hc : (!s.connected) = true
      · rw [if_pos hc]
        exact h.goes_returns hr hholds (List.append_nil _)
      · rw [if_neg hc]
        exact hsuspend (by simpa using hc) hholds (by rw [Function.update_self, hnil])
          (fun hne ↦ hne hnil)
    · rw [if_pos hnil]
      exact h.goes_returns hr hholds (List.append_nil _)
  | size n =>
    obtain ⟨hpos, hfits⟩ := hsize rfl
    rw [SocketObject.read, call]
    rcases LuaSockets.popBuffer_holds h.holds hpos hfits with ⟨k, sz, m', hpop,
        hholds⟩ | ⟨⟨sz, hpop⟩, hnot⟩
    · rw [hpop]
      exact h.goes_returns hr hholds (List.take_append_drop k (f b))
    · rw [hpop]
      simp only [Except.mapError, bind, Except.bind]
      by_cases hc : (!s.connected) = true
      · rw [if_pos hc]
        exact h.goes_all hr rfl .failed rfl
      · rw [if_neg hc]
        exact hsuspend (by simpa using hc) h.holds rfl hnot
  | line sep =>
    rw [SocketObject.read, call]
    rcases LuaSockets.readLine_holds h.holds (hsep rfl) with
      ⟨line, rest, m', hsplit, hline, hholds⟩ | ⟨hsplit, hline⟩
    · rw [hline]
      refine h.goes_returns hr hholds ?_
      rw [splitLine_append hsplit]
      exact List.append_assoc line sep rest
    · rw [hline]
      simp only [Except.mapError, bind, Except.bind]
      by_cases hc : (!s.connected) = true
      · rw [if_pos hc]
        exact h.goes_all hr rfl .failed rfl
      · rw [if_neg hc]
        exact hsuspend (by simpa using hc) h.holds rfl (fun hne ↦ hne hsplit)
  | all =>
    rw [SocketObject.read]
    by_cases hc : (!s.connected) = true
    · rw [if_pos hc]
      refine h.goes_all hr rfl (fun ret ↦ if ret ≠ [] then .string ret else .no) ?_
      by_cases hnil : f b = []
      · rw [if_neg (not_not.mpr hnil), hnil]
        rfl
      · rw [if_pos hnil]
        rfl
    · rw [if_neg hc]
      exact hsuspend (by simpa using hc) h.holds rfl id

/-- **A read goes on** after the coroutine has been woken. -/
theorem readOn (h : Good b f s) (hwoken : s.reader = .woken r) : Goes b f [] (s.readOn b r) := by
  have hr : ∀ r, s.reader ≠ .suspended r := fun r hr ↦ by
    rw [hwoken] at hr
    cases hr
  cases r with
  | any =>
    rw [SocketObject.readOn]
    refine h.goes_all hr rfl (fun ret ↦ if ret ≠ [] then .string ret else .failed ret) ?_
    by_cases hnil : f b = []
    · rw [if_neg (not_not.mpr hnil)]
      rfl
    · rw [if_pos hnil]
      rfl
  | size n =>
    obtain ⟨hpos, hfits⟩ := h.size (.inr hwoken)
    rw [SocketObject.readOn, call]
    rcases LuaSockets.popBuffer_holds h.holds hpos hfits with ⟨k, sz, m', hpop,
        hholds⟩ | ⟨⟨sz, hpop⟩, -⟩
    · rw [hpop]
      exact h.goes_returns hr hholds (List.take_append_drop k (f b))
    · rw [hpop]
      exact h.goes_all hr rfl .failed rfl
  | line sep =>
    rw [SocketObject.readOn]
    by_cases hc : s.connected = true
    · rw [if_pos hc]
      obtain ⟨⟨line, rest⟩, hsplit⟩ := Option.ne_none_iff_exists'.mp (h.woken hwoken hc)
      -- the separator is in the buffer, so it is not too long
      have hfits : FitsSep (f b) sep := by
        have hlength := congrArg List.length (splitLine_append hsplit)
        have hsmall := h.holds.small b
        rw [List.length_append, List.length_append] at hlength
        exact .inl (by omega)
      rcases LuaSockets.readLine_holds h.holds hfits with
        ⟨line', rest', m', hsplit', hline, hholds⟩ | ⟨hnone, -⟩
      · rw [call, hline]
        refine h.goes_returns hr hholds ?_
        rw [splitLine_append hsplit']
        exact List.append_assoc line' sep rest'
      · rw [hnone] at hsplit
        cases hsplit
    · rw [if_neg hc]
      exact h.goes_all hr rfl .failed rfl
  | all =>
    rw [SocketObject.readOn]
    by_cases hc : s.connected = true
    · exact (h.woken hwoken hc).elim
    · rw [if_neg hc]
      exact h.goes_all hr rfl .string rfl

/-- Bytes have come, and nobody is woken: whoever is suspended needs more. -/
theorem receive_rest {required : Option ReadRequired} (h : Good b f s)
    (hreq : s.readRequired = required)
    (hholds : LuaSockets.Holds driver (Function.update f b (f b ++ msg)))
    (hmore : ∀ r, s.reader = .suspended r → ¬ r.Satisfied (f b ++ msg)) :
    Good b (Function.update f b (f b ++ msg))
      { s with driver := driver, readRequired := required } where
  holds := hholds
  co := h.co
  suspended hr := by
    obtain ⟨hc, hrequired, hco, -⟩ := h.suspended hr
    rw [Function.update_self]
    exact ⟨hc, hreq ▸ hrequired, hco, hmore _ hr⟩
  ready hc hr := hreq ▸ h.ready hc hr
  woken hr hc := by
    rw [Function.update_self]
    exact satisfied_append (h.woken hr hc) msg
  size := h.size

private theorem receive_wakeup (h : Good b f s)
    (hholds : LuaSockets.Holds driver (Function.update f b (f b ++ msg)))
    (henough : ∀ r, s.reader = .suspended r → r.Satisfied (f b ++ msg)) :
    Good b (Function.update f b (f b ++ msg))
      { s with driver := driver, readRequired := none }.wakeup := by
  refine good_wakeup hholds h.co_iff (fun _ ↦ rfl) (fun r hr hc ↦ ?_) h.size
  rw [Function.update_self]
  exact hr.elim (henough r) fun hr ↦ satisfied_append (h.woken hr hc) msg

theorem receive (h : Good b f s) (hne : msg ≠ []) (hlt : (f b).length + msg.length < 2 ^ 31)
    (hsep : ∀ sep, s.readRequired = some (.string sep) → FitsSep (f b ++ msg) sep) :
    ∃ s', s.receive b msg = .ok s' ∧ Good b (Function.update f b (f b ++ msg)) s' := by
  obtain ⟨driver, hpush, hholds⟩ := LuaSockets.pushBuffer_holds h.holds hne hlt
  rw [← List.length_append] at hpush
  rw [SocketObject.receive, call, hpush]
  simp only [Except.mapError, bind, Except.bind]
  -- whoever is suspended has set `read_required`
  have hrequired : ∀ {r}, s.reader = .suspended r → s.readRequired = some r.required := fun hr ↦
    (h.suspended hr).2.1
  cases hreq : s.readRequired with
  | none =>
    refine ⟨_, rfl, h.receive_rest hreq hholds fun r hr ↦ ?_⟩
    rw [hrequired hr] at hreq
    cases hreq
  | some required =>
    cases required with
    | number rr =>
      refine ⟨_, rfl, ?_⟩
      by_cases hge : ((f b ++ msg).length : ℤ) ≥ rr
      · rw [if_pos hge]
        refine h.receive_wakeup hholds fun r hr ↦ ?_
        rw [hrequired hr] at hreq
        cases r with
        | any => exact List.append_ne_nil_of_right_ne_nil (f b) hne
        | size n =>
          obtain rfl := ReadRequired.number.inj (Option.some.inj hreq)
          exact hge
        | line | all => cases hreq
      · rw [if_neg hge]
        refine h.receive_rest hreq hholds fun r hr ↦ ?_
        rw [hrequired hr] at hreq
        cases r with
        | any =>
          obtain rfl := ReadRequired.number.inj (Option.some.inj hreq)
          omega
        | size n =>
          obtain rfl := ReadRequired.number.inj (Option.some.inj hreq)
          exact hge
        | line | all => cases hreq
    | string rr =>
      have hfind := @LuaSockets.findLine_refines _ _ b rr hholds
        (by rw [Function.update_self]; exact hsep rr hreq)
      rw [Function.update_self] at hfind
      dsimp only
      rw [call, hfind]
      refine ⟨_, rfl, ?_⟩
      rw [Option.isSome_map]
      by_cases hsome : (splitLine rr (f b ++ msg)).isSome = true
      · rw [if_pos hsome]
        refine h.receive_wakeup hholds fun r hr ↦ ?_
        rw [hrequired hr] at hreq
        cases r with
        | line sep =>
          obtain rfl := ReadRequired.string.inj (Option.some.inj hreq)
          exact Option.isSome_iff_ne_none.mp hsome
        | any | size | all => cases hreq
      · rw [if_neg hsome]
        refine h.receive_rest hreq hholds fun r hr ↦ ?_
        rw [hrequired hr] at hreq
        cases r with
        | line sep =>
          obtain rfl := ReadRequired.string.inj (Option.some.inj hreq)
          exact fun hne ↦ hsome (Option.isSome_iff_ne_none.mpr hne)
        | any | size | all => cases hreq
    | boolean =>
      refine ⟨_, rfl, h.receive_rest hreq hholds fun r hr ↦ ?_⟩
      rw [hrequired hr] at hreq
      cases r with
      | all => exact id
      | any | size | line => cases hreq

/-- The other buffers are apart from this one. -/
theorem flat_other {op : BufferOp} {o : BufferResult} (hop : op.buffer ≠ b)
    (hflat : flatSocket f op = .ok (f', o)) : f' b = f b := by
  have hother : ∀ {bytes}, Function.update f op.buffer bytes b = f b :=
    Function.update_of_ne (Ne.symm hop) ..
  cases op with
  | push | readall | clear =>
    obtain ⟨rfl, -⟩ := Prod.mk.inj (Except.ok.inj hflat)
    exact hother
  | pop b' n =>
    rw [flatSocket] at hflat
    split at hflat
    · obtain ⟨rfl, -⟩ := Prod.mk.inj (Except.ok.inj hflat)
      exact hother
    · obtain ⟨rfl, -⟩ := Prod.mk.inj (Except.ok.inj hflat)
      rfl
  | readline b' sep =>
    rw [flatSocket] at hflat
    split at hflat
    · obtain ⟨rfl, -⟩ := Prod.mk.inj (Except.ok.inj hflat)
      rfl
    · obtain ⟨rfl, -⟩ := Prod.mk.inj (Except.ok.inj hflat)
      exact hother
  | checkline b' sep =>
    obtain ⟨rfl, -⟩ := Prod.mk.inj (Except.ok.inj hflat)
    rfl

theorem other (h : Good b f s) (hholds : LuaSockets.Holds driver f') (hsame : f' b = f b) :
    Good b f' { s with driver := driver } :=
  ⟨hholds, h.co, hsame ▸ h.suspended, h.ready, hsame ▸ h.woken, h.size⟩

/-- **Every step.** -/
theorem step {i : ReaderInput} (h : Good b f s) (hC : Fits b s i) :
    socketObject b s i = .error .impossible ∨ Goes b f i.bytes (socketObject b s i) := by
  have hfits := hC f h.holds
  -- what the driver brings, what the reader asks for, and what happens to the other sockets
  cases i with
  | data msg =>
    dsimp only [socketObject]
    by_cases hnil : msg = []
    · rw [if_pos hnil]
      exact .inl rfl
    · rw [if_neg hnil]
      obtain ⟨s', hs', hgood⟩ := h.receive hnil hfits.1 hfits.2
      rw [hs']
      refine .inr ⟨_, s', _, rfl, hgood, ?_⟩
      rw [Function.update_self]
      rfl
  | close => exact .inr ⟨f, _, _, rfl, h.close, (List.append_nil _).symm⟩
  | error => exact .inr ⟨f, _, _, rfl, h.close, (List.append_nil _).symm⟩
  | read r =>
    dsimp only [socketObject]
    by_cases hidle : s.reader = .idle
    · rw [if_pos hidle]
      refine .inr (h.read hidle (fun hr ↦ ?_) fun hr ↦ ?_)
      · rw [hr] at hfits
        exact hfits
      · rw [hr] at hfits
        exact hfits
    · rw [if_neg hidle]
      exact .inl rfl
  | resume =>
    dsimp only [socketObject]
    cases hreader : s.reader with
    | woken r => exact .inr (h.readOn hreader)
    | idle | suspended => exact .inl rfl
  | other op =>
    dsimp only [socketObject]
    by_cases hop : op.buffer = b
    · rw [if_pos hop]
      exact .inl rfl
    · rw [if_neg hop]
      cases hflat : flatSocket f op with
      | error e => exact nomatch e
      | ok p =>
        obtain ⟨driver, hstep, hholds⟩ := LuaSockets.step_refines h.holds hfits hflat
        have hsame := flat_other hop hflat
        rw [hstep]
        exact .inr ⟨p.1, _, _, rfl, h.other hholds hsame,
          by rw [hsame]; exact (List.append_nil _).symm⟩

end Good

/-! ## Runs -/

/-- The bytes that have come. -/
def received (tr : List (Event SocketObject ReaderInput ReaderOutput)) : List UInt8 :=
  tr.flatMap fun e ↦ e.input.bytes

/-- The bytes that the reads have returned, with the separators of lines. -/
def returned (tr : List (Event SocketObject ReaderInput ReaderOutput)) : List UInt8 :=
  tr.flatMap fun e ↦ e.output.bytes

end SocketObject

/-- **Reads from a socket.** In every run whose sizes are not cut down, a coroutine is suspended
only while the socket is connected and the bytes held are not enough for it; what the reads have
returned and what is held is what has come; and no read or message fails. -/
theorem socketObject_reads {b : ℕ} {tr : List (Event SocketObject ReaderInput ReaderOutput)}
    {s : SocketObject} (hrun : Run (socketObject b) SocketObject.init tr s)
    (hC : Meets (SocketObject.Fits b) tr) :
    ∃ f, LuaSockets.Holds s.driver f ∧
      (∀ r, s.reader = .suspended r → s.connected = true ∧ ¬ r.Satisfied (f b)) ∧
      SocketObject.returned tr ++ f b = SocketObject.received tr ∧
      ∀ i fault, s.Fits b i → socketObject b s i = .error fault → fault = .impossible := by
  obtain ⟨f, hgood, hbytes⟩ : ∃ f, SocketObject.Good b f s ∧
      SocketObject.returned tr ++ f b = SocketObject.received tr := by
    refine hrun.ledger (fun tr s ↦ ∃ f, SocketObject.Good b f s ∧
      SocketObject.returned tr ++ f b = SocketObject.received tr) ⟨_, .init b, rfl⟩ ?_ hC
    rintro tr s i s' o - ⟨f, hgood, hbytes⟩ hC hm
    -- an input that cannot happen in this state is no step of the run
    rcases hgood.step hC with himpossible | ⟨f', s'', o', hok, hgood', hstep⟩
    · rw [himpossible] at hm
      cases hm
    · obtain ⟨rfl, rfl⟩ := Prod.mk.inj (Except.ok.inj (hm.symm.trans hok))
      refine ⟨f', hgood', ?_⟩
      rw [SocketObject.returned, SocketObject.received, List.flatMap_append, List.flatMap_append,
        List.flatMap_singleton, List.flatMap_singleton, List.append_assoc]
      dsimp only
      rw [hstep, ← List.append_assoc]
      exact congrArg (· ++ i.bytes) hbytes
  refine ⟨f, hgood.holds, fun r hr ↦ ?_, hbytes, fun i fault hfits hfault ↦ ?_⟩
  · obtain ⟨hc, -, -, hnot⟩ := hgood.suspended hr
    exact ⟨hc, hnot⟩
  · rcases hgood.step hfits with himpossible | ⟨f', s', o, hok, -⟩
    · exact Except.error.inj (hfault.symm.trans himpossible)
    · rw [hok] at hfault
      cases hfault

/-- A line that comes in two blocks, and a read that the close cuts short. -/
theorem socketObject_reads_line : ∃ tr s, Run (socketObject 0) SocketObject.init tr s ∧
    tr.map Event.output = [.silent, .silent, .silent,
      .returns (.line [13, 10]) (.string [97]), .silent,
      .silent, .returns (.size 5) (.failed [98])] ∧
    ∃ f : ℕ → List UInt8, LuaSockets.Holds s.driver f ∧
      SocketObject.returned tr ++ f 0 = SocketObject.received tr := by
  have hline : ∀ {s : SocketObject} {sep : List UInt8} {bytes : List UInt8},
      s.readRequired = some (.string [13, 10]) → s.readRequired = some (.string sep) →
      FitsSep bytes sep := by
    intro s sep bytes hreq hsep
    obtain rfl := ReadRequired.string.inj (Option.some.inj (hreq.symm.trans hsep))
    exact .inl (by decide)
  have halong : Along (socketObject 0) (SocketObject.Fits 0) SocketObject.init
      [.read (.line [13, 10]), .data [97, 13], .data [10, 98], .resume, .read (.size 5), .close,
        .resume] := by
    refine ⟨fun f hf ↦ .inl (by decide), fun f hf ↦ ⟨?_, fun sep hsep ↦ hline rfl hsep⟩,
      fun f hf ↦ ⟨?_, fun sep hsep ↦ hline rfl hsep⟩, fun f hf ↦ trivial,
      fun f hf ↦ ⟨by decide, by decide⟩, fun f hf ↦ trivial, fun f hf ↦ trivial, trivial⟩
    · have hsize : (0 : ℤ) = (f 0).length := hf.size 0
      show (f 0).length + 2 < 2 ^ 31
      omega
    · have hsize : (2 : ℤ) = (f 0).length := hf.size 0
      show (f 0).length + 2 < 2 ^ 31
      omega
  have hpasses : Passes (socketObject 0) SocketObject.init
      [.read (.line [13, 10]), .data [97, 13], .data [10, 98], .resume, .read (.size 5), .close,
        .resume] (fun tr _ ↦ tr.map Event.output = [.silent, .silent, .silent,
          .returns (.line [13, 10]) (.string [97]), .silent, .silent,
          .returns (.size 5) (.failed [98])]) := by
    decide +kernel
  cases hexec : exec (socketObject 0) SocketObject.init
      [.read (.line [13, 10]), .data [97, 13], .data [10, 98], .resume, .read (.size 5), .close,
        .resume] with
  | error e =>
    rw [Passes, hexec] at hpasses
    exact hpasses.elim
  | ok p =>
    rw [Passes, hexec] at hpasses
    have hrun := Run.of_exec hexec
    obtain ⟨f, hholds, -, hbytes, -⟩ := socketObject_reads hrun (exec_meets hexec halong)
    exact ⟨p.1, p.2, hrun, hpasses, f, hholds, hbytes⟩

/-- A separator is cut down to its first byte, and found. -/
theorem LuaSockets.readLine_cut {m : LuaSockets} {f : ℕ → List UInt8} {b : ℕ}
    {sep rest : List UInt8}
    {c : UInt8} (h : LuaSockets.Holds m f) (hf : f b = c :: rest) (hfirst : sep.take 1 = [c])
    (hlength : toInt32 sep.length = 1) : ∃ m', m.readLine b sep = .ok (some [], m') := by
  obtain ⟨l, hfilled⟩ := h.filled
  have hfind := LuaSockets.findLine_spec (k := 1) hfilled (h.size b) hlength
  have hstarts : [c] <+: c :: rest := ⟨rest, rfl⟩
  rw [hfirst, hf, splitLine, if_pos hstarts] at hfind
  obtain ⟨m', l', hpop, -, -⟩ := LuaSockets.popString_spec (b := b) 1 1 hfilled
    (by rw [hf, List.length_cons]; omega) (by rw [hf]; exact List.cons_ne_nil _ _) (Nat.le_refl 1)
  refine ⟨m'.shrink b (toInt32 (0 + sep.length)), ?_⟩
  rw [LuaSockets.readLine, hfind]
  simp only [Option.map_some, bind, Except.bind, List.length_nil]
  rw [show ((0 : ℕ) : ℤ) + (sep.length : ℤ) = sep.length from Int.zero_add _, hlength]
  simp only [Int.zero_add, hlength]
  rw [show m.popString b 1 1 = _ from hpop]
  rfl

/-- **The claim fails** for sizes and separators that are cut down: a read of `2 ^ 31` bytes from an
empty buffer follows a null pointer, and a separator of `2 ^ 32 + 1` bytes is found where there is
only the first of them. -/
theorem not_socketObject_reads :
    socketObject 0 SocketObject.init (.read (.size (2 ^ 31))) = .error (.driver .null) ∧
      ∃ sep tr s, Run (socketObject 0) SocketObject.init tr s ∧
        tr.map Event.output = [.silent, .returns (.line sep) (.string [])] ∧
        SocketObject.received tr = [97, 98] ∧ 2 < (SocketObject.returned tr).length := by
  have hlong : ∀ n : ℕ, ∃ sep : List UInt8, sep.length = n + 1 ∧ sep.take 1 = [97] := fun n ↦
    ⟨97 :: List.replicate n 97, by rw [List.length_cons, List.length_replicate], rfl⟩
  obtain ⟨sep, hlength, hfirst⟩ := hlong (2 ^ 32)
  refine ⟨rfl, sep, ?_⟩
  obtain ⟨m, hpush, hholds⟩ := LuaSockets.pushBuffer_holds (b := 0)
    LuaSockets.holds_init (List.cons_ne_nil 97 [98]) (by decide)
  obtain ⟨m', hline⟩ := @LuaSockets.readLine_cut m _ 0 sep [98] 97 hholds (Function.update_self ..)
    hfirst (by rw [hlength]; decide)
  have hdata : socketObject 0 SocketObject.init (.data [97, 98]) =
      .ok ({ SocketObject.init with driver := m }, .silent) := by
    dsimp only [socketObject]
    rw [if_neg (List.cons_ne_nil _ _), SocketObject.receive, SocketObject.call,
      show SocketObject.init.driver = .init from rfl, hpush]
    rfl
  have hread : socketObject 0 { SocketObject.init with driver := m } (.read (.line sep)) =
      .ok ({ SocketObject.init with driver := m' }, .returns (.line sep) (.string [])) := by
    dsimp only [socketObject]
    rw [if_pos (show SocketObject.init.reader = .idle from rfl), SocketObject.read,
      SocketObject.call, hline]
    rfl
  refine ⟨_, _, .snoc (.snoc .nil hdata) hread, rfl, rfl, ?_⟩
  have hreturned : SocketObject.returned [⟨SocketObject.init, .data [97, 98], .silent,
      { SocketObject.init with driver := m }⟩, ⟨{ SocketObject.init with driver := m },
      .read (.line sep), .returns (.line sep) (.string []),
      { SocketObject.init with driver := m' }⟩] = sep := List.append_nil sep
  rw [List.nil_append, List.singleton_append, hreturned, hlength]
  decide

end ZTask
