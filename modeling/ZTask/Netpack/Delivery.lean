import ZTask.Netpack.Reassembly

/-!
# Delivery of packages

In every run of the filter the packages that a socket has delivered since it was last closed are the
ones that are complete in what has arrived on it since then (`receive_run`). So, if what arrives is
what `lpack` makes of some packages, these are delivered, whatever the chunks and however the chunks
of different sockets are interleaved (`netpack_reassembly`).

## Streams

For one socket only its own chunks matter, and what came before its last close does not: `stream`
and `delivered` are folds over the messages of a run that keep to that. `Delivered` relates them to
the packages that are complete in the stream (`Lib.Packets`).

## Steps

The filter is entered with an empty queue, and returns with whatever it has queued; popping empties
it again (`Settled`). A chunk changes the record of its socket only (`receive_data`), and a message
without data at most clears one (`receive_other`). The induction over the run is `receive_run`, and
`netpack_reassembly` is its case for streams that `lpack` has made.
-/

namespace ZTask

open Lib

namespace Netpack

variable {q q' : Option Queue} {fd : Int32}

/-! ## Steps -/

private theorem lpop_none (h : lpop q = none) : (getQueue q).ring.toList = [] := by
  cases q with
  | none => rfl
  | some q => exact RingBuffer.pop?_eq_none_iff.mp (Option.map_eq_none_iff.mp h)

private theorem lpop_some {pack : Netpack} {q₁ : Queue} (h : lpop q = some (pack, q₁)) :
    (getQueue q).ring.toList = pack :: q₁.ring.toList ∧ q₁.hash = (getQueue q).hash := by
  cases q with
  | none => cases h
  | some q =>
    rw [lpop, Option.map_eq_some_iff] at h
    obtain ⟨⟨pack', ring⟩, hpop, hp⟩ := h
    cases hp
    exact ⟨RingBuffer.toList_of_pop? hpop, rfl⟩

/-- Popping empties the queue, and leaves the table as it is. -/
theorem popAll_eq {fuel : ℕ} (h : (getQueue q).ring.toList.length ≤ fuel) :
    (popAll fuel q).1 = (getQueue q).ring.toList ∧
      (getQueue (popAll fuel q).2).ring.toList = [] ∧
        (getQueue (popAll fuel q).2).hash = (getQueue q).hash := by
  induction fuel generalizing q with
  | zero =>
    have hnil := List.eq_nil_of_length_eq_zero (Nat.le_zero.mp h)
    exact ⟨hnil.symm, hnil, rfl⟩
  | succ fuel ih =>
    rw [popAll]
    cases hpop : lpop q with
    | none =>
      have hnil := lpop_none hpop
      exact ⟨hnil.symm, hnil, rfl⟩
    | some p =>
      obtain ⟨pack, q₁⟩ := p
      obtain ⟨hlist, hhash⟩ := lpop_some hpop
      rw [hlist, List.length_cons] at h
      obtain ⟨h₁, h₂, h₃⟩ := @ih (some q₁) (Nat.le_of_succ_le_succ h)
      refine ⟨?_, h₂, h₃.trans hhash⟩
      rw [hlist]
      exact congrArg _ h₁

/-- Between messages: nothing is queued, and the table holds part of a package for each socket. -/
structure Settled (q : Option Queue) (held : Int32 → List UInt8) : Prop where
  empty : (getQueue q).ring.toList = []
  filed : chaining.Filed (getQueue q).hash
  holds : ∀ fd, (getQueue q).Holds fd (held fd)

private theorem settled_none : Settled none fun _ ↦ [] :=
  ⟨rfl, fun _ _ h ↦ (nomatch h), fun _ ↦ .inl ⟨rfl, rfl⟩⟩

variable {held : Int32 → List UInt8}

theorem Settled.update {bytes : List UInt8} (h : Settled q held)
    (hempty : (getQueue q').ring.toList = [])
    (hothers : ∀ fd' ≠ fd, (getQueue q').records fd' = (getQueue q).records fd')
    (hfiled : chaining.Filed (getQueue q').hash) (hholds : (getQueue q').Holds fd bytes) :
    Settled q' (Function.update held fd bytes) where
  empty := hempty
  filed := hfiled
  holds fd' := by
    by_cases hfd : fd' = fd
    · rw [hfd, Function.update_self]
      exact hholds
    · rw [Function.update_of_ne hfd]
      exact (h.holds fd').congr (hothers fd' hfd)

/-- **A chunk** completes the packages that are complete in what is held and the chunk. -/
theorem receive_data {chunk : List UInt8} (h : Settled q held) (hne : chunk ≠ []) :
    ∃ q' bodies last, receive q (.data fd chunk) = .ok (q', bodies.map (ofBytes fd)) ∧
      packetFormat.Splits (held fd ++ chunk) bodies last ∧
        Settled q' (Function.update held fd last) := by
  obtain ⟨q₁, filtered, bodies, last, hfilter, hsplits, hreports, hholds⟩ :=
    filterData_splits (h.holds fd) hne
  have hwaiting : ∀ {bodies : List (List UInt8)},
      (getQueue q).Moved (getQueue q₁) fd bodies →
        (getQueue q₁).ring.toList = bodies.map (ofBytes fd) := by
    intro bodies hmoved
    rw [hmoved.waiting, h.empty, List.nil_append]
  cases hreports with
  | nothing hmoved =>
    refine ⟨q₁, [], last, ?_, hsplits, h.update (hwaiting hmoved) hmoved.others
      (hmoved.filed h.filed) hholds⟩
    simp only [receive, lfilter, hfilter, List.map_nil]
  | @data body hmoved =>
    refine ⟨q₁, [body], last, ?_, hsplits, h.update (hwaiting hmoved) hmoved.others
      (hmoved.filed h.filed) hholds⟩
    simp only [receive, lfilter, hfilter, List.map_cons, List.map_nil]
  | more hmoved =>
    obtain ⟨hpacks, hempty, hhash⟩ :=
      popAll_eq (Nat.le_of_eq (RingBuffer.length_toList : (getQueue q₁).ring.toList.length = _))
    have hrecords : ∀ fd', (getQueue (popAll (getQueue q₁).ring.length q₁).2).records fd' =
        (getQueue q₁).records fd' := by
      intro fd'
      rw [Queue.records, hhash, Queue.records]
    refine ⟨_, bodies, last, ?_, hsplits, h.update hempty (fun fd' hfd ↦ ?_) ?_
      (hholds.congr (hrecords fd))⟩
    · simp only [receive, lfilter, hfilter, hpacks, hwaiting hmoved]
    · rw [hrecords, hmoved.others fd' hfd]
    · rw [hhash]
      exact hmoved.filed h.filed

/-- A socket that is closed has nothing in the table. -/
theorem closeUncomplete_settled (h : Settled q held) (fd : Int32) :
    Settled (closeUncomplete q fd) (Function.update held fd []) := by
  rw [closeUncomplete]
  cases hfind : findUncomplete q fd with
  | none =>
    exact h.update h.empty (fun _ _ ↦ rfl) h.filed (.inl ⟨findUncomplete_none hfind, rfl⟩)
  | some p =>
    obtain ⟨uc, q₁⟩ := p
    obtain ⟨-, hsame, hring, hother, hfiled⟩ := findUncomplete_some hfind
    have hle := (h.holds fd).length_records_le
    rw [hsame, List.length_cons] at hle
    have hnone : q₁.records fd = [] := List.eq_nil_of_length_eq_zero (by omega)
    refine h.update ?_ hother (hfiled h.filed) (.inl ⟨hnone, rfl⟩)
    rw [getQueue, ← hring, h.empty]

/-! ## Runs -/

/-- The socket of a message after which no more data comes from it. -/
def Message.closes : Message → Option Int32
  | .close id => some id
  | .error id _ => some id
  | _ => none

/-- A message without data clears the record of the socket that it closes, if it closes one. -/
theorem receive_other {message : Message} (h : Settled q held)
    (hdata : ∀ id chunk, message ≠ .data id chunk) :
    ∃ q', receive q message = .ok (q', []) ∧
      Settled q' fun fd ↦ if message.closes = some fd then [] else held fd := by
  have hclose : ∀ id, (fun fd ↦ if some id = some fd then [] else held fd) =
      Function.update held id [] := by
    intro id
    funext fd
    rw [Function.update_apply]
    simp only [Option.some.injEq, eq_comm]
  cases message with
  | data id chunk => exact absurd rfl (hdata id chunk)
  | close id =>
    refine ⟨closeUncomplete q id, rfl, ?_⟩
    rw [Message.closes, hclose]
    exact closeUncomplete_settled h id
  | error id msg =>
    refine ⟨closeUncomplete q id, rfl, ?_⟩
    rw [Message.closes, hclose]
    exact closeUncomplete_settled h id
  | _ => exact ⟨q, rfl, h⟩

/-- What has arrived on the socket, with one message more. -/
def Message.arrive (fd : Int32) (bytes : List UInt8) (message : Message) : List UInt8 :=
  match message with
  | .data id chunk => if id = fd then bytes ++ chunk else bytes
  | message => if message.closes = some fd then [] else bytes

/-- What has arrived on the socket since it was last closed. -/
def stream (fd : Int32) (tr : List (Event (Option Queue) Message (List Netpack))) : List UInt8 :=
  tr.foldl (fun bytes e ↦ e.input.arrive fd bytes) []

/-- The packages that the socket has delivered since it was last closed. -/
def delivered (fd : Int32) (tr : List (Event (Option Queue) Message (List Netpack))) :
    List Netpack :=
  tr.foldl (fun packs e ↦
    (if e.input.closes = some fd then [] else packs) ++ e.output.filter fun p ↦ p.id = fd) []

/-- The chunks of the socket layer are not empty. -/
def Message.Proper : Message → Prop
  | .data _ chunk => chunk ≠ []
  | _ => True

/-- The packages delivered are those that are complete in what has arrived. -/
structure Delivered (tr : List (Event (Option Queue) Message (List Netpack))) (fd : Int32)
    (bodies : List (List UInt8)) (last : List UInt8) : Prop where
  splits : packetFormat.Splits (stream fd tr) bodies last
  packs : delivered fd tr = bodies.map (ofBytes fd)

private theorem filter_ofBytes (fd fd' : Int32) (bodies : List (List UInt8)) :
    (bodies.map (ofBytes fd)).filter (fun p ↦ p.id = fd') =
      if fd = fd' then bodies.map (ofBytes fd') else [] := by
  by_cases hfd : fd = fd'
  · subst hfd
    rw [if_pos rfl, List.filter_eq_self]
    intro p hp
    obtain ⟨body, -, rfl⟩ := List.mem_map.mp hp
    exact decide_eq_true rfl
  · rw [if_neg hfd, List.filter_eq_nil_iff]
    intro p hp
    obtain ⟨body, -, rfl⟩ := List.mem_map.mp hp
    exact fun h ↦ hfd (of_decide_eq_true h)

variable {tr : List (Event (Option Queue) Message (List Netpack))} {bodies : List (List UInt8)}
  {last : List UInt8} {message : Message}

/-- A message that completes no package. -/
theorem Delivered.snoc_nil (h : Delivered tr fd bodies last)
    (hdata : ∀ id chunk, message ≠ .data id chunk) :
    Delivered (tr ++ [⟨q, message, [], q'⟩]) fd
      (if message.closes = some fd then [] else bodies)
      (if message.closes = some fd then [] else last) := by
  have hstream : stream fd (tr ++ [⟨q, message, [], q'⟩]) =
      if message.closes = some fd then [] else stream fd tr := by
    rw [stream, List.foldl_append, ← stream]
    cases message with
    | data id chunk => exact absurd rfl (hdata id chunk)
    | _ => rfl
  have hpacks : delivered fd (tr ++ [⟨q, message, [], q'⟩]) =
      if message.closes = some fd then [] else delivered fd tr := by
    rw [delivered, List.foldl_append, ← delivered]
    exact List.append_nil _
  constructor
  · rw [hstream]
    split
    · exact .done incomplete_nil
    · exact h.splits
  · rw [hpacks]
    split
    · rfl
    · exact h.packs

/-- A chunk of the socket itself, or of another one. -/
theorem Delivered.snoc_data {id : Int32} {chunk last' : List UInt8} {bodies' : List (List UInt8)}
    (h : Delivered tr fd bodies last) (q q' : Option Queue)
    (hsplits : id = fd → packetFormat.Splits (last ++ chunk) bodies' last') :
    Delivered (tr ++ [⟨q, .data id chunk, bodies'.map (ofBytes id), q'⟩]) fd
      (if id = fd then bodies ++ bodies' else bodies) (if id = fd then last' else last) := by
  have hstream : stream fd (tr ++ [⟨q, .data id chunk, bodies'.map (ofBytes id), q'⟩]) =
      if id = fd then stream fd tr ++ chunk else stream fd tr := by
    rw [stream, List.foldl_append, ← stream]
    rfl
  have hpacks : delivered fd (tr ++ [⟨q, .data id chunk, bodies'.map (ofBytes id), q'⟩]) =
      delivered fd tr ++ if id = fd then bodies'.map (ofBytes fd) else [] := by
    rw [delivered, List.foldl_append, ← delivered, ← filter_ofBytes]
    rfl
  constructor
  · rw [hstream]
    split
    · exact h.splits.append (hsplits ‹_›)
    · exact h.splits
  · rw [hpacks, h.packs]
    split
    · rw [List.map_append]
    · rw [List.append_nil]

/-- **In every run** the packages that a socket has delivered are those that are complete in what
has arrived on it, and the queue holds the rest. -/
theorem receive_run (hrun : Run receive none tr q)
    (hproper : Meets (fun _ message ↦ message.Proper) tr) :
    ∃ held, Settled q held ∧ ∀ fd, ∃ bodies, Delivered tr fd bodies (held fd) := by
  refine hrun.ledger
    (fun tr q ↦ ∃ held, Settled q held ∧ ∀ fd, ∃ bodies, Delivered tr fd bodies (held fd))
    ⟨_, settled_none, fun fd ↦ ⟨[], .done incomplete_nil, rfl⟩⟩ ?_ hproper
  rintro tr q message q' packs - ⟨held, hsettled, hall⟩ hm hstep
  by_cases hdata : ∃ id chunk, message = .data id chunk
  · obtain ⟨id, chunk, rfl⟩ := hdata
    obtain ⟨q₁, bodies', last, hreceive, hsplits, hsettled'⟩ := @receive_data _ id _ _ hsettled hm
    rw [hreceive] at hstep
    cases hstep
    refine ⟨_, hsettled', fun fd ↦ ?_⟩
    obtain ⟨bodies, hdelivered⟩ := hall fd
    rw [Function.update_apply]
    have hnext := hdelivered.snoc_data q q' fun h ↦ by rwa [← h]
    simp only [eq_comm] at hnext ⊢
    exact ⟨_, hnext⟩
  · have hother : ∀ id chunk, message ≠ .data id chunk := fun id chunk h ↦ hdata ⟨id, chunk, h⟩
    obtain ⟨q₁, hreceive, hsettled'⟩ := receive_other hsettled hother
    rw [hreceive] at hstep
    cases hstep
    refine ⟨_, hsettled', fun fd ↦ ?_⟩
    obtain ⟨bodies, hdelivered⟩ := hall fd
    exact ⟨_, hdelivered.snoc_nil hother⟩

private theorem receive_progress (h : ∃ held, Settled q held) (hm : message.Proper) :
    ∃ q' packs, receive q message = .ok (q', packs) ∧ ∃ held, Settled q' held := by
  obtain ⟨held, hsettled⟩ := h
  by_cases hdata : ∃ id chunk, message = .data id chunk
  · obtain ⟨id, chunk, rfl⟩ := hdata
    obtain ⟨q', _, _, hreceive, -, hsettled'⟩ := @receive_data _ id _ _ hsettled hm
    exact ⟨q', _, hreceive, _, hsettled'⟩
  · obtain ⟨q', hreceive, hsettled'⟩ :=
      receive_other hsettled fun id chunk h ↦ hdata ⟨id, chunk, h⟩
    exact ⟨q', [], hreceive, _, hsettled'⟩

/-- All records of the table. -/
def Queue.uncompletes (q : Queue) : List Uncomplete := (List.range hashSize).flatMap q.hash

theorem Settled.countP_le (h : Settled q held) (fd : Int32) :
    (getQueue q).uncompletes.countP (fun uc ↦ uc.pack.id = fd) ≤ 1 := by
  have hall := @Chaining.Filed.filter_flatMap _ _ _ _ _ fd hashSize h.filed (hashFd_lt fd)
  have hle := (h.holds fd).length_records_le
  rw [Queue.records, ← hall] at hle
  rw [List.countP_eq_length_filter]
  exact hle

/-! ## Streams of packages -/

/-- The chunks of the socket, joined. -/
def bytesOf (fd : Int32) (chunks : List (Int32 × List UInt8)) : List UInt8 :=
  (chunks.filter fun c ↦ c.1 = fd).flatMap Prod.snd

private theorem mapM_lpack (h : ∀ body ∈ bodies, body.length ≤ 65535) :
    bodies.mapM lpack = .ok (bodies.map fun body ↦ writeSize body.length ++ body) := by
  induction bodies with
  | nil => rfl
  | cons body bodies ih =>
    rw [List.mapM_cons, lpack_eq (Nat.lt_succ_of_le (h body List.mem_cons_self)),
      ih fun b hb ↦ h b (List.mem_cons_of_mem body hb)]
    rfl

/-- **What `lpack` has framed splits into the packages.** -/
theorem splits_lpack (h : ∀ body ∈ bodies, body.length ≤ 65535) :
    packetFormat.Splits (bodies.map fun body ↦ writeSize body.length ++
      body).flatten bodies [] := by
  refine PacketFormat.splits_flatMap (by decide) fun body hbody ↦ ⟨rfl, ?_⟩
  exact (packetSize_writeSize (Nat.lt_succ_of_le (h body hbody))).symm

/-- If nothing but chunks arrives, all of it counts. -/
theorem stream_chunks {chunks : List (Int32 × List UInt8)}
    (htr : tr.map Event.input = chunks.map fun c ↦ Message.data c.1 c.2) (fd : Int32) :
    stream fd tr = bytesOf fd chunks ∧
      delivered fd tr = (tr.flatMap Event.output).filter fun p ↦ p.id = fd := by
  have hfrom : ∀ bytes packs,
      tr.foldl (fun bytes e ↦ e.input.arrive fd bytes) bytes = bytes ++ bytesOf fd chunks ∧
      tr.foldl (fun packs e ↦
        (if e.input.closes = some fd then [] else packs) ++ e.output.filter fun p ↦ p.id = fd)
        packs = packs ++ (tr.flatMap Event.output).filter fun p ↦ p.id = fd := by
    induction tr generalizing chunks with
    | nil =>
      have hnil := List.map_eq_nil_iff.mp htr.symm
      subst hnil
      exact fun bytes packs ↦ ⟨(List.append_nil _).symm, (List.append_nil _).symm⟩
    | cons e tr ih =>
      cases chunks with
      | nil => cases htr
      | cons c chunks =>
        rw [List.map_cons, List.map_cons, List.cons_eq_cons] at htr
        obtain ⟨hinput, htr⟩ := htr
        intro bytes packs
        obtain ⟨hbytes, hpacks⟩ := ih htr (e.input.arrive fd bytes)
          (packs ++ e.output.filter fun p ↦ p.id = fd)
        constructor
        · rw [List.foldl_cons, hbytes, hinput, Message.arrive, bytesOf, bytesOf, List.filter_cons]
          by_cases hfd : c.1 = fd
          · simp only [hfd, if_true, decide_true, List.flatMap_cons, List.append_assoc]
          · simp only [hfd, if_false, decide_false, Bool.false_eq_true]
        · have hopen : ¬e.input.closes = some fd := by
            rw [hinput]
            exact fun h ↦ (nomatch h)
          rw [List.foldl_cons, if_neg hopen, hpacks, List.flatMap_cons, List.filter_append,
            List.append_assoc]
  exact hfrom [] []

/-- **Reassembly.** What `lpack` has framed is delivered package by package, however the bytes are
cut into chunks and the chunks of different sockets are interleaved. Meanwhile a socket has at most
one unfinished package, and a package that is pushed is queued behind all others, also when the
queue has to grow. -/
theorem netpack_reassembly {packages : Int32 → List (List UInt8)}
    (hlen : ∀ fd, ∀ body ∈ packages fd, body.length ≤ 65535) :
    ∃ frames : Int32 → List (List UInt8),
      (∀ fd, (packages fd).mapM lpack = .ok (frames fd)) ∧
        ∀ chunks : List (Int32 × List UInt8), (∀ c ∈ chunks, c.2 ≠ []) →
          (∀ fd, bytesOf fd chunks = (frames fd).flatten) →
            ∃ tr q, exec receive none (chunks.map fun c ↦ .data c.1 c.2) = .ok (tr, q) ∧
              (∀ fd, (tr.flatMap Event.output).filter (fun p ↦ p.id = fd) =
                (packages fd).map (ofBytes fd)) ∧
              (∀ e ∈ tr, ∀ fd,
                (getQueue e.post).uncompletes.countP (fun uc ↦ uc.pack.id = fd) ≤ 1) ∧
              ∀ q fd buffer size,
                (pushBlock q fd buffer size).ring.toList =
                    (getQueue q).ring.toList ++ [⟨fd, size, buffer⟩] ∧
                  (pushBlock q fd buffer size).hash = (getQueue q).hash := by
  refine ⟨_, fun fd ↦ mapM_lpack (hlen fd), fun chunks hne hbytes ↦ ?_⟩
  have hproper : ∀ message ∈ chunks.map fun c ↦ Message.data c.1 c.2, message.Proper := by
    intro message hm
    obtain ⟨c, hc, rfl⟩ := List.mem_map.mp hm
    exact hne c hc
  -- every chunk is accepted, so the run exists before anything is said of it
  obtain ⟨tr, q, hexec, hinputs⟩ := exec_of_progress _ receive_progress ⟨_, settled_none⟩ hproper
  have hrun := Run.of_exec hexec
  have hmeets : Meets (fun _ message ↦ message.Proper) tr := by
    intro e he
    refine hproper e.input ?_
    rw [← hinputs]
    exact List.mem_map_of_mem he
  refine ⟨tr, q, hexec, fun fd ↦ ?_, fun e he fd ↦ ?_, toList_pushBlock⟩
  · obtain ⟨held, -, hall⟩ := receive_run hrun hmeets
    obtain ⟨bodies, hdelivered⟩ := hall fd
    obtain ⟨hstream, hpacks⟩ := stream_chunks hinputs fd
    have hsplits := hdelivered.splits
    rw [hstream, hbytes fd] at hsplits
    -- a stream splits into packages in one way only
    obtain ⟨hbodies, -⟩ := hsplits.unique (splits_lpack (hlen fd))
    rw [← hpacks, hdelivered.packs, hbodies]
  · have hall := hrun.throughout (fun q ↦ ∃ held, Settled q held) ⟨_, settled_none⟩ (by
      intro q message q' packs hq hm hstep
      obtain ⟨q₁, packs', hreceive, hq₁⟩ := receive_progress hq hm
      rw [hreceive] at hstep
      cases hstep
      exact hq₁) hmeets
    obtain ⟨held, hsettled⟩ := hall e he
    exact hsettled.countP_le fd

/-- Three packages, one of them empty, on two sockets, in four chunks. -/
theorem netpack_reassembly_two_sockets :
    ∃ tr q, exec receive none [.data 7 [0], .data 9 [0, 1], .data 7 [2, 5, 6, 0], .data 9 [4],
        .data 7 [0]] = .ok (tr, q) ∧
      (tr.flatMap Event.output).filter (fun p ↦ p.id = 7) = [ofBytes 7 [5, 6], ofBytes 7 []] ∧
        (tr.flatMap Event.output).filter (fun p ↦ p.id = 9) = [ofBytes 9 [4]] := by
  let packages : Int32 → List (List UInt8) := fun fd ↦
    if fd = 7 then [[5, 6], []] else if fd = 9 then [[4]] else []
  have hlen : ∀ fd, ∀ body ∈ packages fd, body.length ≤ 65535 := by
    intro fd
    by_cases h7 : fd = 7
    · subst h7
      decide
    by_cases h9 : fd = 9
    · subst h9
      decide
    simp only [packages, if_neg h7, if_neg h9]
    exact fun body h ↦ (nomatch h)
  obtain ⟨frames, hframes, hall⟩ := netpack_reassembly hlen
  have hframes7 : frames 7 = [[0, 2, 5, 6], [0, 0]] :=
    (Except.ok.inj (hframes 7)).symm
  have hframes9 : frames 9 = [[0, 1, 4]] := (Except.ok.inj (hframes 9)).symm
  obtain ⟨tr, q, hexec, hpacks, -⟩ := hall
    [(7, [0]), (9, [0, 1]), (7, [2, 5, 6, 0]), (9, [4]), (7, [0])] (by decide) (by
      intro fd
      by_cases h7 : fd = 7
      · subst h7
        rw [hframes7]
        decide
      by_cases h9 : fd = 9
      · subst h9
        rw [hframes9]
        decide
      have hnone := hframes fd
      simp only [packages, if_neg h7, if_neg h9] at hnone
      rw [← Except.ok.inj hnone]
      simp only [bytesOf, List.filter_cons, Ne.symm h7, Ne.symm h9]
      rfl)
  exact ⟨tr, q, hexec, hpacks 7, hpacks 9⟩

end Netpack

end ZTask
