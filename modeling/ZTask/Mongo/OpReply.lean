import ZTask.Lib.Word
import Mathlib.Data.Int.Notation
import Mathlib.Data.List.Chain

/-!
# The reply of a mongo server

`op_reply` of `lua-mongo.c`. A reply is a header of 32 bytes and documents, each of which begins
with its length. The function goes from document to document by these lengths and puts a pointer to
each into the result table, as long as more than four bytes are left. Only the end is checked: that
no byte is left, and that there were as many documents as the header says.

The lengths are data. One that is zero or negative is not noticed, so that the function stays where
it is, or goes back; one that leads behind the end of the reply ends the loop, and the table holds a
document that is not in the reply. The number of documents is compared first, so the caller may get
`false` and the table with such a document, where the last check would have raised an error; the
check comes after the table is filled in any case.

What the caller may rely on is stated of the table (`RepliesWell`), whatever is returned. That it
holds is shown to be the same as that every length met on the way is positive and stays inside
(`LengthsFit`), and one fact carries both directions: the pointers in the table are the offsets that
the lengths lead to (`opReplyLoop_met`).
-/

namespace ZTask

open Lib

/-! ## The function -/

/-- Why the function does not return. -/
inductive ReplyFault
  /-- A byte is read that is not in the string. -/
  | outside
  /-- An `int` leaves its range. -/
  | overflow
  /-- The bound of the loop is exceeded. -/
  | unbounded
deriving DecidableEq, Repr

/-- The values that are returned, or the error that is raised. A pointer is an offset into the
reply. -/
inductive ReplyOutcome
  /-- `false` -/
  | short
  /-- `false`, the id and the error document -/
  | queryFailure (id : ℤ) (document : ℤ)
  /-- `false` and the id -/
  | wrongNumber (id : ℤ)
  /-- `Invalid result bson document` -/
  | invalid
  /-- `true`, the id, the first document, the cursor and where it starts -/
  | documents (id : ℤ) (first : Option ℤ) (cursor : Option (List UInt8)) (startingFrom : ℤ)
deriving DecidableEq, Repr

/-- The result table: what it held before, and pointers to documents. -/
abbrev ReplyTable (α : Type) := List (α ⊕ ℤ)

variable {α : Type}

/-- `lua_rawseti`, at an index that is at most one behind the table. -/
def ReplyTable.rawseti (t : ReplyTable α) (i : ℕ) (e : α ⊕ ℤ) : ReplyTable α :=
  if i ≤ t.length then t.set (i - 1) e else t ++ [e]

/-- The four bytes at an offset as an `int`. -/
def replyInt (data : List UInt8) (off : ℕ) : ℤ := toInt32 (ofLittle ((data.drop off).take 4))

/-- `get_length`. -/
def getLength (data : List UInt8) (doc : ℤ) : Except ReplyFault ℕ :=
  if 0 ≤ doc ∧ doc + 4 ≤ data.length then .ok (ofLittle ((data.drop doc.toNat).take 4))
  else .error .outside

/-- A value that is to be an `int`. -/
def replyCounter (n : ℤ) : Except ReplyFault ℤ :=
  if -2 ^ 31 ≤ n ∧ n < 2 ^ 31 then .ok n else .error .overflow

/-- The loop of `op_reply`. -/
def opReplyLoop (data : List UInt8) : ℕ → ReplyTable α → (doc sz : ℤ) → (i : ℕ) →
    Except ReplyFault (ReplyTable α × ℤ × ℕ)
  | 0, _, _, _, _ => .error .unbounded
  | bound + 1, table, doc, sz, i =>
    if 4 < sz then do
      let table := table.rawseti i (.inr doc)
      let length ← getLength data doc
      let docLen := toInt32 length
      let doc := doc + docLen
      let sz ← replyCounter (sz - docLen)
      let i ← replyCounter (i + 1)
      opReplyLoop data bound table doc sz i.toNat
    else .ok (table, sz, i)

/-- What is left of `sz` bytes behind the first document, without a table. -/
def leftBehindFirst (data : List UInt8) (sz : ℤ) : Except ReplyFault ℤ :=
  if 4 ≤ sz then do
    let length ← getLength data 32
    .ok (toInt32 (sz - length))
  else .ok sz

/-- The values at the end of `op_reply`. -/
def replyDocuments (data : List UInt8) : ReplyOutcome :=
  .documents (replyInt data 4) (if replyInt data 28 = 0 then none else some 32)
    (if replyInt data 16 = 0 ∧ replyInt data 20 = 0 then none else some ((data.drop 16).take 8))
    (replyInt data 24)

/-- `op_reply`, with the result table in the end. -/
def opReply (bound : ℕ) (data : List UInt8) (result : Option (List α)) :
    Except ReplyFault (ReplyOutcome × Option (ReplyTable α)) := do
  let table := result.map fun old ↦ old.map Sum.inl
  if data.length < 32 then .ok (.short, table)
  else
    let id := replyInt data 4
    if (replyInt data 12 / 2) % 2 = 1 then .ok (.queryFailure id 32, table)
    else
      let number := replyInt data 28
      let sz := toInt32 (data.length - 32)
      match table with
      | some table =>
        let (table, sz, i) ← opReplyLoop data bound table 32 sz 1
        let next ← replyCounter (number + 1)
        if (i : ℤ) ≠ next then .ok (.wrongNumber id, some table)
        else
          -- The entries from `i` on are set to nil.
          let table := table.take (i - 1)
          if sz ≠ 0 then .ok (.invalid, some table) else .ok (replyDocuments data, some table)
      | none =>
        let sz ← leftBehindFirst data sz
        if sz ≠ 0 then .ok (.invalid, none) else .ok (replyDocuments data, none)

/-! ## What it is for -/

/-- The length that is stated at an offset. -/
def docLength (data : List UInt8) (p : ℤ) : ℤ := replyInt data p.toNat

/-- Where the documents end. -/
def replyEnd (data : List UInt8) : ℤ := 32 + toInt32 (data.length - 32)

/-- The next document begins where the one before ends, which is further on. -/
def Follows (data : List UInt8) (p q : ℤ) : Prop := q = p + docLength data p ∧ p < q

/-- The pointers of a table. -/
def ReplyTable.pointers (t : ReplyTable α) : List ℤ := t.filterMap Sum.getRight?

/-- A document that is not empty and lies behind the header, inside the reply. -/
def DocumentInside (data : List UInt8) (p : ℤ) : Prop :=
  32 ≤ p ∧ 0 < docLength data p ∧ p + docLength data p ≤ data.length

/-- The function returns or raises an error, and has read the string only. The documents that it has
put into the table are consecutive and disjoint, and lie inside the reply, whatever it returns. -/
def RepliesWell (data : List UInt8) (result : Option (List α)) : Prop :=
  ∃ bound outcome table, opReply bound data result = .ok (outcome, table) ∧
    ∀ t ∈ table, (t.pointers).IsChain (Follows data) ∧ ∀ p ∈ t.pointers, DocumentInside data p

/-- The offsets that lengths lead to. -/
inductive Met (data : List UInt8) : ℤ → Prop
  | first : Met data 32
  | next {p : ℤ} : Met data p → 4 < replyEnd data - p → 0 < docLength data p →
      Met data (p + docLength data p)

/-- No length that is met on the way through the documents is zero, negative, or leads behind the
end of the reply. -/
def LengthsFit (data : List UInt8) : Prop :=
  ∀ p, Met data p → 4 < replyEnd data - p →
    0 < docLength data p ∧ p + docLength data p ≤ data.length

/-- There is no table to fill, or the reply is refused by its header; or the lengths fit, and the
number of documents has a successor. -/
def FillsWell (data : List UInt8) (result : Option (List α)) : Prop :=
  result = none ∨ data.length < 32 ∨ replyInt data 12 / 2 % 2 = 1 ∨
    (LengthsFit data ∧ replyInt data 28 ≠ 2 ^ 31 - 1)

/-! ## The table -/

/-- The table after some documents. -/
def filledTable (old : List α) (docs : List ℤ) : ReplyTable α :=
  docs.map .inr ++ (old.drop docs.length).map .inl

private theorem filledTable_nil (old : List α) : filledTable old [] = old.map .inl := by
  rw [filledTable, List.map_nil, List.nil_append, List.length_nil, List.drop_zero]

private theorem rawseti_filledTable (old : List α) (docs : List ℤ) (p : ℤ) :
    (filledTable old docs).rawseti (docs.length + 1) (.inr p) = filledTable old (docs ++ [p]) := by
  have hlen : (docs.map (Sum.inr : ℤ → α ⊕ ℤ)).length = docs.length := List.length_map _
  rw [ReplyTable.rawseti, filledTable, filledTable, List.length_append, List.length_map,
    List.length_map, List.length_drop, List.map_append, List.length_append, List.length_singleton,
    Nat.add_sub_cancel]
  by_cases hold : docs.length + 1 ≤ docs.length + (old.length - docs.length)
  · rw [if_pos hold]
    rw [List.drop_eq_getElem_cons (by omega : docs.length < old.length), List.map_cons,
      List.set_append_right _ _ (Nat.le_of_eq hlen), hlen, Nat.sub_self, List.set_cons_zero,
      List.append_assoc]
    rfl
  · rw [if_neg hold]
    rw [List.drop_eq_nil_of_le (by omega), List.drop_eq_nil_of_le (by omega), List.map_nil,
      List.append_nil, List.append_nil]
    rfl

private theorem pointers_documents (docs : List ℤ) :
    ReplyTable.pointers (docs.map .inr : ReplyTable α) = docs := by
  rw [ReplyTable.pointers, List.filterMap_map]
  exact List.filterMap_some

private theorem pointers_old (old : List α) : ReplyTable.pointers (old.map .inl) = [] := by
  rw [ReplyTable.pointers, List.filterMap_map]
  exact List.filterMap_eq_nil_iff.mpr fun _ _ ↦ rfl

private theorem pointers_filledTable (old : List α) (docs : List ℤ) :
    (filledTable old docs).pointers = docs := by
  have hdocs := pointers_documents (α := α) docs
  have hold := pointers_old (old.drop docs.length)
  rw [ReplyTable.pointers] at *
  rw [filledTable, List.filterMap_append, hdocs, hold, List.append_nil]

private theorem take_filledTable (old : List α) (docs : List ℤ) :
    (filledTable old docs).take docs.length = docs.map .inr :=
  List.take_left' (List.length_map _)

/-! ## Documents one behind the other -/

variable {data : List UInt8}

private theorem isChain_concat {docs : List ℤ} {p q : ℤ} (h : (docs ++ [p]).IsChain (Follows data))
    (hq : Follows data p q) : (docs ++ [p] ++ [q]).IsChain (Follows data) := by
  rw [List.isChain_append]
  refine ⟨h, .singleton q, fun x hx y hy ↦ ?_⟩
  rw [List.getLast?_concat] at hx
  cases hx
  cases hy
  exact hq

/-! ## The loop -/

private theorem replyCounter_of_mem {n : ℤ} (hlo : -2 ^ 31 ≤ n) (hhi : n < 2 ^ 31) :
    replyCounter n = .ok n := if_pos ⟨hlo, hhi⟩

private theorem reply_bind {β γ : Type} (a : β) (f : β → Except ReplyFault γ) :
    (Except.ok a >>= f : Except ReplyFault γ) = f a := rfl

private theorem docLength_lt (data : List UInt8) (p : ℤ) : docLength data p < 2 ^ 31 := by
  have h := toInt32_lt (ofLittle ((data.drop p.toNat).take 4))
  rw [docLength, replyInt]
  omega

private theorem getLength_eq {p : ℤ} (hlo : 0 ≤ p) (hhi : p + 4 ≤ data.length) :
    getLength data p = .ok (ofLittle ((data.drop p.toNat).take 4)) := if_pos ⟨hlo, hhi⟩

private theorem replyEnd_le (h : 32 ≤ data.length) : replyEnd data ≤ data.length := by
  have hle := toInt32_le (data.length - 32)
  have hcast : ((data.length - 32 : ℕ) : ℤ) = data.length - 32 := by omega
  rw [hcast] at hle
  rw [replyEnd]
  omega

theorem Met.ge {p : ℤ} (h : Met data p) : 32 ≤ p := by
  induction h with
  | first => decide
  | next _ _ _ _ => omega

/-- What a round that does not fail has done. -/
theorem opReplyLoop_step {bound : ℕ} {old : List α} {docs : List ℤ} {doc sz : ℤ}
    {r : ReplyTable α × ℤ × ℕ} (hsz : 4 < sz)
    (h : opReplyLoop data bound (filledTable old docs) doc sz (docs.length + 1) = .ok r) :
    ∃ bound', bound = bound' + 1 ∧ opReplyLoop data bound' (filledTable old (docs ++ [doc]))
      (doc + docLength data doc) (sz - docLength data doc) ((docs ++ [doc]).length +
      1) = .ok r := by
  cases bound with
  | zero => cases h
  | succ bound =>
    rw [opReplyLoop, if_pos hsz, rawseti_filledTable] at h
    by_cases hread : 0 ≤ doc ∧ doc + 4 ≤ data.length
    · rw [getLength_eq hread.1 hread.2] at h
      change (replyCounter (sz - docLength data doc) >>= fun sz ↦
        replyCounter ((docs.length + 1 : ℕ) + 1) >>= fun i ↦ opReplyLoop data bound
          (filledTable old (docs ++ [doc])) (doc + docLength data doc) sz i.toNat) = .ok r at h
      by_cases hsize : -2 ^ 31 ≤ sz - docLength data doc ∧ sz - docLength data doc < 2 ^ 31
      · rw [replyCounter_of_mem hsize.1 hsize.2] at h
        by_cases hindex : ((docs.length + 1 : ℕ) + 1 : ℤ) < 2 ^ 31
        · rw [replyCounter_of_mem (by omega) hindex] at h
          refine ⟨bound, rfl, ?_⟩
          have hnat : ((docs.length + 1 : ℕ) + 1 : ℤ).toNat = (docs ++ [doc]).length + 1 := by
            rw [List.length_append, List.length_singleton]
            omega
          rw [← hnat]
          exact h
        · rw [reply_bind, replyCounter, if_neg fun hin ↦ hindex hin.2] at h
          cases h
      · rw [replyCounter, if_neg hsize] at h
        cases h
    · rw [getLength, if_neg hread] at h
      cases h

/-- A round with a positive length. -/
theorem opReplyLoop_round (bound : ℕ) (old : List α) {docs : List ℤ} {doc sz : ℤ} (hsz : 4 < sz)
    (hread : 0 ≤ doc ∧ doc + 4 ≤ data.length) (hpos : 0 < docLength data doc)
    (hsmall : sz + docs.length < 2 ^ 31) :
    opReplyLoop data (bound + 1) (filledTable old docs) doc sz (docs.length + 1) =
      opReplyLoop data bound (filledTable old (docs ++ [doc])) (doc + docLength data doc)
        (sz - docLength data doc) ((docs ++ [doc]).length + 1) := by
  have hlt := docLength_lt data doc
  have hnat : ((docs.length + 1 : ℕ) + 1 : ℤ).toNat = (docs ++ [doc]).length + 1 := by
    rw [List.length_append, List.length_singleton]
    omega
  rw [opReplyLoop, if_pos hsz, rawseti_filledTable, getLength_eq hread.1 hread.2]
  change (replyCounter (sz - docLength data doc) >>= fun sz ↦
    replyCounter ((docs.length + 1 : ℕ) + 1) >>= fun i ↦ opReplyLoop data bound
      (filledTable old (docs ++ [doc])) (doc + docLength data doc) sz i.toNat) = _
  rw [replyCounter_of_mem (by omega) (by omega), replyCounter_of_mem (by omega) (by omega)]
  change opReplyLoop data bound (filledTable old (docs ++ [doc])) (doc + docLength data doc)
    (sz - docLength data doc) ((docs.length + 1 : ℕ) + 1 : ℤ).toNat = _
  rw [hnat]

/-- **With lengths that fit the loop ends,** and the table holds documents that follow each other.
-/
theorem opReplyLoop_fits (hlengths : LengthsFit data) (hlen : 32 ≤ data.length) (bound : ℕ)
    (old : List α) {docs : List ℤ} {doc sz : ℤ} (hmet : Met data doc)
    (hend : doc + sz = replyEnd data) (hbound : sz < bound) (hbpos : 0 < bound)
    (hsmall : sz + docs.length < 2 ^ 31) (hdocs : ∀ p ∈ docs, DocumentInside data p)
    (hchain : (docs ++ [doc]).IsChain (Follows data)) :
    ∃ docs' sz', opReplyLoop data bound (filledTable old docs) doc sz (docs.length + 1) =
        .ok (filledTable old docs', sz', docs'.length + 1) ∧
      docs'.IsChain (Follows data) ∧ ∀ p ∈ docs', DocumentInside data p := by
  induction bound generalizing docs doc sz with
  | zero => exact absurd hbpos (Nat.lt_irrefl 0)
  | succ bound ih =>
    by_cases hsz : 4 < sz
    · have hge := hmet.ge
      have hle := replyEnd_le hlen
      obtain ⟨hpos, hinside⟩ := hlengths doc hmet (by omega)
      have hlt := docLength_lt data doc
      rw [opReplyLoop_round bound old hsz ⟨by omega, by omega⟩ hpos hsmall]
      refine ih (.next hmet (by omega) hpos) (by omega) (by omega) (by omega) ?_ ?_
        (isChain_concat hchain ⟨rfl, by omega⟩)
      · rw [List.length_append, List.length_singleton]
        omega
      · intro p hp
        rcases List.mem_append.mp hp with hp | hp
        · exact hdocs p hp
        · rw [List.mem_singleton.mp hp]
          exact ⟨hge, hpos, hinside⟩
    · exact ⟨docs, sz, by rw [opReplyLoop, if_neg hsz], (List.isChain_append.mp hchain).1, hdocs⟩

/-- The loop puts documents behind those that it has put into the table. -/
theorem opReplyLoop_appends {bound : ℕ} {old : List α} {docs : List ℤ} {doc sz : ℤ}
    {r : ReplyTable α × ℤ × ℕ}
    (h : opReplyLoop data bound (filledTable old docs) doc sz (docs.length + 1) = .ok r) :
    ∃ more, r.1 = filledTable old (docs ++ more) ∧ r.2.2 = (docs ++ more).length + 1 := by
  induction bound generalizing docs doc sz with
  | zero => cases h
  | succ bound ih =>
    by_cases hsz : 4 < sz
    · obtain ⟨bound', hbound, hstep⟩ := opReplyLoop_step hsz h
      obtain rfl : bound = bound' := Nat.succ.inj hbound
      obtain ⟨more, htable, hindex⟩ := ih hstep
      rw [List.append_assoc] at htable hindex
      exact ⟨_, htable, hindex⟩
    · rw [opReplyLoop, if_neg hsz] at h
      cases h
      exact ⟨[], by rw [List.append_nil], by rw [List.append_nil]⟩

private theorem opReplyLoop_met {bound : ℕ} {old : List α} {r : ReplyTable α × ℤ × ℕ}
    (h : opReplyLoop data bound (filledTable old []) 32 (replyEnd data - 32) 1 = .ok r) {p : ℤ}
    (hp : Met data p) :
    ∃ bound' docs, opReplyLoop data bound' (filledTable old docs) p (replyEnd data - p)
      (docs.length + 1) = .ok r := by
  induction hp with
  | first => exact ⟨bound, [], h⟩
  | next _ hsz _ ih =>
    obtain ⟨bound', docs, hloop⟩ := ih
    obtain ⟨bound'', -, hstep⟩ := opReplyLoop_step hsz hloop
    rw [Int.sub_sub] at hstep
    exact ⟨bound'', _, hstep⟩

/-- **The table holds every offset that lengths lead to.** -/
theorem mem_of_met {bound : ℕ} {old : List α} {docs : List ℤ} {r : ReplyTable α × ℤ × ℕ}
    (h : opReplyLoop data bound (filledTable old []) 32 (replyEnd data - 32) 1 = .ok r)
    (htable : r.1 = filledTable old docs) {p : ℤ} (hp : Met data p) (hsz : 4 < replyEnd data - p) :
    p ∈ docs := by
  obtain ⟨bound', before, hloop⟩ := opReplyLoop_met h hp
  obtain ⟨bound'', -, hstep⟩ := opReplyLoop_step hsz hloop
  obtain ⟨more, happ, -⟩ := opReplyLoop_appends hstep
  have hdocs : docs = before ++ [p] ++ more := by
    rw [← pointers_filledTable old docs, ← htable, happ, pointers_filledTable]
  rw [hdocs, List.append_assoc]
  exact List.mem_append_right _ (List.mem_append_left _ List.mem_cons_self)

/-! ## The whole function -/

/-- What the function does behind the checks of the header, with a table. -/
theorem opReply_table (bound : ℕ) (old : List α) (hlen : ¬data.length < 32)
    (hflags : ¬replyInt data 12 / 2 % 2 = 1) :
    opReply bound data (some old) =
      (opReplyLoop data bound (filledTable old []) 32 (replyEnd data - 32) 1 >>= fun r ↦
        replyCounter (replyInt data 28 + 1) >>= fun next ↦
          if (r.2.2 : ℤ) ≠ next then .ok (.wrongNumber (replyInt data 4), some r.1)
          else if r.2.1 ≠ 0 then .ok (.invalid, some (r.1.take (r.2.2 - 1)))
          else .ok (replyDocuments data, some (r.1.take (r.2.2 - 1)))) := by
  have hsz : replyEnd data - 32 = toInt32 (data.length - 32) := by
    rw [replyEnd]
    omega
  rw [opReply, if_neg hlen, if_neg hflags, filledTable_nil, hsz]
  rfl

theorem repliesWell_of_unfilled (bound : ℕ) {outcome : ReplyOutcome} {result : Option (List α)}
    (h : opReply bound data result = .ok (outcome, result.map fun old ↦ old.map Sum.inl)) :
    RepliesWell data result := by
  refine ⟨bound, outcome, _, h, fun t ht ↦ ?_⟩
  obtain ⟨old, -, rfl⟩ := Option.map_eq_some_iff.mp ht
  rw [pointers_old]
  exact ⟨.nil, fun p hp ↦ absurd hp List.not_mem_nil⟩

theorem repliesWell_none (data : List UInt8) : RepliesWell data (none : Option (List α)) := by
  by_cases hlen : data.length < 32
  · exact repliesWell_of_unfilled 0 (by rw [opReply, if_pos hlen])
  by_cases hflags : replyInt data 12 / 2 % 2 = 1
  · exact repliesWell_of_unfilled 0 (by rw [opReply, if_neg hlen, if_pos hflags])
  -- The one length that is looked at is inside the string.
  obtain ⟨left, hleft⟩ : ∃ left, leftBehindFirst data (toInt32 (data.length - 32)) = .ok left := by
    rw [leftBehindFirst]
    split
    · have hend := @replyEnd_le data (by omega)
      rw [replyEnd] at hend
      rw [getLength_eq (by decide) (by omega)]
      exact ⟨_, rfl⟩
    · exact ⟨_, rfl⟩
  have hcall : opReply 0 data (none : Option (List α)) =
      if left ≠ 0 then .ok (.invalid, none) else .ok (replyDocuments data, none) := by
    rw [opReply, if_neg hlen, if_neg hflags]
    dsimp only [Option.map_none]
    rw [hleft, reply_bind]
  split at hcall
  · exact repliesWell_of_unfilled _ hcall
  · exact repliesWell_of_unfilled _ hcall

/-- What the function returns once the loop has filled the table. -/
theorem opReply_filled {bound : ℕ} {old : List α} (hlen : ¬data.length < 32)
    (hflags : ¬replyInt data 12 / 2 % 2 = 1) {docs : List ℤ} {sz next : ℤ}
    (hloop : opReplyLoop data bound (filledTable old []) 32 (replyEnd data - 32) 1 =
      .ok (filledTable old docs, sz, docs.length + 1))
    (hnext : replyCounter (replyInt data 28 + 1) = .ok next) :
    ∃ outcome t, opReply bound data (some old) = .ok (outcome, some t) ∧ t.pointers = docs := by
  have hcall := opReply_table bound old hlen hflags
  rw [hloop, reply_bind, hnext, reply_bind] at hcall
  dsimp only at hcall
  rw [Nat.add_sub_cancel, take_filledTable] at hcall
  by_cases hnumber : ((docs.length + 1 : ℕ) : ℤ) ≠ next
  · rw [if_pos hnumber] at hcall
    exact ⟨_, _, hcall, pointers_filledTable old docs⟩
  rw [if_neg hnumber] at hcall
  by_cases hrest : sz ≠ 0
  · rw [if_pos hrest] at hcall
    exact ⟨_, _, hcall, pointers_documents docs⟩
  · rw [if_neg hrest] at hcall
    exact ⟨_, _, hcall, pointers_documents docs⟩

/-- With lengths that fit the table is filled as it should be. -/
theorem repliesWell_of_fit (old : List α) (hlen : ¬data.length < 32)
    (hflags : ¬replyInt data 12 / 2 % 2 = 1) (hlengths : LengthsFit data)
    (hnumber : replyInt data 28 ≠ 2 ^ 31 - 1) : RepliesWell data (some old) := by
  have hhi := toInt32_lt (data.length - 32)
  have hnlo := toInt32_ge (ofLittle ((data.drop 28).take 4))
  have hnhi := toInt32_lt (ofLittle ((data.drop 28).take 4))
  have hsmall : replyEnd data - 32 + ([] : List ℤ).length < 2 ^ 31 := by
    rw [replyEnd, List.length_nil]
    omega
  obtain ⟨docs, sz, hloop, hchain, hinside⟩ := @opReplyLoop_fits _ _ hlengths (by omega)
    ((replyEnd data - 32).toNat + 1) old [] 32 (replyEnd data - 32) .first (by omega) (by omega)
    (Nat.succ_pos _) hsmall (fun p hp ↦ absurd hp List.not_mem_nil) (.singleton 32)
  have hnext : replyCounter (replyInt data 28 + 1) = .ok (replyInt data 28 + 1) := by
    rw [replyInt] at hnumber ⊢
    exact replyCounter_of_mem (by omega) (by omega)
  obtain ⟨outcome, t, hcall, hpointers⟩ := opReply_filled hlen hflags hloop hnext
  refine ⟨_, outcome, some t, hcall, ?_⟩
  rintro t ⟨⟩
  rw [hpointers]
  exact ⟨hchain, hinside⟩

/-- A table that is filled as it should be tells that the lengths fit. -/
theorem fit_of_repliesWell {old : List α} (hlen : ¬data.length < 32)
    (hflags : ¬replyInt data 12 / 2 % 2 = 1) (h : RepliesWell data (some old)) :
    LengthsFit data ∧ replyInt data 28 ≠ 2 ^ 31 - 1 := by
  obtain ⟨bound, outcome, table, hcall, hgood⟩ := h
  have htable := opReply_table bound old hlen hflags
  cases hloop : opReplyLoop data bound (filledTable old []) 32 (replyEnd data - 32) 1 with
  | error fault =>
    rw [hcall, hloop] at htable
    cases htable
  | ok r =>
    obtain ⟨docs, hfilled, hindex⟩ := opReplyLoop_appends hloop
    rw [List.nil_append] at hfilled hindex
    cases hnext : replyCounter (replyInt data 28 + 1) with
    | error fault =>
      rw [hcall, hloop, reply_bind, hnext] at htable
      cases htable
    | ok next =>
      have hr : r = (filledTable old docs, r.2.1, docs.length + 1) := by rw [← hfilled, ← hindex]
      obtain ⟨_, t, hret, hpointers⟩ := opReply_filled hlen hflags (hr ▸ hloop) hnext
      rw [hcall] at hret
      cases hret
      refine ⟨fun p hp hsz ↦ ?_, fun hnumber ↦ ?_⟩
      · have hmem : p ∈ t.pointers := hpointers ▸ mem_of_met hloop hfilled hp hsz
        exact ((hgood t rfl).2 p hmem).2
      · rw [hnumber, replyCounter, if_neg (by decide)] at hnext
        cases hnext

/-- **Parsing a reply.** The function ends, reads the string only and fills the table with documents
one behind the other, all inside the reply, if and only if there is no table to fill, or the header
is refused, or no length on the way is zero, negative or too large and the number of documents has a
successor. -/
theorem opReply_correct_iff (data : List UInt8) (result : Option (List α)) :
    RepliesWell data result ↔ FillsWell data result := by
  constructor
  · intro h
    rcases result with _ | old
    · exact .inl rfl
    -- the table is filled only behind two early exits: a short reply and the failure flag
    by_cases hlen : data.length < 32
    · exact .inr (.inl hlen)
    by_cases hflags : replyInt data 12 / 2 % 2 = 1
    · exact .inr (.inr (.inl hflags))
    · exact .inr (.inr (.inr (fit_of_repliesWell hlen hflags h)))
  · intro h
    rcases result with _ | old
    · exact repliesWell_none data
    by_cases hlen : data.length < 32
    · exact repliesWell_of_unfilled 0 (by rw [opReply, if_pos hlen])
    by_cases hflags : replyInt data 12 / 2 % 2 = 1
    · exact repliesWell_of_unfilled 0 (by rw [opReply, if_neg hlen, if_pos hflags])
    rcases h with hnone | hshort | hfailure | ⟨hlengths, hnumber⟩
    · cases hnone
    · exact absurd hshort hlen
    · exact absurd hfailure hflags
    · exact repliesWell_of_fit old hlen hflags hlengths hnumber

/-- A reply of 37 bytes whose document has the length zero keeps the function going. -/
theorem not_opReply_correct :
    ¬∀ (data : List UInt8) (result : Option (List Unit)), RepliesWell data result := by
  intro h
  have hlengths := (fit_of_repliesWell (by decide +kernel) (by decide +kernel)
    (h (List.replicate 37 0) (some []))).1
  have hpos := (hlengths 32 .first (by decide +kernel)).1
  exact absurd hpos (by decide +kernel)

end ZTask
