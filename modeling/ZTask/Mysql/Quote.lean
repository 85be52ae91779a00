import ZTask.Lib.Block
import ZTask.Lib.Word

/-!
# Quoting a string for MySQL

`quote_sql_str` of `lua-mysqlaux.c`. The bytes to escape are counted first and then written into a
block of exactly the size counted, by two switches of their own; a byte that one of them knows and
the other does not is a write outside the block or the error at the end. That they agree is one
statement about each byte (`escapeByte_cases`), everything else follows from it.

What MySQL makes of the text is `mysqlString`: it reads a quoted string up to the closing quote and
undoes the escapes.
-/

namespace ZTask

open Lib

inductive QuoteError
  /-- `expecting one argument` -/
  | expectingOneArgument
  /-- `quote sql string error` -/
  | quoteSqlString
  /-- an access outside the block, or of a byte that was not written -/
  | outside
deriving DecidableEq, Repr

/-! ## The two passes -/

/-- The switch of `num_escape_sql_str`: the bytes for which `n` is increased. -/
def countedByte (c : UInt8) : Bool :=
  if c &&& 0x80 = 0 then
    match c with
    | 0 => true -- \0
    | 8 => true -- \b
    | 10 => true -- \n
    | 13 => true -- \r
    | 9 => true -- \t
    | 26 => true -- \Z
    | 92 => true -- \\
    | 39 => true -- a quote
    | 34 => true -- a double quote
    | _ => false
  else false

/-- `num_escape_sql_str`, from `n` on. -/
def numEscapeSqlStr : UInt32 → List UInt8 → UInt32
  | n, [] => n
  | n, c :: src => numEscapeSqlStr (if countedByte c then n + 1 else n) src

/-- The switch of `escape_sql_str`: the bytes stored for `c`. -/
def escapeByte (c : UInt8) : List UInt8 :=
  if c &&& 0x80 = 0 then
    match c with
    | 0 => [92, 48] -- \0
    | 8 => [92, 98] -- \b
    | 10 => [92, 110] -- \n
    | 13 => [92, 114] -- \r
    | 9 => [92, 116] -- \t
    | 26 => [92, 90] -- \Z
    | 92 => [92, 92] -- \\
    | 39 => [92, 39] -- a quote
    | 34 => [92, 34] -- a double quote
    | c => [c]
  else [c]

/-- Stores at `p`. -/
def storeQuoted (dst : Block UInt8) (p : ℕ) (bytes : List UInt8) :
    Except QuoteError (Block UInt8) :=
  match dst.write? p bytes with
  | none => .error .outside
  | some dst => .ok dst

/-- `escape_sql_str`, with the block and the place behind what was stored. -/
def escapeSqlStr (dst : Block UInt8) (p : ℕ) : List UInt8 → Except QuoteError (Block UInt8 × ℕ)
  | [] => .ok (dst, p)
  | c :: src => do
    let dst ← storeQuoted dst p (escapeByte c)
    escapeSqlStr dst (p + (escapeByte c).length) src

/-- What `quote_sql_str` does between the quotes: a `memcpy` when nothing is to be escaped. -/
def putText (escape : ℕ) (dst : Block UInt8) (p : ℕ) (src : List UInt8) :
    Except QuoteError (Block UInt8 × ℕ) :=
  if escape = 0 then do
    let dst ← storeQuoted dst p src
    return (dst, p + src.length)
  else escapeSqlStr dst p src

/-- `quote_sql_str`, on the strings it is called with. -/
def quoteSqlStr : List (List UInt8) → Except QuoteError (List UInt8)
  | [src] =>
    if src.length = 0 then .ok [39, 39]
    else do
      let escape := (numEscapeSqlStr 0 src).toNat
      let dlen := 2 + src.length + escape
      let dst ← storeQuoted (Block.alloc dlen) 0 [39]
      let (dst, p) ← putText escape dst 1 src
      let dst ← storeQuoted dst p [39]
      if p + 1 ≠ dlen then .error .quoteSqlString
      else
        match dst.read? (p + 1) with
        | none => .error .outside
        | some quoted => .ok quoted
  | _ => .error .expectingOneArgument

/-! ## What MySQL reads -/

/-- What an escaped byte stands for. `\%` and `\_` stand for themselves, and so does every byte that
has no meaning of its own. -/
def mysqlEscape : UInt8 → List UInt8
  | 48 => [0]
  | 98 => [8]
  | 110 => [10]
  | 114 => [13]
  | 116 => [9]
  | 90 => [26]
  | 37 => [92, 37]
  | 95 => [92, 95]
  | c => [c]

/-- A string behind its opening quote: what it says, and what follows the closing quote. Two quotes
inside are one. -/
def mysqlString : List UInt8 → Option (List UInt8 × List UInt8)
  | [] => none
  | [c] => if c = 39 then some ([], []) else none
  | c :: c' :: rest =>
    if c = 92 then (mysqlString rest).map fun (said, after) ↦ (mysqlEscape c' ++ said, after)
    else if c = 39 then
      if c' = 39 then (mysqlString rest).map fun (said, after) ↦ (39 :: said, after)
      else some ([], c' :: rest)
    else (mysqlString (c' :: rest)).map fun (said, after) ↦ (c :: said, after)

/-- A quoted string: what it says, and what follows it. -/
def mysqlLiteral : List UInt8 → Option (List UInt8 × List UInt8)
  | 39 :: rest => mysqlString rest
  | _ => none

/-- Text in which every quote and every backslash is part of an escape. -/
inductive Escaped : List UInt8 → Prop
  | nil : Escaped []
  | byte {c : UInt8} {rest : List UInt8} :
      c ≠ 39 → c ≠ 34 → c ≠ 92 → Escaped rest → Escaped (c :: rest)
  | escape {c : UInt8} {rest : List UInt8} :
      c ∈ [48, 98, 110, 114, 116, 90, 92, 39, 34] → Escaped rest → Escaped (92 :: c :: rest)

/-! ## The two switches agree -/

/-- **A byte.** Either it is not counted, and stored as it is, which is no quote and no backslash;
or it is counted, and stored as an escape that stands for it. -/
theorem escapeByte_cases (c : UInt8) :
    (countedByte c = false ∧ escapeByte c = [c] ∧ c ≠ 39 ∧ c ≠ 34 ∧ c ≠ 92) ∨
      (countedByte c = true ∧ ∃ e ∈ ([48, 98, 110, 114, 116, 90, 92, 39, 34] : List UInt8),
        escapeByte c = [92, e] ∧ mysqlEscape e = [c]) :=
  forall_byte (P := fun c ↦
    (countedByte c = false ∧ escapeByte c = [c] ∧ c ≠ 39 ∧ c ≠ 34 ∧ c ≠ 92) ∨
      (countedByte c = true ∧ ∃ e ∈ ([48, 98, 110, 114, 116, 90, 92, 39, 34] : List UInt8),
        escapeByte c = [92, e] ∧ mysqlEscape e = [c])) (by decide +kernel) c

private theorem length_escapeByte (c : UInt8) :
    (escapeByte c).length = 1 + if countedByte c then 1 else 0 := by
  rcases escapeByte_cases c with ⟨hcount, heq, -⟩ | ⟨hcount, e, -, heq, -⟩
  · rw [hcount, heq]
    rfl
  · rw [hcount, heq]
    rfl

theorem toNat_numEscapeSqlStr {n : UInt32} {src : List UInt8} (h : n.toNat + src.length < 2 ^ 32) :
    (numEscapeSqlStr n src).toNat = n.toNat + src.countP countedByte := by
  induction src generalizing n with
  | nil => rfl
  | cons c src ih =>
    rw [List.length_cons] at h
    rw [numEscapeSqlStr, List.countP_cons]
    by_cases hc : countedByte c
    · have hsucc : (n + 1).toNat = n.toNat + 1 := by
        rw [UInt32.toNat_add, UInt32.toNat_one]
        exact Nat.mod_eq_of_lt (by omega)
      rw [if_pos hc, if_pos hc, ih (by omega), hsucc]
      omega
    · rw [if_neg hc, if_neg hc, ih (by omega)]
      rfl

private theorem length_flatMap_escapeByte (src : List UInt8) :
    (src.flatMap escapeByte).length = src.length + src.countP countedByte := by
  induction src with
  | nil => rfl
  | cons c src ih =>
    rw [List.flatMap_cons, List.length_append, ih, length_escapeByte, List.length_cons,
      List.countP_cons]
    split <;> omega

private theorem flatMap_escapeByte_of_none {src : List UInt8} (h : src.countP countedByte = 0) :
    src.flatMap escapeByte = src := by
  induction src with
  | nil => rfl
  | cons c src ih =>
    rw [List.countP_cons] at h
    rcases escapeByte_cases c with ⟨-, heq, -⟩ | ⟨hcount, -⟩
    · rw [List.flatMap_cons, heq, ih (by omega)]
      rfl
    · rw [if_pos hcount] at h
      omega

private theorem escaped_flatMap (src : List UInt8) : Escaped (src.flatMap escapeByte) := by
  induction src with
  | nil => exact .nil
  | cons c src ih =>
    rw [List.flatMap_cons]
    rcases escapeByte_cases c with ⟨-, heq, hquote, hdouble, hback⟩ | ⟨-, e, he, heq, -⟩
    · rw [heq]
      exact .byte hquote hdouble hback ih
    · rw [heq]
      exact .escape he ih

/-- **Unescape.** MySQL reads the string that was quoted, up to the closing quote. -/
theorem mysqlString_flatMap (src : List UInt8) {after : List UInt8} (h : after.head? ≠ some 39) :
    mysqlString (src.flatMap escapeByte ++ 39 :: after) = some (src, after) := by
  induction src with
  | nil =>
    cases after with
    | nil => rfl
    | cons c after =>
      have hc : c ≠ 39 := fun hc ↦ h (congrArg some hc)
      rw [List.flatMap_nil, List.nil_append, mysqlString, if_neg (by decide), if_pos rfl, if_neg hc]
  | cons c src ih =>
    rw [List.flatMap_cons, List.append_assoc]
    rcases escapeByte_cases c with ⟨-, heq, hquote, -, hback⟩ | ⟨-, e, -, heq, hmeans⟩
    · -- at least the closing quote follows
      obtain ⟨c', rest, hrest⟩ : ∃ c' rest, src.flatMap escapeByte ++ 39 :: after = c' :: rest := by
        cases hfront : src.flatMap escapeByte with
        | nil => exact ⟨39, after, rfl⟩
        | cons c' rest => exact ⟨c', rest ++ 39 :: after, rfl⟩
      rw [hrest] at ih
      rw [heq, hrest, List.singleton_append, mysqlString, if_neg hback, if_neg hquote, ih]
      rfl
    · rw [heq, List.cons_append, List.singleton_append, mysqlString, if_pos rfl, ih, hmeans]
      rfl

/-! ## The block -/

private theorem storeQuoted_front {front bytes : List UInt8} {cells : Block UInt8}
    (h : bytes.length ≤ cells.length) :
    storeQuoted (front.map some ++ cells) front.length bytes =
      .ok ((front ++ bytes).map some ++ cells.drop bytes.length) := by
  rw [storeQuoted, Block.write?_front h]

/-- The second pass writes the escaped text behind what is there. -/
theorem escapeSqlStr_front {src front : List UInt8} {cells : Block UInt8}
    (h : (src.flatMap escapeByte).length ≤ cells.length) :
    escapeSqlStr (front.map some ++ cells) front.length src =
      .ok ((front ++ src.flatMap escapeByte).map some ++ cells.drop (src.flatMap escapeByte).length,
        (front ++ src.flatMap escapeByte).length) := by
  induction src generalizing front cells with
  | nil => rw [List.flatMap_nil, List.append_nil]; rfl
  | cons c src ih =>
    rw [List.flatMap_cons, List.length_append] at h
    have hrest := @ih (front ++ escapeByte c) (cells.drop (escapeByte c).length)
      (by rw [List.length_drop]; omega)
    rw [List.drop_drop, ← List.length_append, List.append_assoc, List.length_append] at hrest
    rw [escapeSqlStr, storeQuoted_front (by omega)]
    exact hrest

/-- Either way the escaped text is written. -/
theorem putText_front {src front : List UInt8} {cells : Block UInt8} (hlen : src.length < 2 ^ 31)
    (h : (src.flatMap escapeByte).length ≤ cells.length) :
    putText (numEscapeSqlStr 0 src).toNat (front.map some ++ cells) front.length src =
      .ok ((front ++ src.flatMap escapeByte).map some ++ cells.drop (src.flatMap escapeByte).length,
        (front ++ src.flatMap escapeByte).length) := by
  rw [putText]
  split
  next hnone =>
    have hcount := @toNat_numEscapeSqlStr 0 src (by rw [UInt32.toNat_zero]; omega)
    rw [UInt32.toNat_zero, Nat.zero_add] at hcount
    rw [flatMap_escapeByte_of_none (hcount.symm.trans hnone)] at h ⊢
    rw [storeQuoted_front h, List.length_append]
    rfl
  next => exact escapeSqlStr_front h

/-- **Quote.** The result is the escaped text in quotes. -/
theorem quoteSqlStr_eq {src : List UInt8} (h : src.length < 2 ^ 31) :
    quoteSqlStr [src] = .ok (39 :: (src.flatMap escapeByte ++ [39])) := by
  by_cases hempty : src.length = 0
  · rw [quoteSqlStr, if_pos hempty, List.length_eq_zero_iff.mp hempty]
    rfl
  have hcount := @toNat_numEscapeSqlStr 0 src (by rw [UInt32.toNat_zero]; omega)
  rw [UInt32.toNat_zero, Nat.zero_add] at hcount
  obtain ⟨dlen, hdlen⟩ : ∃ dlen, dlen = 2 + src.length + (numEscapeSqlStr 0 src).toNat := ⟨_, rfl⟩
  have hlen := length_flatMap_escapeByte src
  -- the opening quote, the text and the closing quote go into the block one behind the other
  have hcells : ((Block.alloc dlen : Block UInt8).drop 1).length = dlen - 1 := by
    rw [List.length_drop, Block.length_alloc]
  have hopen : storeQuoted (Block.alloc dlen) 0 [39] =
      .ok ([39].map some ++ (Block.alloc dlen).drop 1) :=
    @storeQuoted_front [] [39] (Block.alloc dlen)
      (by rw [Block.length_alloc, List.length_singleton]; omega)
  have htext : putText (numEscapeSqlStr 0 src).toNat ([39].map some ++ (Block.alloc dlen).drop 1) 1
      src = _ :=
    @putText_front src [39] ((Block.alloc dlen).drop 1) h (by rw [hcells]; omega)
  have hclose := @storeQuoted_front ([39] ++ src.flatMap escapeByte) [39]
    (((Block.alloc dlen).drop 1).drop (src.flatMap escapeByte).length)
    (by rw [List.length_drop, hcells, List.length_singleton]; omega)
  have hend : ([39] ++ src.flatMap escapeByte).length + 1 = dlen := by
    rw [List.length_append, List.length_singleton]
    omega
  have hread := Block.read?_front ([39] ++ src.flatMap escapeByte ++ [39])
    ((((Block.alloc dlen).drop 1).drop (src.flatMap escapeByte).length).drop 1)
  rw [List.length_append, List.length_singleton] at hread
  rw [quoteSqlStr, if_neg hempty]
  simp only [bind, Except.bind, ← hdlen, hopen, htext, hclose]
  rw [if_neg (not_not.mpr hend), List.length_singleton, hread]
  rfl

/-- **The string is quoted.** The count is what the second pass writes more than it reads, so that
its block is neither too small nor too large; every quote and every backslash between the outer
quotes is part of an escape; and MySQL reads the string that was given. -/
theorem quoteSqlStr_quotes (src : List UInt8) (h : src.length < 2 ^ 31) :
    ∃ body : List UInt8, quoteSqlStr [src] = .ok (39 :: (body ++ [39])) ∧
      body.length = src.length + (numEscapeSqlStr 0 src).toNat ∧
      escapeSqlStr (Block.alloc body.length) 0 src = .ok (body.map some, body.length) ∧
      Escaped body ∧ mysqlLiteral (39 :: (body ++ [39])) = some (src, []) := by
  have hcount := @toNat_numEscapeSqlStr 0 src (by rw [UInt32.toNat_zero]; omega)
  rw [UInt32.toNat_zero, Nat.zero_add] at hcount
  refine ⟨src.flatMap escapeByte, quoteSqlStr_eq h, ?_, ?_, escaped_flatMap src, ?_⟩
  · rw [hcount, length_flatMap_escapeByte]
  · -- the second pass writes what the first one counted, so the block is filled exactly
    have hwrite := @escapeSqlStr_front src [] (Block.alloc (src.flatMap escapeByte).length)
      (Nat.le_of_eq (Block.length_alloc _).symm)
    rwa [List.drop_of_length_le (Nat.le_of_eq (Block.length_alloc _)), List.append_nil] at hwrite
  · exact mysqlString_flatMap src (by decide)

/-- `it's \`, with a quote and a backslash. -/
theorem quoteSqlStr_quotes_both :
    let src : List UInt8 := [105, 116, 39, 115, 32, 92]
    src.length < 2 ^ 31 ∧
      ∃ body : List UInt8, quoteSqlStr [src] = .ok (39 :: (body ++ [39])) ∧
        body.length = src.length + (numEscapeSqlStr 0 src).toNat ∧
        escapeSqlStr (Block.alloc body.length) 0 src = .ok (body.map some, body.length) ∧
        Escaped body ∧ mysqlLiteral (39 :: (body ++ [39])) = some (src, []) :=
  ⟨by decide, quoteSqlStr_quotes _ (by decide)⟩

end ZTask
