import ZTask.LuaSocket.Flat

/-!
# The first occurrence of a separator

What `splitLine` finds is the first occurrence: it stays where it is when the string becomes longer
(`splitLine_append_right`), and it is found from any position in front of it (`splitLine_drop`).
-/

namespace ZTask

variable {sep bytes line rest : List UInt8}

/-! ## Where a line ends -/

theorem splitLine_length_lt (h : splitLine sep bytes = some (line, rest)) (hsep : sep ≠ []) :
    rest.length < bytes.length := by
  have hpos := List.length_pos_of_ne_nil hsep
  rw [splitLine_append h, List.length_append, List.length_append]
  omega

theorem splitLine_starts (hsep : sep ≠ []) (rest : List UInt8) :
    splitLine sep (sep ++ rest) = some ([], rest) := by
  obtain ⟨c, tail, rfl⟩ := List.exists_cons_of_ne_nil hsep
  have hstarts : c :: tail <+: c :: (tail ++ rest) := List.prefix_append (c :: tail) rest
  rw [List.cons_append, splitLine, if_pos hstarts, ← List.cons_append, List.drop_left]

theorem drop_splitLine (h : splitLine sep bytes = some (line, rest)) :
    bytes.drop (line.length + sep.length) = rest := by
  rw [splitLine_append h, ← List.append_assoc, List.drop_left' (List.length_append)]

/-! ## More bytes -/

/-- A longer string has the same first occurrence. -/
theorem splitLine_append_right (h : splitLine sep bytes = some (line, rest)) (more : List UInt8) :
    splitLine sep (bytes ++ more) = some (line, rest ++ more) := by
  induction bytes generalizing line rest with
  | nil => exact (nomatch h)
  | cons c tail ih =>
    rw [splitLine] at h
    rw [List.cons_append, splitLine]
    split at h
    next hstarts =>
      obtain ⟨hline, hrest⟩ := Prod.mk.inj (Option.some.inj h)
      have hlonger : sep <+: c :: (tail ++ more) :=
        hstarts.trans (List.prefix_append (c :: tail) more)
      rw [if_pos hlonger, ← hline, ← hrest, ← List.cons_append,
        List.drop_append_of_le_length hstarts.length_le]
    next hstarts =>
      obtain ⟨⟨line', rest'⟩, hp, heq⟩ := Option.map_eq_some_iff.mp h
      obtain ⟨hline, hrest⟩ := Prod.mk.inj heq
      have hlonger : ¬sep <+: c :: (tail ++ more) := by
        intro hlonger
        have hlen : sep.length ≤ (c :: tail).length := by
          rw [splitLine_append hp, List.length_cons, List.length_append, List.length_append]
          omega
        exact hstarts (List.prefix_of_prefix_length_le hlonger
          (List.prefix_append (c :: tail) more) hlen)
      dsimp only at hrest
      rw [if_neg hlonger, ih hp, ← hline, ← hrest]
      rfl

theorem splitLine_isSome (hsep : sep ≠ []) (line rest : List UInt8) :
    (splitLine sep (line ++ (sep ++ rest))).isSome := by
  induction line with
  | nil =>
    rw [List.nil_append, splitLine_starts hsep]
    rfl
  | cons c line ih =>
    rw [List.cons_append, splitLine]
    split
    · rfl
    · rw [Option.isSome_map]
      exact ih

/-- What is in front of the occurrence does not matter. -/
theorem splitLine_drop {k : ℕ} (h : splitLine sep bytes = some (line, rest))
    (hk : k ≤ line.length) :
    splitLine sep (bytes.drop k) = some (line.drop k, rest) := by
  induction k generalizing bytes line with
  | zero => exact h
  | succ k ih =>
    cases bytes with
    | nil => exact (nomatch h)
    | cons c tail =>
      rw [splitLine] at h
      split at h
      · rw [← (Prod.mk.inj (Option.some.inj h)).1] at hk
        exact absurd hk (Nat.not_succ_le_zero k)
      · obtain ⟨⟨line', rest'⟩, hp, heq⟩ := Option.map_eq_some_iff.mp h
        obtain ⟨hline, hrest⟩ := Prod.mk.inj heq
        dsimp only at hline hrest
        rw [← hline, List.length_cons] at hk
        rw [hrest] at hp
        rw [List.drop_succ_cons, ← hline, List.drop_succ_cons]
        exact ih hp (Nat.le_of_succ_le_succ hk)

theorem splitLine_drop_eq_none (h : splitLine sep bytes = none) (k : ℕ) :
    splitLine sep (bytes.drop k) = none := by
  induction k generalizing bytes with
  | zero => exact h
  | succ k ih =>
    cases bytes with
    | nil => rfl
    | cons c tail =>
      rw [splitLine] at h
      split at h
      · cases h
      · exact ih (Option.map_eq_none_iff.mp h)

/-- The first bytes of a string have the occurrence if they go as far as its end. -/
theorem splitLine_take {n : ℕ} (hsep : sep ≠ []) (h : splitLine sep bytes = some (line, rest)) :
    splitLine sep (bytes.take n) =
      if line.length + sep.length ≤ n then some (line, rest.take (n - (line.length + sep.length)))
      else none := by
  cases htake : splitLine sep (bytes.take n) with
  | none =>
    rw [if_neg]
    intro hle
    have hsome := splitLine_isSome hsep line (rest.take (n - (line.length + sep.length)))
    have heq : bytes.take n = line ++ (sep ++ rest.take (n - (line.length + sep.length))) := by
      calc bytes.take n = line ++ (sep ++ rest).take (n - line.length) := by
            rw [splitLine_append h, List.take_append, List.take_of_length_le (by omega)]
        _ = line ++ (sep ++ rest.take (n - line.length - sep.length)) := by
            rw [List.take_append, List.take_of_length_le (by omega)]
        _ = line ++ (sep ++ rest.take (n - (line.length + sep.length))) := by rw [Nat.sub_sub]
    rw [← heq, htake] at hsome
    cases hsome
  | some p =>
    obtain ⟨line', rest'⟩ := p
    have hwhole := splitLine_append_right htake (bytes.drop n)
    rw [List.take_append_drop, h] at hwhole
    obtain ⟨rfl, hrest⟩ := Prod.mk.inj (Option.some.inj hwhole)
    have hlen := congrArg List.length (splitLine_append htake)
    simp only [List.length_append, List.length_take] at hlen
    have hmin := Nat.min_le_left n bytes.length
    have hle : line.length + sep.length ≤ n := by omega
    rw [if_pos hle, hrest]
    by_cases hn : n ≤ bytes.length
    · rw [List.take_left' (by omega)]
    · rw [List.drop_of_length_le (by omega), List.append_nil, List.take_of_length_le (by omega)]

end ZTask
