import ZTask.Lib.Threads
import Mathlib.Data.List.FinRange
import Mathlib.Data.List.Induction
import Mathlib.Data.List.Nodup
import Mathlib.Data.List.Perm.Subperm
import Mathlib.Data.Option.Basic

/-!
# Scatter tables

A table with as many slots as there are entries, filled in two passes. In the first, an entry takes
its main position if nothing is there yet. In the second, an entry that has not got its main
position takes the first slot that is left, and is linked behind the entry that has. So a main
position is never taken by an entry of another one, and each chain has the entries of one main
position, the last that collided right behind the first.

The chains are lists threaded through the slots (`Threads`), one for each main position without that
position itself.
-/

namespace Lib

universe u v

/-- The slots, with their links. -/
structure Scatter (α : Type u) where
  slot : ℕ → Option α
  next : ℕ → Option ℕ

namespace Scatter

variable {α : Type u} {κ : Type v} [DecidableEq κ] (pos : α → ℕ) (code : α → κ) (size : ℕ)

/-- Nothing is in the slots. -/
def empty : Scatter α := ⟨fun _ ↦ none, fun _ ↦ none⟩

/-- The first pass. -/
def settle (t : Scatter α) (a : α) : Scatter α :=
  match t.slot (pos a) with
  | some _ => t
  | none => ⟨Function.update t.slot (pos a) (some a), Function.update t.next (pos a) none⟩

/-- The first slot that is left. -/
def free (t : Scatter α) : Option ℕ := (List.range size).find? fun i ↦ (t.slot i).isNone

/-- An entry takes a slot, and goes behind the one at its main position. -/
def insert (t : Scatter α) (a : α) (i : ℕ) : Scatter α :=
  ⟨Function.update t.slot i (some a),
    Function.update (Function.update t.next i (t.next (pos a))) (pos a) (some i)⟩

/-- The second pass. -/
def collide (t : Scatter α) (a : α) : Option (Scatter α) :=
  match t.slot (pos a) with
  | none => none
  | some b => if code b = code a then some t else (t.free size).map (t.insert pos a)

/-- Both passes. -/
def fill (as : List α) : Option (Scatter α) :=
  as.foldlM (collide pos code size) (as.foldl (settle pos) empty)

/-- The first entry with this main position. -/
def first (as : List α) (p : ℕ) : Option α := as.find? fun a ↦ decide (pos a = p)

/-- The entry collides with one that is before it. -/
def late (as : List α) (a : α) : Bool :=
  match first pos as (pos a) with
  | some b => decide (code b ≠ code a)
  | none => false

variable {pos : α → ℕ} {code : α → κ} {size : ℕ} {t t' : Scatter α} {as done rest : List α}
  {l : ℕ → List ℕ} {a b x : α} {p s s' : ℕ}

omit [DecidableEq κ] in
theorem mem_of_first (h : first pos as p = some a) : a ∈ as ∧ pos a = p := by
  rw [first] at h
  have hpos := List.find?_some h
  exact ⟨List.mem_of_find?_eq_some h, of_decide_eq_true hpos⟩

omit [DecidableEq κ] in
theorem first_isSome (pos : α → ℕ) (h : a ∈ as) : ∃ b, first pos as (pos a) = some b := by
  have hsome : (first pos as (pos a)).isSome = true :=
    List.find?_isSome.mpr ⟨a, h, decide_eq_true rfl⟩
  exact Option.isSome_iff_exists.mp hsome

theorem late_of_first (code : α → κ) (h : first pos as (pos a) = some b) :
    late pos code as a = decide (code b ≠ code a) := by
  rw [late, h]

/-! ## The first pass -/

omit [DecidableEq κ] in
/-- Each main position has its first entry, and no link. -/
theorem foldl_settle (pos : α → ℕ) (as : List α) :
    (∀ p, (as.foldl (settle pos) empty).slot p = first pos as p) ∧
    ∀ p, (as.foldl (settle pos) empty).next p = none := by
  induction as using List.reverseRecOn with
  | nil => exact ⟨fun _ ↦ rfl, fun _ ↦ rfl⟩
  | append_singleton as a ih =>
    obtain ⟨hslot, hnext⟩ := ih
    rw [List.foldl_append, List.foldl_cons, List.foldl_nil, settle, hslot]
    have hfirst : ∀ p, first pos (as ++ [a]) p
        = (first pos as p).or (if pos a = p then some a else none) := by
      intro p
      rw [first, List.find?_append, ← first, List.find?_singleton]
      by_cases hp : pos a = p
      · rw [if_pos hp, if_pos (decide_eq_true hp)]
      · rw [if_neg hp, if_neg (fun h ↦ hp (of_decide_eq_true h))]
    cases hcase : first pos as (pos a) with
    | some b =>
      refine ⟨fun p ↦ ?_, hnext⟩
      dsimp only
      rw [hslot, hfirst]
      by_cases hp : pos a = p
      · rw [← hp, hcase]
        rfl
      · rw [if_neg hp, Option.or_none]
    | none =>
      refine ⟨fun p ↦ ?_, fun p ↦ ?_⟩
      · dsimp only
        rw [hfirst]
        by_cases hp : pos a = p
        · rw [if_pos hp, ← hp, hcase, Function.update_self]
          rfl
        · rw [if_neg hp, Option.or_none, Function.update_of_ne (Ne.symm hp), hslot]
      · dsimp only
        by_cases hp : p = pos a
        · rw [hp, Function.update_self]
        · rw [Function.update_of_ne hp, hnext]

/-! ## The second pass -/

variable (pos code size) in
/-- The table after the second pass over the entries of `done`. -/
structure Chained (as done : List α) (t : Scatter α) (l : ℕ → List ℕ) : Prop where
  threads : Threads t.next (fun p ↦ if (first pos as p).isSome = true then t.next p else none) l
  main : ∀ {p b}, first pos as p = some b → t.slot p = some b
  tail : ∀ {p s}, s ∈ l p → first pos as s = none ∧ s < size
  /-- The chain has the entries that collided, the last in front. -/
  content : ∀ p, (l p).map t.slot =
    ((done.filter fun a ↦ decide (pos a = p) && late pos code as a).reverse).map some
  rest : ∀ {s}, first pos as s = none → (∀ p, s ∉ l p) → t.slot s = none

theorem chained_nil (as : List α) :
    Chained pos code size as [] (as.foldl (settle pos) empty) fun _ ↦ [] := by
  obtain ⟨hslot, hnext⟩ := foldl_settle pos as
  refine ⟨⟨fun p ↦ ?_, fun _ ↦ List.nodup_nil, fun h ↦ (nomatch h)⟩, fun h ↦ ?_,
    fun h ↦ (nomatch h), fun _ ↦ rfl, fun h _ ↦ ?_⟩
  · change ite _ _ _ = none
    rw [hnext, ite_self]
  · rw [hslot, h]
  · rw [hslot, h]

/-- A slot of a chain, with its entry. -/
theorem Chained.of_mem_tail (h : Chained pos code size as done t l) (hs : s ∈ l p) :
    ∃ x, t.slot s = some x ∧ pos x = p ∧ late pos code as x = true ∧ x ∈ done := by
  have hmem : t.slot s ∈ (l p).map t.slot := List.mem_map_of_mem hs
  rw [h.content] at hmem
  obtain ⟨x, hx, heq⟩ := List.mem_map.mp hmem
  obtain ⟨hdone, hboth⟩ := List.mem_filter.mp (List.mem_reverse.mp hx)
  obtain ⟨hpos, hlate⟩ := Bool.and_eq_true_iff.mp hboth
  exact ⟨x, heq.symm, of_decide_eq_true hpos, hlate, hdone⟩

/-- An entry is at its main position, or collided and is in the chain. -/
theorem Chained.of_slot (h : Chained pos code size as done t l) (hs : t.slot s = some x) :
    first pos as s = some x ∨
      first pos as s = none ∧ s ∈ l (pos x) ∧ late pos code as x = true ∧ x ∈ done := by
  cases hfirst : first pos as s with
  | some b =>
    rw [h.main hfirst] at hs
    exact .inl hs
  | none =>
    by_cases hp : ∃ p, s ∈ l p
    · obtain ⟨p, hp⟩ := hp
      obtain ⟨x', hx', hpos, hlate, hdone⟩ := h.of_mem_tail hp
      rw [hs] at hx'
      obtain rfl := Option.some.inj hx'
      exact .inr ⟨rfl, by rw [hpos]; exact hp, hlate, hdone⟩
    · rw [h.rest hfirst fun p hmem ↦ hp ⟨p, hmem⟩] at hs
      cases hs

theorem not_late_of_first (h : first pos as s = some x) : late pos code as x = false := by
  have hpos := (mem_of_first h).2
  rw [← hpos] at h
  rw [late_of_first code h]
  exact decide_eq_false fun hne ↦ hne rfl

/-- No entry is in two slots. -/
theorem Chained.slot_inj (h : Chained pos code size as done t l) (hdone : done.Nodup)
    (hs : t.slot s = some x) (hs' : t.slot s' = some x) : s = s' := by
  rcases h.of_slot hs with hfirst | ⟨-, htail, hlate, -⟩ <;>
    rcases h.of_slot hs' with hfirst' | ⟨-, htail', hlate', -⟩
  · rw [← (mem_of_first hfirst).2, (mem_of_first hfirst').2]
  · rw [not_late_of_first hfirst] at hlate'
    cases hlate'
  · rw [not_late_of_first hfirst'] at hlate
    cases hlate
  · have hnodup : ((l (pos x)).map t.slot).Nodup := by
      rw [h.content]
      exact (List.nodup_reverse.mpr (hdone.filter _)).map (Option.some_injective α)
    exact List.inj_on_of_nodup_map hnodup htail htail' (hs.trans hs'.symm)

theorem Chained.mem (h : Chained pos code size as done t l) (hsub : done ⊆ as)
    (hs : t.slot s = some x) : x ∈ as := by
  rcases h.of_slot hs with hfirst | ⟨-, -, -, hmem⟩
  · exact (mem_of_first hfirst).1
  · exact hsub hmem

/-- **There is a slot** for an entry that has collided and is not yet in the table. -/
theorem Chained.free_isSome (h : Chained pos code size as done t l) (hlen : as.length ≤ size)
    (hsub : done ⊆ as) (hdone : done.Nodup) (ha : a ∈ as)
    (hlate : late pos code as a = true) (hnew : a ∉ done) : ∃ i, t.free size = some i := by
  by_contra hnone
  have hnone' : t.free size = none := by
    cases hfree : t.free size with
    | none => rfl
    | some i => exact absurd ⟨i, hfree⟩ hnone
  have hall : ∀ i < size, (t.slot i).isSome = true := by
    intro i hi
    rw [free, List.find?_eq_none] at hnone'
    have hsome := hnone' i (List.mem_range.mpr hi)
    cases hslot : t.slot i with
    | some x => rfl
    | none =>
      rw [hslot] at hsome
      exact absurd rfl hsome
  -- all slots are taken, by other entries
  have hentry : ∀ i : Fin size, ∃ x, t.slot i = some x := fun i ↦
    Option.isSome_iff_exists.mp (hall i i.isLt)
  choose entry hslot using hentry
  have hinj : Function.Injective entry := by
    intro i j heq
    exact Fin.ext (h.slot_inj hdone (hslot i) (heq ▸ hslot j))
  have hnodup : (a :: List.ofFn entry).Nodup := by
    rw [List.nodup_cons]
    refine ⟨fun hmem ↦ ?_, List.nodup_ofFn.mpr hinj⟩
    obtain ⟨i, hi⟩ := List.mem_ofFn.mp hmem
    rcases h.of_slot (hslot i) with hfirst | ⟨-, -, -, hmem⟩
    · rw [← hi, not_late_of_first hfirst] at hlate
      cases hlate
    · exact hnew (hi ▸ hmem)
  have hsubset : a :: List.ofFn entry ⊆ as := by
    intro x hx
    rcases List.mem_cons.mp hx with heq | hx
    · rw [heq]
      exact ha
    · obtain ⟨i, hi⟩ := List.mem_ofFn.mp hx
      exact h.mem hsub (hi ▸ hslot i)
  have hle := (List.subperm_of_subset hnodup hsubset).length_le
  rw [List.length_cons, List.length_ofFn] at hle
  omega

theorem mem_free (h : t.free size = some s) : t.slot s = none ∧ s < size := by
  rw [free] at h
  have hnone := List.find?_some h
  exact ⟨Option.isNone_iff_eq_none.mp hnone, List.mem_range.mp (List.mem_of_find?_eq_some h)⟩

theorem filter_late_concat (done : List α) (a : α) (p : ℕ) :
    (done ++ [a]).filter (fun a ↦ decide (pos a = p) && late pos code as a)
      = done.filter (fun a ↦ decide (pos a = p) && late pos code as a)
        ++ if pos a = p ∧ late pos code as a = true then [a] else [] := by
  rw [List.filter_append, List.filter_cons, List.filter_nil]
  by_cases hboth : pos a = p ∧ late pos code as a = true
  · rw [if_pos hboth, if_pos (Bool.and_eq_true_iff.mpr ⟨decide_eq_true hboth.1, hboth.2⟩)]
  · rw [if_neg hboth, if_neg fun hand ↦ hboth ?_]
    obtain ⟨hpos, hl⟩ := Bool.and_eq_true_iff.mp hand
    exact ⟨of_decide_eq_true hpos, hl⟩

/-- An entry that does not collide stays out of the second pass. -/
theorem Chained.stay (h : Chained pos code size as done t l) (hnot : late pos code as a = false) :
    Chained pos code size as (done ++ [a]) t l := by
  refine ⟨h.threads, h.main, h.tail, fun p ↦ ?_, h.rest⟩
  have hnone : ¬ (pos a = p ∧ late pos code as a = true) := by
    rintro ⟨-, hl⟩
    rw [hnot] at hl
    cases hl
  rw [filter_late_concat, if_neg hnone, List.append_nil]
  exact h.content p

/-- A slot that is left is no main position. -/
theorem Chained.first_free (h : Chained pos code size as done t l) (hslot : t.slot s = none) :
    first pos as s = none := by
  cases hfirst : first pos as s with
  | none => rfl
  | some x =>
    rw [h.main hfirst] at hslot
    cases hslot

/-- A slot that is left is in no chain. -/
theorem Chained.tail_free (h : Chained pos code size as done t l)
    (hslot : t.slot s = none) (p : ℕ) :
    s ∉ l p := by
  intro hmem
  obtain ⟨x, hx, -⟩ := h.of_mem_tail hmem
  rw [hslot] at hx
  cases hx

omit [DecidableEq κ] in
theorem mem_update_cons {q i : ℕ} (hs : s ∈ Function.update l q (i :: l q) p) :
    s = i ∨ s ∈ l p := by
  by_cases hp : p = q
  · rw [hp, Function.update_self] at hs
    rw [hp]
    exact List.mem_cons.mp hs
  · rw [Function.update_of_ne hp] at hs
    exact .inr hs

/-- The chains when an entry has been linked behind its main position. -/
theorem Chained.insert_threads (h : Chained pos code size as done t l)
    (hb : first pos as (pos a) = some b) {i : ℕ} (hslot : t.slot i = none) :
    Threads (t.insert pos a i).next
      (fun p ↦ if (first pos as p).isSome = true then (t.insert pos a i).next p else none)
      (Function.update l (pos a) (i :: l (pos a))) := by
  refine (h.threads.push (pos a) (h.tail_free hslot)).congr (fun p s hs ↦ ?_) fun p ↦ ?_
  · -- the link of a main position is the one that changes
    have hnone : first pos as s = none := by
      rcases mem_update_cons hs with rfl | hs
      · exact h.first_free hslot
      · exact (h.tail hs).1
    have hsa : s ≠ pos a := by
      rintro rfl
      rw [hb] at hnone
      cases hnone
    rw [insert]
    dsimp only
    rw [Function.update_of_ne hsa, hb]
    rfl
  · rw [insert]
    dsimp only
    by_cases hp : p = pos a
    · rw [hp, Function.update_self, Function.update_self, hb]
      rfl
    · rw [Function.update_of_ne hp, Function.update_of_ne hp]
      cases hfirst : first pos as p with
      | none => rfl
      | some x =>
        have hpi : p ≠ i := by
          rintro rfl
          rw [h.first_free hslot] at hfirst
          cases hfirst
        rw [Function.update_of_ne hpi]

/-- The entries of the chains when one has been linked behind its main position. -/
theorem Chained.insert_content (h : Chained pos code size as done t l)
    (hlate : late pos code as a = true) {i : ℕ} (hslot : t.slot i = none) (p : ℕ) :
    (Function.update l (pos a) (i :: l (pos a)) p).map (t.insert pos a i).slot =
      (((done ++ [a]).filter fun a ↦ decide (pos a = p) &&
      late pos code as a).reverse).map some := by
  have hsame : ∀ p, (l p).map (t.insert pos a i).slot = (l p).map t.slot := by
    intro p
    refine List.map_congr_left fun s hs ↦ ?_
    have hsi : s ≠ i := fun heq ↦ h.tail_free hslot p (heq ▸ hs)
    exact Function.update_of_ne hsi ..
  rw [filter_late_concat, List.reverse_append, List.map_append, ← h.content]
  by_cases hp : p = pos a
  · rw [hp, Function.update_self, if_pos ⟨rfl, hlate⟩, List.map_cons, hsame]
    congr 1
    exact Function.update_self ..
  · rw [Function.update_of_ne hp, if_neg fun hand ↦ hp hand.1.symm, hsame]
    rfl

/-- An entry that collides takes a slot that is left. -/
theorem Chained.insert (h : Chained pos code size as done t l)
    (hb : first pos as (pos a) = some b) (hlate : late pos code as a = true) {i : ℕ}
    (hi : t.free size = some i) : Chained pos code size as (done ++ [a]) (t.insert pos a i)
      (Function.update l (pos a) (i :: l (pos a))) := by
  obtain ⟨hslot, hlt⟩ := mem_free hi
  refine ⟨h.insert_threads hb hslot, fun {p b'} hp ↦ ?_, fun {p s} hs ↦ ?_,
    h.insert_content hlate hslot, fun {s} hs hrest ↦ ?_⟩
  · have hpi : p ≠ i := by
      rintro rfl
      rw [h.first_free hslot] at hp
      cases hp
    exact (Function.update_of_ne hpi ..).trans (h.main hp)
  · rcases mem_update_cons hs with rfl | hs
    · exact ⟨h.first_free hslot, hlt⟩
    · exact h.tail hs
  · have hsi : s ≠ i := by
      rintro rfl
      refine hrest (pos a) ?_
      rw [Function.update_self]
      exact List.mem_cons_self
    refine (Function.update_of_ne hsi ..).trans (h.rest hs fun p hmem ↦ hrest p ?_)
    by_cases hp : p = pos a
    · rw [hp, Function.update_self]
      exact List.mem_cons_of_mem i (hp ▸ hmem)
    · rw [Function.update_of_ne hp]
      exact hmem

/-- One more entry of the second pass. -/
theorem Chained.step (h : Chained pos code size as done t l) (hlen : as.length ≤ size)
    (hsub : done ⊆ as) (hdone : done.Nodup) (ha : a ∈ as)
    (hnew : a ∉ done) :
    ∃ t' l', collide pos code size t a = some t' ∧
      Chained pos code size as (done ++ [a]) t' l' := by
  obtain ⟨b, hb⟩ := first_isSome pos ha
  have hlate := late_of_first code hb
  simp only [collide, h.main hb]
  by_cases hcode : code b = code a
  · -- the entry is at its main position, or one with the same code is
    rw [if_pos hcode]
    exact ⟨t, l, rfl, h.stay (hlate.trans (decide_eq_false fun hne ↦ hne hcode))⟩
  · have hlate' := hlate.trans (decide_eq_true hcode)
    obtain ⟨i, hi⟩ := h.free_isSome hlen hsub hdone ha hlate' hnew
    rw [if_neg hcode, hi]
    exact ⟨_, _, rfl, h.insert hb hlate' hi⟩

/-- **Both passes.** The table takes as many entries as it has slots. -/
theorem fill_spec (pos : α → ℕ) (code : α → κ) (has : as.Nodup) (hlen : as.length ≤ size) :
    ∃ t l, fill pos code size as = some t ∧ Chained pos code size as as t l := by
  have hloop : ∀ (rest done : List α) t l, as = done ++ rest → Chained pos code size as done t l →
      ∃ t' l', rest.foldlM (collide pos code size) t = some t' ∧
        Chained pos code size as as t' l' := by
    intro rest
    induction rest with
    | nil =>
      intro done t l heq h
      rw [List.append_nil] at heq
      exact ⟨t, l, rfl, by rw [heq] at h ⊢; exact h⟩
    | cons a rest ih =>
      intro done t l heq h
      have hnodup : (done ++ a :: rest).Nodup := heq ▸ has
      rw [List.nodup_append] at hnodup
      have hnew : a ∉ done := fun hmem ↦ hnodup.2.2 a hmem a List.mem_cons_self rfl
      have ha : a ∈ as := by
        rw [heq]
        exact List.mem_append_right done List.mem_cons_self
      have hsub : done ⊆ as := by
        rw [heq]
        exact List.subset_append_left done _
      obtain ⟨t', l', hcollide, hchained⟩ := h.step hlen hsub hnodup.1 ha hnew
      obtain ⟨t'', l'', hfold, hall⟩ :=
        ih (done ++ [a]) t' l' (by rw [heq, List.append_assoc]; rfl) hchained
      refine ⟨t'', l'', ?_, hall⟩
      rw [List.foldlM_cons, hcollide]
      exact hfold
  exact hloop as [] _ _ rfl (chained_nil as)

/-! ## The chains -/

/-- **The chain of a main position** ends, and has no slot twice. -/
theorem Chained.chain (h : Chained pos code size as done t l) (hp : first pos as p = some b) :
    LinkQueue.Chain t.next (some p) (p :: l p) ∧ (p :: l p).Nodup := by
  have hchain := h.threads.chain p
  rw [hp] at hchain
  refine ⟨⟨rfl, hchain⟩, List.nodup_cons.mpr ⟨fun hmem ↦ ?_, h.threads.nodup p⟩⟩
  have hnone := (h.tail hmem).1
  rw [hp] at hnone
  cases hnone

/-- The slots on it have entries of that main position. -/
theorem Chained.pos_of_mem (h : Chained pos code size as as t l) (hp : first pos as p = some b)
    (hs : s ∈ p :: l p) : ∃ x, t.slot s = some x ∧ pos x = p ∧ x ∈ as := by
  rcases List.mem_cons.mp hs with heq | hs
  · rw [heq]
    exact ⟨b, h.main hp, (mem_of_first hp).2, (mem_of_first hp).1⟩
  · obtain ⟨x, hx, hpos, -, hmem⟩ := h.of_mem_tail hs
    exact ⟨x, hx, hpos, hmem⟩

/-- Each entry is on the chain of its main position, or one with the same code is. -/
theorem Chained.exists_slot (h : Chained pos code size as as t l) (ha : a ∈ as) :
    ∃ s ∈ pos a :: l (pos a), ∃ x, t.slot s = some x ∧ code x = code a := by
  obtain ⟨b, hb⟩ := first_isSome pos ha
  by_cases hcode : code b = code a
  · exact ⟨pos a, List.mem_cons_self, b, h.main hb, hcode⟩
  · have hlate : late pos code as a = true := by
      rw [late_of_first code hb]
      exact decide_eq_true hcode
    have hmem : some a ∈ (l (pos a)).map t.slot := by
      rw [h.content]
      refine List.mem_map_of_mem (List.mem_reverse.mpr (List.mem_filter.mpr ⟨ha, ?_⟩))
      rw [hlate, decide_eq_true rfl]
      rfl
    obtain ⟨s, hs, heq⟩ := List.mem_map.mp hmem
    exact ⟨s, List.mem_cons_of_mem _ hs, a, heq, rfl⟩

omit [DecidableEq κ] in
/-- A chain can be entered anywhere. -/
theorem chain_suffix {next : ℕ → Option ℕ} {q : Option ℕ} {xs ys : List ℕ}
    (h : LinkQueue.Chain next q (xs ++ s :: ys)) : LinkQueue.Chain next (some s) (s :: ys) := by
  induction xs generalizing q with
  | nil => exact ⟨rfl, h.2⟩
  | cons x xs ih => exact ih h.2

/-- From any slot with an entry the links lead through slots with entries, and end. -/
theorem Chained.chain_from (h : Chained pos code size as as t l) (hs : t.slot s = some x) :
    ∃ ns, LinkQueue.Chain t.next (some s) (s :: ns) ∧ (s :: ns).Nodup ∧
      ∀ n ∈ s :: ns, ∃ y, t.slot n = some y := by
  have hwhole : ∃ p b, first pos as p = some b ∧ s ∈ p :: l p := by
    rcases h.of_slot hs with hfirst | ⟨-, htail, -, hmem⟩
    · exact ⟨s, x, hfirst, List.mem_cons_self⟩
    · obtain ⟨b, hb⟩ := first_isSome pos hmem
      exact ⟨pos x, b, hb, List.mem_cons_of_mem _ htail⟩
  obtain ⟨p, b, hp, hmem⟩ := hwhole
  obtain ⟨hchain, hnodup⟩ := h.chain hp
  obtain ⟨xs, ns, hsplit⟩ := List.append_of_mem hmem
  rw [hsplit] at hchain hnodup
  refine ⟨ns, chain_suffix hchain, (List.nodup_append.mp hnodup).2.1, fun n hn ↦ ?_⟩
  obtain ⟨y, hy, -⟩ := h.pos_of_mem hp (s := n) (by
    rw [hsplit]
    exact List.mem_append_right xs hn)
  exact ⟨y, hy⟩

/-- **Every slot has one entry, and every entry one slot**, if the codes differ and there are as
many entries as slots. -/
theorem Chained.perm (h : Chained pos code size as as t l) (has : as.Nodup)
    (hlen : as.length = size)
    (hpos : ∀ a ∈ as, pos a < size) (hcode : ∀ a ∈ as, ∀ b ∈ as, code a = code b → a = b) :
    ((List.range size).map t.slot).Perm (as.map some) := by
  have hsub : as.map some ⊆ (List.range size).map t.slot := by
    intro o ho
    obtain ⟨a, ha, rfl⟩ := List.mem_map.mp ho
    obtain ⟨s, hs, x, hx, heq⟩ := h.exists_slot ha
    have hxa : x = a := hcode x (h.mem (List.Subset.refl as) hx) a ha heq
    have hlt : s < size := by
      rcases List.mem_cons.mp hs with heq | hs
      · rw [heq]
        exact hpos a ha
      · exact (h.tail hs).2
    exact List.mem_map.mpr ⟨s, List.mem_range.mpr hlt, hxa ▸ hx⟩
  have hsubperm := List.subperm_of_subset (has.map (Option.some_injective α)) hsub
  refine (hsubperm.perm_of_length_le ?_).symm
  rw [List.length_map, List.length_map, List.length_range, hlen]

end Scatter

end Lib
