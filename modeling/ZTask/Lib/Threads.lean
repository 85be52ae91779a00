import ZTask.Lib.LinkQueue

/-!
# Lists threaded through the same nodes

A set of nodes with one link each, and several lists of them, no node on two. A node is taken off
the front of one list and put to another, at its front or at its end; a new chain of nodes becomes a
list that has been empty. These are the rules.
-/

namespace Lib

universe u v

variable {α : Type u} {ι : Type v}

/-! ## Threads -/

/-- The links lead from each head through the nodes of its list, and the lists have no node in
common.
-/
structure Threads (next : α → Option α) (head : ι → Option α) (l : ι → List α) : Prop where
  chain : ∀ i, LinkQueue.Chain next (head i) (l i)
  nodup : ∀ i, (l i).Nodup
  apart : ∀ {i j a}, a ∈ l i → a ∈ l j → i = j

namespace Threads

variable {next next' : α → Option α} {head : ι → Option α} {l : ι → List α} {i j : ι} {a t : α}
  {p : Option α} {rest new : List α}

theorem head_cons (h : Threads next head l) (hl : l i = a :: rest) :
    head i = some a ∧ LinkQueue.Chain next (next a) rest := by
  have hchain := h.chain i
  rwa [hl] at hchain

theorem head_eq_none_iff (h : Threads next head l) : head i = none ↔ l i = [] := by
  have hchain := h.chain i
  cases hl : l i with
  | nil =>
    rw [hl] at hchain
    exact ⟨fun _ ↦ rfl, fun _ ↦ hchain⟩
  | cons a rest =>
    rw [(h.head_cons hl).1]
    exact ⟨fun heq ↦ (nomatch heq), fun heq ↦ (nomatch heq)⟩

/-- Links off the lists do not matter. -/
theorem congr {head' : ι → Option α} (h : Threads next head l)
    (hnext : ∀ i, ∀ a ∈ l i, next' a = next a) (hhead : ∀ i, head' i = head i) :
    Threads next' head' l := by
  refine ⟨fun i ↦ ?_, h.nodup, h.apart⟩
  rw [hhead i]
  exact (LinkQueue.chain_congr (hnext i)).mpr (h.chain i)

variable [DecidableEq ι]

/-! ## Moving the front of a thread -/

/-- The lists after a node has gone from one to another. -/
theorem nodup_move (h : Threads next head l) (hij : i ≠ j) (hl : l i = a :: rest)
    (hnew : new.Perm (a :: l j)) :
    (∀ k, (Function.update (Function.update l i rest) j new k).Nodup) ∧
    ∀ {k k' b}, b ∈ Function.update (Function.update l i rest) j new k →
      b ∈ Function.update (Function.update l i rest) j new k' → k = k' := by
  have hi := h.nodup i
  rw [hl, List.nodup_cons] at hi
  have ha : a ∈ l i := by
    rw [hl]
    exact List.mem_cons_self
  have hrest : ∀ {b}, b ∈ rest → b ∈ l i := by
    intro b hb
    rw [hl]
    exact List.mem_cons_of_mem a hb
  -- where a node of the new lists has been
  have hold : ∀ {k b}, b ∈ Function.update (Function.update l i rest) j new k →
      k = j ∧ b = a ∨ b ≠ a ∧ b ∈ l k := by
    intro k b hb
    by_cases hk : k = j
    · subst hk
      rw [Function.update_self, hnew.mem_iff] at hb
      rcases List.mem_cons.mp hb with heq | hb
      · exact .inl ⟨rfl, heq⟩
      · exact .inr ⟨fun heq ↦ hij (h.apart ha (heq ▸ hb)), hb⟩
    · rw [Function.update_of_ne hk] at hb
      by_cases hki : k = i
      · subst hki
        rw [Function.update_self] at hb
        exact .inr ⟨fun heq ↦ hi.1 (heq ▸ hb), hrest hb⟩
      · rw [Function.update_of_ne hki] at hb
        exact .inr ⟨fun heq ↦ hki (h.apart (heq ▸ hb) ha), hb⟩
  refine ⟨fun k ↦ ?_, fun {k k' b} hb hb' ↦ ?_⟩
  · by_cases hk : k = j
    · subst hk
      rw [Function.update_self, hnew.nodup_iff, List.nodup_cons]
      exact ⟨fun hmem ↦ hij (h.apart ha hmem), h.nodup k⟩
    · rw [Function.update_of_ne hk]
      by_cases hki : k = i
      · subst hki
        rw [Function.update_self]
        exact hi.2
      · rw [Function.update_of_ne hki]
        exact h.nodup k
  · rcases hold hb with ⟨hk, heq⟩ | ⟨hne, hb⟩ <;> rcases hold hb' with ⟨hk', heq'⟩ | ⟨hne', hb'⟩
    · exact hk.trans hk'.symm
    · exact (hne' heq).elim
    · exact (hne heq').elim
    · exact h.apart hb hb'

variable [DecidableEq α]

/-- A node off a chain is linked anew. -/
theorem chain_update (h : LinkQueue.Chain next p rest) (ha : a ∉ rest) (q : Option α) :
    LinkQueue.Chain (Function.update next a q) p rest := by
  refine (LinkQueue.chain_congr fun b hb ↦ ?_).mpr h
  have hne : b ≠ a := fun heq ↦ ha (heq ▸ hb)
  exact Function.update_of_ne hne ..

/-- **To the front** of another list. -/
theorem toFront (h : Threads next head l) (hij : i ≠ j) (hl : l i = a :: rest) :
    Threads (Function.update next a (head j))
      (Function.update (Function.update head i (next a)) j (some a))
      (Function.update (Function.update l i rest) j (a :: l j)) := by
  obtain ⟨hnodup, hapart⟩ := h.nodup_move hij hl (List.Perm.refl (a :: l j))
  have ha : a ∈ l i := by
    rw [hl]
    exact List.mem_cons_self
  refine ⟨fun k ↦ ?_, hnodup, hapart⟩
  by_cases hk : k = j
  · subst hk
    rw [Function.update_self, Function.update_self]
    refine ⟨rfl, ?_⟩
    rw [Function.update_self]
    exact chain_update (h.chain k) (fun hmem ↦ hij (h.apart ha hmem)) _
  · rw [Function.update_of_ne hk, Function.update_of_ne hk]
    by_cases hki : k = i
    · subst hki
      rw [Function.update_self, Function.update_self]
      have hi := h.nodup k
      rw [hl, List.nodup_cons] at hi
      exact chain_update (h.head_cons hl).2 hi.1 _
    · rw [Function.update_of_ne hki, Function.update_of_ne hki]
      exact chain_update (h.chain k) (fun hmem ↦ hki (h.apart hmem ha)) _

/-- **To the end** of an empty list. -/
theorem toBack_nil (h : Threads next head l) (hij : i ≠ j) (hl : l i = a :: rest) (hj : l j = []) :
    Threads (Function.update next a none)
      (Function.update (Function.update head i (next a)) j (some a))
      (Function.update (Function.update l i rest) j [a]) := by
  have hfront := h.toFront hij hl
  rw [h.head_eq_none_iff.mpr hj, hj] at hfront
  exact hfront

/-- **To the end** of a list with the last node `t`. -/
theorem toBack (h : Threads next head l) (hij : i ≠ j) (hl : l i = a :: rest)
    (hj : (l j).getLast? = some t) :
    Threads (Function.update (Function.update next a none) t (some a))
      (Function.update head i (next a))
      (Function.update (Function.update l i rest) j (l j ++ [a])) := by
  have hperm : (l j ++ [a]).Perm (a :: l j) := List.perm_append_comm
  obtain ⟨hnodup, hapart⟩ := h.nodup_move hij hl hperm
  have ha : a ∈ l i := by
    rw [hl]
    exact List.mem_cons_self
  have ht : t ∈ l j := List.mem_of_getLast? hj
  have haj : a ∉ l j := fun hmem ↦ hij (h.apart ha hmem)
  refine ⟨fun k ↦ ?_, hnodup, hapart⟩
  by_cases hk : k = j
  · subst hk
    rw [Function.update_self, Function.update_of_ne hij.symm]
    exact LinkQueue.chain_concat (chain_update (h.chain k) haj none) (h.nodup k) hj haj
      (Function.update_self ..)
  · rw [Function.update_of_ne hk]
    by_cases hki : k = i
    · subst hki
      rw [Function.update_self, Function.update_self]
      have hi := h.nodup k
      rw [hl, List.nodup_cons] at hi
      have htk : t ∉ rest := by
        intro hmem
        refine hij (h.apart ?_ ht)
        rw [hl]
        exact List.mem_cons_of_mem a hmem
      exact chain_update (chain_update (h.head_cons hl).2 hi.1 _) htk _
    · rw [Function.update_of_ne hki, Function.update_of_ne hki]
      exact chain_update (chain_update (h.chain k) (fun hmem ↦ hki (h.apart hmem ha)) _)
        (fun hmem ↦ hk (h.apart hmem ht)) _

/-! ## New elements -/

/-- **A new node** at the front of a list. -/
theorem push (h : Threads next head l) (j : ι) (ha : ∀ i, a ∉ l i) :
    Threads (Function.update next a (head j)) (Function.update head j (some a))
      (Function.update l j (a :: l j)) := by
  have hold : ∀ {k b}, b ∈ Function.update l j (a :: l j) k → k = j ∧ b = a ∨ b ∈ l k := by
    intro k b hb
    by_cases hk : k = j
    · subst hk
      rw [Function.update_self] at hb
      rcases List.mem_cons.mp hb with heq | hb
      · exact .inl ⟨rfl, heq⟩
      · exact .inr hb
    · rw [Function.update_of_ne hk] at hb
      exact .inr hb
  refine ⟨fun k ↦ ?_, fun k ↦ ?_, fun {k k' b} hb hb' ↦ ?_⟩
  · by_cases hk : k = j
    · subst hk
      rw [Function.update_self, Function.update_self]
      refine ⟨rfl, ?_⟩
      rw [Function.update_self]
      exact chain_update (h.chain k) (ha k) _
    · rw [Function.update_of_ne hk, Function.update_of_ne hk]
      exact chain_update (h.chain k) (ha k) _
  · by_cases hk : k = j
    · subst hk
      rw [Function.update_self, List.nodup_cons]
      exact ⟨ha k, h.nodup k⟩
    · rw [Function.update_of_ne hk]
      exact h.nodup k
  · rcases hold hb with ⟨hk, heq⟩ | hb <;> rcases hold hb' with ⟨hk', heq'⟩ | hb'
    · exact hk.trans hk'.symm
    · exact (ha k' (heq ▸ hb')).elim
    · exact (ha k (heq' ▸ hb)).elim
    · exact h.apart hb hb'

omit [DecidableEq α] in
/-- **New nodes** for a list that is empty. -/
theorem add (h : Threads next head l) (hi : l i = []) (hchain : LinkQueue.Chain next' p new)
    (hsame : ∀ k, ∀ b ∈ l k, next' b = next b) (hnodup : new.Nodup)
    (hfresh : ∀ k, ∀ b ∈ l k, b ∉ new) :
    Threads next' (Function.update head i p) (Function.update l i new) := by
  have hold : ∀ {k b}, b ∈ Function.update l i new k → k = i ∧ b ∈ new ∨ b ∈ l k := by
    intro k b hb
    by_cases hk : k = i
    · subst hk
      rw [Function.update_self] at hb
      exact .inl ⟨rfl, hb⟩
    · rw [Function.update_of_ne hk] at hb
      exact .inr hb
  refine ⟨fun k ↦ ?_, fun k ↦ ?_, fun {k k' b} hb hb' ↦ ?_⟩
  · by_cases hk : k = i
    · subst hk
      rw [Function.update_self, Function.update_self]
      exact hchain
    · rw [Function.update_of_ne hk, Function.update_of_ne hk]
      exact (LinkQueue.chain_congr (hsame k)).mpr (h.chain k)
  · by_cases hk : k = i
    · subst hk
      rw [Function.update_self]
      exact hnodup
    · rw [Function.update_of_ne hk]
      exact h.nodup k
  · rcases hold hb with ⟨hk, hb⟩ | hb <;> rcases hold hb' with ⟨hk', hb'⟩ | hb'
    · exact hk.trans hk'.symm
    · exact (hfresh _ _ hb' hb).elim
    · exact (hfresh _ _ hb hb').elim
    · exact h.apart hb hb'

end Threads

end Lib
