import ZTask.Snc.Tasks
import Mathlib.Data.List.Nodup

/-!
# Every coroutine is kept until it ends

What is on the frames is in the tree, and what is in the tree has not ended (`Kept`). So a coroutine
that ends is found in the tree by the caller of `coroutine_resume`, whoever that is, and nobody else
has taken it out before. From then on its session is in no coroutine of the tree, and sessions do
not come back before they wrap; so it is not found again (`Recorded`).

## Frames and the tree

By `Kept` the coroutines of the tree have different sessions and have not ended, a coroutine on a
frame is in the tree, and the count of tasks of the context is the size of the tree. A coroutine is
entered by `coroutine_resume`, which may be called inside of another one; the frames are the ones
that are entered and not left. `Recorded` is about those that have ended.

## Steps

A step enters a coroutine, leaves one, makes one or ends one; each has a lemma for either part, and
`Kept.step` collects them. Sessions are counted up, and the theorem is about runs in which the
counter has not come round (`coroutines_booked`).
-/

namespace ZTask

open Lib

namespace SncTasks

variable {s s' : SncTasks} {l : List SncAction} {c n thread : ℕ} {x : CoroutineS}

/-! ## The invariant -/

structure Kept (s : SncTasks) : Prop where
  ok : s.cos.Ok
  nodup : (s.tree.map s.session).Nodup
  count : s.taskCount = s.tree.length
  small : s.tree.length ≤ s.sessionId
  bounded : ∀ c ∈ s.tree, s.session c ≤ s.sessionId
  alive : ∀ c ∈ s.tree, ∃ x, s.cos.co c = some x ∧ x.status ≠ .ended
  chained : ∀ t, ∀ f ∈ s.cos.chain t, f.co ∈ s.tree

/-- A coroutine that has ended has been removed and deleted, has a session that is not in use, and
is not entered afterwards. -/
structure Recorded (l : List SncAction) (s : SncTasks) : Prop where
  settled : ∀ n, l.count (.removed n) = l.count (.finished n) ∧
    l.count (.deleted n) = l.count (.finished n) ∧ l.count (.finished n) ≤ 1
  gone : ∀ {n}, .finished n ∈ l → n ≤ s.sessionId ∧ ∀ c ∈ s.tree, s.session c ≠ n
  last : l.Pairwise fun a b ↦ ∀ n, a = .finished n → b ≠ .entered n

private theorem kept_init : Kept init where
  ok := Coroutines.ok_init
  nodup := .nil
  count := rfl
  small := Nat.le_refl 0
  bounded _ hc := nomatch hc
  alive _ hc := nomatch hc
  chained _ _ hf := nomatch hf

private theorem recorded_init : Recorded [] init where
  settled _ := ⟨rfl, rfl, Nat.zero_le 1⟩
  gone hn := nomatch hn
  last := .nil

theorem Kept.tree_nodup (h : Kept s) : s.tree.Nodup := h.nodup.of_map

theorem Kept.fresh_not_mem (h : Kept s) (hc : s.cos.co c = none) : c ∉ s.tree := by
  intro hmem
  obtain ⟨x, hx, -⟩ := h.alive c hmem
  rw [hc] at hx
  cases hx

private theorem find_mem {session : ℤ} (hn : n ∈ s.find session) :
    n ∈ s.tree := List.mem_of_find?_eq_some hn

theorem Kept.off_chain (h : Kept s) (hc : ∀ x, s.cos.co c = some x → x.live = false) :
    ∀ t, ∀ f ∈ s.cos.chain t, f.co ≠ c := h.ok.off_chain hc

/-! ## A new coroutine -/

private theorem newsession_eq (h : s.sessionId + 1 < 2 ^ 31) :
    newsession s.sessionId = s.sessionId + 1 := if_pos h

theorem Kept.new (h : Kept s) (hc : s.cos.co c = none) : Kept (s.new c) where
  __ := h
  ok := h.ok.setCo (h.off_chain fun y hy ↦ by rw [hc] at hy; cases hy) fun y hy ↦ by
    cases hy
    rfl
  alive d hd := by
    have hne : d ≠ c := fun heq ↦ h.fresh_not_mem hc (heq ▸ hd)
    obtain ⟨y, hy, hstatus⟩ := h.alive d hd
    exact ⟨y, (Function.update_of_ne hne ..).trans hy, hstatus⟩

/-- A new session is in no coroutine of the tree. -/
theorem Kept.adopt_eq (h : Kept s) (hc : s.cos.co c = none) (hlt : s.sessionId + 1 < 2 ^ 31) :
    s.adopt c = { s.new c with
      taskCount := s.taskCount + 1
      sessionId := s.sessionId + 1
      session := Function.update s.session c (s.sessionId + 1)
      tree := s.tree ++ [c] } := by
  have hsmall := h.small
  have hnone : ¬ ∃ d ∈ s.tree, Function.update s.session c (s.sessionId + 1) d =
      Function.update s.session c (s.sessionId + 1) c := by
    rintro ⟨d, hd, heq⟩
    have hne : d ≠ c := fun hdc ↦ h.fresh_not_mem hc (hdc ▸ hd)
    have hle := h.bounded d hd
    rw [Function.update_of_ne hne, Function.update_self] at heq
    omega
  have hcount : (s.taskCount + 1) % 2 ^ 32 = s.taskCount + 1 := by
    rw [h.count]
    exact Nat.mod_eq_of_lt (by omega)
  rw [adopt, insert]
  dsimp only
  rw [newsession_eq hlt, hcount]
  exact if_neg hnone

theorem Kept.adopt (h : Kept s) (hc : s.cos.co c = none) (hlt : s.sessionId + 1 < 2 ^ 31) :
    Kept (s.adopt c) := by
  have hnew := h.new hc
  have hfresh := h.fresh_not_mem hc
  have hold : ∀ d ∈ s.tree, Function.update s.session c (s.sessionId + 1) d = s.session d :=
    fun d hd ↦ Function.update_of_ne (fun heq : d = c ↦ hfresh (heq ▸ hd)) ..
  rw [h.adopt_eq hc hlt]
  constructor
  · exact hnew.ok
  · dsimp only
    rw [List.map_append, List.map_congr_left hold, List.map_singleton, Function.update_self]
    refine List.nodup_append.mpr ⟨h.nodup, List.nodup_singleton _, ?_⟩
    rintro a ha b hb rfl
    obtain ⟨d, hd, rfl⟩ := List.mem_map.mp ha
    have hle := h.bounded d hd
    rw [List.mem_singleton.mp hb] at hle
    omega
  · dsimp only
    rw [List.length_append, List.length_singleton, h.count]
  · dsimp only
    rw [List.length_append, List.length_singleton]
    exact Nat.succ_le_succ h.small
  · refine List.forall_mem_append.mpr ⟨fun d hd ↦ ?_, List.forall_mem_singleton.mpr ?_⟩
    · dsimp only
      rw [hold d hd]
      exact Nat.le_succ_of_le (h.bounded d hd)
    · exact Nat.le_of_eq (Function.update_self ..)
  · refine List.forall_mem_append.mpr ⟨hnew.alive, List.forall_mem_singleton.mpr ?_⟩
    exact ⟨_, Function.update_self .., fun heq ↦ nomatch heq⟩
  · exact fun t f hf ↦ List.mem_append_left _ (h.chained t f hf)

theorem Recorded.adopt (h : Recorded l s) (hkept : Kept s) (hc : s.cos.co c = none)
    (hlt : s.sessionId + 1 < 2 ^ 31) : Recorded l (s.adopt c) := by
  rw [hkept.adopt_eq hc hlt]
  refine ⟨h.settled, fun {n} hn ↦ ?_, h.last⟩
  obtain ⟨hle, hother⟩ := h.gone hn
  refine ⟨Nat.le_succ_of_le hle, List.forall_mem_append.mpr ⟨fun d hd ↦ ?_,
    List.forall_mem_singleton.mpr ?_⟩⟩
  · have hne : d ≠ c := fun heq ↦ hkept.fresh_not_mem hc (heq ▸ hd)
    dsimp only
    rw [Function.update_of_ne hne]
    exact hother d hd
  · dsimp only
    rw [Function.update_self]
    omega

/-! ## A coroutine is entered -/

theorem Kept.enter (h : Kept s) (hc : c ∈ s.tree) (hx : s.cos.co c = some x)
    (hlive : x.live = false) (hstatus : x.status = .suspend ∨ x.status = .ready) {y : CoroutineS}
    (hy : y = Coroutines.enter { x with cOld := s.cos.curKey thread }) :
    Kept { s with cos := s.cos.push thread c y } := by
  subst hy
  have hmove : CoroutineMove s.cos (.resume thread (some c)) _ := .push hx hlive hstatus
  refine { h with ok := hmove.ok h.ok, alive := fun d hd ↦ ?_, chained := fun t f hf ↦ ?_ }
  · by_cases hdc : d = c
    · subst hdc
      refine ⟨_, Function.update_self .., ?_⟩
      rcases hstatus with hs | hs <;> simp [Coroutines.enter, hs]
    · obtain ⟨y, hy, hended⟩ := h.alive d hd
      exact ⟨y, (Function.update_of_ne hdc ..).trans hy, hended⟩
  · rcases Coroutines.mem_push hf with ⟨-, rfl⟩ | hf
    · exact hc
    · exact h.chained t f hf

theorem Recorded.enter (h : Recorded l s) (hc : c ∈ s.tree) (cos : Coroutines) :
    Recorded (l ++ [.entered (s.session c)]) { s with cos := cos } where
  settled n := by
    simp only [List.count_append, List.count_singleton]
    exact h.settled n
  gone hn := by
    rcases List.mem_append.mp hn with hn | hn
    · exact h.gone hn
    · cases List.mem_singleton.mp hn
  last := by
    refine List.pairwise_append.mpr ⟨h.last, List.pairwise_singleton _ _, ?_⟩
    rintro a ha b hb n rfl heq
    rw [List.mem_singleton.mp hb] at heq
    exact (h.gone ha).2 c hc (SncAction.entered.inj heq)

/-- **`coroutine_resume`** of a coroutine in the tree that is not running. -/
theorem Kept.resume (h : Kept s) (hrec : Recorded l s) (thread : ℕ) (hc : c ∈ s.tree)
    (hidle : ∀ x ∈ s.cos.co c, x.live = false) :
    ∃ s' actions, s.resume thread c = .ok (s', actions) ∧ Kept s' ∧ Recorded (l ++ actions) s' ∧
      s'.sessionId = s.sessionId := by
  obtain ⟨x, hx, hended⟩ := h.alive c hc
  have hlive := hidle x hx
  rw [SncTasks.resume, Coroutines.resume, hx]
  dsimp only
  by_cases hstatus : x.status ≠ .suspend ∧ x.status ≠ .ready
  · rw [if_pos hstatus]
    exact ⟨s, [], rfl, h, (List.append_nil l).symm ▸ hrec, rfl⟩
  · rw [if_neg hstatus, if_neg (by simp [hlive])]
    exact ⟨_, _, rfl, h.enter hc hx hlive (by tauto) rfl, hrec.enter hc _, rfl⟩

/-! ## A coroutine is left -/

section Leave

variable {frame : ResumeFrame} {frames : List ResumeFrame}

theorem Kept.leave (h : Kept s) (hchain : s.cos.chain thread = frame :: frames)
    (hx : x.status ≠ .ended) : Kept { s with cos := (s.cos.leave thread frame frames x).1 } := by
  refine { h with
    ok := h.ok.leave hchain
    alive := fun d hd ↦ ?_
    chained := fun t f hf ↦ h.chained t f (h.ok.mem_leave hchain hf).1 }
  by_cases hdc : d = frame.co
  · subst hdc
    exact ⟨_, Function.update_self .., hx⟩
  · obtain ⟨y, hy, hended⟩ := h.alive d hd
    exact ⟨y, (Function.update_of_ne hdc ..).trans hy, hended⟩

theorem Recorded.same {s' : SncTasks} (h : Recorded l s) (hid : s'.sessionId = s.sessionId)
    (htree : s'.tree = s.tree) (hsession : s'.session = s.session) : Recorded l s' := by
  refine ⟨h.settled, fun hn ↦ ?_, h.last⟩
  rw [hid, htree, hsession]
  exact h.gone hn

theorem Kept.innermost (h : Kept s) (hchain : s.cos.chain thread = frame :: frames) :
    frame.co ∈ s.tree ∧ ∃ x, s.cos.co frame.co = some x := by
  have hframe : frame ∈ s.cos.chain thread := hchain ▸ List.mem_cons_self
  obtain ⟨x, hx, -⟩ := h.ok.entered thread frame hframe
  exact ⟨h.chained thread frame hframe, x, hx⟩

theorem Kept.yield (h : Kept s) (hrec : Recorded l s) (thread : ℕ) :
    s.yield thread = .error .nullDeref ∨
    ∃ s', s.yield thread = .ok (s', []) ∧ Kept s' ∧ Recorded l s' ∧ s'.sessionId = s.sessionId := by
  have hcur := h.ok.cur thread
  cases hchain : s.cos.chain thread with
  | nil =>
    rw [hchain] at hcur
    left
    rw [SncTasks.yield, Coroutines.yield, hcur]
    rfl
  | cons frame frames =>
    rw [hchain] at hcur
    obtain ⟨-, x, hx⟩ := h.innermost hchain
    have hleft : s.yield thread = .ok ({ s with
        cos := (s.cos.leave thread frame frames { x with status := .suspend }).1 }, []) := by
      rw [SncTasks.yield, Coroutines.yield, hcur]
      simp [hx, hchain, Coroutines.leave, SncTasks.leave, settle]
    exact .inr ⟨_, hleft, h.leave hchain (fun heq ↦ by cases heq), hrec.same rfl rfl rfl, rfl⟩

/-- It has ended: it is removed and deleted. -/
theorem Kept.remove (h : Kept s) (hchain : s.cos.chain thread = frame :: frames) {n : ℕ}
    (hn : n + 1 = s.tree.length) :
    Kept { s with
      cos := (s.cos.leave thread frame frames x).1.setCo frame.co none
      tree := s.tree.erase frame.co
      taskCount := n } := by
  have hmem := (h.innermost hchain).1
  have hlength : (s.tree.erase frame.co).length = n := by
    rw [List.length_erase_of_mem hmem, ← hn, Nat.add_sub_cancel]
  have hold : ∀ d ∈ s.tree.erase frame.co, d ≠ frame.co ∧ d ∈ s.tree := fun d hd ↦
    ⟨((h.tree_nodup.mem_erase_iff).mp hd).1, List.mem_of_mem_erase hd⟩
  have hleft : ∀ t, ∀ f ∈ (s.cos.leave thread frame frames x).1.chain t,
      f ∈ s.cos.chain t ∧ f.co ≠ frame.co := fun t f hf ↦ h.ok.mem_leave hchain hf
  constructor
  · exact (h.ok.leave hchain).setCo (fun t f hf ↦ (hleft t f hf).2) fun y hy ↦ nomatch hy
  · exact h.nodup.sublist ((List.erase_sublist).map _)
  · exact hlength.symm
  · dsimp only
    have hsmall := h.small
    omega
  · exact fun d hd ↦ h.bounded d (hold d hd).2
  · intro d hd
    obtain ⟨hne, hd⟩ := hold d hd
    obtain ⟨y, hy, hended⟩ := h.alive d hd
    refine ⟨y, ?_, hended⟩
    exact (Function.update_of_ne hne ..).trans ((Function.update_of_ne hne ..).trans hy)
  · intro t f hf
    obtain ⟨hf, hne⟩ := hleft t f hf
    exact (List.mem_erase_of_ne hne).mpr (h.chained t f hf)

theorem Recorded.remove (h : Recorded l s) (hkept : Kept s) (hc : c ∈ s.tree) {s' : SncTasks}
    (hid : s'.sessionId = s.sessionId) (htree : s'.tree = s.tree.erase c)
    (hsession : s'.session = s.session) :
    Recorded (l ++ [.finished (s.session c), .removed (s.session c),
      .deleted (s.session c)]) s' where
  settled n := by
    obtain ⟨hremoved, hdeleted, honce⟩ := h.settled n
    simp only [List.count_append, hremoved, hdeleted]
    by_cases hn : s.session c = n
    · subst hn
      have hnone : l.count (.finished (s.session c)) = 0 :=
        List.count_eq_zero.mpr fun hmem ↦ (h.gone hmem).2 c hc rfl
      simp [hnone]
    · simp [hn, honce]
  gone {n} hn := by
    rw [hid, htree, hsession]
    rcases List.mem_append.mp hn with hn | hn
    · obtain ⟨hle, hother⟩ := h.gone hn
      exact ⟨hle, fun d hd ↦ hother d (List.mem_of_mem_erase hd)⟩
    · have heq : n = s.session c := by simpa using hn
      subst heq
      refine ⟨hkept.bounded c hc, fun d hd heq ↦ ?_⟩
      obtain ⟨hne, hd⟩ := hkept.tree_nodup.mem_erase_iff.mp hd
      exact hne (List.inj_on_of_nodup_map hkept.nodup hd hc heq)
  last := by
    refine List.pairwise_append.mpr ⟨h.last, ?_, ?_⟩
    · simp
    · rintro a - b hb n - rfl
      simp at hb

theorem Kept.finish (h : Kept s) (hrec : Recorded l s) (hlt : s.sessionId + 1 < 2 ^ 31)
    (thread : ℕ) :
    ∃ s' actions, s.finish thread = .ok (s', actions) ∧ Kept s' ∧ Recorded (l ++ actions) s' ∧
      s'.sessionId = s.sessionId := by
  cases hchain : s.cos.chain thread with
  | nil =>
    rw [SncTasks.finish, hchain]
    exact ⟨s, [], rfl, h, (List.append_nil l).symm ▸ hrec, rfl⟩
  | cons frame frames =>
    obtain ⟨hmem, x, hx⟩ := h.innermost hchain
    obtain ⟨n, hn⟩ := Nat.exists_eq_succ_of_ne_zero
      (Nat.ne_of_gt (List.length_pos_of_mem hmem))
    -- the coroutine as it is marked before it is deleted
    let y : CoroutineS := { x with status := .ended }
    -- the count is an unsigned int, and there is something to take from it
    have hcount : (s.taskCount + (2 ^ 32 - 1)) % 2 ^ 32 = n := by
      have hsmall := h.small
      have hlength := h.count
      omega
    -- the three effects in the order in which the source has them
    have hfinish : s.finish thread = .ok ({ s with
        cos := (s.cos.leave thread frame frames y).1.setCo frame.co none
        tree := s.tree.erase frame.co
        taskCount := n },
        [.finished (s.session frame.co), .removed (s.session frame.co),
          .deleted (s.session frame.co)]) := by
      have hended : s.cos.finish thread =
          .ok ((s.cos.leave thread frame frames y).1, some 1) := by
        rw [Coroutines.finish, hchain]
        dsimp only
        rw [hx]
        rfl
      have hdelete : (s.cos.leave thread frame frames y).1.delete frame.co =
          .ok ((s.cos.leave thread frame frames y).1.setCo frame.co none, none) := by
        have hco : (s.cos.leave thread frame frames y).1.co frame.co =
            some { y with live := false } :=
          Function.update_self ..
        rw [Coroutines.delete, hco]
        exact if_neg (not_not_intro rfl)
      have hfreed : (((s.cos.leave thread frame frames y).1.setCo frame.co none).co
          frame.co).isNone = true := by
        rw [Coroutines.setCo]
        dsimp only
        rw [Function.update_self]
        rfl
      rw [SncTasks.finish, hchain]
      dsimp only
      rw [hended]
      dsimp only
      rw [SncTasks.leave, hchain]
      dsimp only
      rw [Option.getD_some, settle, if_neg Nat.one_ne_zero, if_pos hmem, hdelete]
      dsimp only
      rw [hcount, hfreed]
      rfl
    exact ⟨_, _, hfinish, h.remove hchain hn.symm, hrec.remove h hmem rfl rfl rfl, rfl⟩

end Leave

/-! ## Steps -/

/-- What a step comes to: everything is kept and recorded, or there is no current coroutine or no
memory, or the service has not been launched. -/
def Fine (l : List SncAction) (s : SncTasks) : Outcome → Prop
  | .ok (s', actions) => Kept s' ∧ Recorded (l ++ actions) s' ∧
    (s'.sessionId = s.sessionId ∨ s'.sessionId = s.sessionId + 1)
  | .error fault => fault = .nullDeref ∨ fault = .assertion

private theorem fine_same (h : Kept s') (hrec : Recorded l s') (hid : s'.sessionId = s.sessionId) :
    Fine l s (.ok (s', [])) :=
  ⟨h, (List.append_nil l).symm ▸ hrec, .inl hid⟩

theorem Kept.found (h : Kept s) (hrec : Recorded l s) {session : ℤ} (hidle : s.Suspended session) :
    Fine l s (match s.find session with
      | none => .ok (s, [])
      | some n => s.resume thread n) := by
  cases hfind : s.find session with
  | none => exact fine_same h hrec rfl
  | some n =>
    obtain ⟨s', actions, hresume, hkept, hrec', hid⟩ :=
      h.resume hrec thread (find_mem hfind) (hidle n hfind)
    dsimp only
    rw [hresume]
    exact ⟨hkept, hrec', .inl hid⟩

/-- A new coroutine is kept and resumed. -/
theorem Kept.begin (h : Kept s) (hrec : Recorded l s) (hc : s.cos.co c = none)
    (hlt : s.sessionId + 1 < 2 ^ 31) : Fine l s ((s.adopt c).resume thread c) := by
  have hadopt := h.adopt_eq hc hlt
  have hidle : ∀ x ∈ (s.adopt c).cos.co c, x.live = false := by
    intro x hx
    rw [hadopt] at hx
    simp only [SncTasks.new, Coroutines.setCo, Function.update_self] at hx
    cases hx
    rfl
  have hmem : c ∈ (s.adopt c).tree := by
    rw [hadopt]
    exact List.mem_append_right _ (List.mem_singleton.mpr rfl)
  obtain ⟨s', actions, hresume, hkept, hrec', hid⟩ :=
    (h.adopt hc hlt).resume (hrec.adopt h hc hlt) thread hmem hidle
  rw [hresume]
  refine ⟨hkept, hrec', .inr (hid.trans ?_)⟩
  rw [hadopt]

/-- **A step** keeps the coroutines that have not ended, and records those that have. -/
theorem Kept.step (h : Kept s) (hrec : Recorded l s) (hlt : s.sessionId + 1 < 2 ^ 31)
    {input : SncTaskInput} (hallowed : s.Allowed input) : Fine l s (sncTasks s input) := by
  cases input with
  | message thread type session args c =>
    obtain ⟨hfresh, hidle⟩ := hallowed
    by_cases hlaunched : s.launched = true
    · simp only [sncTasks, if_pos hlaunched, cb]
      by_cases htype : type = ptypeResponse
      · rw [if_pos htype]
        exact h.found hrec (hidle hlaunched htype)
      · rw [if_neg htype]
        cases c with
        | none => exact fine_same h hrec rfl
        | some c =>
          dsimp only
          split
          · exact h.begin hrec (hfresh c rfl) hlt
          · exact fine_same (h.new (hfresh c rfl)) (hrec.same rfl rfl rfl) rfl
    · simp only [sncTasks, if_neg hlaunched, launchCb]
      split
      · cases args with
        | none => exact fine_same h hrec rfl
        | some args =>
          dsimp only
          split
          · cases c with
            | none => exact .inl rfl
            | some c =>
              have hkept : Kept { s with hasCb := args.cb, launched := true } := { h with }
              exact hkept.begin (hrec.same rfl rfl rfl) (hfresh c rfl) hlt
          · exact fine_same { h with } (hrec.same rfl rfl rfl) rfl
      · exact .inr rfl
  | timerout thread cb c =>
    simp only [sncTasks, timerout]
    split
    · split
      next a c _ =>
        have hc := hallowed c rfl
        have hid : (s.adopt c).sessionId = s.sessionId + 1 := by rw [h.adopt_eq hc hlt]
        exact ⟨h.adopt hc hlt, (List.append_nil l).symm ▸ hrec.adopt h hc hlt, .inr hid⟩
      next => exact .inl rfl
    · exact fine_same h hrec rfl
  | wake thread session =>
    simp only [sncTasks, wake]
    split
    · exact .inl rfl
    · exact h.found hrec hallowed
  | yield thread =>
    rcases h.yield hrec thread with hnull | ⟨s', hyield, hkept, hrec', hid⟩
    · rw [sncTasks, hnull]
      exact .inl rfl
    · rw [sncTasks, hyield]
      exact fine_same hkept hrec' hid
  | finish thread =>
    obtain ⟨s', actions, hfinish, hkept, hrec', hid⟩ := h.finish hrec hlt thread
    rw [sncTasks, hfinish]
    exact ⟨hkept, hrec', .inl hid⟩
  | newsession =>
    rw [sncTasks, newsession_eq hlt]
    refine ⟨{ h with
      small := Nat.le_succ_of_le h.small
      bounded := fun d hd ↦ Nat.le_succ_of_le (h.bounded d hd) }, ?_, .inr rfl⟩
    rw [List.append_nil]
    exact ⟨hrec.settled, fun hn ↦ ⟨Nat.le_succ_of_le (hrec.gone hn).1, (hrec.gone hn).2⟩, hrec.last⟩

/-! ## Runs -/

variable {tr : List SncTaskEvent}

private theorem allocated_concat (tr : List SncTaskEvent) (e : SncTaskEvent) :
    allocated (tr ++ [e]) =
      allocated tr + if e.post.sessionId ≠ e.pre.sessionId then 1 else 0 := by
  simp [allocated, List.countP_append, List.countP_cons]

/-- Everything is kept and recorded, as long as sessions have not wrapped. -/
theorem kept_run (hrun : Run sncTasks init tr s) (hallowed : Meets Allowed tr)
    (hcount : allocated tr < 2 ^ 31 - 1) :
    Kept s ∧ Recorded (log tr) s ∧ s.sessionId = allocated tr := by
  refine hrun.ledger (fun tr s ↦ allocated tr < 2 ^ 31 - 1 →
    Kept s ∧ Recorded (log tr) s ∧ s.sessionId = allocated tr) ?_ ?_ hallowed hcount
  · exact fun _ ↦ ⟨kept_init, recorded_init, rfl⟩
  · rintro tr s input s' actions - ih hallowed hm hcount
    rw [allocated_concat] at hcount ⊢
    obtain ⟨hkept, hrec, hid⟩ := ih (by omega)
    have hfine := hkept.step hrec (by omega) hallowed
    rw [hm] at hfine
    obtain ⟨hkept', hrec', hid'⟩ := hfine
    refine ⟨hkept', ?_, ?_⟩
    · rw [log, List.flatMap_append, List.flatMap_singleton]
      exact hrec'
    · dsimp only
      rcases hid' with hid' | hid'
      · rw [if_neg (not_not_intro hid'), hid', hid]
        rfl
      · rw [if_pos (by omega), hid', hid]

/-- **The books of an snc service**: the coroutines in the tree have different sessions, the context
counts as many tasks as there are coroutines in the tree, and each coroutine that has ended has been
removed and deleted once and has not been entered again; and no step goes wrong because of a
coroutine that has been deleted, or removed, or is running. -/
theorem coroutines_booked (hrun : Run sncTasks init tr s) (hallowed : Meets Allowed tr)
    (hcount : allocated tr < 2 ^ 31 - 1) :
    (s.tree.map s.session).Nodup ∧ s.taskCount = s.tree.length ∧
    (∀ n, (log tr).count (.removed n) = (log tr).count (.finished n) ∧
      (log tr).count (.deleted n) = (log tr).count (.finished n) ∧
      (log tr).count (.finished n) ≤ 1) ∧
    ((log tr).Pairwise fun a b ↦ ∀ n, a = .finished n → b ≠ .entered n) ∧
    ∀ input, s.Allowed input → ∀ fault, sncTasks s input = .error fault →
      fault = .nullDeref ∨ fault = .assertion := by
  obtain ⟨hkept, hrec, hid⟩ := kept_run hrun hallowed hcount
  refine ⟨hkept.nodup, hkept.count, hrec.settled, hrec.last, fun input hinput fault hm ↦ ?_⟩
  -- what is left are the asserts and a null coroutine; the bookkeeping itself does not fail
  have hfine := hkept.step hrec (by omega) hinput
  rw [hm] at hfine
  exact hfine

/-- A request starts a timer, resumes its coroutine before it is due, and ends; the coroutine of the
timer has ended in between. -/
theorem coroutines_booked_nested : ∃ tr s, Run sncTasks init tr s ∧
    log tr = [.entered 1, .finished 1, .removed 1, .deleted 1, .entered 2, .entered 3, .finished 3,
      .removed 3, .deleted 3, .finished 2, .removed 2, .deleted 2] ∧
    s.taskCount = s.tree.length := by
  have hpasses : Passes sncTasks init
      [.message 0 0 0 (some ⟨true, true⟩) (some 1), .finish 0, .message 0 3 5 none (some 1),
        .timerout 0 true (some 2), .wake 0 3, .finish 0, .finish 0]
      fun tr _ ↦ Meets Allowed tr ∧ allocated tr < 2 ^ 31 - 1 ∧
        log tr = [.entered 1, .finished 1, .removed 1, .deleted 1, .entered 2,
          .entered 3, .finished 3,
          .removed 3, .deleted 3, .finished 2, .removed 2, .deleted 2] := by decide +kernel
  obtain ⟨tr, s, hrun, hallowed, hcount, hlog⟩ := Run.of_passes hpasses
  exact ⟨tr, s, hrun, hlog, (coroutines_booked hrun hallowed hcount).2.1⟩

end SncTasks

end ZTask
