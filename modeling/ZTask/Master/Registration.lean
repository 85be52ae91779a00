import ZTask.Master.Cmaster

/-!
# Registration of slaves

`slave_node` is keyed by the slave's id, a connection has the id as an argument. As long as no slave
reports itself under an id that is registered, the two belong together: an entry is of a connection
that is there, and a connection has its entry (`Registered`). Then what ends with a connection is
its own registration, and a newcomer is told the number of slaves that connect to it.

When a slave comes back before its old connection is lost, it is not told this number: its old
connection counts. And what ends with the old connection is the registration of the new one. So the
condition is exact (`sound_iff_fresh`).
-/

namespace ZTask

open Lib

namespace Master

abbrev MasterEvent := Event Master MasterInput MasterWrites

/-- What a step of the master should be like. -/
structure Sound (e : MasterEvent) : Prop where
  /-- What is registered by another connection stays when one is lost. -/
  kept : ∀ fd id node, e.pre.monitors.lookup fd = some id → e.post.monitors.lookup fd = none →
    e.pre.slaveNode.lookup id = some node → node.fd ≠ fd → e.post.slaveNode.lookup id = some node
  /-- A slave is reported as gone when it has no connection any more. -/
  quiet : ∀ fd id, (fd, .disconnect id) ∈ e.output → ∀ fd', e.post.monitors.lookup fd' ≠ some id
  /-- A newcomer is told how many other slaves are told to connect to it. -/
  counted : ∀ fd n, (fd, .wait n) ∈ e.output →
    ∃ slaveId slaveAddr, ∃ others : List ℤ, e.input = .receive fd (.handshake slaveId slaveAddr) ∧
      others.Nodup ∧ others.length = n ∧
        ∀ id, id ∈ others ↔ id ≠ slaveId ∧
          ∃ fd', e.pre.monitors.lookup fd' = some id ∧
            (fd', .connect slaveId slaveAddr) ∈ e.output

/-- A slave that reports itself is not registered. -/
def Fresh (m : Master) : MasterInput → Prop
  | .receive fd (.handshake slaveId _) =>
    fd ∈ m.handshaking → slaveId ≠ 0 → m.slaveNode.lookup slaveId = none
  | _ => True

instance decidableFresh (m : Master) : ∀ input, Decidable (m.Fresh input)
  | .receive _ (.handshake _ _) => inferInstanceAs (Decidable (_ → _ → _ = none))
  | .receive _ (.register _ _) | .receive _ (.query _) | .receive _ .unknown
  | .receive _ .malformed | .accept _ | .lost _ => .isTrue trivial

/-- Entries and connections belong together. -/
structure Registered (m : Master) : Prop where
  entry : ∀ {id node}, m.slaveNode.lookup id = some node → m.monitors.lookup node.fd = some id
  monitor : ∀ {fd id}, m.monitors.lookup fd = some id →
    ∃ node, m.slaveNode.lookup id = some node ∧ node.fd = fd
  handshaking : ∀ {fd}, fd ∈ m.handshaking → m.monitors.lookup fd = none

private theorem registered_init : Registered init where
  entry h := by
    rw [init, AList.lookup_empty] at h
    cases h
  monitor h := by
    rw [init, AList.lookup_empty] at h
    cases h
  handshaking h := (nomatch h)

variable {m m' : Master} {input : MasterInput} {writes : MasterWrites} {fd fd' : ℕ} {id : ℤ}

theorem Registered.unique (h : m.Registered) (hfd : m.monitors.lookup fd = some id)
    (hfd' : m.monitors.lookup fd' = some id) : fd = fd' := by
  obtain ⟨node, hnode, rfl⟩ := h.monitor hfd
  obtain ⟨node', hnode', rfl⟩ := h.monitor hfd'
  rw [hnode] at hnode'
  cases hnode'
  rfl

private theorem mem_endHandshake {x : ℕ} :
    x ∈ (m.endHandshake fd).handshaking ↔ x ∈ m.handshaking ∧ x ≠ fd := by
  rw [endHandshake, List.mem_filter, decide_eq_true_iff]

/-- **A step** keeps entries and connections together. -/
theorem Registered.step (h : m.Registered) (hfresh : m.Fresh input)
    (hstep : MasterStep m input m' writes) : m'.Registered := by
  -- only joining and leaving change the entries, and each changes both tables together
  cases hstep with
  | @accepted fd hfree =>
    refine ⟨h.entry, h.monitor, fun {x} hx ↦ ?_⟩
    rcases List.mem_cons.mp hx with rfl | hx
    · exact AList.lookup_eq_none.mpr hfree
    · exact h.handshaking hx
  | refused _ => exact ⟨h.entry, h.monitor, fun hx ↦ h.handshaking (mem_endHandshake.mp hx).1⟩
  | @joined fd slaveId slaveAddr hhandshaking hid =>
    -- the id is new, so the entry of no other connection is replaced
    have hnone := hfresh hhandshaking hid
    have hfd := h.handshaking hhandshaking
    constructor
    · intro id node hnode
      by_cases hsame : id = slaveId
      · subst hsame
        rw [AList.lookup_insert] at hnode
        cases hnode
        exact AList.lookup_insert _
      · rw [AList.lookup_insert_ne hsame] at hnode
        have hold := h.entry hnode
        rw [AList.lookup_insert_ne fun heq ↦ by rw [heq, hfd] at hold; cases hold]
        exact hold
    · intro x id hx
      by_cases hsame : x = fd
      · subst hsame
        rw [AList.lookup_insert] at hx
        cases hx
        exact ⟨_, AList.lookup_insert _, rfl⟩
      · rw [AList.lookup_insert_ne hsame] at hx
        obtain ⟨node, hnode, hnodefd⟩ := h.monitor hx
        refine ⟨node, ?_, hnodefd⟩
        rw [AList.lookup_insert_ne fun heq ↦ by rw [heq, hnone] at hnode; cases hnode]
        exact hnode
    · intro x hx
      obtain ⟨hx, hne⟩ := mem_endHandshake.mp hx
      rw [AList.lookup_insert_ne hne]
      exact h.handshaking hx
  | dispatched _ _ hdispatch =>
    obtain ⟨hnode, hhandshaking, hmonitors⟩ := dispatchSlave_frame hdispatch
    constructor
    · rw [hnode, hmonitors]
      exact h.entry
    · rw [hnode, hmonitors]
      exact h.monitor
    · rw [hhandshaking, hmonitors]
      exact h.handshaking
  | @left input fd slaveId _ hlookup =>
    have herase : ∀ {x id}, (m.monitors.erase fd).lookup x = some id →
        x ≠ fd ∧ m.monitors.lookup x = some id := by
      intro x id hx
      by_cases hsame : x = fd
      · rw [hsame, AList.lookup_erase] at hx
        cases hx
      · rw [AList.lookup_erase_ne hsame] at hx
        exact ⟨hsame, hx⟩
    constructor
    · intro id node hnode
      by_cases hsame : id = slaveId
      · rw [hsame, endMonitor, AList.lookup_erase] at hnode
        cases hnode
      · rw [endMonitor, AList.lookup_erase_ne hsame] at hnode
        have hold := h.entry hnode
        rw [endMonitor, AList.lookup_erase_ne fun heq ↦ hsame ?_]
        · exact hold
        · rw [heq, hlookup] at hold
          exact (Option.some.inj hold).symm
    · intro x id hx
      obtain ⟨hne, hx⟩ := herase hx
      obtain ⟨node, hnode, hnodefd⟩ := h.monitor hx
      refine ⟨node, ?_, hnodefd⟩
      rw [endMonitor, AList.lookup_erase_ne fun heq ↦ hne ?_]
      · exact hnode
      · rw [heq] at hx
        exact h.unique hx hlookup
    · intro x hx
      have hnone := h.handshaking hx
      rw [endMonitor]
      by_cases hsame : x = fd
      · rw [hsame, AList.lookup_erase]
      · rw [AList.lookup_erase_ne hsame, hnone]

/-! ## What a newcomer is told -/

theorem mem_told {v : Σ _ : ℤ, SlaveNode} :
    v ∈ m.told ↔ m.slaveNode.lookup v.1 = some v.2 ∧ v.2.fd ≠ 0 := by
  rw [told, List.mem_filter, decide_eq_true_iff, AList.mem_lookup_iff.symm, Option.mem_def]

private theorem told_nodup (m : Master) : (m.told.map Sigma.fst).Nodup :=
  (List.filter_sublist.map Sigma.fst).nodup m.slaveNode.nodupKeys

private theorem mem_reportSlave_connect {slaveId : ℤ} {slaveAddr : List UInt8} {x : ℕ} :
    (x, MasterPackage.connect slaveId slaveAddr) ∈ m.reportSlave fd slaveId slaveAddr ↔
      ∃ v ∈ m.told, v.2.fd = x := by
  rw [reportSlave, List.mem_append, List.mem_map]
  constructor
  · rintro (⟨v, hv, heq⟩ | hwait)
    · exact ⟨v, hv, congrArg Prod.fst heq⟩
    · cases List.mem_singleton.mp hwait
  · rintro ⟨v, hv, rfl⟩
    exact .inl ⟨v, hv, rfl⟩

private theorem mem_reportSlave_wait {slaveId : ℤ} {slaveAddr : List UInt8} {x n : ℕ} :
    (x, MasterPackage.wait n) ∈ m.reportSlave fd slaveId slaveAddr ↔
      x = fd ∧ n = m.told.length := by
  rw [reportSlave, List.mem_append, List.mem_map]
  constructor
  · rintro (⟨v, -, heq⟩ | hwait)
    · cases heq
    · cases List.mem_singleton.mp hwait
      exact ⟨rfl, rfl⟩
  · rintro ⟨rfl, rfl⟩
    exact .inr List.mem_cons_self

private theorem disconnect_not_mem_reportSlave {slaveId : ℤ} {slaveAddr : List UInt8} {x : ℕ} :
    (x, MasterPackage.disconnect id) ∉ m.reportSlave fd slaveId slaveAddr := by
  rw [reportSlave, List.mem_append, List.mem_map]
  rintro (⟨v, -, heq⟩ | hwait)
  · cases heq
  · cases List.mem_singleton.mp hwait

theorem Registered.mem_told (h : m.Registered) {slaveId : ℤ} {slaveAddr : List UInt8} {x : ℕ}
    (hx : m.monitors.lookup x = some id)
    (hconnect : (x, MasterPackage.connect slaveId slaveAddr) ∈ m.reportSlave fd slaveId slaveAddr) :
    id ∈ m.told.map Sigma.fst := by
  obtain ⟨v, hv, rfl⟩ := mem_reportSlave_connect.mp hconnect
  have hentry := h.entry (Master.mem_told.mp hv).1
  rw [hx] at hentry
  cases hentry
  exact List.mem_map_of_mem hv

/-! ## The condition -/

/-- **A step** on a fresh registration is as it should be. -/
theorem sound_of_fresh (h : m.Registered) (hfresh : m.Fresh input)
    (hstep : MasterStep m input m' writes) : Sound ⟨m, input, writes, m'⟩ := by
  cases hstep with
  | accepted _ | refused _ =>
    refine ⟨fun fd id node hpre hpost ↦ ?_, fun _ _ hw ↦ (nomatch hw), fun _ _ hw ↦ (nomatch hw)⟩
    cases hpre.symm.trans hpost
  | @joined fd slaveId slaveAddr hhandshaking hid =>
    refine ⟨fun x id node hpre hpost ↦ ?_,
      fun x id hw ↦ (disconnect_not_mem_reportSlave hw).elim, fun x n hw ↦ ?_⟩
    · dsimp only at hpre hpost
      by_cases hsame : x = fd
      · rw [hsame, AList.lookup_insert] at hpost
        cases hpost
      · rw [AList.lookup_insert_ne hsame, hpre] at hpost
        cases hpost
    · obtain ⟨rfl, rfl⟩ := mem_reportSlave_wait.mp hw
      refine ⟨slaveId, slaveAddr, m.told.map Sigma.fst, rfl, told_nodup m, List.length_map _,
        fun id ↦ ⟨fun hmem ↦ ?_, fun ⟨_, x, hx, hconnect⟩ ↦ h.mem_told hx hconnect⟩⟩
      obtain ⟨v, hv, rfl⟩ := List.mem_map.mp hmem
      have hlookup := (Master.mem_told.mp hv).1
      refine ⟨fun heq ↦ ?_, v.2.fd, h.entry hlookup, mem_reportSlave_connect.mpr ⟨v, hv, rfl⟩⟩
      rw [heq, hfresh hhandshaking hid] at hlookup
      cases hlookup
  | dispatched _ _ hdispatch =>
    have hnames := dispatchSlave_writes hdispatch
    refine ⟨fun fd id node hpre hpost ↦ ?_, fun x id hw ↦ ?_, fun x n hw ↦ ?_⟩
    · dsimp only at hpre hpost
      rw [(dispatchSlave_frame hdispatch).2.2, hpre] at hpost
      cases hpost
    · obtain ⟨_, _, heq⟩ := hnames _ hw
      cases heq
    · obtain ⟨_, _, heq⟩ := hnames _ hw
      cases heq
  | @left input fd slaveId _ hlookup =>
    refine ⟨fun x id node hpre hpost hnode hne ↦ ?_, fun x id hw x' hx' ↦ ?_, fun x n hw ↦ ?_⟩
    · dsimp only at hpre hpost hnode
      rw [endMonitor] at hpost
      by_cases hsame : x = fd
      · -- what the lost connection has registered is its own
        obtain ⟨node', hnode', hfd⟩ := h.monitor hpre
        rw [hnode] at hnode'
        cases hnode'
        exact (hne hfd).elim
      · rw [AList.lookup_erase_ne hsame, hpre] at hpost
        cases hpost
    · obtain ⟨v, -, heq⟩ := List.mem_map.mp hw
      cases heq
      dsimp only at hx'
      rw [endMonitor] at hx'
      by_cases hsame : x' = fd
      · rw [hsame, AList.lookup_erase] at hx'
        cases hx'
      · rw [AList.lookup_erase_ne hsame] at hx'
        exact hsame (h.unique hx' hlookup)
    · obtain ⟨v, -, heq⟩ := List.mem_map.mp hw
      cases heq

/-- No socket has the number that marks an entry as one without a connection. -/
structure Numbered (m : Master) : Prop where
  handshaking : ∀ {fd}, fd ∈ m.handshaking → fd ≠ 0
  entry : ∀ {id node}, m.slaveNode.lookup id = some node → node.fd ≠ 0

private theorem numbered_init : Numbered init where
  handshaking h := (nomatch h)
  entry h := by
    rw [init, AList.lookup_empty] at h
    cases h

theorem Numbered.step (h : m.Numbered) (hinput : input ≠ .accept 0)
    (hstep : MasterStep m input m' writes) : m'.Numbered := by
  cases hstep with
  | @accepted fd _ =>
    refine ⟨fun {x} hx ↦ ?_, h.entry⟩
    rcases List.mem_cons.mp hx with rfl | hx
    · exact fun hzero ↦ hinput (by rw [hzero])
    · exact h.handshaking hx
  | refused _ => exact ⟨fun hx ↦ h.handshaking (mem_endHandshake.mp hx).1, h.entry⟩
  | @joined fd slaveId slaveAddr hhandshaking _ =>
    refine ⟨fun hx ↦ h.handshaking (mem_endHandshake.mp hx).1, fun {id node} hnode ↦ ?_⟩
    dsimp only at hnode
    by_cases hsame : id = slaveId
    · rw [hsame, AList.lookup_insert] at hnode
      cases hnode
      exact h.handshaking hhandshaking
    · rw [AList.lookup_insert_ne hsame] at hnode
      exact h.entry hnode
  | dispatched _ _ hdispatch =>
    obtain ⟨hnode, hhandshaking, -⟩ := dispatchSlave_frame hdispatch
    constructor
    · rw [hhandshaking]
      exact h.handshaking
    · rw [hnode]
      exact h.entry
  | @left input fd slaveId _ _ =>
    refine ⟨h.handshaking, fun {id node} hnode ↦ ?_⟩
    rw [endMonitor] at hnode
    by_cases hsame : id = slaveId
    · rw [hsame, AList.lookup_erase] at hnode
      cases hnode
    · rw [AList.lookup_erase_ne hsame] at hnode
      exact h.entry hnode

private theorem master_joined {slaveId : ℤ} {slaveAddr : List UInt8} (hmem : fd ∈ m.handshaking)
    (hid : slaveId ≠ 0) :
    ∃ m', master m (.receive fd (.handshake slaveId slaveAddr)) =
      .ok (m', m.reportSlave fd slaveId slaveAddr) := by
  rw [master, if_pos hmem]
  simp only [handshake, if_neg hid, startMonitor, AList.lookup_insert, Option.map_some]
  exact ⟨_, rfl⟩

/-- A slave that is told the right number had no entry: its own would have been counted. -/
theorem fresh_of_sound (h : m.Registered) (hnumbered : m.Numbered)
    (hmaster : master m input = .ok (m', writes)) (hsound : Sound ⟨m, input, writes, m'⟩) :
    m.Fresh input := by
  cases input with
  | accept _ | lost _ => trivial
  | receive fd package =>
    cases package with
    | register _ _ | query _ | unknown | malformed => trivial
    | handshake slaveId slaveAddr =>
      intro hhandshaking hid
      obtain ⟨m₁, hjoined⟩ := @master_joined m fd slaveId slaveAddr hhandshaking hid
      cases hmaster.symm.trans hjoined
      obtain ⟨_, _, others, hinput, hnodup, hlength, hothers⟩ :=
        hsound.counted fd m.told.length (mem_reportSlave_wait.mpr ⟨rfl, rfl⟩)
      cases hinput
      by_contra hsome
      obtain ⟨node, hnode⟩ := Option.ne_none_iff_exists'.mp hsome
      have hown : slaveId ∈ m.told.map Sigma.fst :=
        by
        have hmem : (⟨slaveId, node⟩ : Σ _ : ℤ, SlaveNode) ∈ m.told :=
          mem_told.mpr ⟨hnode, hnumbered.entry hnode⟩
        exact List.mem_map_of_mem hmem
      have hsub : others ⊆ (m.told.map Sigma.fst).erase slaveId := by
        intro id hmem
        obtain ⟨hne, x, hx, hconnect⟩ := (hothers id).mp hmem
        exact (List.mem_erase_of_ne hne).mpr (h.mem_told hx hconnect)
      have hle := (List.subperm_of_subset hnodup hsub).length_le
      rw [List.length_erase_of_mem hown, List.length_map, hlength] at hle
      have hpos := List.length_pos_of_mem hown
      rw [List.length_map] at hpos
      omega

variable {tr : List MasterEvent} {s : Master}

/-- **Slaves register soundly** in every run in which none reports itself under an id that is
registered, and in no other. -/
theorem sound_iff_fresh (hrun : Run master init tr s) :
    (Meets Fresh tr → ∀ e ∈ tr, Sound e) ∧
      ((∀ e ∈ tr, e.input ≠ .accept 0) → (∀ e ∈ tr, Sound e) → Meets Fresh tr) := by
  constructor
  · intro hfresh
    have hboth : s.Registered ∧ ∀ e ∈ tr, Sound e := by
      refine hrun.ledger (fun tr s ↦ s.Registered ∧ ∀ e ∈ tr, Sound e)
        ⟨registered_init, fun e he ↦ (nomatch he)⟩ ?_ hfresh
      rintro tr s i s' o - ⟨hs, hall⟩ hc hm
      have hstep := master_cases hm
      refine ⟨hs.step hc hstep, fun e he ↦ ?_⟩
      rcases List.mem_append.mp he with he | he
      · exact hall e he
      · rw [List.mem_singleton.mp he]
        exact sound_of_fresh hs hc hstep
    exact hboth.2
  · -- here freshness is the conclusion, so the induction is on the run itself and not on a
    -- condition
    intro hnumbers hsound
    have hall : s.Registered ∧ s.Numbered ∧ Meets Fresh tr := by
      induction hrun with
      | nil => exact ⟨registered_init, numbered_init, meets_nil _⟩
      | @snoc tr s s' i o hrun hm ih =>
        obtain ⟨hs, hnumbered, hfresh⟩ := ih (fun e he ↦ hnumbers e (List.mem_append_left _ he))
          fun e he ↦ hsound e (List.mem_append_left _ he)
        have hmem : (⟨s, i, o, s'⟩ : MasterEvent) ∈ tr ++ [⟨s, i, o, s'⟩] :=
          List.mem_append_right _ List.mem_cons_self
        have hc := fresh_of_sound hs hnumbered hm (hsound _ hmem)
        have hstep := master_cases hm
        exact ⟨hs.step hc hstep, hnumbered.step (hnumbers _ hmem) hstep,
          meets_concat.mpr ⟨hfresh, hc⟩⟩
    exact hall.2.2

/-- Two slaves report themselves, and one comes back when its connection has been lost. -/
theorem sound_comes_back : ∃ tr s, Run master init tr s ∧ tr ≠ [] ∧ ∀ e ∈ tr, Sound e := by
  have hpasses : Passes master init
      [.accept 1, .receive 1 (.handshake 5 []), .accept 2, .receive 2 (.handshake 6 []),
        .lost 1, .accept 3, .receive 3 (.handshake 5 [])]
      fun tr _ ↦ tr ≠ [] ∧ Meets Fresh tr := by decide +kernel
  obtain ⟨tr, s, hrun, hne, hfresh⟩ := Run.of_passes hpasses
  exact ⟨tr, s, hrun, hne, (sound_iff_fresh hrun).1 hfresh⟩

/-- A slave that comes back before its old connection is lost: it is told to wait for one slave,
which is itself, and the loss of the old connection removes its registration. -/
theorem not_sound : ¬ ∀ {tr : List MasterEvent} {s : Master}, Run master init tr s →
    ∀ e ∈ tr, Sound e := by
  intro hsound
  have hpasses : Passes master init
      [.accept 1, .receive 1 (.handshake 5 []), .accept 2, .receive 2 (.handshake 5 []), .lost 1]
      fun tr _ ↦ ∃ e ∈ tr, e.pre.monitors.lookup 1 = some 5 ∧ e.post.monitors.lookup 1 = none ∧
        e.pre.slaveNode.lookup 5 = some ⟨2, 5, []⟩ ∧ e.post.slaveNode.lookup 5 = none := by
    decide +kernel
  obtain ⟨tr, s, hrun, e, he, hpre, hpost, hnode, hgone⟩ := Run.of_passes hpasses
  have hkept := (hsound hrun e he).kept 1 5 _ hpre hpost hnode (by decide)
  rw [hgone] at hkept
  cases hkept

end Master

end ZTask
