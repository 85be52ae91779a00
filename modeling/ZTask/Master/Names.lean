import ZTask.Master.Network

/-!
# Agreement on names

A name has the address it was first registered for: `global_name` never changes it. The master
answers a query with this address. But when a slave registers a name that is registered, it is the
slave's address that the master writes to all slaves. So the slaves agree on the address of a name,
with the master and so with each other, as long as no name is registered for another address
(`Uncontested`).

A slave knows a name from the moment it registers it. Until its package has been read by the master,
its address may be its own.
-/

namespace ZTask

open Lib

namespace Network

/-! ## The condition -/

abbrev NetworkEvent := Event Network NetworkInput MasterWrites

/-- The package of a node that the master reads next. -/
def front (s : Network) (k : ℕ) : Option SlavePackage := (s.node k).bind fun n ↦ n.up.head?

/-- No name is registered for a second address, and names fit into a package. -/
def Uncontested (s : Network) : NetworkInput → Prop
  | .arrive k => ∀ package ∈ s.front k, s.master.Agreed package
  | .act _ (.request (.register name handle) _) =>
    (SlavePackage.register name (some handle)).fits = true
  | _ => True

instance decidableAgreed (m : Master) : ∀ package, Decidable (m.Agreed package)
  | .register _ (some _) => inferInstanceAs (Decidable (_ = none ∨ _ = some _))
  | .register _ none | .handshake _ _ | .query _ | .unknown | .malformed => .isTrue trivial

instance decidableUncontested (s : Network) : ∀ input, Decidable (s.Uncontested input)
  | .arrive k => inferInstanceAs (Decidable (∀ package ∈ s.front k, s.master.Agreed package))
  | .act _ (.request (.register _ _) _) => inferInstanceAs (Decidable (_ = true))
  | .act _ (.request (.link _) _) | .act _ (.request (.connect _) _)
  | .act _ (.request .linkmaster _) | .act _ (.request (.queryname _) _) | .act _ (.text _)
  | .act _ (.package _) | .act _ .masterLost | .act _ (.opened _ _) | .act _ (.started _ _)
  | .act _ .ready | .act _ (.next _) | .act _ (.accept _) | .act _ (.acceptStarted _ _)
  | .act _ (.acceptRead _ _) | .act _ (.closed _) | .act _ (.lost _)
  | .connect _ _ _ _ | .lost _ | .read _ | .ended _ => .isTrue trivial

/-! ## Agreement -/

/-- What the slaves know, and what they are told. -/
structure NodeAgrees (m : Master) (n : NetNode) : Prop where
  told : ∀ {name address}, .name name address ∈ n.down → m.globalName name = some address
  known : ∀ {name address}, n.cslave.globalname.lookup name = some address →
    m.globalName name = some address ∨ .register name (some address) ∈ n.unread
  served : n.linked = true → n.fd ∈ m.handshaking ∨ n.fd ∈ m.monitors
  reports : n.linked = true → n.fd ∈ m.handshaking →
    ∃ id addr up, n.up = .handshake id addr :: up

structure Agrees (s : Network) : Prop where
  node : ∀ {k n}, s.node k = some n → NodeAgrees s.master n
  apart : ∀ {k k' n n'}, s.node k = some n → s.node k' = some n' → n.linked = true →
    n'.linked = true → n.fd = n'.fd → k = k'

private theorem agrees_init : init.Agrees :=
  ⟨fun h ↦ (nomatch h), fun h ↦ (nomatch h)⟩

/-! ## What the master writes -/

section Node

variable {m m' : Master} {n : NetNode} {writes : MasterWrites}

@[simp] theorem deliver_fd : (n.deliver writes).fd = n.fd := by
  unfold NetNode.deliver
  split <;> rfl

@[simp] theorem deliver_linked : (n.deliver writes).linked = n.linked := by
  unfold NetNode.deliver
  split <;> rfl

@[simp] theorem deliver_cslave : (n.deliver writes).cslave = n.cslave := by
  unfold NetNode.deliver
  split <;> rfl

@[simp] theorem deliver_up : (n.deliver writes).up = n.up := by
  unfold NetNode.deliver
  split <;> rfl

@[simp] theorem deliver_unread : (n.deliver writes).unread = n.unread := by
  unfold NetNode.deliver
  split <;> rfl

private theorem mem_deliver {package : MasterPackage} (h : package ∈ (n.deliver writes).down) :
    package ∈ n.down ∨ (n.fd, package) ∈ writes := by
  unfold NetNode.deliver at h
  split at h
  · rcases List.mem_append.mp h with h | h
    · exact .inl h
    · obtain ⟨w, hw, heq⟩ := List.mem_filterMap.mp h
      split at heq
      next hfd =>
        cases heq
        rw [← hfd]
        exact .inr hw
      next => cases heq
  · exact .inl h

theorem NodeAgrees.deliver (h : NodeAgrees m n) (hwritten : ∀ {fd name address},
    (fd, .name name address) ∈ writes → m.globalName name = some address) :
    NodeAgrees m (n.deliver writes) := by
  constructor
  · intro name address hmem
    rcases mem_deliver hmem with hmem | hmem
    · exact h.told hmem
    · exact hwritten hmem
  · intro name address hlookup
    rw [deliver_cslave] at hlookup
    rw [deliver_unread]
    exact h.known hlookup
  · simpa using h.served
  · simpa using h.reports

theorem NodeAgrees.other (h : NodeAgrees m n) {fd : ℕ}
    (hkept : ∀ {name address}, m.globalName name = some address → m'.globalName name = some address)
    (hothers : KeepsOthers m m' fd) (hne : n.linked = true → n.fd ≠ fd) : NodeAgrees m' n := by
  constructor
  · exact fun hmem ↦ hkept (h.told hmem)
  · exact fun hlookup ↦ (h.known hlookup).imp_left hkept
  · intro hlinked
    obtain ⟨hhandshaking, hmonitors⟩ := hothers n.fd (hne hlinked)
    exact (h.served hlinked).imp hhandshaking.mpr hmonitors.mpr
  · intro hlinked hmem
    exact h.reports hlinked ((hothers n.fd (hne hlinked)).1.mp hmem)

end Node

variable {s s' : Network} {k : ℕ} {n : NetNode} {writes : MasterWrites}

/-- **A step of the master**, for the node `k`. -/
theorem Agrees.settle {m : Master} (h : s.Agrees) (hnames : KeepsNames s.master m writes)
    (hothers : KeepsOthers s.master m n.fd)
    (hapart : ∀ {k' n'}, k' ≠ k → s.node k' = some n' → n'.linked = true → n'.fd ≠ n.fd)
    (hnode : NodeAgrees m n) : (s.settle k n (m, writes)).Agrees := by
  -- the node `k'` as the step finds it
  have hold : ∀ {k' n'}, (s.settle k n (m, writes)).node k' = some n' →
      ∃ n₀ : NetNode, n' = n₀.deliver writes ∧
        (k' = k ∧ n₀ = n ∨ k' ≠ k ∧ s.node k' = some n₀) := by
    intro k' n' hn'
    obtain ⟨n₀, hn₀, rfl⟩ := Option.map_eq_some_iff.mp hn'
    refine ⟨n₀, rfl, ?_⟩
    by_cases hk : k' = k
    · subst hk
      rw [Function.update_self] at hn₀
      cases hn₀
      exact .inl ⟨rfl, rfl⟩
    · rw [Function.update_of_ne hk] at hn₀
      exact .inr ⟨hk, hn₀⟩
  constructor
  · intro k' n' hn'
    obtain ⟨n₀, rfl, ⟨rfl, rfl⟩ | ⟨hk, hn₀⟩⟩ := hold hn'
    · exact hnode.deliver hnames.written
    · exact ((h.node hn₀).other hnames.kept hothers (hapart hk hn₀)).deliver hnames.written
  · intro k₁ k₂ n₁ n₂ hn₁ hn₂ hlinked₁ hlinked₂ hfd
    obtain ⟨m₁, rfl, h₁⟩ := hold hn₁
    obtain ⟨m₂, rfl, h₂⟩ := hold hn₂
    rw [deliver_linked] at hlinked₁ hlinked₂
    rw [deliver_fd, deliver_fd] at hfd
    rcases h₁ with ⟨rfl, rfl⟩ | ⟨hk₁, hm₁⟩ <;> rcases h₂ with ⟨rfl, rfl⟩ | ⟨hk₂, hm₂⟩
    · rfl
    · exact (hapart hk₂ hm₂ hlinked₂ hfd.symm).elim
    · exact (hapart hk₁ hm₁ hlinked₁ hfd).elim
    · exact h.apart hm₁ hm₂ hlinked₁ hlinked₂ hfd

/-- **A step of a slave.** -/
theorem Agrees.setNode (h : s.Agrees) {n₀ : NetNode} (hn₀ : s.node k = some n₀)
    (hfd : n.fd = n₀.fd) (hlinked : n.linked = n₀.linked) (hnode : NodeAgrees s.master n) :
    (s.setNode k n).Agrees := by
  have hold : ∀ {k' n'}, (s.setNode k n).node k' = some n' →
      NodeAgrees s.master n' ∧ ∃ n₁, s.node k' = some n₁ ∧ n'.fd = n₁.fd ∧
        n'.linked = n₁.linked := by
    intro k' n' hn'
    rw [Network.setNode] at hn'
    dsimp only at hn'
    by_cases hk : k' = k
    · subst hk
      rw [Function.update_self] at hn'
      cases hn'
      exact ⟨hnode, n₀, hn₀, hfd, hlinked⟩
    · rw [Function.update_of_ne hk] at hn'
      exact ⟨h.node hn', n', hn', rfl, rfl⟩
  constructor
  · exact fun hn' ↦ (hold hn').1
  · intro k₁ k₂ n₁ n₂ hn₁ hn₂ hlinked₁ hlinked₂ hsame
    obtain ⟨-, m₁, hm₁, hfd₁, hl₁⟩ := hold hn₁
    obtain ⟨-, m₂, hm₂, hfd₂, hl₂⟩ := hold hn₂
    exact h.apart hm₁ hm₂ (hl₁ ▸ hlinked₁) (hl₂ ▸ hlinked₂) (hfd₁ ▸ hfd₂ ▸ hsame)

/-! ## What a node does -/

@[simp] theorem run_fd (p : Cslave × List CslaveEffect) : (n.run p).fd = n.fd := by
  unfold NetNode.run
  split <;> rfl

@[simp] theorem run_linked (p : Cslave × List CslaveEffect) : (n.run p).linked = n.linked := by
  unfold NetNode.run
  split <;> rfl

@[simp] theorem run_cslave (p : Cslave × List CslaveEffect) : (n.run p).cslave = p.1 := by
  unfold NetNode.run
  split <;> rfl

@[simp] theorem run_down (p : Cslave × List CslaveEffect) : (n.run p).down = n.down := by
  unfold NetNode.run
  split <;> rfl

private theorem run_up (p : Cslave × List CslaveEffect) : ∃ l, (n.run p).up = n.up ++ l := by
  unfold NetNode.run
  split
  · exact ⟨[], (List.append_nil _).symm⟩
  · exact ⟨_, rfl⟩

private theorem mem_run_unread (p : Cslave × List CslaveEffect) {package : SlavePackage} :
    package ∈ (n.run p).unread ↔ package ∈ n.unread ∨ package ∈ NetNode.slaveWrites p.2 := by
  unfold NetNode.run NetNode.unread
  split <;> simp only [List.mem_append] <;> tauto

/-- What a slave learns is known to the master, or written to it. -/
theorem NodeAgrees.run {m : Master} (h : NodeAgrees m n) {input : CslaveInput} {c : Cslave}
    {out : List CslaveEffect} (hlearns : Learns n.cslave input c out)
    (htold : ∀ {name address}, input = .package (.name name address) →
      m.globalName name = some address)
    (hfits : ∀ {name handle localname}, input = .request (.register name handle) localname →
      (SlavePackage.register name (some handle)).fits = true) :
    NodeAgrees m (n.run (c, out)) := by
  constructor
  · intro name address hmem
    rw [run_down] at hmem
    exact h.told hmem
  · intro name address hlookup
    rw [run_cslave] at hlookup
    dsimp only at hlookup
    rw [mem_run_unread]
    have hkept : n.cslave.globalname.lookup name = some address →
        m.globalName name = some address ∨
          (.register name (some address) ∈ n.unread ∨
            .register name (some address) ∈ NetNode.slaveWrites out) :=
      fun hknown ↦ (h.known hknown).imp_right Or.inl
    -- a node learns a name from the master, or by registering it, and then the report is on its way
    cases hlearns with
    | same hsame =>
      rw [hsame] at hlookup
      exact hkept hlookup
    | @told name' address' _ _ hinsert =>
      rw [hinsert] at hlookup
      by_cases hname : name = name'
      · subst hname
        rw [AList.lookup_insert] at hlookup
        cases hlookup
        exact .inl (htold rfl)
      · rw [AList.lookup_insert_ne hname] at hlookup
        exact hkept hlookup
    | @registered name' handle localname _ _ hinsert hwritten =>
      rw [hinsert] at hlookup
      by_cases hname : name = name'
      · subst hname
        rw [AList.lookup_insert] at hlookup
        cases hlookup
        exact .inr (.inr (List.mem_filterMap.mpr ⟨_, hwritten (hfits rfl), rfl⟩))
      · rw [AList.lookup_insert_ne hname] at hlookup
        exact hkept hlookup
  · simpa using h.served
  · rw [run_linked, run_fd]
    intro hlinked hmem
    obtain ⟨id, addr, up, hup⟩ := h.reports hlinked hmem
    obtain ⟨l, hl⟩ := @run_up n (c, out)
    exact ⟨id, addr, up ++ l, by rw [hl, hup, List.cons_append]⟩

/-! ## Steps and runs -/

theorem Agrees.connect (h : s.Agrees) {fd : ℕ} {id : ℤ} {addr : List UInt8} {m : Master}
    (haccept : ZTask.master s.master (.accept fd) = .ok (m, writes)) :
    (s.settle k ⟨fd, true, true, .init, [.handshake id addr], [], []⟩ (m, writes)).Agrees ∧
      KeepsNames s.master m writes := by
  obtain ⟨hhandshaking, hmonitors, rfl, rfl⟩ := master_accepts haccept
  have hnames : KeepsNames s.master { s.master with
      handshaking := fd :: s.master.handshaking } [] :=
    ⟨fun hkept ↦ hkept, fun hmem ↦ nomatch hmem⟩
  refine ⟨h.settle hnames (fun x hx ↦ ⟨?_, Iff.rfl⟩) (fun {k' n'} _ hn' hlinked heq ↦ ?_) ?_,
    hnames⟩
  · rw [List.mem_cons]
    exact or_iff_right hx
  · rcases (h.node hn').served hlinked with hmem | hmem <;> rw [heq] at hmem
    · exact hhandshaking hmem
    · exact hmonitors hmem
  · refine ⟨fun hmem ↦ (nomatch hmem), fun hlookup ↦ ?_, fun _ ↦ .inl List.mem_cons_self,
      fun _ _ ↦ ⟨id, addr, [], rfl⟩⟩
    rw [Cslave.init, AList.lookup_empty] at hlookup
    cases hlookup

/-- The master reads a package, which is not of another address for a name that it knows. -/
theorem Agrees.arrive (h : s.Agrees) (hn : s.node k = some n) (hlinked : n.linked = true)
    {package : SlavePackage} {up : List SlavePackage} (hup : n.up = package :: up)
    (hagreed : s.master.Agreed package) {m : Master}
    (hreceive : ZTask.master s.master (.receive n.fd package) = .ok (m, writes)) :
    (s.settle k { n with
      up := up
      linked := decide (n.fd ∈ m.handshaking ∨ n.fd ∈ m.monitors) } (m, writes)).Agrees ∧
      KeepsNames s.master m writes := by
  have hserves := master_serves hreceive
  have hnames := hserves.names hagreed
  have hnode := h.node hn
  refine ⟨h.settle hnames hserves.others (fun {k' n'} hk hn' hlinked' heq ↦ ?_)
    ⟨?_, fun {name address} hlookup ↦ ?_, fun hmem ↦ of_decide_eq_true hmem,
      fun _ hmem ↦ (hserves.greeted hmem).elim⟩, hnames⟩
  · exact hk (h.apart hn' hn hlinked' hlinked heq)
  · exact fun hmem ↦ hnames.kept (hnode.told hmem)
  · rcases hnode.known hlookup with hknown | hmem
    · exact .inl (hnames.kept hknown)
    · rw [NetNode.unread, hup, List.cons_append] at hmem
      rcases List.mem_cons.mp hmem with rfl | hmem
      · -- the registration that is read
        refine .inl (hserves.registered (fun hhandshaking ↦ ?_) hagreed)
        obtain ⟨_, _, _, heq⟩ := hnode.reports hlinked hhandshaking
        rw [hup] at heq
        cases heq
      · exact .inr hmem

theorem Agrees.lost (h : s.Agrees) (hn : s.node k = some n) (hlinked : n.linked = true) {m : Master}
    (hlost : ZTask.master s.master (.lost n.fd) = .ok (m, writes)) :
    (s.settle k { n with linked := false } (m, writes)).Agrees ∧ KeepsNames s.master m writes := by
  obtain ⟨hnames, hothers⟩ := master_loses hlost
  have hnode := h.node hn
  refine ⟨h.settle hnames hothers (fun {k' n'} hk hn' hlinked' heq ↦ ?_)
    ⟨fun hmem ↦ hnames.kept (hnode.told hmem),
      fun hlookup ↦ (hnode.known hlookup).imp_left hnames.kept,
      fun heq ↦ (nomatch heq), fun heq ↦ nomatch heq⟩, hnames⟩
  exact hk (h.apart hn' hn hlinked' hlinked heq)

/-- A package of the master has been read. -/
theorem NodeAgrees.behind {m : Master} (h : NodeAgrees m n) {package : MasterPackage}
    {down : List MasterPackage} (hdown : n.down = package :: down) (waiting : Bool) :
    NodeAgrees m { n with waiting := waiting, down := down } := by
  refine ⟨fun hmem ↦ h.told ?_, h.known, h.served, h.reports⟩
  rw [hdown]
  exact List.mem_cons_of_mem _ hmem

/-- **A step** keeps the slaves in agreement; the names that are written are those of the master. -/
theorem Agrees.step (h : s.Agrees) {input : NetworkInput} (hc : s.Uncontested input)
    (hm : network s input = .ok (s', writes)) :
    s'.Agrees ∧ KeepsNames s.master s'.master writes := by
  have hquiet : KeepsNames s.master s.master [] := ⟨id, fun hmem ↦ nomatch hmem⟩
  cases network_cases hm with
  | connect _ haccept => exact h.connect haccept
  | arrive hn hlinked hup hreceive =>
    exact h.arrive hn hlinked hup (hc _ (by rw [front, hn]; simp [hup])) hreceive
  | lost hn hlinked hlost => exact h.lost hn hlinked hlost
  | greeted hn hdown => exact ⟨h.setNode hn rfl rfl ((h.node hn).behind hdown false), hquiet⟩
  | @read k n package down p hn hdown hp =>
    have hnode := h.node hn
    refine ⟨h.setNode hn (run_fd p) (run_linked p)
      ((hnode.behind hdown false).run (cslave_learns hp) ?_ ?_), hquiet⟩
    · rintro name address heq
      cases heq
      exact hnode.told (by rw [hdown]; exact List.mem_cons_self)
    · exact fun heq ↦ nomatch heq
  | @ended k n p hn hp =>
    exact ⟨h.setNode hn (run_fd p) (run_linked p) ((h.node hn).run (cslave_learns hp)
      (fun heq ↦ nomatch heq) fun heq ↦ nomatch heq), hquiet⟩
  | @act k input n p hn hlocal hp =>
    refine ⟨h.setNode hn (run_fd p) (run_linked p) ((h.node hn).run (cslave_learns hp)
      (fun {name address} heq ↦ ?_) fun {name handle localname} heq ↦ ?_), hquiet⟩
    · rw [heq] at hlocal
      cases hlocal
    · rw [heq] at hc
      exact hc

variable {tr : List NetworkEvent}

/-- **Agreement on names**: all packages the master ever writes for a name have the address it
keeps, and a slave that knows the name knows this address, unless it is the one that registers the
name and the master has not read it. -/
theorem names_agree (hrun : Run network init tr s) (hC : Meets Uncontested tr) :
    (∀ e ∈ tr, ∀ fd name address, (fd, .name name address) ∈ e.output →
      s.master.globalName name = some address) ∧
    ∀ k k' n n' name address address', s.node k = some n → s.node k' = some n' →
      n.cslave.globalname.lookup name = some address →
      n'.cslave.globalname.lookup name = some address' →
      .register name (some address) ∉ n.unread → .register name (some address') ∉ n'.unread →
      s.master.globalName name = some address ∧ address = address' := by
  -- what the master has written stays in its table: a later registration of the name agrees with it
  have hboth := hrun.ledger (fun tr s ↦ s.Agrees ∧ ∀ e ∈ tr, ∀ fd name address,
      (fd, .name name address) ∈ e.output → s.master.globalName name = some address)
    ⟨agrees_init, fun e he ↦ nomatch he⟩ ?_ hC
  · obtain ⟨hagrees, hwritten⟩ := hboth
    refine ⟨hwritten, fun k k' n n' name address address' hn hn' hknown hknown' hread hread' ↦ ?_⟩
    have h := ((hagrees.node hn).known hknown).resolve_right hread
    have h' := ((hagrees.node hn').known hknown').resolve_right hread'
    exact ⟨h, Option.some.inj (h.symm.trans h')⟩
  · rintro tr s i s' o - ⟨hs, hwritten⟩ hc hm
    obtain ⟨hs', hnames⟩ := hs.step hc hm
    refine ⟨hs', fun e he fd name address hmem ↦ ?_⟩
    rcases List.mem_append.mp he with he | he
    · exact hnames.kept (hwritten e he fd name address hmem)
    · rw [List.mem_singleton.mp he] at hmem
      exact hnames.written hmem

/-- A name is registered by one slave and queried by another. -/
theorem names_agree_query : ∃ tr s n, Run network init tr s ∧ s.node 2 = some n ∧
    n.cslave.globalname.lookup [88] = some 0x01000005 ∧
    ∀ e ∈ tr, ∀ fd name address, (fd, .name name address) ∈ e.output →
      s.master.globalName name = some address := by
  have hpasses : Passes network init
      [.connect 1 1 1 [], .arrive 1, .read 1, .act 1 (.request (.register [88] 0x01000005) none),
        .arrive 1, .connect 2 2 2 [], .arrive 2, .read 2, .act 2 (.request (.queryname [88]) none),
        .arrive 2, .read 2]
      fun tr s ↦ Meets Uncontested tr ∧
        (s.node 2).bind (fun n ↦ n.cslave.globalname.lookup [88]) = some 0x01000005 := by
    decide +kernel
  obtain ⟨tr, s, hrun, hC, hknown⟩ := Run.of_passes hpasses
  obtain ⟨n, hn, hlookup⟩ := Option.bind_eq_some_iff.mp hknown
  exact ⟨tr, s, n, hrun, hn, hlookup, (names_agree hrun hC).1⟩

/-- Two slaves register a name before either is told of the other: the master keeps the address of
the first and writes that of the second. -/
theorem not_names_agree : ¬ ∀ {tr : List NetworkEvent} {s : Network}, Run network init tr s →
    ∀ e ∈ tr, ∀ fd name address, (fd, .name name address) ∈ e.output →
      s.master.globalName name = some address := by
  intro hagree
  have hpasses : Passes network init
      [.connect 1 1 1 [], .arrive 1, .read 1, .connect 2 2 2 [], .arrive 2, .read 2,
        .act 1 (.request (.register [88] 0x01000005) none),
        .act 2 (.request (.register [88] 0x02000005) none), .arrive 1, .arrive 2]
      fun tr s ↦ s.master.globalName [88] = some 0x01000005 ∧
        ∃ e ∈ tr, (1, .name [88] 0x02000005) ∈ e.output := by decide +kernel
  obtain ⟨tr, s, hrun, hkept, e, he, hwritten⟩ := Run.of_passes hpasses
  have hname := hagree hrun e he 1 [88] 0x02000005 hwritten
  rw [hkept] at hname
  cases hname

end Network

end ZTask
