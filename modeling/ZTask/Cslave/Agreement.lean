import ZTask.Cslave.Links

/-!
# What the slave and the harbor service agree on

The slave has a table of the other slaves and their sockets; the harbor service has records of them.
The table is the one that is written to, and what it says is sent to the harbor service;
`Lib.Mirror` is what they have in common on the way. In quiet states they agree, and every socket
that is open is in a record (`links_agree`).

This is so as long as nothing that is sent is refused, and a slave is said to be gone only when the
harbor service has no socket for it. Otherwise a socket is forgotten that the harbor service has, or
kept that it does not have (`not_links_agree`).
-/

namespace ZTask

open Lib

namespace NodeLinks

/-- What holds of the slave, the harbor service and what is between them. -/
structure Sound (w : NodeLinks) : Prop where
  mirror : Mirror (table w.cslave) w.line (held w.harbor) w.told
  hands : Hands w.cslave w.opened
  kept : ∀ fd, w.opened fd = true → InHand w.cslave fd ∨ (∃ p ∈ w.toHarbor, ∃ id,
    linkOf p.2 = some (id, fd)) ∨ ∃ id, held w.harbor id = some fd
  sent : ∀ p ∈ w.toHarbor, linkOf p.2 = none ∨ ∃ command id fd, (command = 83 ∨ command = 65) ∧
    p.2 = connectText command fd id

variable {w w' : NodeLinks} {m' : Cslave} {out : List CslaveEffect} {h h' : Harbor}
  {effects : List HarborEffect} {id : ℤ} {fd : ℕ}

theorem held_harborInit (n : ℕ) (slave : UInt32) (id : ℤ) : held (harborInit n slave) id = none :=
  if_neg fun hboth ↦ Int.lt_irrefl 0 hboth.2

theorem sound_init (n : ℕ) (slave : UInt32) : Sound (init n slave) where
  mirror := by
    have hheld : held (init n slave).harbor = fun _ ↦ none :=
      funext fun id ↦ held_harborInit n slave id
    rw [hheld]
    exact Mirror.empty
  hands fd := by
    refine ⟨?_, fun hne ↦ (hne rfl).elim, (fun heq ↦ nomatch heq), fun _ heq ↦ nomatch heq⟩
    rintro ⟨ready, id, hcall⟩
    cases ready <;> cases hcall
  kept _ hopen := nomatch hopen
  sent _ hp := nomatch hp

/-! ## The slave -/

/-- The slave goes on, and takes note of what it is told. -/
theorem Sound.act (h : Sound w) {input : CslaveInput} {opened' : ℕ → Bool}
    (htable : TableMove w.cslave input m' (harborMessages out))
    (hhands : Hands m' opened' ∧ Keeps w.cslave m' w.opened opened' (harborMessages out))
    (hgone : ∀ id, input.gone = some id → w.Gone id) {texts : List (List UInt8)}
    (htold : ∀ id, w.told id → input.gone = some id ∨ ∃ text ∈ texts, downOf text = some id) :
    Sound ⟨m', w.harbor, w.toHarbor ++ harborMessages out, texts, opened'⟩ := by
  obtain ⟨hhands, hkeeps⟩ := hhands
  have hkept : ∀ fd, opened' fd = true → InHand m' fd ∨
      (∃ p ∈ w.toHarbor ++ harborMessages out, ∃ id, linkOf p.2 = some (id, fd)) ∨
        ∃ id, held w.harbor id = some fd := by
    intro fd hopen
    rcases hkeeps fd hopen with hhand | ⟨p, hp, hlink⟩ | ⟨hopen, hfree⟩
    · exact Or.inl hhand
    · exact Or.inr (Or.inl ⟨p, List.mem_append_right _ hp, hlink⟩)
    · rcases (h.kept fd hopen).resolve_left hfree with ⟨p, hp, hlink⟩ | hheld
      · exact Or.inr (Or.inl ⟨p, List.mem_append_left _ hp, hlink⟩)
      · exact Or.inr (Or.inr hheld)
  have hline : ∀ msgs, (w.toHarbor ++ msgs).filterMap (fun p ↦ linkOf p.2) =
      w.line ++ msgs.filterMap fun p ↦ linkOf p.2 := fun msgs ↦ List.filterMap_append
  generalize harborMessages out = msgs at *
  -- the table of the slave is left alone, gains a link that is sent to the harbor, or loses one
  cases htable with
  | same hnone htable hmsgs =>
    refine ⟨?_, hhands, hkept, fun p hp ↦ ?_⟩
    · rw [htable, line, hline, List.filterMap_eq_nil_iff.mpr hmsgs, List.append_nil]
      refine h.mirror.mono fun id hid ↦ (htold id hid).resolve_left fun heq ↦ ?_
      rw [hnone] at heq
      cases heq
    · rcases List.mem_append.mp hp with hp | hp
      · exact h.sent p hp
      · exact Or.inl (hmsgs p hp)
  | @linked command id fd hnone hcommand htable =>
    refine ⟨?_, hhands, hkept, fun p hp ↦ ?_⟩
    · rw [htable, line, hline, List.filterMap_cons_some
        (f := fun p : Option ℤ × List UInt8 ↦ linkOf p.2) (linkOf_connectText hcommand)]
      refine (h.mirror.write id fd).mono fun id hid ↦ (htold id hid).resolve_left fun heq ↦ ?_
      rw [hnone] at heq
      cases heq
    · rcases List.mem_append.mp hp with hp | hp
      · exact h.sent p hp
      · rw [List.mem_singleton.mp hp]
        exact Or.inr ⟨command, id, fd, hcommand, rfl⟩
  | @gone id hinput htable =>
    obtain ⟨hheld, hnot⟩ := hgone id hinput
    refine ⟨?_, hhands, hkept, fun p hp ↦ ?_⟩
    · rw [htable, line, hline, List.filterMap_nil, List.append_nil]
      refine Mirror.drop (h.mirror.mono fun j hj ↦ ?_) hheld fun a ha ↦ hnot _ ha rfl
      refine (htold j hj).imp_left fun heq ↦ ?_
      rw [hinput] at heq
      exact (Option.some.inj heq).symm
    · rw [List.append_nil] at hp
      exact h.sent p hp

/-! ## The harbor service -/

private theorem held_of_fds (hfds : ∀ k, (h'.s k).fd = (h.s k).fd) : held h' = held h := by
  funext id
  rw [held, held, hfds]

theorem mem_reports {h : Harbor} {input : HarborInput} {text : List UInt8}
    (hreport : reports h.slave effects = (input.report h).toList)
    (hmem : text ∈ reports h.slave effects) :
    input.report h = some text := by
  rw [hreport] at hmem
  exact Option.mem_toList.mp hmem

/-- The harbor service takes a link. -/
theorem held_connected {command : UInt8} (hcommand : command = 83 ∨ command = 65) {source : UInt32}
    (hok : ZTask.harbor h (.harbor (connectText command fd id) source) = .ok (h', effects))
    (haccept : acceptedConnect h (connectText command fd id) ≠ none) :
    held h' = Function.update (held h) id (some fd) := by
  have hscan := scanConnect_connectText command fd id
  have haccepted : 0 < fd ∧ 0 < id ∧
      acceptedConnect h (connectText command fd id) = some ((fd : ℤ), id.toNat) := by
    simp only [acceptedConnect, hscan] at haccept ⊢
    split at haccept
    next => exact absurd rfl haccept
    next hvalid =>
      rw [if_neg hvalid]
      split at haccept
      next => exact absurd rfl haccept
      next hfree =>
        rw [if_neg hfree]
        exact ⟨by omega, by omega, rfl⟩
  obtain ⟨hfd, hid, haccepted⟩ := haccepted
  have hconnects : connects h (connectText command fd id) = some (command, (fd : ℤ), id.toNat) := by
    have hlen : ¬(connectText command fd id).length < 2 := by
      rw [connectText]
      simp
    have hhead : (connectText command fd id).head? = some command := rfl
    simp only [connects, hhead]
    rw [if_pos hcommand, if_neg hlen, haccepted]
    rfl
  have hfds := harbor_fds hok
  simp only [HarborInput.fdAfter, hconnects] at hfds
  funext j
  by_cases hj : j = id
  · subst hj
    rw [Function.update_self, held, hfds, if_pos rfl, if_pos ⟨hid, by omega⟩, Int.toNat_natCast]
  · rw [Function.update_of_ne hj, held, held]
    by_cases hpos : 0 < j
    · have hne : j.toNat ≠ id.toNat := by omega
      rw [hfds, if_neg hne]
    · rw [if_neg fun hboth ↦ hpos hboth.1, if_neg fun hboth ↦ hpos hboth.1]

private theorem connects_of_linkOf {msg : List UInt8} (hlink : linkOf msg = none) :
    connects h msg = none := by
  rw [linkOf] at hlink
  by_cases hconnect : msg.head? = some 83 ∨ msg.head? = some 65
  · rw [if_pos hconnect] at hlink
    cases hlink
  · rw [connects]
    cases hhead : msg.head? with
    | none => rfl
    | some command =>
      rw [hhead] at hconnect
      exact if_neg fun hcommand ↦ hconnect (hcommand.imp (congrArg some) (congrArg some))

/-- The harbor service takes the next message of the slave. -/
theorem Sound.command (hw : Sound w) {source : Option ℤ} {msg : List UInt8}
    {msgs : List (Option ℤ × List UInt8)} {src : UInt32}
    (hnext : w.toHarbor = (source, msg) :: msgs)
    (hok : ZTask.harbor w.harbor (.harbor msg src) = .ok (h', effects))
    (haccept : linkOf msg ≠ none → acceptedConnect w.harbor msg ≠ none) :
    Sound ⟨w.cslave, h', msgs, w.toCslave ++ reports w.harbor.slave effects, w.opened⟩ := by
  have hreports : reports w.harbor.slave effects = [] := harbor_reports hok
  rw [hreports, List.append_nil]
  have hmirror := hw.mirror
  have hsent : ∀ p ∈ msgs, linkOf p.2 = none ∨ ∃ command id fd, (command = 83 ∨ command = 65) ∧
      p.2 = connectText command fd id := fun p hp ↦ hw.sent p (by
    rw [hnext]
    exact List.mem_cons_of_mem _ hp)
  rw [line, hnext] at hmirror
  rcases hw.sent (source, msg) (by rw [hnext]; exact List.mem_cons_self) with
    hlink | ⟨command, id, fd, hcommand, htext⟩
  · -- a name
    have hheld : held h' = held w.harbor := held_of_fds fun k ↦ by
      rw [harbor_fds hok]
      simp only [HarborInput.fdAfter, connects_of_linkOf hlink]
    rw [List.filterMap_cons_none (f := fun p : Option ℤ × List UInt8 ↦ linkOf p.2) hlink]
      at hmirror
    refine ⟨by rw [hheld]; exact hmirror, hw.hands, fun f hf ↦ ?_, hsent⟩
    rcases hw.kept f hf with hhand | ⟨p, hp, j, hj⟩ | hheld'
    · exact Or.inl hhand
    · rw [hnext] at hp
      rcases List.mem_cons.mp hp with rfl | hp
      · cases hlink.symm.trans hj
      · exact Or.inr (Or.inl ⟨p, hp, j, hj⟩)
    · rw [hheld]
      exact Or.inr (Or.inr hheld')
  · dsimp only at htext
    subst htext
    have hlink : linkOf (connectText command fd id) = some (id, fd) := linkOf_connectText hcommand
    -- the harbor accepts the connection, so it held none for the id
    have hfree : held w.harbor id = none := by
      have haccepted := haccept (by rw [hlink]; exact Option.some_ne_none _)
      simp only [acceptedConnect, scanConnect_connectText] at haccepted
      split at haccepted
      next => exact absurd rfl haccepted
      next =>
        split at haccepted
        next => exact absurd rfl haccepted
        next hnot => exact if_neg fun hboth ↦ hnot hboth.2
    have hheld := held_connected hcommand hok
      (haccept (by rw [hlink]; exact Option.some_ne_none _))
    rw [List.filterMap_cons_some (f := fun p : Option ℤ × List UInt8 ↦ linkOf p.2) hlink]
      at hmirror
    refine ⟨by rw [hheld]; exact hmirror.arrive, hw.hands, fun f hf ↦ ?_, hsent⟩
    rcases hw.kept f hf with hhand | ⟨p, hp, j, hj⟩ | ⟨j, hj⟩
    · exact Or.inl hhand
    · rw [hnext] at hp
      rcases List.mem_cons.mp hp with rfl | hp
      · obtain ⟨rfl, rfl⟩ := Prod.mk.inj (Option.some.inj (hlink.symm.trans hj))
        exact Or.inr (Or.inr ⟨id, by rw [hheld, Function.update_self]⟩)
      · exact Or.inr (Or.inl ⟨p, hp, j, hj⟩)
    · refine Or.inr (Or.inr ⟨j, ?_⟩)
      have hne : j ≠ id := by
        rintro rfl
        cases hfree.symm.trans hj
      rw [hheld, Function.update_of_ne hne, hj]

/-- The harbor service takes another message. -/
theorem Sound.take (hw : Sound w) {input : HarborInput} (htakes : w.takes input = true)
    (hok : ZTask.harbor w.harbor input = .ok (h', effects)) :
    Sound ⟨w.cslave, h', w.toHarbor, w.toCslave ++ reports w.harbor.slave effects, w.opened⟩ := by
  have hmore : ∀ {told : ℤ → Prop}, (∀ id, told id → w.told id ∨
        ∃ text ∈ reports w.harbor.slave effects, downOf text = some id) → ∀ id, told id →
      ∃ text ∈ w.toCslave ++ reports w.harbor.slave effects, downOf text = some id := by
    intro told hall id hid
    rcases hall id hid with ⟨text, hmem, hdown⟩ | ⟨text, hmem, hdown⟩
    · exact ⟨text, List.mem_append_left _ hmem, hdown⟩
    · exact ⟨text, List.mem_append_right _ hmem, hdown⟩
  have hsame : (∀ k, (h'.s k).fd = (w.harbor.s k).fd) →
      Sound ⟨w.cslave, h', w.toHarbor, w.toCslave ++ reports w.harbor.slave effects, w.opened⟩ := by
    intro hfds
    have hheld := held_of_fds hfds
    refine ⟨?_, hw.hands, ?_, hw.sent⟩
    · rw [hheld]
      exact hw.mirror.mono (hmore fun _ hid ↦ Or.inl hid)
    · rw [hheld]
      exact hw.kept
  have hfds := harbor_fds hok
  cases input with
  | harbor msg source => cases htakes
  | system _ _ _ | response | other _ _ _ => exact hsame hfds
  | socket message delivered =>
    simp only [HarborInput.fdAfter] at hfds
    by_cases htype : message.type = .close ∨ message.type = .error
    · cases hid : slaveOf w.harbor message.id with
      | none =>
        refine hsame fun k ↦ ?_
        rw [hfds, hid, if_neg fun hboth ↦ (by cases hboth.2)]
      | some id =>
        obtain ⟨hfd, hpos, -⟩ := slaveOf_fd hid
        have hheld : held h' = Function.update (held w.harbor) (id : ℤ) none := by
          funext j
          by_cases hj : j = id
          · subst hj
            have hlost : (h'.s (id : ℤ).toNat).fd = -1 := by
              rw [hfds, Int.toNat_natCast, if_pos ⟨htype, hid⟩]
            rw [Function.update_self, held, hlost]
            exact if_neg fun hboth ↦ absurd hboth.2 (by decide)
          · rw [Function.update_of_ne hj, held, held]
            by_cases hjpos : 0 < j
            · have hne : ¬((message.type = .close ∨ message.type = .error) ∧
                  slaveOf w.harbor message.id = some j.toNat) := by
                rintro ⟨-, heq⟩
                rw [hid] at heq
                have hsame := Option.some.inj heq
                omega
              rw [hfds, if_neg hne]
            · rw [if_neg fun hboth ↦ hjpos hboth.1, if_neg fun hboth ↦ hjpos hboth.1]
        have hreport : reports w.harbor.slave effects = [68 :: 32 :: decimal id] := by
          rw [harbor_reports hok, HarborInput.report, if_pos htype, hid]
          rfl
        have hdown : downOf (68 :: 32 :: decimal id) = some (id : ℤ) := tonumber_decimal id
        refine ⟨?_, hw.hands, fun f hf ↦ ?_, hw.sent⟩
        · rw [hheld]
          refine (hw.mirror.lose (id : ℤ)).mono (hmore fun j hj ↦ ?_)
          rcases hj with rfl | hj
          · refine Or.inr ⟨_, ?_, hdown⟩
            rw [hreport]
            exact List.mem_singleton_self _
          · exact Or.inl hj
        · rcases hw.kept f hf with hhand | hline | ⟨j, hj⟩
          · exact Or.inl hhand
          · exact Or.inr (Or.inl hline)
          · refine Or.inr (Or.inr ⟨j, ?_⟩)
            -- the socket of the slave that is lost has been closed
            have hne : j ≠ id := by
              rintro rfl
              rw [held] at hj
              split at hj
              next hsome =>
                rw [Int.toNat_natCast] at hj hsome
                have hsocket := Option.some.inj hj
                have hclosed := of_decide_eq_true htakes htype
                rcases hclosed with hneg | hclosed
                · omega
                · rw [← hfd, hsocket, hf] at hclosed
                  cases hclosed
              next => cases hj
            rw [hheld, Function.update_of_ne hne, hj]
    · exact hsame fun k ↦ by rw [hfds, if_neg fun hboth ↦ htype hboth.1]

/-! ## Runs -/

/-- **What one step keeps.** -/
theorem Sound.step (hw : Sound w) {input : LinksInput} (horderly : w.Orderly input)
    (hok : nodeLinks w input = .ok (w', ())) : Sound w' := by
  cases input with
  | act input =>
    simp only [nodeLinks] at hok
    by_cases hacts : w.acts input = true
    · rw [if_pos hacts] at hok
      cases hstep : ZTask.cslave w.cslave input with
      | error fault =>
        rw [hstep] at hok
        cases hok
      | ok p =>
        obtain ⟨m', out⟩ := p
        rw [hstep] at hok
        cases hok
        refine hw.act (cslave_table hstep) (cslave_hands hw.hands hstep ?_ ?_ ?_) ?_ ?_
        · rintro fd rfl
          simpa [acts] using hacts
        · rintro fd (rfl | rfl)
          · simpa [acts] using hacts
          · simpa [acts] using hacts
        · rintro fd (⟨ready, rfl⟩ | rfl)
          · exact horderly
          · exact horderly
        · intro id hgone
          cases input with
          | package package =>
            cases package with
            | disconnect id' =>
              cases hgone
              exact horderly
            | connect _ _ | name _ _ | wait _ => cases hgone
          | text text => cases hacts
          | _ => cases hgone
        · exact fun id hid ↦ Or.inr hid
    · rw [if_neg hacts] at hok
      cases hok
  | text =>
    simp only [nodeLinks] at hok
    cases htexts : w.toCslave with
    | nil =>
      rw [htexts] at hok
      cases hok
    | cons text texts =>
      rw [htexts] at hok
      dsimp only at hok
      cases hstep : ZTask.cslave w.cslave (.text text) with
      | error fault =>
        rw [hstep] at hok
        cases hok
      | ok p =>
        obtain ⟨m', out⟩ := p
        rw [hstep] at hok
        cases hok
        have hhands := cslave_hands hw.hands hstep (fun _ heq ↦ nomatch heq)
          (fun _ heq ↦ heq.elim (fun heq ↦ nomatch heq) fun heq ↦ nomatch heq)
          (fun _ heq ↦ heq.elim (fun ⟨_, heq⟩ ↦ nomatch heq) fun heq ↦ nomatch heq)
        refine hw.act (cslave_table hstep) hhands (fun id hgone ↦ ?_) fun id hid ↦ ?_
        · exact horderly text (by rw [htexts]; rfl) id hgone
        · -- a notice that is read leaves the line with what it tells
          obtain ⟨text', hmem, hdown⟩ := hid
          rw [htexts] at hmem
          rcases List.mem_cons.mp hmem with rfl | hmem
          · exact Or.inl hdown
          · exact Or.inr ⟨text', hmem, hdown⟩
  | command =>
    simp only [nodeLinks] at hok
    cases hnext : w.toHarbor with
    | nil =>
      rw [hnext] at hok
      cases hok
    | cons next msgs =>
      obtain ⟨source, msg⟩ := next
      rw [hnext] at hok
      dsimp only at hok
      split at hok
      next p hstep =>
        cases hok
        exact hw.command hnext hstep (horderly (source, msg) (by rw [hnext]; rfl))
      next => cases hok
  | take input =>
    simp only [nodeLinks] at hok
    by_cases htakes : w.takes input = true
    · rw [if_pos htakes] at hok
      cases hstep : ZTask.harbor w.harbor input with
      | ok p =>
        rw [hstep] at hok
        cases hok
        exact hw.take htakes hstep
      | error fault =>
        rw [hstep] at hok
        cases hok
    · rw [if_neg htakes] at hok
      cases hok
  | close fd =>
    cases hok
    -- the system closes one socket; the tables of both services stay
    have hbefore : ∀ {f}, Function.update w.opened fd false f = true → w.opened f = true := by
      intro f hf
      by_cases hne : f = fd
      · rw [hne, Function.update_self] at hf
        cases hf
      · rwa [Function.update_of_ne hne] at hf
    refine ⟨hw.mirror, fun f ↦ ?_, fun f hf ↦ hw.kept f (hbefore hf), hw.sent⟩
    refine ⟨(hw.hands f).starting, (hw.hands f).pooled, fun hlost ↦ ?_, fun hopen ↦
      (hw.hands f).reading (hbefore hopen)⟩
    by_contra hopen
    have hlost' := (hw.hands f).lost hlost
    rw [hbefore (Bool.of_not_eq_false hopen)] at hlost'
    cases hlost'

/-- The two have the same socket for the slave, or none. -/
def AgreeOn (w : NodeLinks) (id : ℤ) : Prop :=
  ∀ fd, w.cslave.slaves id = .socket fd ↔ live w.harbor id = some fd

/-- The harbor service has the sockets that are open. -/
def AllHeld (w : NodeLinks) : Prop := ∀ fd, w.opened fd = true → ∃ id, held w.harbor id = some fd

/-- **In quiet states, the table of the slave and the records of the harbor service agree, and every
socket that is open is in a record.** Only a connection that the harbor service has closed itself is
in the table and not alive. -/
theorem links_agree {n : ℕ} {slave : UInt32} {tr : List (Event NodeLinks LinksInput Unit)}
    (hrun : Run nodeLinks (init n slave) tr w) (hC : Meets Orderly tr) (hquiet : w.Quiet) :
    (∀ id, w.AgreeOn id ↔ ¬Closing w.harbor id) ∧ w.AllHeld := by
  have hsound : Sound w :=
    hrun.invariant Sound (sound_init n slave) (fun hw hc hok ↦ hw.step hc hok) hC
  refine ⟨fun id ↦ ?_, fun fd hopen ↦ ?_⟩
  · -- nothing is under way between the two services, so the mirror is exact
    have hagree : table w.cslave id = held w.harbor id := by
      have hmirror := hsound.mirror
      rw [line, hquiet.toHarbor, List.filterMap_nil] at hmirror
      refine (hmirror.mono fun id htold ↦ ?_).agree id
      obtain ⟨text, hmem, -⟩ := htold
      rw [hquiet.toCslave] at hmem
      cases hmem
    have htable : ∀ fd, w.cslave.slaves id = .socket fd ↔ held w.harbor id = some fd := by
      intro fd
      rw [← hagree, table]
      cases w.cslave.slaves id with
      | socket fd' =>
        rw [SlaveEntry.socket.injEq, SlaveEntry.linkedTo, Option.some.injEq]
      | unknown | gone => exact ⟨(fun heq ↦ by cases heq), fun heq ↦ by cases heq⟩
    simp only [AgreeOn, htable, live, Closing]
    -- a slave that is down keeps its socket until that is closed, and only then do the two differ
    by_cases hdown : (w.harbor.s id.toNat).status = .down
    · simp only [hdown, if_true, true_and, not_not]
      cases held w.harbor id with
      | none => exact ⟨fun _ ↦ rfl, fun _ _ ↦ Iff.rfl⟩
      | some fd => exact ⟨(fun hall ↦ by cases (hall fd).mp rfl), fun heq ↦ by cases heq⟩
    · rw [if_neg hdown]
      exact ⟨fun _ hboth ↦ hdown hboth.1, fun _ _ ↦ Iff.rfl⟩
  · -- an open socket is in a hand, on its way to the harbor, or held there; the first two are not
    -- quiet
    rcases hsound.kept fd hopen with hhand | ⟨p, hp, -⟩ | hheld
    · rcases hhand with ⟨ready, id, hcall⟩ | haccepting
      · rw [hquiet.call] at hcall
        cases hcall
      · exact absurd (hquiet.accepting fd) haccepting
    · rw [hquiet.toHarbor] at hp
      cases hp
    · exact hheld

/-- The master tells of the slave 5, and the harbor service takes the socket 7. -/
def linksFive : List LinksInput :=
  [.act .ready, .act (.next 0), .act (.package (.connect 5 [])), .act (.opened false (some 7)),
    .act (.started false true), .command]

/-- The slave is connected, and both have its socket. -/
theorem links_agree_connected : ∃ tr w, Run nodeLinks (init 1 0x01000005) tr w ∧
    live w.harbor 5 = some 7 ∧ (∀ id, w.AgreeOn id ↔ ¬Closing w.harbor id) ∧ w.AllHeld := by
  have hfree : ∀ {w : NodeLinks}, w.cslave.monitorMaster = .connecting (.opening 5) →
      w.cslave.ready = .done → w.cslave.accepting 7 = none → ¬InHand w.cslave 7 := by
    rintro w hmaster hready haccepting (⟨ready, id, hcall⟩ | hne)
    · cases ready with
      | false =>
        simp only [Cslave.call, hmaster, if_true] at hcall
        cases hcall
      | true =>
        simp only [Cslave.call, hready, if_neg (show ¬(true = false) by decide)] at hcall
        cases hcall
    · exact hne haccepting
  have halong : Along nodeLinks Orderly (init 1 0x01000005) linksFive := by
    refine ⟨trivial, trivial, trivial, hfree rfl rfl rfl, trivial, ?_, trivial⟩
    rintro p hp -
    rw [← Option.some.inj hp]
    decide +kernel
  obtain ⟨tr, hrun, hC⟩ := (Reachable.refl nodeLinks Orderly (init 1 0x01000005)).foldl halong
  exact ⟨tr, _, hrun, rfl, links_agree hrun hC
    ⟨rfl, rfl, fun ready ↦ by cases ready <;> rfl, fun _ ↦ rfl⟩⟩

/-- The master tells then that the slave is gone. The slave forgets a socket that is not its own any
more, so that it is not closed; the harbor service is told nothing. -/
theorem not_links_agree : ¬∀ {tr : List (Event NodeLinks LinksInput Unit)} {w : NodeLinks},
    Run nodeLinks (init 1 0x01000005) tr w → w.Quiet → (∀ id, w.AgreeOn id) ∧ w.AllHeld := by
  intro hall
  have halong : Along nodeLinks (fun _ _ ↦ True) (init 1 0x01000005)
      (linksFive ++ [.act (.package (.disconnect 5))]) :=
    ⟨trivial, trivial, trivial, trivial, trivial, trivial, trivial, trivial⟩
  obtain ⟨tr, hrun, -⟩ := (Reachable.refl _ _ _).foldl halong
  have hagree := (hall hrun
    ⟨rfl, rfl, fun ready ↦ by cases ready <;> rfl, fun _ ↦ rfl⟩).1 5 7
  exact nomatch hagree.mpr rfl

end NodeLinks

end ZTask
