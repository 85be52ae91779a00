import ZTask.Harbor.Ledger

/-!
# What the service tells its slave

The service sends texts to the service that it has been told to report to: `D id` for a connection
that is lost, `Q name` for a name that it does not know. Nothing else that it sends is a text, as
what it passes on is tagged (`harbor_reports`). The sockets it has change with what it reports, and
with the commands that connect a slave (`harbor_fds`).

## Functions that report nothing

Most functions of the service report nothing, whatever they do otherwise; these come first. Only a
connection that is given up and a message to a name that is not known are reported. So what a step
reports is a function of the input and the state before it (`HarborInput.report`), and the services
that listen to it can be put next to the harbor without knowing more of it.
-/

namespace ZTask

open Lib

/-- A text to the service `slave`. -/
def HarborEffect.report (slave : UInt32) : HarborEffect → Option (List UInt8)
  | .send _ destination type _ msg =>
    if destination = slave ∧ type = ptypeText then some msg else none
  | _ => none

/-- The texts to the service `slave`. -/
def reports (slave : UInt32) (effects : List HarborEffect) : List (List UInt8) :=
  effects.filterMap (HarborEffect.report slave)

/-- What is reported of a message. -/
def HarborInput.report (h : Harbor) : HarborInput → Option (List UInt8)
  | socket message _ =>
    if message.type = .close ∨ message.type = .error then
      (slaveOf h message.id).map fun id ↦ 68 :: 32 :: decimal id
    else none
  | system rmsg _ _ =>
    if rmsg.handle = 0 ∧ valueOf h.map rmsg.name.id = 0 then some (81 :: 32 :: rmsg.name.text)
    else none
  | _ => none

/-- The socket of a slave after a message. -/
def HarborInput.fdAfter (h : Harbor) (id : ℕ) : HarborInput → ℤ
  | socket message _ =>
    if (message.type = .close ∨ message.type = .error) ∧ slaveOf h message.id = some id then -1
    else (h.s id).fd
  | harbor msg _ =>
    match connects h msg with
    | some (_, fd, id') => if id = id' then fd else (h.s id).fd
    | none => (h.s id).fd
  | _ => (h.s id).fd

variable {slave : UInt32} {delivered : RemoteMessageHeader → Bool} {h h' : Harbor} {id : ℕ}
  {as bs effects : List HarborEffect}

@[simp] theorem reports_append :
    reports slave (as ++ bs) = reports slave as ++ reports slave bs := List.filterMap_append

private theorem reports_cons_of_none {e : HarborEffect} (he : e.report slave = none) :
    reports slave (e :: as) = reports slave as := List.filterMap_cons_none he

private theorem report_tagged (source destination type session : UInt32) (msg : List UInt8) :
    HarborEffect.report slave
      (.send source destination (type ||| ptypeTagDontcopy) session msg) = none := by
  refine if_neg fun hboth ↦ ?_
  have htag : ptypeTagDontcopy = 0 := (UInt32.or_eq_zero_iff.mp hboth.2).2
  exact absurd htag (by decide)

private theorem report_ptypeError (source destination session : UInt32) (msg : List UInt8) :
    HarborEffect.report slave (.send source destination ptypeError session msg) = none :=
  if_neg fun hboth ↦ absurd hboth.2 (by decide)

private theorem reports_sendRemote (slave : UInt32) (fd : ℤ) (ms : List HarborMsg) :
    reports slave (ms.flatMap fun m ↦ sendRemote fd m.buffer m.header) = [] := by
  induction ms with
  | nil => rfl
  | cons m ms ih =>
    rw [List.flatMap_cons, reports_append, ih, sendRemote_eq]
    split <;> rfl

theorem reports_closeHarbor (h : Harbor) (id : ℕ) : reports slave (closeHarbor h id).1 = [] := by
  rw [closeHarbor]
  split <;> rfl

/-! ## Data -/

private theorem reports_forwardLocalMesssage {body : List UInt8}
    (hok : forwardLocalMesssage h delivered body = .ok effects) : reports slave effects = [] := by
  rw [forwardLocalMesssage] at hok
  split at hok
  · cases hok
  · split at hok
    · cases hok
    · simp only at hok
      split at hok
      · cases hok
        exact reports_cons_of_none (report_tagged ..)
      · split at hok
        · cases hok
          rw [reports_cons_of_none (report_tagged ..), reports_cons_of_none (report_ptypeError ..)]
          rfl
        · cases hok
          rw [reports_cons_of_none (report_tagged ..)]
          rfl

private theorem reports_contentPass {buffer : List UInt8} {p : HarborPass}
    (hok : contentPass delivered h id buffer = .ok p) : reports slave p.1 = [] := by
  simp only [contentPass, bind, Except.bind, pure, Except.pure] at hok
  split at hok
  · cases hcopy : memcpy (h.s id).recvBuffer (h.s id).read buffer buffer.length with
    | error e => simp [hcopy] at hok
    | ok block =>
      simp only [hcopy, Except.ok.injEq] at hok
      rw [← hok]
      rfl
  · cases hcopy : memcpy (h.s id).recvBuffer (h.s id).read buffer
        ((h.s id).length - (h.s id).read) with
    | error e => simp [hcopy] at hok
    | ok block =>
      cases hforward : forwardLocalMesssage h delivered (block.val.take (h.s id).length) with
      | error e => simp [hcopy, hforward] at hok
      | ok effects =>
        simp only [hcopy, hforward, Except.ok.injEq] at hok
        rw [← hok]
        exact reports_forwardLocalMesssage hforward

private theorem reports_headerPass {buffer : List UInt8} {p : HarborPass}
    (hok : headerPass delivered h id buffer = .ok p) : reports slave p.1 = [] := by
  simp only [headerPass, bind, Except.bind, pure, Except.pure] at hok
  split at hok
  · cases hcopy : memcpy (h.s id).size (h.s id).read buffer buffer.length with
    | error e => simp [hcopy] at hok
    | ok block =>
      simp only [hcopy, Except.ok.injEq] at hok
      rw [← hok]
      rfl
  · cases hcopy : memcpy (h.s id).size (h.s id).read buffer (4 - (h.s id).read) with
    | error e => simp [hcopy] at hok
    | ok block =>
      simp only [hcopy] at hok
      split at hok
      · simp only [Except.ok.injEq] at hok
        rw [← hok]
        exact reports_closeHarbor _ _
      · split at hok
        · simp only [Except.ok.injEq] at hok
          rw [← hok]
          rfl
        · exact reports_contentPass hok

private theorem reports_handshakePass {buffer : List UInt8} {p : HarborPass}
    (hok : handshakePass delivered h id buffer = .ok p) : reports slave p.1 = [] := by
  cases buffer with
  | nil => cases hok
  | cons b rest =>
    simp only [handshakePass] at hok
    split at hok
    · cases hok
      exact reports_closeHarbor h id
    · by_cases hfd : (h.s id).fd = 0
      · simp [dispatchQueue, hfd, bind, Except.bind] at hok
      have hdispatch := dispatchQueue_ok
        (h := h.setSlave id { h.s id with status := .header }) id (by
          rw [Harbor.setSlave_self]
          exact hfd)
      rw [hdispatch] at hok
      simp only [bind, Except.bind, pure, Except.pure] at hok
      split at hok
      · cases hok
        exact reports_sendRemote _ _ _
      · split at hok
        next => cases hok
        next q hq =>
          cases hok
          rw [reports_append, reports_sendRemote, List.nil_append]
          exact reports_headerPass hq

private theorem reports_socketPass {buffer : List UInt8} {p : HarborPass}
    (hok : socketPass delivered h id buffer = .ok p) : reports slave p.1 = [] := by
  rw [socketPass] at hok
  split at hok
  · exact reports_handshakePass hok
  · exact reports_headerPass hok
  · exact reports_contentPass hok
  · cases hok
    rfl
  · cases hok
    rfl

private theorem reports_socketLoop {fuel : ℕ} {buffer : List UInt8}
    (hok : socketLoop delivered id fuel h buffer = .ok (effects, h')) :
    reports slave effects = [] := by
  induction fuel generalizing h h' buffer effects with
  | zero => cases hok
  | succ fuel ih =>
    rw [socketLoop_succ] at hok
    cases hp : socketPass delivered h id buffer with
    | error e =>
      rw [hp] at hok
      cases hok
    | ok p =>
      have hpass : reports slave p.1 = [] := reports_socketPass hp
      rw [hp] at hok
      simp only [Except.bind, goOn] at hok
      split at hok
      · cases hok
        exact hpass
      · cases hloop : socketLoop delivered id fuel p.2.1 _ with
        | error e =>
          rw [hloop] at hok
          cases hok
        | ok q =>
          rw [hloop] at hok
          cases hok
          rw [reports_append, hpass, ih hloop]
          rfl

private theorem reports_pushSocketData {fd : ℤ} {buffer : List UInt8}
    (hok : pushSocketData h fd buffer delivered = .ok (effects, h')) :
    reports slave effects = [] := by
  rw [pushSocketData] at hok
  split at hok
  · cases hok
    rfl
  · exact reports_socketLoop hok

/-! ## Messages to other nodes -/

private theorem reports_remoteSendHandle (h : Harbor) (source destination type session : UInt32)
    (msg : List UInt8) :
    reports slave (remoteSendHandle h source destination type session msg).1 = [] := by
  simp only [remoteSendHandle]
  split
  · exact reports_cons_of_none (report_tagged ..)
  · split
    · split
      · rw [reports_cons_of_none (report_ptypeError ..)]
        rfl
      · rfl
    · have hsent := reports_sendRemote slave (h.s (harborOf destination)).fd
        [⟨⟨source, (destination &&& handleMask32) ||| (type <<< handleRemoteShift32),
          session⟩, msg⟩]
      rwa [List.flatMap_singleton] at hsent

private theorem reports_dispatchNameQueue (h : Harbor) (node : KeyValue) (queue : HarborMsgQueue) :
    reports slave (dispatchNameQueue h node queue).1 = [] := by
  simp only [dispatchNameQueue]
  split
  · split
    · rfl
    · split
      · rw [reports, List.filterMap_map, List.filterMap_eq_nil_iff]
        intro m _
        exact report_tagged ..
      · rfl
  · have hsent := reports_sendRemote slave (h.s (harborOf node.value)).fd
      ((popAll queue).1.map (HarborMsg.addressed node.value))
    rw [List.flatMap_map] at hsent
    exact hsent

theorem reports_updateName (slave : UInt32) (h : Harbor) (name : GlobalName) (handle : UInt32) :
    reports slave (updateName h name handle).1 = [] := by
  rw [updateName]
  dsimp only
  split
  · rfl
  · exact reports_dispatchNameQueue _ _ _

private theorem reports_remoteSendName (h : Harbor) (source : UInt32) (name : GlobalName)
    (type session : UInt32) (msg : List UInt8) :
    reports h.slave (remoteSendName h source name type session msg).1 =
      if valueOf h.map name.id = 0 then [81 :: 32 :: name.text] else [] := by
  by_cases hvalue : valueOf h.map name.id = 0
  · obtain ⟨-, hval, -⟩ := searchOrInsert_fst h.map name
    simp only [remoteSendName, if_pos (hval.trans hvalue), if_pos hvalue]
    exact List.filterMap_cons_some (if_pos ⟨rfl, rfl⟩)
  · rw [remoteSendName_known source type session msg hvalue, if_neg hvalue]
    exact reports_remoteSendHandle _ _ _ _ _ _

/-! ## Commands -/

private theorem reports_connectSlave {command : UInt8} {fd : ℤ}
    (hok : connectSlave h command fd id = .ok (effects, h')) : reports slave effects = [] := by
  simp only [connectSlave] at hok
  split at hok
  · cases hok
    rfl
  · rw [Harbor.setSlave_self, Harbor.setSlave_setSlave] at hok
    by_cases hfd : fd = 0
    · simp [dispatchQueue, hfd, bind, Except.bind] at hok
    have hdispatch := dispatchQueue_ok
      (h := h.setSlave id { h.s id with fd := fd, status := .header }) id (by
        rw [Harbor.setSlave_self]
        exact hfd)
    rw [hdispatch] at hok
    cases hok
    exact reports_sendRemote _ _ _

private theorem reports_harborCommand {msg : List UInt8} {source : UInt32}
    (hok : harborCommand h msg source = .ok (effects, h')) : reports slave effects = [] := by
  rw [harborCommand] at hok
  split at hok
  · cases hok
  · split at hok
    · split at hok
      · cases hok
        rfl
      · have hslave := reports_updateName slave h ‹_› source
        rwa [Except.ok.inj hok] at hslave
    · split at hok
      · rw [connectCommand] at hok
        split at hok
        · cases hok
        · split at hok
          · exact reports_connectSlave hok
          · have hrefused : ∀ command, reports slave (refusedConnect h command msg).1 = [] := by
              intro command
              rw [refusedConnect]
              split <;> rfl
            have hslave := hrefused ‹_›
            rwa [Except.ok.inj hok] at hslave
      · cases hok
        rfl

/-! ## All messages -/

private theorem harbor_ok {i : HarborInput} (hok : harbor h i = .ok (h', effects)) :
    mainloop h i = .ok (effects, h') := by
  rw [harbor] at hok
  cases hmain : mainloop h i with
  | error e =>
    rw [hmain] at hok
    cases hok
  | ok p =>
    rw [hmain] at hok
    cases hok
    rfl

/-- A message of the socket server that is no data. -/
theorem socketMessage_report {message : SocketMessage} (hdata : message.type ≠ .data)
    (hok : socketMessage h message delivered = .ok (effects, h')) :
    reports h.slave effects = (HarborInput.report h (.socket message delivered)).toList ∧
      ∀ id, (h'.s id).fd = HarborInput.fdAfter h id (.socket message delivered) := by
  have hsame : ∀ {message : SocketMessage}, ¬(message.type = .close ∨ message.type = .error) →
      HarborInput.report h (.socket message delivered) = none ∧
        ∀ id, HarborInput.fdAfter h id (.socket message delivered) = (h.s id).fd :=
    fun hnot ↦ ⟨if_neg hnot, fun id ↦ if_neg fun hboth ↦ hnot hboth.1⟩
  have hlost : message.type = .close ∨ message.type = .error →
      (if harborId h message.id ≠ 0 then Except.ok (reportHarborDown h (harborId h message.id))
        else Except.ok ([.error (.unknownFd message.id)], h) : Except HarborFault HarborStep) =
          .ok (effects, h') →
      reports h.slave effects = (HarborInput.report h (.socket message delivered)).toList ∧
        ∀ id, (h'.s id).fd = HarborInput.fdAfter h id (.socket message delivered) := by
    intro htype hclose
    simp only [HarborInput.report, HarborInput.fdAfter, htype, true_and]
    rw [harborId] at hclose
    cases hid : slaveOf h message.id with
    | none =>
      rw [hid, Option.getD_none, if_neg (not_not_intro rfl)] at hclose
      cases hclose
      exact ⟨rfl, fun id ↦ (if_neg fun heq ↦ by cases heq).symm⟩
    | some k =>
      have hpos := (slaveOf_fd hid).2.1
      rw [hid, Option.getD_some, if_pos (Nat.ne_of_gt hpos)] at hclose
      cases hclose
      refine ⟨List.filterMap_cons_some (if_pos ⟨rfl, rfl⟩), fun id ↦ ?_⟩
      by_cases hk : id = k
      · rw [hk, Harbor.setSlave_self, if_pos rfl]
      · rw [Harbor.setSlave_of_ne _ _ hk, if_neg fun heq ↦ hk (Option.some.inj heq).symm]
  rw [socketMessage] at hok
  cases htype : message.type with
  | data => exact absurd htype hdata
  | close =>
    rw [htype] at hok
    exact hlost (Or.inl htype) hok
  | error =>
    rw [htype] at hok
    exact hlost (Or.inr htype) hok
  | connect | other =>
    obtain ⟨hreport, hfd⟩ := hsame (by rw [htype]; decide)
    rw [htype] at hok
    cases hok
    exact ⟨by rw [hreport]; rfl, fun id ↦ (hfd id).symm⟩
  | warning =>
    obtain ⟨hreport, hfd⟩ := hsame (by rw [htype]; decide)
    rw [htype] at hok
    dsimp only at hok
    split at hok <;> cases hok <;> exact ⟨by rw [hreport]; rfl, fun id ↦ (hfd id).symm⟩

/-- **The texts of the service are its reports.** -/
theorem harbor_reports {i : HarborInput} (hok : harbor h i = .ok (h', effects)) :
    reports h.slave effects = (i.report h).toList := by
  have hmain := harbor_ok hok
  cases i with
  | socket message delivered =>
    by_cases hdata : message.type = .data
    · rw [mainloop, socketMessage, hdata] at hmain
      rw [reports_pushSocketData hmain, HarborInput.report, hdata]
      rfl
    · exact (socketMessage_report hdata hmain).1
  | harbor msg source => exact reports_harborCommand hmain
  | system rmsg session source =>
    have heffects : (systemMessage h rmsg session source).1 = effects :=
      congrArg Prod.fst (Except.ok.inj hmain)
    rw [← heffects, systemMessage, HarborInput.report]
    by_cases hhandle : rmsg.handle = 0
    · rw [if_pos hhandle, reports_remoteSendName]
      by_cases hvalue : valueOf h.map rmsg.name.id = 0
      · rw [if_pos hvalue, if_pos ⟨hhandle, hvalue⟩]
        rfl
      · rw [if_neg hvalue, if_neg fun hboth ↦ hvalue hboth.2]
        rfl
    · rw [if_neg hhandle, if_neg fun hboth ↦ hhandle hboth.1]
      exact reports_remoteSendHandle _ _ _ _ _ _
  | response =>
    cases hmain
    rfl
  | other type session source =>
    cases hmain
    rw [reports_cons_of_none rfl]
    split
    · rw [reports_cons_of_none (report_ptypeError ..)]
      rfl
    · rfl

theorem DataMove.fd {buffer : List UInt8} {out : List (ℤ × List UInt8)}
    (hm : DataMove h id buffer out h') (k : ℕ) : (h'.s k).fd = (h.s k).fd := by
  have hset : ∀ {s : Slave}, s.fd = (h.s id).fd → ((h.setSlave id s).s k).fd = (h.s k).fd := by
    intro s hs
    by_cases hk : k = id
    · rw [hk, Harbor.setSlave_self, hs]
    · rw [Harbor.setSlave_of_ne _ _ hk]
  cases hm with
  | ignored _ => rfl
  | read _ hreads => exact hset hreads.fd
  | refused _ _ _ hfd _ _ => exact hset hfd
  | greeted _ _ _ _ hfd _ _ => exact hset hfd

/-- **The sockets of the slaves change with commands and reports only.** -/
theorem harbor_fds {i : HarborInput} (hok : harbor h i = .ok (h', effects)) (k : ℕ) :
    (h'.s k).fd = i.fdAfter h k := by
  -- a new slave record with the old socket changes no socket
  have hset : ∀ {j : ℕ} {s : Slave}, s.fd = (h.s j).fd →
      ((h.setSlave j s).s k).fd = (h.s k).fd := by
    intro j s hs
    by_cases hk : k = j
    · rw [hk, Harbor.setSlave_self, hs]
    · rw [Harbor.setSlave_of_ne _ _ hk]
  have hmain := harbor_ok hok
  have hmove := harbor_move hok
  cases i with
  | socket message delivered =>
    by_cases hdata : message.type = .data
    · rw [HarborInput.fdAfter, if_neg (by rw [hdata]; simp)]
      rw [mainloop, socketMessage, hdata] at hmain
      cases hid : slaveOf h message.id with
      | none =>
        simp only [pushSocketData, hid] at hmain
        cases hmain
        rfl
      | some id => exact (pushSocketData_move hid hmain).fd k
    · exact (socketMessage_report hdata hmain).2 k
  | harbor msg source =>
    have hconnected : ∀ {command : UInt8} {fd : ℤ} {id : ℕ} {s : Slave},
        connects h msg = some (command, fd, id) → s.fd = fd →
        ((h.setSlave id s).s k).fd = HarborInput.fdAfter h k (.harbor msg source) := by
      intro command fd id s hconnects hs
      simp only [HarborInput.fdAfter, hconnects]
      by_cases hk : k = id
      · rw [if_pos hk, hk, Harbor.setSlave_self, hs]
      · rw [if_neg hk, Harbor.setSlave_of_ne _ _ hk]
    generalize hout : sends effects = out at hmove
    cases hmove with
    | idle hplain => simp only [HarborInput.fdAfter, hplain.2]
    | connectS hconnects hfd => exact hconnected hconnects hfd
    | connectA hconnects hfd => exact hconnected hconnects hfd
    | update hname hmove hh' =>
      have hnone : connects h msg = none := by
        cases hconnects : connects h msg with
        | none => rfl
        | some p =>
          rw [nameUpdate_of_connects hconnects] at hname
          cases hname
      simp only [HarborInput.fdAfter, hnone]
      rw [hh']
      cases hmove with
      | none _ | posted _ | refused _ _ => rfl
      | own _ _ hfd _ => exact hset hfd
      | stored _ _ hfd _ => exact hset hfd
  | system rmsg session source =>
    generalize hout : sends effects = out at hmove
    cases hmove with
    | idle hplain => exact absurd hplain id
    | pending _ _ hh' =>
      rw [hh']
      rfl
    | handle _ hmove =>
      cases hmove with
      | own _ | posted _ _ | refused _ _ => rfl
      | stored _ _ hfd _ => exact hset hfd
  | response | other _ _ _ =>
    cases hmain
    rfl

end ZTask
