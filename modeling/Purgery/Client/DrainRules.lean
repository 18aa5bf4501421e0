import Purgery.Client.RunRules

namespace Purgery.Client

open Purgery.Path
open Purgery.Interleaving
open Purgery.Server (IoError)

/-! Draining a run that an earlier sync has left keeps the contract of a client. -/

section Remote

variable {S : Site} {J : ClientWorld → Prop} {host serverCommand : String} {k : RunKey}

theorem driveServer_keeps {dbg : Debug} {n : Nat} (hJ : StillKept J) :
    S.Yields J (driveServer host k dbg n) fun _ => J := by
  have honly : (driveCalls.embed (driveServerUntilTerminal dbg.option host k n)).Only fun o =>
      o.quiet = true := (Prog.Only.any _).embed driveCalls fun _ _ => rfl
  refine .lift_bind (ensures_only honly hJ) fun r => ?_
  cases r with
  | none => exact .abort _
  | some r => exact .checked fun _ _ => hJ.settled

theorem command_keeps {c : ServerCommand} (hJ : StillKept J) :
    S.Yields J (command host serverCommand c) fun _ => J :=
  .answered ((ensures_quiet (o := .remote (.command host serverCommand c)) rfl hJ).weaken
    fun _ _ _ h _ _ => h)

theorem finishRun_keeps (hJ : StillKept J) :
    S.Yields J (finishRun host serverCommand k) fun _ => J :=
  command_keeps hJ

theorem checkServerVersion_keeps (hJ : StillKept J) :
    S.Yields J (checkServerVersion host serverCommand) fun _ => J := by
  refine .bind (command_keeps hJ) fun answer => ?_
  cases answer with
  | error e => exact .abort _
  | ok resp =>
    dsimp only
    split
    · exact .abort _
    · exact .checked fun _ _ => hJ.settled

theorem readStatus_ok {d : Doc RunStatus} {status : RunStatus} (h : readStatus d = .ok status) :
    d.parsed = .ok status ∧ Compatible status.purgeryVersion := by
  unfold readStatus RunStatus.fromToml at h
  cases hparsed : d.parsed with
  | error e =>
    rw [hparsed] at h
    exact nomatch h
  | ok found =>
    rw [hparsed] at h
    simp only [Except.mapError] at h
    split at h
    · exact nomatch h
    · rename_i u hcompatible
      obtain rfl := Except.ok.inj h
      exact ⟨rfl, requireCompatible_ok.1 hcompatible⟩

/-- A status that was read is remembered. -/
theorem readServerStatus_keeps (hJ : StillKept J) :
    S.Yields J (readServerStatus host serverCommand k) fun status w =>
      J w ∧ .reported status ∈ w.history ∧ Compatible status.purgeryVersion := by
  have hstatus : S.Yields J (command host serverCommand (.status k)) fun d w =>
      J w ∧ ∀ status, d.parsed = .ok status → .reported status ∈ w.history := by
    refine .answered ((ensures_answer (o := .remote (.command host serverCommand (.status k))) rfl
      hJ (A := fun r w => ∀ d : Doc RunStatus, r = .ok d → ∀ status, d.parsed = .ok status →
        .reported status ∈ w.history) (fun _ _ _ => id) fun x w _ _ _ d hd status hparsed => ?_).weaken
      fun _ _ _ h d hd => ⟨h.1, h.2 d hd⟩)
    obtain rfl : x = .ok d := hd
    have hevent : (RemoteOp.command host serverCommand (.status k)).event w.tree (.ok d) =
        some (.reported status) := by
      simp only [RemoteOp.event, hparsed]
      rfl
    refine List.mem_append_right _ ?_
    rw [hevent]
    exact List.mem_singleton_self _
  refine .bind hstatus fun d => .checked fun status hread w t h => ?_
  obtain ⟨hparsed, hcompatible⟩ := readStatus_ok hread
  exact ⟨hJ.settled w t h.1, h.2 status hparsed, hcompatible⟩

end Remote

section Cleanup

variable {S : Site} {J : ClientWorld → Prop} {k : RunKey} {r : RemoteRun} {status : RunStatus}
variable {path : String} {n : Nat}

theorem ensures_ledgerExists (hJ : StillKept J) :
    S.Ensures J (ask (.ledgerExists path)) fun found w =>
      J w ∧ (S.orderly → Stocked w path → found = true) := by
  refine ensures_answer (o := .ledgerExists path) rfl hJ
    (A := fun found w => S.orderly → Stocked w path → found = true) (fun _ _ _ => id)
    fun x w htruth _ _ ho hstocked => ?_
  obtain rfl : x = false := htruth ho
  change (!false && (w.files.ledger path).present) = true
  change (w.files.ledger path).accepted.isSome = true at hstocked
  cases hfile : w.files.ledger path with
  | text d => rfl
  | missing =>
    rw [hfile] at hstocked
    exact nomatch hstocked
  | unreadable message =>
    rw [hfile] at hstocked
    exact nomatch hstocked

theorem logged_retired : ∀ w, S.Logged k n w → S.Logged k n (w.putLedger path .missing) :=
  fun _ => id

/-- The calls on the ledgers leave the runs alone. -/
theorem processAndRetire_only : (processCleanupStateFileAndRetire path).run.Only fun o =>
    ∀ x w, ((o.step S.sha x w).2 : ClientWorld).log = w.log := by
  have hcleanup : ∀ (o : CleanupOp) (x : o.Choice) (w : ClientWorld),
      ((SyncOp.cleanup o).step S.sha x w).2.log = w.log := fun _ _ _ => rfl
  have hretire : ∀ (x : Option String) (w : ClientWorld),
      ((SyncOp.retire path).step S.sha x w).2.log = w.log := by
    intro x w
    cases x with
    | some message => rfl
    | none =>
      simp only [SyncOp.step]
      split <;> rfl
  refine Prog.Only.runBind (.bind ((Prog.Only.any _).embed cleanupCalls fun o _ => hcleanup o)
    fun _ => trivial) fun outcome => ?_
  cases outcome with
  | complete => exact .runBind (.runAdapt ⟨hretire, fun _ => trivial⟩) fun _ => trivial
  | stillPending => trivial

/-- Whether or not the ledger can be retired, the run has come as far as before. -/
theorem tryRetire_keeps (hk : ProperId k.runId.asStr) :
    S.Ensures (S.Logged k 4)
      (processCleanupStateFileAndRetire (RunKey.ledgerPath S.stateDir k)).run fun _ =>
        S.Logged k 4 := by
  have hkeeps := processAndRetire_keeps (S := S) (RunKey.ledgerPath S.stateDir k)
    (lasting_logged (S := S) (k := k) (n := 4)) logged_retired
  refine (Triple.frame_only (J := S.Logged k 4) (processAndRetire_only (S := S)) ?_ ?_ hkeeps).conseq
    (fun w hw h => ⟨⟨h, retirable_of_logged hw hk h (.inr rfl)⟩, h⟩) fun _ _ _ h => h.2
  · rintro w _ - - ⟨t, rfl⟩
    exact lasting_logged.settled w t
  · intro o x w hsame h ho
    exact (congrFun (hsame x w) _).trans (h ho)

theorem closable_of_logged : ∀ w, S.Logged k 4 w → S.Closable (RunKey.runName k) w :=
  fun _ h ho => .inr (h ho)

theorem enduring_true : S.Enduring fun _ => True := fun _ _ _ => id

/-- A run that is cleaned up is forgotten. -/
theorem forget_keeps : S.Yields (S.Logged k 4) (removeClientRunState k) fun _ w =>
    S.Closable (RunKey.runName k) w :=
  (removeClientRunState_keeps enduring_true).conseq
    (fun w _ h => ⟨trivial, closable_of_logged w h⟩) fun _ _ _ h => h.2

theorem retireLogged_keeps (hk : ProperId k.runId.asStr) :
    S.Yields (S.Logged k 4) (retireCleanupStateFile (RunKey.ledgerPath S.stateDir k)) fun _ =>
      S.Logged k 4 :=
  (retire_keeps lasting_logged logged_retired).strengthen fun _ hw h =>
    ⟨h, retirable_of_logged hw hk h (.inr rfl)⟩

theorem persistCleaned_keeps (hr : r.Proper) :
    S.Yields (S.Logged r.key 3) (persistClientRunState S.stateDir r none .cleanupComplete) fun _ =>
      S.Logged r.key 4 :=
  (persist_keeps none .cleanupComplete enduring_true hr (by decide) rfl).conseq
    (fun _ _ h => ⟨⟨trivial, nofun⟩, h⟩) fun _ _ _ h => h.2

theorem finishCleanupCompleteResume_keeps (hk : ProperId k.runId.asStr) :
    S.Yields (S.Logged k 4) (finishCleanupCompleteResume S.stateDir k) fun _ =>
      S.Closable (RunKey.runName k) := by
  refine .lift_bind (ensures_ledgerExists lasting_logged.stillKept) fun found => ?_
  have hforget := forget_keeps (S := S) (k := k)
  cases found with
  | false => exact hforget.strengthen fun _ _ h => h.1
  | true =>
    exact .lift_bind ((tryRetire_keeps hk).strengthen fun _ _ h => h.1) fun _ => hforget

/-- A run whose ledger is gone is not drained any further, which an orderly history
excludes. -/
theorem cleanFromStatus_keeps (hr : r.Proper) :
    S.Yields (fun w => S.Logged r.key 3 w ∧
        S.Answered (RunKey.ledgerPath S.stateDir r.key) status w)
      (cleanFromStatus S.stateDir r status) fun _ => S.Logged r.key 3 := by
  have hboth := (lasting_logged (S := S) (k := r.key) (n := 3)).and
    (lasting_answered S (RunKey.ledgerPath S.stateDir r.key) status)
  refine .lift_bind (ensures_ledgerExists hboth.stillKept) fun found => ?_
  cases found with
  | true =>
    have hconfirm := confirmImportsFromStatus_keeps (S := S)
      (RunKey.ledgerPath S.stateDir r.key) status (lasting_logged (S := S) (k := r.key) (n := 3))
    refine Site.Yields.bind (hconfirm.strengthen fun _ _ h => h.1) fun _ => ?_
    refine Site.Yields.bind (processCleanupStateFile_keeps lasting_logged) fun outcome => ?_
    exact .pure lasting_logged.settled
  | false =>
    simp only [Bool.false_eq_true, if_false]
    split
    · have hfail : S.Yields (fun _ => ¬S.orderly) (throw (SyncError.missingLedger r.key) :
          SyncM Bool) fun _ => S.Logged r.key 3 := .fail fun _ hnot ho => absurd ho hnot
      refine hfail.strengthen fun w hw h ho => ?_
      exact nomatch h.2 ho (stocked_of_logged hw ho hr.id h.1.1 (.inr (.inr rfl)))
    · exact .pure fun w t h => lasting_logged.settled w t h.1.1

theorem processCleanupFromStatus_keeps (hr : r.Proper) :
    S.Yields (fun w => S.Logged r.key 3 w ∧
        S.Answered (RunKey.ledgerPath S.stateDir r.key) status w)
      (processCleanupFromStatus S.stateDir r status) fun _ =>
        S.Closable (RunKey.runName r.key) := by
  refine .bind (cleanFromStatus_keeps hr) fun complete => ?_
  refine .bind (persistCleaned_keeps hr) fun _ => ?_
  cases complete with
  | true => exact .bind (retireLogged_keeps hr.id) fun _ => forget_keeps
  | false => exact forget_keeps

end Cleanup

section Phases

variable {S : Site} {r : RemoteRun} {ts : Option RunStatus} {status : RunStatus}
variable {phase : ClientRunPhase} {dbg : Debug} {fuel n : Nat} {w : ClientWorld} {α : Type}

theorem drainWith_keeps (hr : r.Proper) :
    S.Yields (fun w => S.Logged r.key 3 w ∧
        S.Answered (RunKey.ledgerPath S.stateDir r.key) status w)
      (drainWith S.stateDir r status) fun _ => S.Closable (RunKey.runName r.key) :=
  .bind (processCleanupFromStatus_keeps hr) fun _ =>
    .checked fun _ _ => (lasting_closable _ _).settled

theorem answered_of_key (hr : r.Proper) (hkey : status.key = r.key)
    (hmem : .reported status ∈ w.history) :
    S.Answered (RunKey.ledgerPath S.stateDir r.key) status w :=
  ⟨hmem, by rw [hkey], by rw [hkey]; exact hr.id⟩

variable (ts) in
/-- The status that was persisted is that of the run. -/
theorem drainTerminal_keeps (hr : r.Proper) :
    S.Yields (fun w => S.Logged r.key 3 w ∧ Vouched r ts .terminalStatusSeen w)
      (drainTerminal S.stateDir r (ts.map Doc.ofValue)) fun _ =>
        S.Closable (RunKey.runName r.key) := by
  have hpre := (lasting_logged (S := S) (k := r.key) (n := 3)).and
    (lasting_vouched r ts .terminalStatusSeen)
  cases ts with
  | none =>
    refine Triple.false_pre fun w _ h => ?_
    obtain ⟨status, hts, -⟩ := h.2 rfl
    exact nomatch hts
  | some status =>
    refine .bind (.checked (M := fun found w => found = status ∧ S.Logged r.key 3 w ∧
      Vouched r (some status) .terminalStatusSeen w) fun found hfound w t h => ⟨?_,
        hpre.settled w t h⟩) fun found => Triple.pure_pre ?_
    · simp only [persistedStatus, Doc.ofValue] at hfound
      split at hfound
      · exact nomatch hfound
      · split at hfound
        · exact nomatch hfound
        · exact (Except.ok.inj hfound).symm
    · rintro rfl
      refine (drainWith_keeps hr).strengthen fun w _ h => ⟨h.1, ?_⟩
      obtain ⟨status, hts, hmem, hkey, -⟩ := h.2 rfl
      obtain rfl := Option.some_inj.1 hts
      exact answered_of_key hr hkey hmem

theorem status_key (h : ¬(status.nickname ≠ r.key.nickname ∨ status.runId ≠ r.key.runId)) :
    status.key = r.key := by
  obtain ⟨hnickname, hid⟩ := not_or.1 h
  rw [RunStatus.key, not_not.1 hnickname, not_not.1 hid]

theorem drainWaiting_keeps (hr : r.Proper) :
    S.Yields (S.Logged r.key 2) (drainWaiting dbg S.stateDir fuel r) fun _ =>
      S.Closable (RunKey.runName r.key) := by
  have hlogged := lasting_logged (S := S) (k := r.key) (n := 2)
  refine .bind (driveServer_keeps hlogged.stillKept) fun _ => ?_
  refine .bind (readServerStatus_keeps hlogged.stillKept) fun status => ?_
  split
  · exact .abort _
  · rename_i hmatch
    have hkey := status_key hmatch
    have hpersist := persist_keeps (S := S) (n := 2) (some status)
      .terminalStatusSeen (J := fun w => .reported status ∈ w.history ∧
        Compatible status.purgeryVersion) (fun _ _ hw h => ⟨hw.history.subset h.1, h.2⟩) hr
      (by decide) rfl
    refine .bind (hpersist.strengthen fun w _ h => ⟨⟨h.2, fun _ => ⟨status, rfl, h.2.1, hkey, h.2.2⟩⟩,
      h.1⟩) fun _ => ?_
    exact (drainTerminal_keeps (some status) hr).strengthen fun w _ h =>
      ⟨h.2, fun _ => ⟨status, rfl, h.1.1, hkey, h.1.2⟩⟩

theorem drainPending_keeps (hr : r.Proper) :
    S.Yields (S.Logged r.key 1) (drainPending dbg S.stateDir fuel r) fun _ =>
      S.Closable (RunKey.runName r.key) := by
  refine .bind (finishRun_keeps lasting_logged.stillKept) fun _ => ?_
  have hpersist := persist_keeps (S := S) (n := 1) none .waitingForTerminalState
    enduring_true hr (by decide) rfl
  refine .bind (hpersist.strengthen fun _ _ h => ⟨⟨trivial, nofun⟩, h⟩) fun _ => ?_
  exact (drainWaiting_keeps hr).strengthen fun _ _ h => h.2

theorem getLast_of_phaseAfter {log : List Milestone} (h : phaseAfter log = some phase) :
    log.getLast? = some (.reached phase) := by
  unfold phaseAfter at h
  split at h
  · rename_i last hlast
    rw [hlast, Option.some_inj.1 h]
  · exact nomatch h
  · exact nomatch h

/-- The phase of a run says how far it has come. -/
theorem logged_of_phase (hw : S.Keeps w) (hst : (w.runState (RunKey.runName r.key)).accepted =
    some (r.state ts phase)) (hnext : milestones[n]? = some (.reached phase)) :
    S.Logged r.key (n + 1) w := by
  intro ho
  obtain ⟨⟨rest, hrest⟩, hphase⟩ := hw.logs ho (RunKey.runName r.key)
  rw [hst] at hphase
  obtain ⟨before, hlog⟩ := List.getLast?_eq_some_iff.1 (getLast_of_phaseAfter hphase.symm)
  rw [hlog, List.append_assoc] at hrest
  have hsame : milestones[before.length]? = milestones[n]? := by
    rw [hnext, ← hrest, List.getElem?_append_right (le_refl _), Nat.sub_self]
    rfl
  have hlt : n < milestones.length := (List.getElem?_eq_some_iff.1 hnext).1
  have hlength : n = before.length := (List.getElem?_inj hlt (by decide)).1 hsame.symm
  rw [hlog, hlength, ← hrest]
  simp [List.take_append]

theorem Site.Yields.retold {x : SyncM α} {pre : ClientWorld → Prop} {M : α → ClientWorld → Prop}
    (text : String) (h : S.Yields pre x M) : S.Yields pre (attemptTo x.run text) M := by
  refine .attempt (Triple.weaken h fun r w _ hr a ha => ?_)
  rw [ha] at hr
  exact hr

/-- A state speaks of the run that it was made from. -/
theorem remoteRun_state (hr : r.Proper) : remoteRun dbg (r.state ts phase) = .ok r := by
  have hnickname : Nickname.new r.key.nickname.asStr = .ok r.key.nickname :=
    dif_pos r.key.nickname.valid
  have hid : RunId.new r.key.runId.asStr = .ok r.key.runId := dif_pos r.key.runId.valid
  have hmanifest : requireCompatiblePurgeryVersion r.manifest.purgeryVersion "manifest" = .ok () :=
    requireCompatible_ok.2 (hr.manifest ▸ compatible_current)
  have hrunConfig : requireCompatiblePurgeryVersion r.runConfig.purgeryVersion "run config" =
      .ok () := requireCompatible_ok.2 (hr.runConfig ▸ compatible_current)
  simp only [remoteRun, RemoteRun.state, hnickname, hid, Doc.ofValue, Except.mapError, bind,
    Except.bind, hmanifest, hrunConfig]
  rfl

/-- What is left of the way of the run. -/
theorem drainOne_keeps (hr : r.Proper) (hnext : milestones[n]? = some (.reached phase)) :
    S.Yields (fun w => S.Logged r.key (n + 1) w ∧ Vouched r ts phase w)
      (drainOne dbg S.stateDir fuel (r.state ts phase)) fun _ =>
        S.Closable (RunKey.runName r.key) := by
  have hpre := (lasting_logged (S := S) (k := r.key) (n := n + 1)).and
    (lasting_vouched r ts phase)
  have hdrain : S.Yields (fun w => S.Logged r.key (n + 1) w ∧ Vouched r ts phase w)
      (if phase = .cleanupComplete then finishCleanupCompleteResume S.stateDir r.key
        else do
          attemptTo (checkServerVersion r.host r.serverCommand).run
            "server version check failed while resuming persisted run"
          drainLoop dbg S.stateDir fuel r (r.state ts phase))
      fun _ => S.Closable (RunKey.runName r.key) := by
    have hcheck : S.Yields (fun w => S.Logged r.key (n + 1) w ∧ Vouched r ts phase w)
        (checkServerVersion r.host r.serverCommand) fun _ w =>
          S.Logged r.key (n + 1) w ∧ Vouched r ts phase w :=
      checkServerVersion_keeps hpre.stillKept
    have hversion := hcheck.retold "server version check failed while resuming persisted run"
    match n, hnext with
    | 0, hnext =>
      obtain rfl : ClientRunPhase.uploadCompleteFinishPending = phase :=
        Milestone.reached.inj (Option.some_inj.1 hnext)
      exact .bind hversion fun _ => (drainPending_keeps hr).strengthen fun _ _ h => h.1
    | 1, hnext =>
      obtain rfl : ClientRunPhase.waitingForTerminalState = phase :=
        Milestone.reached.inj (Option.some_inj.1 hnext)
      exact .bind hversion fun _ => (drainWaiting_keeps hr).strengthen fun _ _ h => h.1
    | 2, hnext =>
      obtain rfl : ClientRunPhase.terminalStatusSeen = phase :=
        Milestone.reached.inj (Option.some_inj.1 hnext)
      exact .bind hversion fun _ => drainTerminal_keeps ts hr
    | 3, hnext =>
      obtain rfl : ClientRunPhase.cleanupComplete = phase :=
        Milestone.reached.inj (Option.some_inj.1 hnext)
      exact (finishCleanupCompleteResume_keeps hr.id).strengthen fun _ _ h => h.1
    | 4, hnext => exact nomatch Option.some_inj.1 hnext
    | n + 5, hnext => exact nomatch hnext
  refine .bind (.checked (M := fun r' w => r' = r ∧ S.Logged r.key (n + 1) w ∧
    Vouched r ts phase w) fun r' hr' w t h => ⟨?_, hpre.settled w t h⟩) fun r' =>
      Triple.pure_pre ?_
  · rw [remoteRun_state hr] at hr'
    exact (Except.ok.inj hr').symm
  · rintro rfl
    exact hdrain

end Phases

end Purgery.Client
