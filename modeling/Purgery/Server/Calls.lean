import Purgery.Server.Exclusion.Collection
import Purgery.Server.Exclusion.Incoming

namespace Purgery.Server

open Purgery.Interleaving

/-- Where a file of a run directory is written. -/
def WrittenAt (ph : RunPhase) (f : FileName) : Prop :=
  match ph, f with
  | .incoming, .lease | .ready, .status => True
  | .processing, .status | .processing, .progress | .processing, .plan => True
  | _, _ => False

/-- The renames of a run directory. -/
def LeadsTo (src dst : RunPhase) : Prop :=
  match src, dst with
  | .incoming, .ready | .ready, .processing | .ready, .failed => True
  | .processing, .done | .processing, .failed => True
  | _, _ => False

/-- The calls that the commands of the server make; `now` is when a collection
started. -/
def RunOp.Issued (config : ServerConfig) (k : RunKey) (now : Nat) : RunOp → Prop
  | .readLease dooms => dooms = leaseExpired k now
  | .modified .incoming dooms =>
    dooms = pastRetention now config.gc.orphanRetentionSecs ∨ ∀ m, dooms m = false
  | .lockExists ph sweep => ph = .processing ∨ sweep = false
  | .openLockReadonly ph _ => ph = .processing
  | .probeFlock ph _ _ => ph = .processing
  | .openTmp ph f => WrittenAt ph f
  | .writeTmp _ f _ => f ≠ .runConfig ∧ f ≠ .manifest
  | .publish ph f => WrittenAt ph f
  | .removeFile ph f => ph = .ready ∧ f = .status ∨ ph.terminal = true ∧ f ≠ .status
  | .removeTmp ph f => ph = .ready ∧ f = .status ∨ ph.terminal = true
  | .removeLock ph => ph.terminal = true
  | .breakTree ph _ => ph = .processing ∨ ph.terminal = true
  | .removeTree ph _ => ph = .processing ∨ ph.terminal = true
  | .openLock ph => ph.queued = true
  | .flock ph _ => ph.queued = true
  | .move src dst => LeadsTo src dst
  | _ => True

/-- What a piece of code may do beside what any may: rename an accepted run, set
up the work area, drop a lock, delete a run, and follow a plan. -/
structure Rights where
  moves : Prop
  works : Prop
  releases : Prop
  removes : Prop
  plans : ResolvedDestinationPlan → Prop

def Rights.all : Rights := ⟨True, True, True, True, fun _ => True⟩

def Rights.Allows (A : Rights) : RunOp → Prop
  | .move src _ => src.queued = true → A.moves
  | .createWork => A.works
  | .createWorkParent _ => A.works
  | .close _ => A.releases
  | .unlink _ _ => A.removes
  | .rmdir _ => A.removes
  | o => o.Follows A.plans

abbrev Issued {α : Type} (A : Rights) (config : ServerConfig) (k : RunKey) (now : Nat)
    (c : Call α) : Prop :=
  c.Only fun o => o.Issued config k now ∧ A.Allows o

variable {A : Rights} {config : ServerConfig} {k : RunKey} {now : Nat} {host : Host} {α : Type}

theorem RunOp.issued_of_quiet {o : RunOp} (h : o.quiet = true) : o.Issued config k now := by
  cases o with
  | lockExists ph sweep => exact .inr (by simpa [RunOp.quiet] using h)
  | openTmp ph f => cases ph <;> cases f <;> trivial
  | publish ph f => cases ph <;> cases f <;> trivial
  | writeTmp dir f d =>
    refine ⟨?_, ?_⟩ <;> rintro rfl <;> simp [RunOp.quiet] at h
  | breakTree ph s => cases ph <;> simp_all [RunOp.quiet, RunOp.Issued]
  | removeTree ph s => cases ph <;> simp_all [RunOp.quiet, RunOp.Issued]
  | modified ph dooms | readLease dooms | openLockReadonly ph sweep | probeFlock ph ino sweep
  | removeFile ph f | removeTmp ph f | removeLock ph | openLock ph | flock ph ino | move src dst =>
    cases h
  | _ => trivial

theorem RunOp.issued_of_idle {o : RunOp} (h : o.idle = true) : o.Issued config k now := by
  cases o with
  | lockExists ph sweep => exact .inr (by simpa [RunOp.idle] using h)
  | modified ph dooms | readLease dooms | openLockReadonly ph sweep | probeFlock ph ino sweep
  | removeFile ph f | removeTmp ph f | removeLock ph | openLock ph | flock ph ino | move src dst
  | openTmp ph f | writeTmp dir f d | publish ph f | breakTree ph s | removeTree ph s =>
    cases h
  | _ => trivial

theorem RunOp.issued_of_prunes {o : RunOp} (h : o.idle = true ∨ o.prunes = true) :
    o.Issued config k now := by
  obtain h | h := h
  · exact RunOp.issued_of_idle h
  · cases o with
    | removeFile ph f => exact .inr (by simpa [RunOp.prunes] using h)
    | removeTmp ph f | breakTree ph s | removeTree ph s => exact .inr h
    | removeLock ph => exact h
    | _ => cases h

theorem Rights.allows_of_quiet {o : RunOp} (hA : A.works) (h : o.quiet = true)
    (hf : o.Follows A.plans) : A.Allows o := by
  cases o with
  | move src dst | close ino | unlink dir e | rmdir ph => exact nomatch h
  | createWork | createWorkParent path => exact hA
  | _ => exact hf

theorem Rights.allows_of_idle {o : RunOp} (h : o.idle = true) : A.Allows o := by
  cases o with
  | move | close | createWork | createWorkParent | spawn | writeTmp | unlink | rmdir => exact nomatch h
  | _ => trivial

theorem Rights.allows_of_prunes {o : RunOp} (h : o.idle = true ∨ o.prunes = true) :
    A.Allows o := by
  obtain h | h := h
  · exact Rights.allows_of_idle h
  · cases o with
    | move | close | createWork | createWorkParent | spawn | writeTmp | unlink | rmdir => exact nomatch h
    | _ => trivial

theorem Issued.of_quiet {c : Call α} (hA : A.works) (h : Quietly A.plans c) :
    Issued A config k now c :=
  Prog.Only.mono h fun _ h => ⟨RunOp.issued_of_quiet h.1, Rights.allows_of_quiet hA h.1 h.2⟩

theorem Issued.of_idle {c : Call α} (h : c.Only fun o => o.idle = true) : Issued A config k now c :=
  Prog.Only.mono h fun _ h => ⟨RunOp.issued_of_idle h, Rights.allows_of_idle h⟩

section Answers

variable {Q : ReadyClaimOutcome → Prop}

theorem recheckState_answers (hp : Q .alreadyProcessing) (ht : Q .alreadyTerminal) (hn : Q .notFound)
    (hf : Q (.claimFailed ("failed to claim run " ++ k.nickname.asStr ++ "/" ++ k.runId.asStr ++
      ": ready still exists but rename failed"))) : (recheckState k).Answers Q := by
  refine Prog.Answers.after fun found => ?_
  split
  · exact hp
  refine Prog.Answers.after fun found => ?_
  split
  · exact ht
  refine Prog.Answers.after fun found => ?_
  split
  · exact ht
  refine Prog.Answers.after fun found => ?_
  split
  · exact hf
  · exact hn

theorem handleMalformedReady_answers {error : String} (hm : Q (.malformedReadyMovedToFailed error))
    (hf : ∀ e, Q (.malformedReadyMoveFailed error e)) :
    (handleMalformedReady config k error).Answers Q := by
  refine Prog.Answers.after fun r => ?_
  split
  · exact fun _ => hf _
  refine Prog.Answers.after fun parent => ?_
  split
  · exact hf _
  refine Prog.Answers.after fun moved => ?_
  split
  · exact fun _ _ => hf _
  · exact fun _ => hm

end Answers

section Phases

theorem tryLockExistingDir_issued (hA : A.releases) {ph : RunPhase} (hph : ph.queued = true) :
    Issued A config k now (tryLockExistingDir config k ph).run := by
  refine Prog.Only.runBind (only_ask ⟨trivial, trivial⟩) fun found => ?_
  split
  · trivial
  · refine Prog.Only.runBind (only_io (only_sys ⟨hph, trivial⟩)) fun ino => ?_
    refine Prog.Only.runBind (only_ask ⟨hph, trivial⟩) fun r => ?_
    split
    · trivial
    · exact Prog.Only.runBind (only_ask ⟨trivial, hA⟩) fun _ => trivial
    · exact Prog.Only.runBind (only_ask ⟨trivial, hA⟩) fun _ => trivial

theorem probeProcessorLockReadonly_issued (hA : A.releases) (sweep : Bool) :
    Issued A config k now (probeProcessorLockReadonly config k .processing sweep).run := by
  refine Prog.Only.runBind (only_ask ⟨trivial, trivial⟩) fun found => ?_
  split
  · trivial
  · refine Prog.Only.runBind (only_ask ⟨.inl rfl, trivial⟩) fun found => ?_
    split
    · trivial
    · refine Prog.Only.runBind (only_ask ⟨rfl, trivial⟩) fun r => ?_
      split
      · trivial
      · trivial
      · refine Prog.Only.runBind (only_ask ⟨rfl, trivial⟩) fun attempt => ?_
        refine Prog.Only.runBind (only_ask ⟨trivial, hA⟩) fun _ => ?_
        split <;> trivial

theorem publishStatusAtomic_issued {ph : RunPhase} (hph : WrittenAt ph .status) (status : RunStatus) :
    Issued A config k now (publishStatusAtomic config k ph status).run :=
  Prog.Only.runBind (only_io (only_writeFile ⟨hph, trivial⟩ fun _ => ⟨⟨nofun, nofun⟩, trivial⟩)) fun _ =>
    only_io (only_sys ⟨hph, trivial⟩)

theorem writeRunFailure_issued (hA : A.moves) (error : String) :
    Issued A config k now (writeRunFailure config k error).run := by
  refine Prog.Only.runBind (only_io (only_writeFile ⟨trivial, trivial⟩ fun _ => ⟨⟨nofun, nofun⟩, trivial⟩)) fun _ => ?_
  refine Prog.Only.runBind (only_io (only_sys ⟨trivial, trivial⟩)) fun _ => ?_
  refine Prog.Only.runBind (only_io (only_sys ⟨trivial, trivial⟩)) fun _ => ?_
  refine Prog.Only.runBind (only_io (only_sys ⟨trivial, fun _ => hA⟩)) fun _ => ?_
  exact Prog.Only.runBind (only_ask ⟨rfl, trivial⟩) fun _ => trivial

theorem finalizeProcessingRun_issued (hA : A.moves) (state : RunState) :
    Issued A config k now (finalizeProcessingRun config k state).run := by
  have hph := RunState.phase_terminal state
  have hmove : LeadsTo .processing (RunState.phase state) := by cases state <;> trivial
  refine Prog.Only.runBind (only_io (only_sys ⟨trivial, trivial⟩)) fun _ => ?_
  refine Prog.Only.runBind (only_io (only_sys ⟨hmove, fun _ => hA⟩)) fun _ => ?_
  split
  · exact Prog.Only.runBind (Prog.Only.runLift
      (Prog.Only.mono (pruneSuccessTerminal_only hph) fun _ h =>
        ⟨RunOp.issued_of_prunes h, Rights.allows_of_prunes h⟩))
      fun _ => trivial
  · exact Prog.Only.runBind (only_ask ⟨hph, trivial⟩) fun _ => trivial

theorem moveToFailed_issued (hA : A.moves) : Issued A config k now (moveToFailed config k).run := by
  refine Prog.Only.runBind (only_ask ⟨trivial, trivial⟩) fun found => ?_
  split
  · refine Prog.Only.runBind (only_io (only_sys ⟨trivial, trivial⟩)) fun _ => ?_
    refine Prog.Only.runBind (only_io (only_sys ⟨trivial, fun _ => hA⟩)) fun _ => ?_
    exact Prog.Only.runBind (only_ask ⟨rfl, trivial⟩) fun _ => trivial
  · trivial

end Phases

section Processing

theorem readCompatibleRunInputs_issued (ph : RunPhase) :
    Issued A config k now (readCompatibleRunInputs config k ph).run := by
  refine Prog.Only.runBind (Prog.Only.runBind (only_ask ⟨trivial, trivial⟩) fun _ => trivial) fun _ => ?_
  refine Prog.Only.runBind (only_ask ⟨trivial, trivial⟩) fun _ => ?_
  refine Prog.Only.runBind trivial fun _ => ?_
  refine Prog.Only.runBind (only_ask ⟨trivial, trivial⟩) fun _ => ?_
  refine Prog.Only.runBind trivial fun _ => ?_
  exact Prog.Only.runBind trivial fun _ => trivial

theorem recheckState_issued : Issued A config k now (recheckState k) := by
  refine Prog.Only.bind (only_sys ⟨trivial, trivial⟩) fun found => ?_
  split
  · trivial
  refine Prog.Only.bind (only_sys ⟨trivial, trivial⟩) fun found => ?_
  split
  · trivial
  refine Prog.Only.bind (only_sys ⟨trivial, trivial⟩) fun found => ?_
  split
  · trivial
  refine Prog.Only.bind (only_sys ⟨trivial, trivial⟩) fun found => ?_
  split <;> trivial

theorem handleMalformedReady_issued (hA : A.moves) (error : String) :
    Issued A config k now (handleMalformedReady config k error) := by
  refine Prog.Only.bind (publishStatusAtomic_issued (show WrittenAt .ready .status from trivial) _) fun r => ?_
  split
  · exact Prog.Only.bind (only_sys ⟨.inl ⟨rfl, rfl⟩, trivial⟩) fun _ => trivial
  · refine Prog.Only.bind (only_sys ⟨trivial, trivial⟩) fun parent => ?_
    split
    · trivial
    · refine Prog.Only.bind (only_sys ⟨trivial, fun _ => hA⟩) fun moved => ?_
      split
      · exact Prog.Only.bind (only_sys ⟨.inl ⟨rfl, rfl⟩, trivial⟩) fun _ =>
          Prog.Only.bind (only_sys ⟨.inl ⟨rfl, rfl⟩, trivial⟩) fun _ => trivial
      · exact Prog.Only.bind (only_sys ⟨rfl, trivial⟩) fun _ => trivial

theorem renameClaimed_issued (hm : A.moves) (hr : A.releases) (lock : Nat) :
    Issued A config k now (renameClaimed k lock) := by
  refine Prog.Only.bind (only_sys ⟨trivial, trivial⟩) fun parent => ?_
  split
  · exact Prog.Only.bind (only_sys ⟨trivial, hr⟩) fun _ => trivial
  · refine Prog.Only.bind (only_sys ⟨trivial, fun _ => hm⟩) fun moved => ?_
    split
    · trivial
    · exact Prog.Only.bind (only_sys ⟨trivial, hr⟩) fun _ => recheckState_issued

theorem claimReadyRun_issued (hm : A.moves) (hr : A.releases) :
    Issued A config k now (claimReadyRun config k) := by
  refine Prog.Only.bind (only_sys ⟨trivial, trivial⟩) fun found => ?_
  split
  · exact recheckState_issued
  · refine Prog.Only.bind (tryLockExistingDir_issued hr rfl) fun r => ?_
    split
    · trivial
    · exact recheckState_issued
    · trivial
    · refine Prog.Only.bind (readCompatibleRunInputs_issued _) fun r => ?_
      split
      · exact Prog.Only.bind (only_sys ⟨trivial, hr⟩) fun _ => trivial
      · refine Prog.Only.bind (handleMalformedReady_issued hm _) fun _ => ?_
        exact Prog.Only.bind (only_sys ⟨trivial, hr⟩) fun _ => trivial
      · exact renameClaimed_issued hm hr _

theorem failRun_issued (hA : A.moves) (message : String) :
    Issued A config k now (failRun config k message).run :=
  Prog.Only.runBind (Prog.Only.runAdapt (writeRunFailure_issued hA message)) fun _ => trivial

theorem removeWork_issued : Issued A config k now (removeSubtree .processing .work).run :=
  only_removeSubtree ⟨.inl rfl, trivial⟩ ⟨.inl rfl, trivial⟩

theorem resetWorkArea_issued (hA : A.works) :
    Issued A config k now (resetWorkArea config k).run :=
  Prog.Only.runBind (Prog.Only.runLift removeWork_issued) fun _ => only_io (only_sys ⟨trivial, hA⟩)

theorem writeProgressBestEffort_issued (hA : A.works) (state : String) (i n : Nat)
    (entry transform : String) :
    Issued A config k now (writeProgressBestEffort config k state i n entry transform) :=
  Issued.of_quiet hA (writeProgressBestEffort_quiet config k state i n entry transform)

theorem publishEntryStatus_issued (outcome : EntryOutcome) :
    Issued A config k now (publishEntryStatus config k outcome).run :=
  Prog.Only.runBind (only_io (only_writeFile ⟨trivial, trivial⟩ fun _ => ⟨⟨nofun, nofun⟩, trivial⟩))
    fun _ => only_io (only_sys ⟨trivial, trivial⟩)

theorem processEntries_issued (runConfig : RunConfig) (manifest : Manifest)
    (entry : ManifestEntry) :
    Issued .all config k now (processEntries host config k runConfig manifest entry).run := by
  have hprogress : ∀ state i n e t, Issued .all config k now
      (ExceptT.lift (writeProgressBestEffort config k state i n e t) :
        ExceptT ProcessingError Call Unit).run := fun state i n e t =>
    Prog.Only.runLift (writeProgressBestEffort_issued trivial state i n e t)
  have hentry : Quietly Rights.all.plans
      (processManifestEntry host config k entry 0 1 runConfig.destination) :=
    processManifestEntry_quiet host config k entry (fun _ => trivial) 0 1 runConfig.destination
  refine Prog.Only.runBind (resetWorkArea_issued trivial) fun _ => ?_
  refine Prog.Only.runBind (hprogress _ _ _ _ _) fun _ => ?_
  refine Prog.Only.runBind (hprogress _ _ _ _ _) fun _ => ?_
  refine Prog.Only.runBind (Prog.Only.runLift (Issued.of_quiet trivial hentry)) fun outcome => ?_
  have hpublish : Issued .all config k now (do
      ExceptT.lift (writeProgressBestEffort config k "publishing_status" 0 1 "" "")
      publishEntryStatus config k outcome
      ExceptT.adapt .other (finalizeProcessingRun config k outcome.state) :
      ExceptT ProcessingError Call Unit).run := by
    refine Prog.Only.runBind (hprogress _ _ _ _ _) fun _ => ?_
    refine Prog.Only.runBind (publishEntryStatus_issued _) fun _ => ?_
    exact Prog.Only.runAdapt (finalizeProcessingRun_issued trivial _)
  split
  · exact Prog.Only.runBind (Prog.Only.runLift removeWork_issued) fun _ => hpublish
  · exact hpublish

theorem processProcessingRun_issued :
    Issued .all config k now (processProcessingRun host config k).run := by
  refine Prog.Only.runBind (Prog.Only.runLift (readCompatibleRunInputs_issued _)) fun r => ?_
  split
  · trivial
  · exact failRun_issued trivial _
  · split
    · exact failRun_issued trivial _
    · trivial
    · exact processEntries_issued _ _ _

end Processing

section Recovery

theorem recoverOrProcessProcessingRun_issued :
    Issued .all config k now (recoverOrProcessProcessingRun host config k).run := by
  refine Prog.Only.runBind (Prog.Only.runAdapt
    (Prog.Only.runBind (only_ask ⟨trivial, trivial⟩) fun _ => trivial)) fun _ => ?_
  refine Prog.Only.runBind (only_ask ⟨trivial, trivial⟩) fun content => ?_
  split
  · split
    · trivial
    · exact Prog.Only.runAdapt (writeRunFailure_issued trivial _)
    · exact Prog.Only.runAdapt (finalizeProcessingRun_issued trivial _)
  · exact Prog.Only.runAdapt processProcessingRun_issued
  · trivial

theorem publishRecoveryFailure_issued (hA : A.moves) (error : String) :
    Issued A config k now (publishRecoveryFailure config k error) := by
  refine Prog.Only.bind (only_sys ⟨trivial, trivial⟩) fun found => ?_
  split
  · refine Prog.Only.bind (writeRunFailure_issued hA _) fun r => ?_
    split <;> trivial
  · trivial

theorem recoverLocked_issued : Issued .all config k now (recoverLocked host config k) := by
  refine Prog.Only.bind recoverOrProcessProcessingRun_issued fun r => ?_
  split
  · trivial
  · trivial
  · exact publishRecoveryFailure_issued trivial _

theorem recoverProcessingRunIfUnlocked_issued :
    Issued .all config k now (recoverProcessingRunIfUnlocked host config k).run := by
  refine Prog.Only.runBind (only_ask ⟨trivial, trivial⟩) fun found => ?_
  split
  · trivial
  · refine Prog.Only.runBind (Prog.Only.runLift (tryLockExistingDir_issued trivial rfl)) fun r => ?_
    split
    · trivial
    · trivial
    · trivial
    · refine Prog.Only.runBind (Prog.Only.runLift recoverLocked_issued) fun _ => ?_
      exact Prog.Only.runBind (only_ask ⟨trivial, trivial⟩) fun _ => trivial

theorem handleProcessRunProcessingOutcome_issued :
    Issued .all config k now (handleProcessRunProcessingOutcome host config k).run := by
  refine Prog.Only.runBind recoverProcessingRunIfUnlocked_issued fun r => ?_
  split
  · exact Issued.of_idle (terminalResponse_idle _ _)
  · trivial
  · exact Issued.of_idle (terminalResponse_idle _ _)
  · trivial
  · exact Issued.of_idle (alreadyTerminalResponse_idle _ _)
  · trivial

theorem processClaimed_issued : Issued .all config k now (processClaimed host config k).run := by
  refine Prog.Only.runBind (Prog.Only.runLift processProcessingRun_issued) fun r => ?_
  split
  · exact Issued.of_idle (terminalResponse_idle _ _)
  · trivial
  · refine Prog.Only.runBind (Prog.Only.runLift (moveToFailed_issued trivial)) fun r => ?_
    split
    · exact Issued.of_idle (terminalResponse_idle _ _)
    · trivial

theorem processRunInner_issued : Issued .all config k now (processRunInner host config k).run := by
  refine Prog.Only.runBind (Prog.Only.runLift (claimReadyRun_issued trivial trivial)) fun r => ?_
  split
  · refine Prog.Only.runBind (Prog.Only.runLift processClaimed_issued) fun inner => ?_
    exact Prog.Only.runBind (only_ask ⟨trivial, trivial⟩) fun _ => trivial
  · trivial
  · exact handleProcessRunProcessingOutcome_issued
  · exact Issued.of_idle (alreadyTerminalResponse_idle _ _)
  · trivial
  · exact Issued.of_idle (terminalResponse_idle _ _)
  · trivial
  · refine Prog.Only.runBind (only_ask ⟨trivial, trivial⟩) fun found => ?_
    split
    · exact handleProcessRunProcessingOutcome_issued
    · exact Issued.of_idle (alreadyTerminalResponse_idle _ _)
  · trivial

theorem processReadyRun_issued : Issued .all config k now (processReadyRun host config k) := by
  refine Prog.Only.bind (claimReadyRun_issued trivial trivial) fun r => ?_
  split
  · refine Prog.Only.bind processProcessingRun_issued fun r => ?_
    split
    · exact only_sys ⟨trivial, trivial⟩
    · exact Prog.Only.bind (moveToFailed_issued trivial) fun _ => only_sys ⟨trivial, trivial⟩
  · trivial

theorem recoverFoundRun_issued : Issued .all config k now (recoverFoundRun host config k) :=
  Prog.Only.bind recoverProcessingRunIfUnlocked_issued fun _ => trivial

end Recovery

section Unlocking

/-- The calls that open or take a lock. -/
def RunOp.locks : RunOp → Bool
  | .openLock _ => true
  | .openLockReadonly _ _ => true
  | .flock _ _ => true
  | .probeFlock _ _ _ => true
  | _ => false

abbrev Unlocking {α : Type} (c : Call α) : Prop := c.Only fun o => o.locks = false

theorem Unlocking.of_prunes {c : Call α} (h : c.Only fun o => o.idle = true ∨ o.prunes = true) :
    Unlocking c :=
  h.mono fun o ho => by cases o <;> simp_all [RunOp.idle, RunOp.prunes, RunOp.locks]

theorem Unlocking.of_idle {c : Call α} (h : c.Only fun o => o.idle = true) : Unlocking c :=
  .of_prunes (h.mono fun _ ho => .inl ho)

theorem Unlocking.of_quiet {plans : ResolvedDestinationPlan → Prop} {c : Call α}
    (h : Quietly plans c) : Unlocking c :=
  h.mono fun o ho => by cases o <;> simp_all [RunOp.quiet, RunOp.locks]

theorem recheckState_unlocking : Unlocking (recheckState k) := by
  refine Prog.Only.bind (only_sys rfl) fun found => ?_
  split
  · trivial
  refine Prog.Only.bind (only_sys rfl) fun found => ?_
  split
  · trivial
  refine Prog.Only.bind (only_sys rfl) fun found => ?_
  split
  · trivial
  refine Prog.Only.bind (only_sys rfl) fun found => ?_
  split <;> trivial

theorem readCompatibleRunInputs_unlocking (ph : RunPhase) :
    Unlocking (readCompatibleRunInputs config k ph).run := by
  refine Prog.Only.runBind (Prog.Only.runBind (only_ask rfl) fun _ => trivial) fun _ => ?_
  refine Prog.Only.runBind (only_ask rfl) fun _ => ?_
  refine Prog.Only.runBind trivial fun _ => ?_
  refine Prog.Only.runBind (only_ask rfl) fun _ => ?_
  refine Prog.Only.runBind trivial fun _ => ?_
  exact Prog.Only.runBind trivial fun _ => trivial

theorem handleMalformedReady_unlocking (error : String) :
    Unlocking (handleMalformedReady config k error) := by
  have hpublish : Unlocking (publishStatusAtomic config k .ready (runFailure k error)).run :=
    Prog.Only.runBind (only_io (only_writeFile rfl fun _ => rfl)) fun _ => only_io (only_sys rfl)
  refine Prog.Only.bind hpublish fun r => ?_
  split
  · exact Prog.Only.bind (only_sys rfl) fun _ => trivial
  refine Prog.Only.bind (only_sys rfl) fun parent => ?_
  split
  · trivial
  refine Prog.Only.bind (only_sys rfl) fun moved => ?_
  split
  · refine Prog.Only.bind (only_sys rfl) fun _ => ?_
    exact Prog.Only.bind (only_sys rfl) fun _ => trivial
  · exact Prog.Only.bind (only_sys rfl) fun _ => trivial

theorem renameClaimed_unlocking (lock : Nat) : Unlocking (renameClaimed k lock) := by
  refine Prog.Only.bind (only_sys rfl) fun parent => ?_
  split
  · exact Prog.Only.bind (only_sys rfl) fun _ => trivial
  refine Prog.Only.bind (only_sys rfl) fun moved => ?_
  split
  · trivial
  · exact Prog.Only.bind (only_sys rfl) fun _ => recheckState_unlocking

theorem writeRunFailure_unlocking (error : String) :
    Unlocking (writeRunFailure config k error).run := by
  refine Prog.Only.runBind (only_io (only_writeFile rfl fun _ => rfl)) fun _ => ?_
  refine Prog.Only.runBind (only_io (only_sys rfl)) fun _ => ?_
  refine Prog.Only.runBind (only_io (only_sys rfl)) fun _ => ?_
  refine Prog.Only.runBind (only_io (only_sys rfl)) fun _ => ?_
  exact Prog.Only.runBind (only_ask rfl) fun _ => trivial

theorem failRun_unlocking (message : String) : Unlocking (failRun config k message).run :=
  Prog.Only.runBind (Prog.Only.runAdapt (writeRunFailure_unlocking message)) fun _ => trivial

theorem finalizeProcessingRun_unlocking (state : RunState) :
    Unlocking (finalizeProcessingRun config k state).run := by
  have hph := RunState.phase_terminal state
  refine Prog.Only.runBind (only_io (only_sys rfl)) fun _ => ?_
  refine Prog.Only.runBind (only_io (only_sys rfl)) fun _ => ?_
  split
  · exact Prog.Only.runBind (Prog.Only.runLift (Unlocking.of_prunes (pruneSuccessTerminal_only hph)))
      fun _ => trivial
  · exact Prog.Only.runBind (only_ask rfl) fun _ => trivial

theorem moveToFailed_unlocking : Unlocking (moveToFailed config k).run := by
  refine Prog.Only.runBind (only_ask rfl) fun found => ?_
  split
  · refine Prog.Only.runBind (only_io (only_sys rfl)) fun _ => ?_
    refine Prog.Only.runBind (only_io (only_sys rfl)) fun _ => ?_
    exact Prog.Only.runBind (only_ask rfl) fun _ => trivial
  · trivial

theorem processEntries_unlocking (runConfig : RunConfig) (manifest : Manifest)
    (entry : ManifestEntry) :
    Unlocking (processEntries host config k runConfig manifest entry).run := by
  have hprogress : ∀ state i n e t, Unlocking
      (ExceptT.lift (writeProgressBestEffort config k state i n e t) :
        ExceptT ProcessingError Call Unit).run := by
    intro state i n e t
    have hquiet : Quietly (fun _ => True) (writeProgressBestEffort config k state i n e t) :=
      writeProgressBestEffort_quiet config k state i n e t
    exact Prog.Only.runLift (Unlocking.of_quiet hquiet)
  have hremove : Unlocking (removeSubtree .processing .work).run := only_removeSubtree rfl rfl
  have hentry : Quietly (fun _ => True)
      (processManifestEntry host config k entry 0 1 runConfig.destination) :=
    processManifestEntry_quiet host config k entry (fun _ => trivial) 0 1 runConfig.destination
  refine Prog.Only.runBind (Prog.Only.runBind (Prog.Only.runLift hremove) fun _ =>
    only_io (only_sys rfl)) fun _ => ?_
  refine Prog.Only.runBind (hprogress _ _ _ _ _) fun _ => ?_
  refine Prog.Only.runBind (hprogress _ _ _ _ _) fun _ => ?_
  refine Prog.Only.runBind (Prog.Only.runLift (Unlocking.of_quiet hentry)) fun outcome => ?_
  have hpublish : Unlocking (do
      ExceptT.lift (writeProgressBestEffort config k "publishing_status" 0 1 "" "")
      publishEntryStatus config k outcome
      ExceptT.adapt .other (finalizeProcessingRun config k outcome.state) :
      ExceptT ProcessingError Call Unit).run := by
    refine Prog.Only.runBind (hprogress _ _ _ _ _) fun _ => ?_
    refine Prog.Only.runBind (Prog.Only.runBind (only_io (only_writeFile rfl fun _ => rfl))
      fun _ => only_io (only_sys rfl)) fun _ => ?_
    exact Prog.Only.runAdapt (finalizeProcessingRun_unlocking _)
  split
  · exact Prog.Only.runBind (Prog.Only.runLift hremove) fun _ => hpublish
  · exact hpublish

theorem processProcessingRun_unlocking :
    Unlocking (processProcessingRun host config k).run := by
  refine Prog.Only.runBind (Prog.Only.runLift (readCompatibleRunInputs_unlocking _)) fun r => ?_
  split
  · trivial
  · exact failRun_unlocking _
  · split
    · exact failRun_unlocking _
    · trivial
    · exact processEntries_unlocking _ _ _

theorem recoverLocked_unlocking : Unlocking (recoverLocked host config k) := by
  have hrecover : Unlocking (recoverOrProcessProcessingRun host config k).run := by
    refine Prog.Only.runBind (Prog.Only.runAdapt
      (Prog.Only.runBind (only_ask rfl) fun _ => trivial)) fun _ => ?_
    refine Prog.Only.runBind (only_ask rfl) fun content => ?_
    split
    · split
      · trivial
      · exact Prog.Only.runAdapt (writeRunFailure_unlocking _)
      · exact Prog.Only.runAdapt (finalizeProcessingRun_unlocking _)
    · exact Prog.Only.runAdapt processProcessingRun_unlocking
    · trivial
  refine Prog.Only.bind hrecover fun r => ?_
  split
  · trivial
  · trivial
  · refine Prog.Only.bind (only_sys rfl) fun found => ?_
    split
    · refine Prog.Only.bind (writeRunFailure_unlocking _) fun r => ?_
      split <;> trivial
    · trivial

theorem processClaimed_unlocking : Unlocking (processClaimed host config k).run := by
  refine Prog.Only.runBind (Prog.Only.runLift processProcessingRun_unlocking) fun r => ?_
  split
  · exact Unlocking.of_idle (terminalResponse_idle _ _)
  · trivial
  · refine Prog.Only.runBind (Prog.Only.runLift moveToFailed_unlocking) fun r => ?_
    split
    · exact Unlocking.of_idle (terminalResponse_idle _ _)
    · trivial

end Unlocking

section Incoming

theorem heartbeatRun_issued : Issued A config k now (heartbeatRun config k).run := by
  refine Prog.Only.runBind (only_ask ⟨trivial, trivial⟩) fun found => ?_
  split
  · trivial
  · refine Prog.Only.runBind (only_io (only_sys ⟨trivial, trivial⟩)) fun content => ?_
    refine Prog.Only.runBind trivial fun lease => ?_
    refine Prog.Only.runBind (only_ask ⟨trivial, trivial⟩) fun _ => ?_
    refine Prog.Only.runBind (only_io (only_writeFile ⟨trivial, trivial⟩ fun _ => ⟨⟨nofun, nofun⟩, trivial⟩)) fun _ => ?_
    exact only_io (only_sys ⟨trivial, trivial⟩)

theorem finishRun_issued : Issued A config k now (finishRun config k).run := by
  refine Prog.Only.runBind (Prog.Only.runLift (Issued.of_idle (inLaterPhase_idle _))) fun later => ?_
  split
  · trivial
  refine Prog.Only.runBind (only_ask ⟨trivial, trivial⟩) fun found => ?_
  split
  · trivial
  refine Prog.Only.runBind (only_ask ⟨trivial, trivial⟩) fun found => ?_
  split
  · trivial
  refine Prog.Only.runBind (only_io (only_sys ⟨trivial, trivial⟩)) fun content => ?_
  refine Prog.Only.runBind trivial fun lease => ?_
  refine Prog.Only.runBind (only_ask ⟨trivial, trivial⟩) fun _ => ?_
  split
  · trivial
  refine Prog.Only.runBind (only_ask ⟨trivial, trivial⟩) fun found => ?_
  split
  · trivial
  refine Prog.Only.runBind (only_io (only_sys ⟨trivial, trivial⟩)) fun _ => ?_
  exact only_io (only_sys ⟨trivial, nofun⟩)

theorem dirModifiedAt_issued (ph : RunPhase) : Issued A config k now (dirModifiedAt ph) := by
  have hop : RunOp.Issued config k now (.modified ph fun _ => false) := by
    cases ph with
    | incoming => exact .inr fun _ => rfl
    | _ => trivial
  refine Prog.Only.bind (only_sys ⟨hop, trivial⟩) fun r => ?_
  split <;> trivial

theorem terminalPhaseResponse_issued (ph : RunPhase) (n : Nat) :
    Issued A config k now (terminalPhaseResponse k ph n) := by
  refine Prog.Only.bind (only_sys ⟨trivial, trivial⟩) fun found => ?_
  split
  · refine Prog.Only.bind (only_sys ⟨trivial, trivial⟩) fun content => ?_
    split
    · exact Prog.Only.bind (dirModifiedAt_issued _) fun _ => trivial
    · trivial
    · exact Prog.Only.bind (dirModifiedAt_issued _) fun _ => trivial
  · trivial

theorem readProgressFields_issued (n : Nat) :
    Issued A config k now (readProgressFields k n) := by
  refine Prog.Only.bind (only_sys ⟨trivial, trivial⟩) fun content => ?_
  have hplain : ∀ message status, Issued A config k now (do
      let updatedAt ← dirModifiedAt .processing
      return { plainResponse "processing" false message updatedAt n with
        progressStatus := some status }) := fun _ _ =>
    Prog.Only.bind (dirModifiedAt_issued _) fun _ => trivial
  split
  · exact hplain _ _
  · split
    · split
      · exact hplain _ _
      · split
        · trivial
        · exact hplain _ _
    · split
      · exact hplain _ _
      · exact hplain _ _

theorem runState_issued (hA : A.releases) : Issued A config k now (runState config k) := by
  refine Prog.Only.bind (only_sys ⟨trivial, trivial⟩) fun n => ?_
  refine Prog.Only.bind (only_sys ⟨trivial, trivial⟩) fun found => ?_
  split
  · exact Prog.Only.bind (dirModifiedAt_issued _) fun _ => trivial
  refine Prog.Only.bind (only_sys ⟨trivial, trivial⟩) fun found => ?_
  split
  · exact Prog.Only.bind (dirModifiedAt_issued _) fun _ => trivial
  refine Prog.Only.bind (only_sys ⟨trivial, trivial⟩) fun found => ?_
  split
  · refine Prog.Only.bind (readProgressFields_issued _) fun _ => ?_
    refine Prog.Only.bind (Prog.Only.bind (probeProcessorLockReadonly_issued hA _) fun r => ?_)
      fun _ => trivial
    split <;> trivial
  refine Prog.Only.bind (terminalPhaseResponse_issued _ _) fun r => ?_
  split
  · trivial
  · refine Prog.Only.bind (terminalPhaseResponse_issued _ _) fun r => ?_
    split <;> trivial

end Incoming

section Collection

theorem unlinkEntries_issued (hr : A.removes) (dir : Nat) (entries : List RunEntry) :
    Issued A config k now (unlinkEntries dir entries).run := by
  induction entries with
  | nil => trivial
  | cons e rest ih => exact Prog.Only.runBind (only_io (only_sys ⟨trivial, hr⟩)) fun _ => ih

theorem removeRun_issued (hr : A.removes) (ph : RunPhase) :
    Issued A config k now (removeRun config k ph).run := by
  refine Prog.Only.runAdapt ?_
  refine Prog.Only.runBind (only_io (only_sys ⟨trivial, trivial⟩)) fun opened => ?_
  exact Prog.Only.runBind (unlinkEntries_issued hr _ _) fun _ => only_io (only_sys ⟨trivial, hr⟩)

theorem expireByMtime_issued (hr : A.removes) {ph : RunPhase} {retention : Nat}
    (h : ph = .incoming → retention = config.gc.orphanRetentionSecs) :
    Issued A config k now (expireByMtime config k ph now retention).run := by
  have hop : RunOp.Issued config k now (.modified ph (pastRetention now retention)) := by
    cases ph with
    | incoming => exact .inl (congrArg _ (h rfl))
    | _ => trivial
  refine Prog.Only.runBind (only_io (only_sys ⟨hop, trivial⟩)) fun mtime => ?_
  split
  · exact removeRun_issued hr ph
  · trivial

theorem collectIncoming_issued (hr : A.removes) :
    Issued A config k now (collectIncoming config k now).run := by
  refine Prog.Only.runBind (only_ask ⟨rfl, trivial⟩) fun r => ?_
  split
  · exact expireByMtime_issued hr fun _ => rfl
  · split
    · exact expireByMtime_issued hr fun _ => rfl
    · split
      · exact removeRun_issued hr _
      · trivial

theorem collectProcessing_issued (hA : A.releases) (hr : A.removes) :
    Issued A config k now (collectProcessing config k now).run := by
  refine Prog.Only.runBind (only_io (only_sys ⟨trivial, trivial⟩)) fun mtime => ?_
  refine Prog.Only.runBind (probeProcessorLockReadonly_issued hA _) fun r => ?_
  split
  · trivial
  · split
    · exact removeRun_issued hr _
    · trivial

theorem expiryForTerminal_issued (ph : RunPhase) (hph : ph ≠ .incoming) (retention : Nat) :
    Issued A config k now (expiryForTerminal config k ph now retention).run := by
  have hop : RunOp.Issued config k now (.modified ph fun _ => false) := by
    cases ph with
    | incoming => exact absurd rfl hph
    | _ => trivial
  refine Prog.Only.runBind (only_ask ⟨trivial, trivial⟩) fun content => ?_
  split
  · exact Prog.Only.runBind (only_io (only_sys ⟨trivial, trivial⟩)) fun _ => trivial
  · exact Prog.Only.runBind (only_io (only_sys ⟨hop, trivial⟩)) fun _ => trivial

theorem collectRun_issued (hA : A.releases) (hr : A.removes) (ph : RunPhase) :
    Issued A config k now (collectRun config k ph now).run := by
  cases ph with
  | incoming => exact collectIncoming_issued hr
  | ready => exact expireByMtime_issued hr nofun
  | processing => exact collectProcessing_issued hA hr
  | done =>
    refine Prog.Only.runBind (expiryForTerminal_issued .done nofun _) fun expired => ?_
    split
    · exact removeRun_issued hr _
    · refine Prog.Only.runBind (only_ask ⟨trivial, trivial⟩) fun content => ?_
      split
      · exact Prog.Only.runAdapt
          (Prog.Only.mono (pruneSuccessTerminal_only rfl) fun _ h =>
            ⟨RunOp.issued_of_prunes h, Rights.allows_of_prunes h⟩)
      · trivial
  | failed =>
    refine Prog.Only.runBind (expiryForTerminal_issued .failed nofun _) fun expired => ?_
    split
    · exact removeRun_issued hr _
    · trivial

end Collection

section Commands

def ServerOp.Issued (A : Rights) (config : ServerConfig) (now : Nat) : ServerOp → Prop
  | .run k o => o.Issued config k now ∧ A.Allows o
  | _ => True

theorem onRun_issued {c : Call α} (hc : Issued A config k now c) :
    (onRun k c).Only (ServerOp.Issued A config now) :=
  hc.embed _ fun _ h => h

theorem act_issued {o : ServerOp} (ho : o.Issued A config now) :
    (act o).Only (ServerOp.Issued A config now) := ⟨ho, fun _ => trivial⟩

theorem findRunsOf_issued (ph : RunPhase) (ns : List Nickname) :
    (findRunsOf ph ns).run.Only (ServerOp.Issued A config now) := by
  induction ns with
  | nil => trivial
  | cons n ns ih =>
    refine Prog.Only.runBind (Prog.Only.runLift (act_issued trivial)) fun r => ?_
    split
    · trivial
    · exact Prog.Only.runBind ih fun _ => trivial

theorem findRunsInPhase_issued (ph : RunPhase) :
    (findRunsInPhase ph).run.Only (ServerOp.Issued A config now) := by
  refine Prog.Only.runBind (Prog.Only.runLift (act_issued trivial)) fun found => ?_
  split
  · trivial
  · refine Prog.Only.runBind (Prog.Only.runLift (act_issued trivial)) fun r => ?_
    split
    · trivial
    · exact findRunsOf_issued ph _

theorem collectRuns_issued (hA : A.releases) (hr : A.removes) (n : Nickname) (ph : RunPhase) (ids : List RunId) :
    (collectRuns config now n ph ids).run.Only (ServerOp.Issued A config now) := by
  induction ids with
  | nil => trivial
  | cons id ids ih => exact Prog.Only.runBind (onRun_issued (collectRun_issued hA hr ph)) fun _ => ih

theorem collectPhases_issued (hA : A.releases) (hr : A.removes) (n : Nickname) (phs : List RunPhase) :
    (collectPhases config now n phs).run.Only (ServerOp.Issued A config now) := by
  induction phs with
  | nil => trivial
  | cons ph phs ih =>
    refine Prog.Only.runBind (Prog.Only.runLift (act_issued trivial)) fun r => ?_
    split
    · trivial
    · exact Prog.Only.runBind (collectRuns_issued hA hr n ph _) fun _ => ih

theorem collectNicknames_issued (hA : A.releases) (hr : A.removes) (ns : List Nickname) :
    (collectNicknames config now ns).run.Only (ServerOp.Issued A config now) := by
  induction ns with
  | nil => trivial
  | cons n ns ih => exact Prog.Only.runBind (collectPhases_issued hA hr n allPhases) fun _ => ih

/-- `process-once` after its collection. -/
theorem processFound_issued : (do
    let processingRuns ← findRunsInPhase .processing
    let readyRuns ← findRunsInPhase .ready
    ExceptT.lift (Prog.forEach processingRuns fun k => onRun k (recoverFoundRun host config k))
    ExceptT.lift (Prog.forEach readyRuns fun k => onRun k (processReadyRun host config k)) :
      ExceptT String Action Unit).run.Only (ServerOp.Issued .all config now) := by
  refine Prog.Only.runBind (findRunsInPhase_issued _) fun processing => ?_
  refine Prog.Only.runBind (findRunsInPhase_issued _) fun ready => ?_
  refine Prog.Only.runBind (Prog.Only.runLift (Prog.Only.forEach fun k' =>
    onRun_issued recoverFoundRun_issued)) fun _ => ?_
  exact Prog.Only.runLift (Prog.Only.forEach fun k' => onRun_issued processReadyRun_issued)

/-- A call that a command makes, whenever the collection in it started. -/
def ServerOp.Made (A : Rights) (config : ServerConfig) (o : ServerOp) : Prop :=
  ∃ now, o.Issued A config now

theorem runGc_made (hA : A.releases) (hr : A.removes) :
    (runGc config).run.Only (ServerOp.Made A config) := by
  have hact : ∀ {o : ServerOp}, o.Issued A config 0 → (act o).Only (ServerOp.Made A config) :=
    fun ho => ⟨⟨0, ho⟩, fun _ => trivial⟩
  refine Prog.Only.runBind (Prog.Only.runLift (hact trivial)) fun found => ?_
  split
  · trivial
  refine Prog.Only.runBind (Prog.Only.runLift (hact trivial)) fun now => ?_
  refine Prog.Only.runBind (Prog.Only.runLift (hact trivial)) fun r => ?_
  split
  · trivial
  · exact (collectNicknames_issued hA hr _).mono fun o ho => ⟨now, ho⟩

theorem Command.made {p : Action Unit} (h : Command host config p) :
    p.Only (ServerOp.Made .all config) := by
  have hmade : ∀ {β : Type} {p : Action β}, p.Only (ServerOp.Issued .all config 0) →
      (discard p).Only (ServerOp.Made .all config) := fun hp =>
    Prog.Only.bind (hp.mono fun o ho => ⟨0, ho⟩) fun _ => trivial
  cases h with
  | processRun k' => exact hmade (onRun_issued processRunInner_issued)
  | processOnce =>
    refine Prog.Only.bind (Prog.Only.runBind (Prog.Only.runLift (runGc_made trivial trivial)) fun _ => ?_)
      fun _ => trivial
    exact processFound_issued.mono fun o ho => ⟨0, ho⟩
  | runState k' => exact hmade (onRun_issued (runState_issued trivial))
  | gc => exact Prog.Only.bind (runGc_made trivial trivial) fun _ => trivial
  | heartbeat k' => exact hmade (onRun_issued heartbeatRun_issued)
  | finish k' => exact hmade (onRun_issued finishRun_issued)

end Commands

end Purgery.Server
