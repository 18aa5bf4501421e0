import Purgery.Interleaving.Triple
import Purgery.Server.Calls
import Purgery.Server.Intake

namespace Purgery.Server

open Purgery.Interleaving

variable {Tid : Type} [DecidableEq Tid] {host : Host} {programs : Intake Unit → Prop}
variable {P : Policy Tid IntakeOp IntakeOp.Choice (IntakeWorld Tid) IntakeEvent}
variable {C : Contract (intake host programs : System Tid _ _ _ _ _) P}
variable {config : ServerConfig} {k : RunKey} {t : Tid} {α β ε : Type}

/-- The contract of code that works on one run of the intake. -/
def RunRule (C : Contract (intake host programs : System Tid _ _ _ _ _) P) (k : RunKey) (t : Tid)
    (I : IntakeWorld Tid → Prop) (c : Call α) (Q : α → IntakeWorld Tid → Prop) : Prop :=
  Triple C t I (onServer (onRun k c)) Q

theorem onServer_bind (p : Action α) (f : α → Action β) :
    onServer (p >>= f) = onServer p >>= fun a => onServer (f a) :=
  Embedding.embed_bind _ p f

theorem onRun_bind (k : RunKey) (c : Call α) (f : α → Call β) :
    onRun k (c >>= f) = onRun k c >>= fun a => onRun k (f a) :=
  Embedding.embed_bind _ c f

namespace RunRule

variable {I : IntakeWorld Tid → Prop} {c : Call α} {Q : α → IntakeWorld Tid → Prop}

theorem ret {a : α} (h : ∀ s s', C.inv s → C.inv s' → C.rely t s s' → I s → Q a s') :
    RunRule C k t I (.ret a) Q := Triple.ret h

theorem bind (hC : C.Closed) {f : α → Call β} {M : α → IntakeWorld Tid → Prop}
    {Q : β → IntakeWorld Tid → Prop} (hc : RunRule C k t I c M)
    (hf : ∀ a, RunRule C k t (M a) (f a) Q) : RunRule C k t I (c >>= f) Q := by
  unfold RunRule
  rw [onRun_bind, onServer_bind]
  exact Triple.bind hC hc hf

theorem weaken {R : α → IntakeWorld Tid → Prop} (h : RunRule C k t I c Q)
    (hpost : ∀ a s, C.inv s → Q a s → R a s) : RunRule C k t I c R :=
  Triple.weaken h hpost

theorem strengthen {J : IntakeWorld Tid → Prop} (h : RunRule C k t I c Q)
    (hpre : ∀ s, C.inv s → J s → I s) : RunRule C k t J c Q :=
  Triple.strengthen h hpre

theorem runBind (hC : C.Closed) {x : ExceptT ε Call α} {f : α → ExceptT ε Call β}
    {M : α → IntakeWorld Tid → Prop} {Q : Except ε β → IntakeWorld Tid → Prop}
    (hx : RunRule C k t I x.run fun r s => match r with
      | .ok a => M a s
      | .error e => Q (.error e) s)
    (hf : ∀ a, RunRule C k t (M a) (f a).run Q)
    (hstable : ∀ e s s', C.inv s → C.inv s' → C.rely t s s' → Q (.error e) s → Q (.error e) s') :
    RunRule C k t I (x >>= f).run Q := by
  refine RunRule.bind hC hx fun r => ?_
  cases r with
  | ok a => exact hf a
  | error e => exact RunRule.ret (hstable e)

theorem liftBind (hC : C.Closed) {f : α → ExceptT ε Call β} {M : α → IntakeWorld Tid → Prop}
    {Q : Except ε β → IntakeWorld Tid → Prop} (hc : RunRule C k t I c M)
    (hf : ∀ a, RunRule C k t (M a) (f a).run Q) :
    RunRule C k t I (ExceptT.lift c >>= f).run Q := by
  have hassoc : (ExceptT.lift c >>= f).run = (c >>= fun a => (f a).run) := Prog.bind_assoc _ _ _
  rw [hassoc]
  exact RunRule.bind hC hc hf

theorem runAdapt (hC : C.Closed) {ε' : Type} {x : ExceptT ε' Call α} {g : ε' → ε}
    (hx : RunRule C k t I x.run fun _ => I)
    (hstable : ∀ s s', C.inv s → C.inv s' → C.rely t s s' → I s → I s') :
    RunRule C k t I (ExceptT.adapt g x).run fun _ => I :=
  RunRule.bind hC hx fun _ => RunRule.ret hstable

/-- Code that keeps an assertion, one call after the other. -/
theorem of_only {ok : RunOp → Prop} (hC : C.Closed) (hc : c.Only ok)
    (hstable : ∀ s s', C.inv s → C.inv s' → C.rely t s s' → I s → I s')
    (hop : ∀ o, ok o → RunRule C k t I (sys o) fun _ => I) :
    RunRule C k t I c fun _ => I := by
  induction c with
  | ret a => exact RunRule.ret hstable
  | call o f ih => exact RunRule.bind hC (c := sys o) (hop o hc.1) fun r => ih r (hc.2 r)

end RunRule

/-- The rights of code without the lock, of code that holds it, and of the
processing of a run that is in place. -/
def Rights.free : Rights := ⟨False, False, True, False, fun _ => False⟩

def Rights.held : Rights := ⟨True, False, False, False, fun _ => False⟩

def Rights.working (plans : ResolvedDestinationPlan → Prop) : Rights := ⟨False, True, False, False, plans⟩

section Process

variable {grip place : IntakeWorld Tid → Prop} {plans : ResolvedDestinationPlan → Prop}

/-- The rules by which the holder of the lock processes a run that is in place. -/
structure Processing (C : Contract (intake host programs : System Tid _ _ _ _ _) P)
    (config : ServerConfig) (k : RunKey) (t : Tid) (grip place : IntakeWorld Tid → Prop)
    (plans : ResolvedDestinationPlan → Prop) (destination : DestinationPath) : Prop
    extends C.Closed where
  stable : ∀ s s', C.inv s → C.inv s' → C.rely t s s' → grip s → grip s'
  held : ∀ o : RunOp, o.Issued config k 0 ∧ Rights.held.Allows o →
    RunRule C k t grip (sys o) fun _ => grip
  stays : ∀ s s', C.inv s → C.inv s' → C.rely t s s' → place s → place s'
  working : ∀ o : RunOp, o.Issued config k 0 ∧ (Rights.working plans).Allows o →
    RunRule C k t place (sys o) fun _ => place
  back : ∀ s, C.inv s → place s → grip s
  entry : ∀ entry : ManifestEntry, RunRule C k t place
    (processManifestEntry host config k entry 0 1 destination) fun _ => place

theorem Processing.processEntries {runConfig : RunConfig}
    (hP : Processing C config k t grip place plans runConfig.destination) (manifest : Manifest)
    (entry : ManifestEntry) :
    RunRule C k t place (processEntries host config k runConfig manifest entry).run
      fun _ => grip := by
  have hwork : ∀ {ε α β : Type} {x : ExceptT ε Call α} {f : α → ExceptT ε Call β},
      Issued (.working plans) config k 0 x.run →
      (∀ a, RunRule C k t place (f a).run fun _ => grip) →
      RunRule C k t place (x >>= f).run fun _ => grip := by
    intro ε α β x f hx hf
    refine RunRule.runBind hP.toClosed (M := fun _ => place) ?_ hf fun _ => hP.stable
    refine RunRule.weaken (RunRule.of_only hP.toClosed hx hP.stays hP.working) fun r s hs h => ?_
    cases r with
    | ok a => exact h
    | error e => exact hP.back s hs h
  have hprogress : ∀ state i n e tr, Issued (.working plans) config k 0
      (ExceptT.lift (writeProgressBestEffort config k state i n e tr) :
        ExceptT ProcessingError Call Unit).run := fun state i n e tr =>
    Prog.Only.runLift (writeProgressBestEffort_issued trivial state i n e tr)
  refine hwork (resetWorkArea_issued trivial) fun _ => ?_
  refine hwork (hprogress _ _ _ _ _) fun _ => ?_
  refine hwork (hprogress _ _ _ _ _) fun _ => ?_
  refine RunRule.liftBind hP.toClosed (hP.entry entry) fun outcome => ?_
  have hpublish : RunRule C k t place (do
      ExceptT.lift (writeProgressBestEffort config k "publishing_status" 0 1 "" "")
      publishEntryStatus config k outcome
      ExceptT.adapt .other (finalizeProcessingRun config k outcome.state) :
      ExceptT ProcessingError Call Unit).run fun _ => grip := by
    refine hwork (hprogress _ _ _ _ _) fun _ => ?_
    refine hwork (publishEntryStatus_issued _) fun _ => ?_
    refine RunRule.strengthen ?_ hP.back
    exact RunRule.of_only hP.toClosed (Prog.Only.runAdapt (finalizeProcessingRun_issued trivial _))
      hP.stable hP.held
  split
  · exact hwork (Prog.Only.runLift removeWork_issued) fun _ => hpublish
  · exact hpublish

/-- A run whose inputs were read is in place, and is processed there. -/
theorem processProcessingRun_rule (place : RunConfig → IntakeWorld Tid → Prop)
    (plans : ResolvedDestinationPlan → Prop) (hC : C.Closed)
    (hstable : ∀ s s', C.inv s → C.inv s' → C.rely t s s' → grip s → grip s')
    (hheld : ∀ o : RunOp, o.Issued config k 0 ∧ Rights.held.Allows o →
      RunRule C k t grip (sys o) fun _ => grip)
    (hread : RunRule C k t grip (readCompatibleRunInputs config k .processing).run
      fun r s => grip s ∧ ∀ x, r = .ok x → place x.1 s)
    (hP : ∀ runConfig,
      Processing C config k t grip (place runConfig) plans runConfig.destination) :
    RunRule C k t grip (processProcessingRun host config k).run fun _ => grip := by
  have hfail : ∀ message,
      RunRule C k t grip (failRun config k message).run fun _ => grip := fun message =>
    RunRule.of_only hC (failRun_issued trivial message) hstable hheld
  refine RunRule.liftBind hC hread fun r => ?_
  split
  · exact RunRule.ret fun s s' hs hi hr h => hstable s s' hs hi hr h.1
  · exact (hfail _).strengthen fun _ _ h => h.1
  · rename_i runConfig manifest
    split
    · exact (hfail _).strengthen fun _ _ h => h.1
    · exact RunRule.ret fun s s' hs hi hr h => hstable s s' hs hi hr h.1
    · exact ((hP runConfig).processEntries manifest _).strengthen
        fun _ _ h => h.2 (runConfig, manifest) rfl

end Process

/-- A contract under which a process that has taken the processor lock of the
run may rely on `grip`. -/
structure Locking (C : Contract (intake host programs : System Tid _ _ _ _ _) P)
    (config : ServerConfig) (k : RunKey) (t : Tid) (grip : IntakeWorld Tid → Prop) : Prop
    extends C.Closed where
  stable : ∀ s s', C.inv s → C.inv s' → C.rely t s s' → grip s → grip s'
  free : ∀ o : RunOp, o.Issued config k 0 ∧ Rights.free.Allows o →
    RunRule C k t (fun _ => True) (sys o) fun _ _ => True
  held : ∀ o : RunOp, o.Issued config k 0 ∧ Rights.held.Allows o →
    RunRule C k t grip (sys o) fun _ => grip
  lock : ∀ ph : RunPhase, ph.queued = true → RunRule C k t (fun _ => True)
    (tryLockExistingDir config k ph).run fun r s => ∀ i, r = .ok (.acquired i) → grip s
  process : RunRule C k t grip (processProcessingRun host config k).run fun _ => grip

namespace Locking

variable {grip : IntakeWorld Tid → Prop} (L : Locking C config k t grip)

include L

theorem of_free {c : Call α} (hc : Issued .free config k 0 c) :
    RunRule C k t (fun _ => True) c fun _ _ => True :=
  RunRule.of_only L.toClosed hc (fun _ _ _ _ _ _ => trivial) L.free

theorem of_held {c : Call α} (hc : Issued .held config k 0 c) :
    RunRule C k t grip c fun _ => grip :=
  RunRule.of_only L.toClosed hc L.stable L.held

/-- Code that does not depend on the lock any more. -/
theorem after {c : Call α} (hc : Issued .free config k 0 c) :
    RunRule C k t grip c fun _ _ => True :=
  (L.of_free hc).strengthen fun _ _ _ => trivial

theorem close {f : Unit → Call α} (lock : Nat)
    (hf : RunRule C k t (fun _ => True) (f ()) fun _ _ => True) :
    RunRule C k t grip (sys (.close lock) >>= f) fun _ _ => True :=
  RunRule.bind L.toClosed (L.after (only_sys ⟨trivial, trivial⟩)) fun _ => hf

/-- Code without the lock that never gives some answers. -/
theorem unclaimed {c : Call ReadyClaimOutcome} {J : IntakeWorld Tid → Prop}
    (hc : RunRule C k t J c fun _ _ => True) (ha : c.Answers fun r => ∀ i, r ≠ .claimed i) :
    RunRule C k t J c fun r s => ∀ i, r = .claimed i → grip s :=
  RunRule.weaken (Triple.answers hc (ha.embed _ |>.embed _)) fun _ _ _ h i hi => absurd hi (h.2 i)

/-- Whoever is told that the run was claimed holds the lock. -/
theorem renameClaimed (lock : Nat) : RunRule C k t grip (renameClaimed k lock)
    fun r s => ∀ i, r = .claimed i → grip s := by
  refine RunRule.bind L.toClosed (L.of_held (only_sys ⟨trivial, trivial⟩)) fun parent => ?_
  split
  · exact L.unclaimed (L.after (Prog.Only.bind (only_sys ⟨trivial, trivial⟩) fun _ => trivial))
      fun _ => nofun
  refine RunRule.bind L.toClosed (L.of_held (only_sys ⟨trivial, fun _ => trivial⟩)) fun moved => ?_
  split
  · exact RunRule.ret fun s s' hs hi hr hg i _ => L.stable s s' hs hi hr hg
  · exact L.unclaimed (L.after (Prog.Only.bind (only_sys ⟨trivial, trivial⟩) fun _ =>
      recheckState_issued)) fun _ => recheckState_answers nofun nofun nofun nofun

theorem claimReadyRun : RunRule C k t (fun _ => True) (claimReadyRun config k)
    fun r s => ∀ i, r = .claimed i → grip s := by
  have hrecheck : RunRule C k t (fun _ => True) (recheckState k)
      fun r s => ∀ i, r = .claimed i → grip s :=
    L.unclaimed (L.of_free recheckState_issued) (recheckState_answers nofun nofun nofun nofun)
  have hret : ∀ {r : ReadyClaimOutcome} {J : IntakeWorld Tid → Prop}, (∀ i, r ≠ .claimed i) →
      RunRule C k t J (.ret r) fun r s => ∀ i, r = .claimed i → grip s :=
    fun hr => RunRule.ret fun _ _ _ _ _ _ i hi => absurd hi (hr i)
  refine RunRule.bind L.toClosed (L.of_free (only_sys ⟨trivial, trivial⟩)) fun found => ?_
  split
  · exact hrecheck
  refine RunRule.bind L.toClosed (L.lock .ready rfl) fun attempt => ?_
  split
  · exact hret nofun
  · exact hrecheck.strengthen fun _ _ _ => trivial
  · exact hret nofun
  rename_i lock
  refine RunRule.strengthen (I := grip) ?_ fun s _ h => h lock rfl
  refine RunRule.bind L.toClosed (L.of_held (readCompatibleRunInputs_issued _)) fun inputs => ?_
  split
  · exact L.unclaimed (L.after (Prog.Only.bind (only_sys ⟨trivial, trivial⟩) fun _ => trivial))
      fun _ => nofun
  · refine RunRule.bind L.toClosed (M := fun r s => grip s ∧ ∀ i, r ≠ .claimed i) ?_ fun r => ?_
    · exact Triple.answers (L.of_held (handleMalformedReady_issued trivial _))
        ((handleMalformedReady_answers nofun fun _ => nofun).embed _ |>.embed _)
    · refine RunRule.bind L.toClosed (M := fun _ _ => ∀ i, r ≠ .claimed i) ?_ fun _ =>
        RunRule.ret fun _ _ _ _ _ h i hi => absurd hi (h i)
      refine RunRule.strengthen (I := fun s => (∀ i, r ≠ .claimed i) ∧ grip s) ?_
        fun s _ h => ⟨h.2, h.1⟩
      exact Triple.pure_pre fun hr =>
        RunRule.weaken (L.after (only_sys ⟨trivial, trivial⟩)) fun _ _ _ _ => hr
  · exact L.renameClaimed lock

/-- A part of the code that keeps the lock, whatever it answers. -/
theorem runBind {x : ExceptT ε Call α} {f : α → ExceptT ε Call β}
    (hx : RunRule C k t grip x.run fun _ => grip)
    (hf : ∀ a, RunRule C k t grip (f a).run fun _ => grip) :
    RunRule C k t grip (x >>= f).run fun _ => grip :=
  RunRule.runBind L.toClosed (hx.weaken fun r _ _ h => by cases r <;> exact h) hf
    fun _ => L.stable

theorem freeBind {x : ExceptT ε Call α} {f : α → ExceptT ε Call β}
    (hx : RunRule C k t (fun _ => True) x.run fun _ _ => True)
    (hf : ∀ a, RunRule C k t (fun _ => True) (f a).run fun _ _ => True) :
    RunRule C k t (fun _ => True) (x >>= f).run fun _ _ => True :=
  RunRule.runBind L.toClosed (hx.weaken fun r _ _ _ => by cases r <;> trivial) hf
    fun _ _ _ _ _ _ h => h

theorem recoverOrProcessProcessingRun :
    RunRule C k t grip (recoverOrProcessProcessingRun host config k).run fun _ => grip := by
  have hlease : Issued .held config k 0
      (ExceptT.adapt RecoveryError.ofProcessing
        (validateRunLeaseProtocol config k .processing)).run :=
    Prog.Only.runAdapt (Prog.Only.runBind (only_ask ⟨trivial, trivial⟩) fun _ => trivial)
  refine L.runBind (L.of_held hlease) fun _ => ?_
  refine L.runBind (L.of_held (only_ask ⟨trivial, trivial⟩)) fun content => ?_
  split
  · split
    · exact L.of_held trivial
    · exact L.of_held (Prog.Only.runAdapt (writeRunFailure_issued trivial _))
    · exact L.of_held (Prog.Only.runAdapt (finalizeProcessingRun_issued trivial _))
  · exact RunRule.runAdapt L.toClosed L.process L.stable
  · exact L.of_held trivial

theorem recoverLocked : RunRule C k t grip (recoverLocked host config k) fun _ => grip := by
  refine RunRule.bind L.toClosed L.recoverOrProcessProcessingRun fun r => ?_
  split
  · exact L.of_held trivial
  · exact L.of_held trivial
  · exact L.of_held (publishRecoveryFailure_issued trivial _)

theorem recoverProcessingRunIfUnlocked : RunRule C k t (fun _ => True)
    (recoverProcessingRunIfUnlocked host config k).run fun _ _ => True := by
  refine L.freeBind (L.of_free (only_ask ⟨trivial, trivial⟩)) fun found => ?_
  split
  · exact L.of_free trivial
  refine RunRule.liftBind L.toClosed (L.lock .processing rfl) fun attempt => ?_
  split
  · exact RunRule.strengthen (L.of_free trivial) fun _ _ _ => trivial
  · exact RunRule.strengthen (L.of_free trivial) fun _ _ _ => trivial
  · exact RunRule.strengthen (L.of_free trivial) fun _ _ _ => trivial
  rename_i lock
  refine RunRule.strengthen (I := grip) ?_ fun s _ h => h lock rfl
  refine RunRule.liftBind L.toClosed L.recoverLocked fun outcome => ?_
  exact RunRule.liftBind L.toClosed (L.after (only_sys ⟨trivial, trivial⟩)) fun _ =>
    L.of_free trivial

theorem handleProcessRunProcessingOutcome : RunRule C k t (fun _ => True)
    (handleProcessRunProcessingOutcome host config k).run fun _ _ => True := by
  refine L.freeBind L.recoverProcessingRunIfUnlocked fun r => ?_
  split
  · exact L.of_free (Issued.of_idle (terminalResponse_idle _ _))
  · exact L.of_free trivial
  · exact L.of_free (Issued.of_idle (terminalResponse_idle _ _))
  · exact L.of_free trivial
  · exact L.of_free (Issued.of_idle (alreadyTerminalResponse_idle _ _))
  · exact L.of_free trivial

theorem processClaimed :
    RunRule C k t grip (processClaimed host config k).run fun _ _ => True := by
  refine RunRule.liftBind L.toClosed L.process fun r => ?_
  split
  · exact L.after (Issued.of_idle (terminalResponse_idle _ _))
  · exact L.after trivial
  refine RunRule.liftBind L.toClosed (L.of_held (moveToFailed_issued trivial)) fun r => ?_
  split
  · exact L.after (Issued.of_idle (terminalResponse_idle _ _))
  · exact L.after trivial

theorem processRunInner : RunRule C k t (fun _ => True) (processRunInner host config k).run
    fun _ _ => True := by
  refine RunRule.liftBind L.toClosed L.claimReadyRun fun outcome => ?_
  have hfree : ∀ {c : Call (Except String ProcessRunInnerResult)}, Issued .free config k 0 c →
      RunRule C k t (fun s => ∀ i, outcome = .claimed i → grip s) c fun _ _ => True :=
    fun hc => (L.of_free hc).strengthen fun _ _ _ => trivial
  split
  · rename_i lock
    refine RunRule.strengthen (I := grip) ?_ fun s _ h => h lock rfl
    refine RunRule.liftBind L.toClosed L.processClaimed fun inner => ?_
    exact L.of_free (Prog.Only.runBind (only_ask ⟨trivial, trivial⟩) fun _ => trivial)
  · exact hfree trivial
  · exact L.handleProcessRunProcessingOutcome.strengthen fun _ _ _ => trivial
  · exact hfree (Issued.of_idle (alreadyTerminalResponse_idle _ _))
  · exact hfree trivial
  · exact hfree (Issued.of_idle (terminalResponse_idle _ _))
  · exact hfree trivial
  · refine RunRule.strengthen (I := fun _ => True) ?_ fun _ _ _ => trivial
    refine L.freeBind (L.of_free (only_ask ⟨trivial, trivial⟩)) fun found => ?_
    split
    · exact L.handleProcessRunProcessingOutcome
    · exact L.of_free (Issued.of_idle (alreadyTerminalResponse_idle _ _))
  · exact hfree trivial

theorem processReadyRun : RunRule C k t (fun _ => True) (processReadyRun host config k)
    fun _ _ => True := by
  refine RunRule.bind L.toClosed L.claimReadyRun fun outcome => ?_
  split
  · rename_i lock
    refine RunRule.strengthen (I := grip) ?_ fun s _ h => h lock rfl
    refine RunRule.bind L.toClosed L.process fun r => ?_
    split
    · exact L.after (only_sys ⟨trivial, trivial⟩)
    · exact RunRule.bind L.toClosed (L.of_held (moveToFailed_issued trivial)) fun _ =>
        L.after (only_sys ⟨trivial, trivial⟩)
  · exact RunRule.strengthen (L.of_free trivial) fun _ _ _ => trivial

theorem recoverFoundRun : RunRule C k t (fun _ => True) (recoverFoundRun host config k)
    fun _ _ => True :=
  RunRule.bind L.toClosed L.recoverProcessingRunIfUnlocked fun _ => L.of_free trivial

end Locking

end Purgery.Server
