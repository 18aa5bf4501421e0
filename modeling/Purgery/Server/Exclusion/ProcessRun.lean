import Purgery.Server.Exclusion.Claim

namespace Purgery.Server

open Purgery.Interleaving

variable {Tid : Type} [DecidableEq Tid]
variable {host : Host} {config : ServerConfig} {k : RunKey} {t : Tid} {g : Grip Tid}
variable {D : CoreDir} {pl : List (RunPhase × Doc RunStatus)} {I : RunWorld Tid → Prop}

abbrev Idly {α : Type} (c : Call α) : Prop := c.Only fun o => o.idle = true

theorem verifiedStatusIn_idle (ph : RunPhase)
    {otherwise : ExceptT String Call (Option (String × String))} (h : Idly otherwise.run) :
    Idly (verifiedStatusIn k ph otherwise).run := by
  refine Prog.Only.runBind (only_ask rfl) fun found => ?_
  split
  · exact Prog.Only.runBind (only_ask rfl) fun _ => Prog.Only.runBind trivial fun _ => trivial
  · exact h

theorem verifiedTerminalStatus_idle : Idly (verifiedTerminalStatus k).run :=
  verifiedStatusIn_idle _ (verifiedStatusIn_idle _ trivial)

theorem terminalResponse_idle (outcome : ProcessRunOutcome) (message : String) :
    Idly (terminalResponse k outcome message).run := by
  refine Prog.Only.runBind verifiedTerminalStatus_idle fun r => ?_
  split <;> trivial

theorem alreadyTerminalResponse_idle (message absent : String) :
    Idly (alreadyTerminalResponse k message absent).run := by
  refine Prog.Only.runBind verifiedTerminalStatus_idle fun r => ?_
  split <;> trivial

/-- A run that has left `processing` is not moved. -/
theorem moveToFailed_gone :
    RunTriple host config k t (Gone t g .processing) (moveToFailed config k).run
      (fun r w => r = .ok () ∧ Gone t g .processing w) := by
  refine RunTriple.askBind (dirExists_absent fun w _ h => h.dirs_none (le_refl _)) fun found => ?_
  refine RunTriple.pure_pre ?_
  rintro rfl
  exact RunTriple.ret fun w _ h => ⟨rfl, h⟩

/-- A claimed run that could not be processed is moved to `failed`. -/
theorem moveToFailed_spec (hvia : g.via = .ready) :
    RunTriple host config k t (fun w => Gone t g .processing w ∨ Stuck k t g pl w)
      (moveToFailed config k).run (fun _ w => w.view.Session t g) := by
  refine RunTriple.or_pre (moveToFailed_gone.weaken fun _ _ _ h => h.2.session) ?_
  · refine RunTriple.strengthen (I := fun w => ∃ D pl', At t g .processing D pl' w ∧
      (classifyTerminalStatus k .failed D.status.read = true ∨ w.view.ClaimSpoilt))
      (RunTriple.exists_pre fun D => RunTriple.exists_pre fun pl' => ?_)
      fun w _ h => h.claimed hvia
    refine RunTriple.askBind ((RunTriple.sys_idle rfl).weaken fun _ _ _ h => h.1) fun found => ?_
    split
    · refine RunTriple.weaken (RunTriple.at_conclude rfl ?_ fun _ => rfl) fun r w _ h => ?_
      · exact Prog.Only.runBind (only_ask (.inr rfl)) fun _ => trivial
      · obtain ⟨_, h⟩ | ⟨_, h, _⟩ := h
        · exact h.session
        · exact h.session
    · exact RunTriple.ret fun w _ h => h.1.session

theorem Processed.moved {r : Except ProcessingError Unit} {w : RunWorld Tid}
    (h : Processed k t g pl r w) : Gone t g .processing w ∨ Stuck k t g pl w := by
  obtain ⟨_, h⟩ | ⟨_, h⟩ := h
  · exact .inl h
  · exact h

theorem Processed.session {r : Except ProcessingError Unit} {w : RunWorld Tid}
    (h : Processed k t g pl r w) : w.view.Session t g := by
  obtain h | h := h.moved
  · exact h.session
  · exact h.session

theorem processClaimed_spec (hvia : g.via = .ready) :
    RunTriple host config k t (fun w => Working t g D pl w ∧ First pl w)
      (processClaimed host config k).run (fun _ w => w.view.Session t g) := by
  refine RunTriple.liftBind processProcessingRun_spec fun r => ?_
  split
  · exact (RunTriple.of_idle (I := fun w => w.view.Session t g)
      (terminalResponse_idle _ _)).strengthen fun w _ h => h.session
  · exact RunTriple.ret fun w _ h => h.session
  · refine RunTriple.liftBind ((moveToFailed_spec hvia).strengthen fun w _ h => h.moved) fun r => ?_
    split
    · exact RunTriple.of_idle (terminalResponse_idle _ _)
    · exact RunTriple.ret fun w _ h => h

theorem handleProcessRunProcessingOutcome_spec :
    RunTriple host config k t (Idle t) (handleProcessRunProcessingOutcome host config k).run
      (fun _ => Idle t) := by
  refine RunTriple.runBind (M := fun _ => Idle t)
    (recoverProcessingRunIfUnlocked_spec.weaken fun r w _ h => by cases r <;> exact h)
    fun outcome => ?_
  split
  · exact RunTriple.of_idle (terminalResponse_idle _ _)
  · exact RunTriple.ret fun w _ h => h
  · exact RunTriple.of_idle (terminalResponse_idle _ _)
  · exact RunTriple.ret fun w _ h => h
  · exact RunTriple.of_idle (alreadyTerminalResponse_idle _ _)
  · exact RunTriple.ret fun w _ h => h

theorem processNotReady_spec :
    RunTriple host config k t (Idle t) (processNotReady host config k).run
      (fun _ => Idle t) := by
  refine RunTriple.askBind ((RunTriple.sys_idle rfl).weaken fun _ _ _ h => h.1) fun found => ?_
  split
  · exact handleProcessRunProcessingOutcome_spec
  · exact RunTriple.of_idle (alreadyTerminalResponse_idle _ _)

/-- `process-run` leaves no lock behind. -/
theorem processRunInner_spec :
    RunTriple host config k t (Idle t) (processRunInner host config k).run (fun _ => Idle t) := by
  refine RunTriple.liftBind claimReadyRun_spec fun r => RunTriple.or_pre ?_ ?_
  · refine RunTriple.exists_pre fun g => RunTriple.exists_pre fun D => RunTriple.exists_pre fun pl =>
      RunTriple.pure_pre ?_
    rintro rfl
    refine RunTriple.pure_pre fun hvia => ?_
    refine RunTriple.liftBind (processClaimed_spec hvia) fun inner => ?_
    exact RunTriple.askBind RunTriple.close fun _ => RunTriple.ret fun w _ h => h
  · refine RunTriple.pure_pre fun hne => ?_
    split
    · exact absurd rfl (hne _)
    · exact RunTriple.ret fun w _ h => h
    · exact handleProcessRunProcessingOutcome_spec
    · exact RunTriple.of_idle (alreadyTerminalResponse_idle _ _)
    · exact RunTriple.ret fun w _ h => h
    · exact RunTriple.of_idle (terminalResponse_idle _ _)
    · exact RunTriple.ret fun w _ h => h
    · exact processNotReady_spec
    · exact RunTriple.ret fun w _ h => h

theorem processReadyRun_spec :
    RunTriple host config k t (Idle t) (processReadyRun host config k) (fun _ => Idle t) := by
  refine RunTriple.bind claimReadyRun_spec fun r => RunTriple.or_pre ?_ ?_
  · refine RunTriple.exists_pre fun g => RunTriple.exists_pre fun D => RunTriple.exists_pre fun pl =>
      RunTriple.pure_pre ?_
    rintro rfl
    refine RunTriple.pure_pre fun hvia => RunTriple.bind processProcessingRun_spec fun r => ?_
    split
    · exact RunTriple.strengthen RunTriple.close fun w _ h => h.session
    · refine RunTriple.bind ((moveToFailed_spec hvia).strengthen fun w _ h => h.moved) fun _ => ?_
      exact RunTriple.close
  · refine RunTriple.pure_pre fun hne => ?_
    split
    · exact absurd rfl (hne _)
    · exact RunTriple.ret fun w _ h => h

theorem recoverFoundRun_spec :
    RunTriple host config k t (Idle t) (recoverFoundRun host config k) (fun _ => Idle t) :=
  RunTriple.bind recoverProcessingRunIfUnlocked_spec fun _ => RunTriple.ret fun w _ h => h

end Purgery.Server
