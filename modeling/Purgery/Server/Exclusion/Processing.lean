import Purgery.Server.Exclusion.EntryCalls
import Purgery.Server.Exclusion.Status

namespace Purgery.Server

open Purgery.Interleaving

variable {Tid : Type} [DecidableEq Tid]
variable {host : Host} {config : ServerConfig} {k : RunKey} {t : Tid} {g : Grip Tid}
variable {ph : RunPhase} {D : CoreDir} {pl : List (RunPhase × Doc RunStatus)}
variable {w : RunWorld Tid}

/-- The next status that is published in `processing` is the first one, unless
a recovery was spoilt. -/
def First (pl : List (RunPhase × Doc RunStatus)) (w : RunWorld Tid) : Prop :=
  Unpublished pl ∨ w.view.RecoverySpoilt

instance : Lasting (First pl : RunWorld Tid → Prop) :=
  inferInstanceAs (Lasting fun w => Unpublished pl ∨ w.view.RecoverySpoilt)

instance : Stable config k t (First pl) := Lasting.stable inferInstance

/-- Processing was stopped by a call that failed: before the status was
published, or between that and the terminal move. -/
def Stuck (k : RunKey) (t : Tid) (g : Grip Tid) (pl : List (RunPhase × Doc RunStatus))
    (w : RunWorld Tid) : Prop :=
  (∃ D o, At t g .processing D pl w ∧ Failed g .processing pl o w ∧
    (o = .createWork ∨ o.writesStatus .processing = true)) ∨
  ∃ D st o, At t g .processing D ((.processing, Doc.ofValue st) :: pl) w ∧
    D.status = .text (Doc.ofValue st) ∧ StatusOf k st ∧
    Failed g .processing ((.processing, Doc.ofValue st) :: pl) o w ∧
    (o = .createParent (RunState.phase st.state) ∨
      o = .move .processing (RunState.phase st.state))

instance : Stable config k t (Stuck k t g pl) :=
  inferInstanceAs (Stable config k t fun w => (∃ D o, At t g .processing D pl w ∧
      Failed g .processing pl o w ∧ (o = .createWork ∨ o.writesStatus .processing = true)) ∨
    ∃ D st o, At t g .processing D ((.processing, Doc.ofValue st) :: pl) w ∧
      D.status = .text (Doc.ofValue st) ∧ StatusOf k st ∧
      Failed g .processing ((.processing, Doc.ofValue st) :: pl) o w ∧
      (o = .createParent (RunState.phase st.state) ∨
        o = .move .processing (RunState.phase st.state)))

theorem Stuck.faults (h : Stuck k t g pl w) : w.faults ≠ [] := by
  obtain ⟨_, _, -, hf, -⟩ | ⟨_, _, _, -, -, -, hf, -⟩ := h
  · exact hf.faults
  · exact hf.faults

/-- Where a run that was claimed is stuck, moving it to `failed` is right, or a
failed call has spoilt the claim. -/
theorem Stuck.claimed (h : Stuck k t g pl w) (hvia : g.via = .ready) :
    ∃ D pl', At t g .processing D pl' w ∧
      (classifyTerminalStatus k .failed D.status.read = true ∨ w.view.ClaimSpoilt) := by
  have hspoilt : ∀ {pl' o}, Failed g .processing pl' o w → (o = .createWork ∨
      o.writesStatus .processing = true ∨ o = .createParent .done ∨ o = .move .processing .done) →
      w.view.ClaimSpoilt := by
    rintro pl' o ⟨f, hf, rfl, hg, hl, _⟩ ho
    refine ⟨f, hf, ?_⟩
    simp only [Fault.spoilsClaim, hg, hl, hvia, Option.any_some, beq_self_eq_true, Bool.true_and]
    obtain h | h | h | h := ho
    · simp [h]
    · obtain h | ⟨_, _, h⟩ | h := RunOp.writesStatus_cases h <;> simp [h]
    · simp [h]
    · simp [h]
  obtain ⟨D, o, hat, hf, ho⟩ | ⟨D, st, o, hat, hst, hof, hf, ho⟩ := h
  · exact ⟨D, pl, hat, .inr (hspoilt hf (ho.imp_right .inl))⟩
  · refine ⟨D, _, hat, ?_⟩
    rw [hst]
    cases hs : st.state with
    | failed =>
      have h := hof.classify
      rw [hs] at h
      exact .inl h
    | done | partiallyDone =>
      rw [hs] at ho
      exact .inr (hspoilt hf (.inr (.inr ho)))

/-- A recovery that is stuck may still publish a failure. -/
theorem Stuck.recovering (h : Stuck k t g pl w) (hvia : g.via = .processing) (hfirst : First pl w) :
    ∃ D pl', At t g .processing D pl' w ∧ First pl' w := by
  obtain ⟨D, o, hat, _, _⟩ | ⟨D, st, o, hat, _, _, ⟨f, hf, rfl, hg, hl, hp⟩, ho⟩ := h
  · exact ⟨D, pl, hat, hfirst⟩
  · refine ⟨D, _, hat, .inr ⟨f, hf, ?_⟩⟩
    have hp' : f.published = true := by simp [hp]
    simp only [Fault.spoilsRecovery, hp', hg, hvia, Option.any_some, beq_self_eq_true,
      Bool.true_and]
    obtain h | h := ho <;> cases hs : st.state <;> simp [h, hs, RunState.phase]

namespace RunTriple

/-- The end of a run: the parent is created, the directory moves to its
terminal phase, and what is left there is only cleaned up. -/
theorem at_conclude {ε : Type} {dst : RunPhase} {e₁ e₂ : IoError → ε} {rest : ExceptT ε Call Unit}
    (hdst : dst.terminal = true) (hrest : rest.run.Only fun o => o.idle = true ∨ o.prunes = true)
    (hok : rest.run.Answers fun r => r = .ok ()) :
    RunTriple host config k t (fun w => At t g .processing D pl w ∧
        (classifyTerminalStatus k dst D.status.read = true ∨ w.view.ClaimSpoilt))
      (do
        Server.io (Server.sys (.createParent dst)) e₁
        Server.io (Server.sys (.move .processing dst)) e₂
        rest : ExceptT ε Call Unit).run
      (fun r w => (r = .ok () ∧ Gone t g .processing w) ∨
        (∃ e, r = .error e) ∧ At t g .processing D pl w ∧
        ∃ o, Failed g .processing pl o w ∧
          (o = .createParent dst ∨ o = .move .processing dst)) := by
  refine RunTriple.ioBind (M := fun _ w => At t g .processing D pl w ∧
    (classifyTerminalStatus k dst D.status.read = true ∨ w.view.ClaimSpoilt))
    ((RunTriple.sys_idle (I := At t g .processing D pl) rfl).frame.weaken fun r w _ h => ?_)
    fun _ => ?_
  · obtain ⟨⟨hat, ha⟩, hvalid⟩ := h
    cases r with
    | ok _ => exact ⟨hat, hvalid⟩
    | error e =>
      obtain ⟨_, hr⟩ | ⟨_, _, _, _, _, hr⟩ := ha
      · exact .inr ⟨⟨_, rfl⟩, hat, _, hr.failed, .inl rfl⟩
      · exact nomatch hr
  refine RunTriple.strengthen (I := fun w => g.fresh = true ∧ At t g .processing D pl w ∧
    (classifyTerminalStatus k dst D.status.read = true ∨ w.view.ClaimSpoilt))
    (RunTriple.pure_pre fun hg => ?_) fun w _ h => ⟨h.1.fresh, h⟩
  refine RunTriple.ioBind (M := fun _ => Gone t g .processing)
    ((RunTriple.at_finish hdst).weaken fun r w _ h => ?_) fun _ => ?_
  · obtain ⟨rfl, hgone⟩ | ⟨⟨e, rfl⟩, hat, hf⟩ := h
    · exact hgone
    · exact .inr ⟨⟨_, rfl⟩, hat, _, hf, .inr rfl⟩
  · refine ((RunTriple.of_prune (I := Gone t g .processing) hrest fun w _ h g' hg' _ => ?_).answers
      hok).weaken fun r w _ h => .inl ⟨h.2, h.1⟩
    obtain rfl : g' = g := by simpa [show w.locks = [g] from h.session.locks] using hg'
    exact hg

end RunTriple

theorem pruneTemporaries_only (fs : List FileName) (hph : ph.terminal = true) :
    (pruneTemporaries ph fs).run.Only fun o => o.idle = true ∨ o.prunes = true := by
  induction fs with
  | nil => trivial
  | cons f fs ih => exact Prog.Only.runBind (only_io (only_sys (.inr hph))) fun _ => ih

theorem pruneSubtree_only (s : Subtree) (hph : ph.terminal = true) :
    (pruneSubtree ph s).run.Only fun o => o.idle = true ∨ o.prunes = true := by
  refine Prog.Only.runBind (only_ask (.inl rfl)) fun found => ?_
  split
  · exact only_io (only_removeSubtree (.inr hph) (.inr hph))
  · trivial

theorem pruneFile_only {f : FileName} (hf : f ≠ .status) (hph : ph.terminal = true) :
    (pruneFile ph f).run.Only fun o => o.idle = true ∨ o.prunes = true := by
  refine Prog.Only.runBind (only_ask (.inl rfl)) fun found => ?_
  split
  · exact only_io (only_sys (.inr (by simp [RunOp.prunes, hph, hf])))
  · trivial

theorem pruneSuccessTerminal_only (hph : ph.terminal = true) :
    (pruneSuccessTerminal ph).run.Only fun o => o.idle = true ∨ o.prunes = true := by
  refine Prog.Only.runBind (pruneSubtree_only _ hph) fun _ => ?_
  refine Prog.Only.runBind (pruneSubtree_only _ hph) fun _ => ?_
  refine Prog.Only.runBind (pruneFile_only nofun hph) fun _ => ?_
  refine Prog.Only.runBind (pruneFile_only nofun hph) fun _ => ?_
  refine Prog.Only.runBind (only_ask (.inl rfl)) fun found => ?_
  have hrest : (do
      let temporaries ← io (sys (.listTmp ph)) IoError.message
      pruneTemporaries ph temporaries : ExceptT String Call Unit).run.Only
        fun o => o.idle = true ∨ o.prunes = true :=
    Prog.Only.runBind (only_io (only_sys (.inl rfl))) fun fs => pruneTemporaries_only fs hph
  split
  · exact Prog.Only.runBind (only_io (only_sys (.inr hph))) fun _ => hrest
  · exact hrest

/-- A published status is carried to its terminal phase. -/
theorem finalizeProcessingRun_spec {d : Doc RunStatus} {s : RunState} (hd : D.status = .text d)
    (hs : classifyTerminalStatus k (RunState.phase s) (.ok d) = true) :
    RunTriple host config k t (At t g .processing D pl) (finalizeProcessingRun config k s).run
      (fun r w => (r = .ok () ∧ Gone t g .processing w) ∨
        (∃ e, r = .error e) ∧ At t g .processing D pl w ∧ ∃ o, Failed g .processing pl o w ∧
          (o = .createParent (RunState.phase s) ∨ o = .move .processing (RunState.phase s))) := by
  have hph := RunState.phase_terminal s
  refine RunTriple.strengthen (RunTriple.at_conclude hph ?_ ?_) fun w _ h =>
    ⟨h, .inl (by rw [hd]; exact hs)⟩
  · split
    · exact Prog.Only.runBind (Prog.Only.runLift (pruneSuccessTerminal_only hph)) fun _ => trivial
    · exact Prog.Only.runBind (only_ask (.inr hph)) fun _ => trivial
  · split
    · exact Prog.Answers.liftBind (A := fun _ => True) (.any fun _ => trivial) fun _ _ => rfl
    · exact fun _ => rfl

/-- The status is published, and the code goes on, or it is stuck before that. -/
theorem RunTriple.at_publishFirst {ε α : Type} {st : RunStatus} (hof : StatusOf k st)
    {e₁ e₂ : IoError → ε} {rest : Unit → ExceptT ε Call α}
    {Q : Except ε α → RunWorld Tid → Prop} [∀ e, Stable config k t (Q (.error e))]
    (hstuck : ∀ e w, Stuck k t g pl w → Q (.error (e₁ e)) w ∧ Q (.error (e₂ e)) w)
    (hrest : ∀ u, RunTriple host config k t (At t g .processing
      (D.put (.text (Doc.ofValue st)) .missing) ((.processing, Doc.ofValue st) :: pl))
      (rest u).run Q) :
    RunTriple host config k t (fun w => At t g .processing D pl w ∧ First pl w)
      ((do
        Server.io (writeFile .processing .status (Doc.ofValue st)) e₁
        Server.io (Server.sys (.publish .processing .status)) e₂ : ExceptT ε Call Unit) >>=
          rest).run Q := by
  refine RunTriple.runBind (M := fun _ => At t g .processing
    (D.put (.text (Doc.ofValue st)) .missing) ((.processing, Doc.ofValue st) :: pl))
    (RunTriple.at_writeStatus.conseq (fun w _ h => ⟨h.1, .inr ⟨⟨rfl, hof.version, hof.key⟩, h.2⟩⟩)
      fun r w _ h => ?_) hrest
  obtain ⟨rfl, hat⟩ | ⟨⟨e, rfl | rfl⟩, tmp, o, hat, hf, ho⟩ := h
  · exact hat
  · exact (hstuck e w (.inl ⟨_, o, hat, hf, .inr ho⟩)).1
  · exact (hstuck e w (.inl ⟨_, o, hat, hf, .inr ho⟩)).2

/-- A failure of the run as a whole is published, and the run is moved to
`failed`. -/
theorem writeRunFailure_spec (error : String) :
    RunTriple host config k t (fun w => At t g .processing D pl w ∧ First pl w)
      (writeRunFailure config k error).run
      (fun r w => (r = .ok () ∧ Gone t g .processing w) ∨
        (∃ e, r = .error e) ∧ Stuck k t g pl w) := by
  have hof : StatusOf k (runFailure k error) := runFailure_statusOf error
  unfold writeRunFailure
  rw [← bind_assoc]
  refine RunTriple.at_publishFirst hof (fun e w h => ⟨.inr ⟨⟨_, rfl⟩, h⟩, .inr ⟨⟨_, rfl⟩, h⟩⟩) fun _ => ?_
  refine RunTriple.conseq (RunTriple.at_conclude rfl (Prog.Only.runBind (only_ask (.inr rfl))
    fun _ => trivial) fun _ => rfl) (fun w _ h => ⟨h, .inl hof.classify⟩) fun r w _ h => ?_
  refine h.imp_right fun ⟨he, hat, o, hf, ho⟩ => ⟨he, .inr ?_⟩
  exact ⟨_, runFailure k error, o, hat, rfl, hof, hf, ho⟩

theorem failRun_spec (message : String) :
    RunTriple host config k t (fun w => At t g .processing D pl w ∧ First pl w)
      (failRun config k message).run (fun r w => (∃ e, r = .error (.other e)) ∧
        (Gone t g .processing w ∨ Stuck k t g pl w)) := by
  refine RunTriple.adaptBind (M := fun _ => Gone t g .processing)
    ((writeRunFailure_spec message).weaken fun r w _ h => ?_) fun _ => ?_
  · obtain ⟨rfl, h⟩ | ⟨⟨e, rfl⟩, h⟩ := h
    · exact h
    · exact ⟨⟨e, rfl⟩, .inr h⟩
  · exact RunTriple.ret fun w _ h => ⟨⟨_, rfl⟩, .inl h⟩

/-- The end of processing: the run has left `processing`, or a failed call
stopped it there. -/
def Processed (k : RunKey) (t : Tid) (g : Grip Tid) (pl : List (RunPhase × Doc RunStatus))
    (r : Except ProcessingError Unit) (w : RunWorld Tid) : Prop :=
  (r = .ok () ∧ Gone t g .processing w) ∨
    (∃ e, r = .error (.other e)) ∧ (Gone t g .processing w ∨ Stuck k t g pl w)

instance {r : Except ProcessingError Unit} : Stable config k t (Processed k t g pl r) :=
  inferInstanceAs (Stable config k t fun w => (r = .ok () ∧ Gone t g .processing w) ∨
    (∃ e, r = .error (.other e)) ∧ (Gone t g .processing w ∨ Stuck k t g pl w))

theorem Working.createWork_stuck {w : RunWorld Tid} (h : Working t g D pl w)
    (hf : Failed g .processing pl .createWork w) : Stuck k t g pl w :=
  .inl ⟨D, _, h.1, hf, .inl rfl⟩

/-- Quiet code, with what was known before. -/
theorem RunTriple.first_quiet {α : Type} {c : Call α} (hc : Quietly (fun _ => True) c) :
    RunTriple host config k t (fun w => Working t g D pl w ∧ First pl w) c
      (fun _ w => Working t g D pl w ∧ First pl w) :=
  (RunTriple.of_quiet (hc.mono fun _ h => h.1)).frame

theorem resetWorkArea_spec {α : Type} {rest : Unit → ExceptT ProcessingError Call α}
    {Q : Except ProcessingError α → RunWorld Tid → Prop} [∀ e, Stable config k t (Q (.error e))]
    (hstuck : ∀ e w, Stuck k t g pl w → Q (.error (.other e)) w)
    (hrest : ∀ u, RunTriple host config k t (fun w => Working t g D pl w ∧ First pl w)
      (rest u).run Q) :
    RunTriple host config k t (fun w => Working t g D pl w ∧ First pl w)
      (resetWorkArea config k >>= rest).run Q := by
  unfold resetWorkArea
  rw [bind_assoc]
  refine RunTriple.liftBind (RunTriple.first_quiet (only_removeSubtree ⟨rfl, trivial⟩ ⟨rfl, trivial⟩)) fun _ => ?_
  refine RunTriple.ioBind (M := fun _ w => Working t g D pl w ∧ First pl w)
    ((RunTriple.sys_quiet (D := D) rfl).frame.weaken fun r w _ h => ?_) hrest
  obtain ⟨⟨hwork, hf⟩, hfirst⟩ := h
  cases r with
  | ok _ => exact ⟨hwork, hfirst⟩
  | error e =>
    obtain hf | ⟨_, _, _, hr⟩ := hf
    · exact hstuck _ w (hwork.createWork_stuck hf)
    · exact nomatch hr

theorem processEntries_spec (runConfig : RunConfig) (manifest : Manifest) (entry : ManifestEntry) :
    RunTriple host config k t (fun w => Working t g D pl w ∧ First pl w)
      (processEntries host config k runConfig manifest entry).run (Processed k t g pl) := by
  have hprogress : ∀ state i n current name,
      Quietly (fun _ => True) (writeProgressBestEffort config k state i n current name) :=
    fun state i n current name => writeProgressBestEffort_quiet config k state i n current name
  refine resetWorkArea_spec (fun e w h => .inr ⟨⟨e, rfl⟩, .inr h⟩) fun _ => ?_
  refine RunTriple.liftBind (RunTriple.first_quiet (hprogress _ _ _ _ _)) fun _ => ?_
  refine RunTriple.liftBind (RunTriple.first_quiet (hprogress _ _ _ _ _)) fun _ => ?_
  refine RunTriple.liftBind (RunTriple.first_quiet
    (processManifestEntry_quiet host config k entry (fun _ => trivial) 0 1 runConfig.destination)) fun outcome => ?_
  have hof : StatusOf k (entryStatus k outcome) := entryStatus_statusOf outcome
  have hend : RunTriple host config k t (fun w => Working t g D pl w ∧ First pl w)
      (do
        ExceptT.lift (writeProgressBestEffort config k "publishing_status" 0 1 "" "")
        publishEntryStatus config k outcome
        ExceptT.adapt .other (finalizeProcessingRun config k outcome.state) :
          ExceptT ProcessingError Call Unit).run (Processed k t g pl) := by
    refine RunTriple.liftBind (RunTriple.first_quiet (hprogress _ _ _ _ _)) fun _ => ?_
    refine RunTriple.strengthen (RunTriple.at_publishFirst hof ?_ fun _ => ?_)
      fun w _ h => ⟨h.1.1, h.2⟩
    · exact fun e w h => ⟨.inr ⟨⟨_, rfl⟩, .inr h⟩, .inr ⟨⟨_, rfl⟩, .inr h⟩⟩
    · refine RunTriple.runAdapt ((finalizeProcessingRun_spec rfl hof.classify).weaken
        fun r w _ h => ?_)
      obtain ⟨rfl, h⟩ | ⟨⟨e, rfl⟩, hat, o, hf, ho⟩ := h
      · exact .inl ⟨rfl, h⟩
      · exact .inr ⟨⟨e, rfl⟩, .inr (.inr ⟨_, entryStatus k outcome, o, hat, rfl, hof, hf, ho⟩)⟩
  split
  · exact RunTriple.liftBind (RunTriple.first_quiet (only_removeSubtree ⟨rfl, trivial⟩ ⟨rfl, trivial⟩)) fun _ => hend
  · exact hend

theorem validateTransformRun_entries {manifest : Manifest} {runConfig : RunConfig}
    (h : validateTransformRun config manifest runConfig = .ok ()) :
    manifest.entries.length = 1 := by
  unfold validateTransformRun at h
  split at h
  · exact nomatch h
  · split at h
    · exact nomatch h
    · rename_i hne
      exact not_not.1 hne

/-- Processing under the lock: the inputs are valid, since the run was claimed. -/
theorem processProcessingRun_spec :
    RunTriple host config k t (fun w => Working t g D pl w ∧ First pl w)
      (processProcessingRun host config k).run (Processed k t g pl) := by
  refine RunTriple.liftBind (M := fun r w => (Working t g D pl w ∧ First pl w) ∧
    ((∃ x, r = .ok x) ∨ ∃ e, r = .error (.other e)))
    ((readCompatibleRunInputs_spec (D := D) (Shows.of_dir fun w hw h => h.1.1.dir)).weaken
      fun r w hw h => ⟨h.1, ?_⟩) fun r => ?_
  · obtain hr | ⟨he, _⟩ := h.2
    · have hat := h.1.1.1
      obtain ht | ⟨x, hx⟩ := hw.inputs D hat.dir
      · exact absurd (ht.symm.trans (hat.untouched hw)) (by simp)
      · exact .inl ⟨x, hr.trans hx⟩
    · exact .inr he
  refine RunTriple.strengthen (RunTriple.pure_pre fun hr => ?_) fun w _ h => h.symm
  have hfail : ∀ message, RunTriple host config k t (fun w => Working t g D pl w ∧ First pl w)
      (failRun config k message).run (Processed k t g pl) := fun message =>
    (failRun_spec message).conseq (fun w _ h => ⟨h.1.1, h.2⟩) fun r w _ h => .inr h
  obtain ⟨⟨runConfig, manifest⟩, rfl⟩ | ⟨e, rfl⟩ := hr
  · cases hv : validateTransformRun config manifest runConfig with
    | error e =>
      simp only [hv]
      exact hfail e
    | ok u =>
      have hlen := validateTransformRun_entries hv
      cases he : manifest.entries with
      | nil => simp [he] at hlen
      | cons entry rest =>
        simp only [hv, he]
        exact processEntries_spec runConfig manifest entry
  · exact hfail e

end Purgery.Server
