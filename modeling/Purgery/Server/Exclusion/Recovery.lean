import Purgery.Server.Exclusion.Locks
import Purgery.Server.Exclusion.Processing

namespace Purgery.Server

open Purgery.Interleaving

variable {Tid : Type} [DecidableEq Tid]
variable {host : Host} {config : ServerConfig} {k : RunKey} {t : Tid} {g : Grip Tid}
variable {ph : RunPhase} {D : CoreDir} {pl : List (RunPhase × Doc RunStatus)}
variable {w : RunWorld Tid} {I : RunWorld Tid → Prop}

theorem Gone.dirs_none (h : Gone t g ph w) {ph' : RunPhase} (hle : ph'.rank ≤ ph.rank) :
    w.dirs ph' = none := RunWorld.dirs_view (h.past ph' hle)

section Absent

variable [hI : Stable config k t I]

/-- Nothing is written into a directory that is not there. -/
theorem writeFile_absent {f : FileName} {doc : Doc f.Content}
    (hnone : ∀ w, w.view.Inv config k → I w → w.dirs ph = none) :
    RunTriple host config k t I (writeFile ph f doc) (fun r w => I w ∧ ∃ e, r = .error e) := by
  refine RunTriple.bind (RunTriple.sys_absent (e := .notFound) (fun w hw hI' x now => ?_) nofun
    nofun) fun r => ?_
  · simp [RunOp.run, hnone w hw hI', RunOp.failed]
  · refine RunTriple.strengthen (RunTriple.pure_pre ?_) fun w _ h => ⟨h.2, h.1⟩
    rintro ⟨e, rfl⟩
    exact RunTriple.ret fun w _ h => ⟨h, e, rfl⟩

theorem writeFile_absent_bind {ε α : Type} {f : FileName} {doc : Doc f.Content} {d : IoError → ε}
    {rest : Unit → ExceptT ε Call α} (hnone : ∀ w, w.view.Inv config k → I w → w.dirs ph = none) :
    RunTriple host config k t I (io (writeFile ph f doc) d >>= rest).run
      (fun r w => I w ∧ ∃ e, r = .error (d e)) := by
  refine RunTriple.ioBind (M := fun _ _ => False) ((writeFile_absent hnone).weaken
    fun r w _ h => ?_) fun _ => ?_
  · obtain ⟨hI', e, rfl⟩ := h
    exact ⟨hI', e, rfl⟩
  · exact fun _ _ h => h.elim

theorem writeRunFailure_absent (error : String)
    (hnone : ∀ w, w.view.Inv config k → I w → w.dirs .processing = none) :
    RunTriple host config k t I (writeRunFailure config k error).run
      (fun r w => I w ∧ ∃ e, r = .error e) :=
  (writeFile_absent_bind hnone).weaken fun _ _ _ ⟨h, _, hr⟩ => ⟨h, _, hr⟩

theorem failRun_absent (message : String)
    (hnone : ∀ w, w.view.Inv config k → I w → w.dirs .processing = none) :
    RunTriple host config k t I (failRun config k message).run
      (fun r w => I w ∧ ∃ e, r = .error (.other e)) := by
  refine RunTriple.adaptBind (M := fun _ _ => False) ((writeRunFailure_absent message hnone).weaken
    fun r w _ h => ?_) fun _ => ?_
  · obtain ⟨hI', e, rfl⟩ := h
    exact ⟨hI', e, rfl⟩
  · exact fun _ _ h => h.elim

theorem processProcessingRun_absent
    (hnone : ∀ w, w.view.Inv config k → I w → w.dirs .processing = none) :
    RunTriple host config k t I (processProcessingRun host config k).run
      (fun r w => I w ∧ ∃ e, r = .error (.other e)) := by
  obtain ⟨e₀, he₀⟩ := CoreDir.absent_inputs config k .processing
  refine RunTriple.liftBind (M := fun r w => I w ∧ ∃ e, r = .error (.other e))
    ((readCompatibleRunInputs_spec (Shows.of_none hnone)).weaken fun r w _ h => ⟨h.1, ?_⟩) fun r => ?_
  · obtain h | h := h.2
    · exact ⟨e₀, h.trans he₀⟩
    · exact h.1
  · refine RunTriple.strengthen (RunTriple.pure_pre ?_) fun w _ h => ⟨h.2, h.1⟩
    rintro ⟨e, rfl⟩
    exact failRun_absent e hnone

/-- A directory that is not there is not found. -/
theorem dirExists_absent (hnone : ∀ w, w.view.Inv config k → I w → w.dirs ph = none) :
    RunTriple host config k t I (sys (.dirExists ph)) (fun r w => r = false ∧ I w) := by
  refine (RunTriple.sys_idle rfl).weaken fun r w _ h => ⟨?_, h.1⟩
  obtain ⟨⟨m, hr⟩, _⟩ | ⟨w₀, _, _, hw₀, hI', hr⟩ := h.2
  · exact hr
  · rw [hr]
    simp [RunOp.run, hnone w₀ hw₀ hI']

end Absent

/-- What is left of a recovery that failed: the run is gone, or a failure may
still be published. -/
def Fallen (t : Tid) (g : Grip Tid) (w : RunWorld Tid) : Prop :=
  Gone t g .processing w ∨ ∃ D pl, At t g .processing D pl w ∧ First pl w

instance : Stable config k t (Fallen t g) :=
  inferInstanceAs (Stable config k t fun w => Gone t g .processing w ∨
    ∃ D pl, At t g .processing D pl w ∧ First pl w)

theorem Fallen.session (h : Fallen t g w) : w.view.Session t g := by
  obtain h | ⟨_, _, h, _⟩ := h
  · exact h.session
  · exact h.session

/-- A recovery keeps the lock, and can publish the failure it reports. -/
def Recovered (t : Tid) (g : Grip Tid) (r : Except RecoveryError Unit) (w : RunWorld Tid) : Prop :=
  w.view.Session t g ∧ ((∃ m, r = .error (.other m)) → Fallen t g w)

instance {r : Except RecoveryError Unit} : Stable config k t (Recovered t g r) :=
  inferInstanceAs (Stable config k t fun w => w.view.Session t g ∧
    ((∃ m, r = .error (.other m)) → Fallen t g w))

theorem Fallen.recovered {r : Except RecoveryError Unit} (h : Fallen t g w) : Recovered t g r w :=
  ⟨h.session, fun _ => h⟩

/-- Recovery leaves a run with this status in place. -/
def barred (config : ServerConfig) (k : RunKey) : FileState .status → Bool
  | .text doc =>
    match classifyStatus config k doc with
    | .incompatible _ => true
    | _ => false
  | _ => false

/-- Unless a call has failed, a recovery leaves the run in place only for its
status, and has moved it on when it is done. -/
def Decided (config : ServerConfig) (k : RunKey) (t : Tid) (g : Grip Tid) (s : FileState .status)
    (r : Except RecoveryError Unit) (w : RunWorld Tid) : Prop :=
  w.faults ≠ [] ∨ ((∃ m, r = .error (.incompatibleStatus m)) ↔ barred config k s = true) ∧
    (r = .ok () → Gone t g .processing w)

instance {s : FileState .status} {r : Except RecoveryError Unit} :
    Stable config k t (Decided config k t g s r) :=
  inferInstanceAs (Stable config k t fun w => w.faults ≠ [] ∨
    ((∃ m, r = .error (.incompatibleStatus m)) ↔ barred config k s = true) ∧
      (r = .ok () → Gone t g .processing w))

theorem Decided.of_not_barred {s : FileState .status} {r : Except RecoveryError Unit}
    (hs : barred config k s = false) (hr : ∀ m, r ≠ .error (.incompatibleStatus m))
    (h : r = .ok () → Gone t g .processing w) : Decided config k t g s r w := by
  refine .inr ⟨iff_of_false (fun ⟨m, hm⟩ => hr m hm) ?_, h⟩
  simp [hs]

theorem Stuck.session (h : Stuck k t g pl w) : w.view.Session t g := by
  obtain ⟨_, _, h, _⟩ | ⟨_, _, _, h, _⟩ := h
  · exact h.session
  · exact h.session

theorem Stuck.fallen (h : Stuck k t g pl w) (hvia : g.via = .processing) (hfirst : First pl w) :
    Fallen t g w := .inr (h.recovering hvia hfirst)

/-- A call of a recovery failed: if a status is published, the recovery is
spoilt. -/
theorem First.of_failed {o : RunOp} (hvia : g.via = .processing) (h : Failed g .processing pl o w)
    (ho : o = .read .processing .lease ∨ o = .read .processing .status ∨
      o = .createParent .done ∨ o = .createParent .failed ∨ o = .move .processing .done ∨
      o = .move .processing .failed) : First pl w := by
  obtain ⟨f, hf, rfl, hg, hl, hp⟩ := h
  by_cases hany : (pl.any fun p => p.1 == .processing) = true
  · refine .inr ⟨f, hf, ?_⟩
    rw [hany] at hp
    simp only [Fault.spoilsRecovery, hp, hg, hvia, Option.any_some, beq_self_eq_true,
      Bool.true_and]
    obtain h | h | h | h | h | h := ho <;> simp [h]
  · refine .inl fun doc hdoc => hany ?_
    simp only [List.any_eq_true]
    exact ⟨_, hdoc, rfl⟩

/-- Unless a recovery was spoilt, a published status is the one that is read. -/
theorem At.first (h : At t g .processing D pl w) (hw : w.view.Inv config k)
    (hne : ∀ st, StatusOf k st → D.status ≠ .text (Doc.ofValue st)) : First pl w := by
  by_cases hspoilt : w.view.RecoverySpoilt
  · exact .inr hspoilt
  · refine .inl fun doc hdoc => ?_
    have hpub : w.view.PublishedInProcessing doc := by
      rw [View.PublishedInProcessing, show w.view.published = pl from h.published]
      exact hdoc
    obtain ⟨st, rfl, hversion, hn, hr⟩ := hw.publishedValid doc hpub
    obtain ⟨_, hs⟩ | ht | hs := hw.final _ _ D hpub h.dir
    · exact hne st ⟨hversion, by simp [RunStatus.key, hn, hr]⟩ hs
    · exact absurd (ht.symm.trans (h.untouched hw)) (by simp)
    · exact hspoilt hs

theorem At.clean (h : At t g .processing D pl w) (hw : w.view.Inv config k)
    (hmissing : D.status = .missing) : Clean pl w := by
  by_cases hf : w.faults = []
  · refine .inr ?_
    by_contra hp
    have hpub : w.view.published ≠ [] := by
      rw [show w.view.published = pl from h.published]
      exact hp
    obtain ht | hs := (hw.unstarted hf hpub).2 D h.dir
    · exact absurd (ht.symm.trans (h.untouched hw)) (by simp)
    · exact hs hmissing
  · exact .inl hf

theorem Processed.recovered {r : Except ProcessingError Unit} (h : Processed k t g pl r w)
    (hvia : g.via = .processing) (hfirst : First pl w) : Fallen t g w := by
  obtain ⟨_, h⟩ | ⟨_, h | h⟩ := h
  · exact .inl h
  · exact .inl h
  · exact h.fallen hvia hfirst

theorem CoreDir.inputs_lease {x : RunConfig × Manifest} (h : D.inputs config k ph = .ok x) :
    checkLease config k ph D.lease.read = .ok () := by
  unfold CoreDir.inputs at h
  cases hl : checkLease config k ph D.lease.read with
  | ok _ => rfl
  | error e => simp [hl, bind, Except.bind] at h

theorem At.lease (h : At t g .processing D pl w) (hw : w.view.Inv config k) :
    checkLease config k .processing D.lease.read = .ok () := by
  obtain ht | ⟨x, hx⟩ := hw.inputs D h.dir
  · exact absurd (ht.symm.trans (h.untouched hw)) (by simp)
  · exact CoreDir.inputs_lease hx

/-- The text of a status is taken for what it says, or replaced. -/
theorem recoverText_spec (hvia : g.via = .processing) {d : Doc RunStatus} (hd : D.status = .text d) :
    RunTriple host config k t (At t g .processing D pl)
      (match classifyStatus config k d with
        | .incompatible message => throw (.incompatibleStatus message)
        | .replace message => ExceptT.adapt .other (writeRunFailure config k message)
        | .finalize state => ExceptT.adapt .other (finalizeProcessingRun config k state) :
          ExceptT RecoveryError Call Unit).run
      (fun r w => Recovered t g r w ∧ Decided config k t g (.text d) r w) := by
  cases hc : classifyStatus config k d with
  | incompatible message =>
    refine RunTriple.ret fun w _ h => ⟨⟨h.session, fun ⟨_, hm⟩ => nomatch hm⟩, .inr ⟨?_, nofun⟩⟩
    exact iff_of_true ⟨message, rfl⟩ (by simp [barred, hc])
  | replace message =>
    have hs : barred config k (.text d) = false := by simp [barred, hc]
    refine RunTriple.strengthen (RunTriple.runAdapt (((writeRunFailure_spec message).frame
      (J := First pl)).weaken fun r w _ h => ?_)) fun w hw h => ⟨⟨h, ?_⟩, ?_⟩
    · obtain ⟨⟨rfl, h⟩ | ⟨⟨e, rfl⟩, h⟩, hfirst⟩ := h
      · exact ⟨Fallen.recovered (.inl h), .of_not_barred hs nofun fun _ => h⟩
      · exact ⟨Fallen.recovered (h.fallen hvia hfirst), .of_not_barred hs nofun nofun⟩
    all_goals
      refine h.first hw fun st hst hs => ?_
      rw [hd] at hs
      cases hs
      exact absurd (hst.finalize.symm.trans hc) (by simp)
  | finalize state =>
    have hs : barred config k (.text d) = false := by simp [barred, hc]
    refine RunTriple.runAdapt ((finalizeProcessingRun_spec hd (classifyStatus_finalize hc)).weaken
      fun r w _ h => ?_)
    obtain ⟨rfl, h⟩ | ⟨⟨e, rfl⟩, hat, o, hf, ho⟩ := h
    · exact ⟨Fallen.recovered (.inl h), .of_not_barred hs nofun fun _ => h⟩
    · refine ⟨Fallen.recovered (.inr ⟨D, pl, hat, First.of_failed hvia hf ?_⟩),
        .of_not_barred hs nofun nofun⟩
      cases state <;> simp only [RunState.phase] at ho <;> tauto

theorem recoverOrProcessProcessingRun_spec (hvia : g.via = .processing) :
    RunTriple host config k t (At t g .processing D pl)
      (recoverOrProcessProcessingRun host config k).run
      (fun r w => Recovered t g r w ∧ Decided config k t g D.status r w) := by
  refine RunTriple.adaptBind (M := fun _ => At t g .processing D pl)
    ((validateRunLeaseProtocol_spec (D := D) fun w _ h =>
      RunWorld.look_view h.dir fun d hd => by rw [← hd]; rfl).weaken fun r w hw h => ?_) fun _ => ?_
  · cases r with
    | ok _ => exact h.1
    | error e =>
      obtain ⟨hat, h | ⟨⟨e', he⟩, hr⟩⟩ := h
      · exact absurd ((hat.lease hw).symm.trans h.symm) (by simp)
      · exact ⟨Fallen.recovered (.inr ⟨D, pl, hat, First.of_failed hvia hr.failed (.inl rfl)⟩),
          .inl hr.faults⟩
  refine RunTriple.askBind (M := fun (c : Except IoError (Doc RunStatus)) w =>
    (c = D.status.read ∧ At t g .processing D pl w) ∨
    (∃ m, c = .error (.other m)) ∧ At t g .processing D pl w ∧ First pl w ∧ w.faults ≠ [])
    ((RunTriple.sys_read (v := D.status.read) fun w _ h =>
      RunWorld.look_view h.dir fun d hd => by rw [← hd]; rfl).weaken fun r w _ h => ?_) fun c => ?_
  · obtain ⟨hat, h | ⟨hm, hr⟩⟩ := h
    · exact .inl ⟨h, hat⟩
    · exact .inr ⟨hm, hat, First.of_failed hvia hr.failed (.inr (.inl rfl)), hr.faults⟩
  refine RunTriple.or_pre ?_ ?_
  · refine RunTriple.pure_pre ?_
    rintro rfl
    cases hs : D.status with
    | missing =>
      refine RunTriple.strengthen (RunTriple.runAdapt (((processProcessingRun_spec (D := D)).frame
        (J := First pl)).weaken fun r w _ h => ⟨Fallen.recovered (h.1.recovered hvia h.2), ?_⟩))
        fun w hw h => ?_
      · obtain ⟨⟨rfl, hgone⟩ | ⟨⟨e, rfl⟩, -⟩, -⟩ := h
        · exact .of_not_barred rfl nofun fun _ => hgone
        · exact .of_not_barred rfl nofun nofun
      · have hfirst : First pl w := h.first hw fun _ _ hst => nomatch hs.symm.trans hst
        exact ⟨⟨⟨h, h.clean hw hs⟩, hfirst⟩, hfirst⟩
    | unreadable m =>
      refine RunTriple.ret fun w hw h =>
        ⟨Fallen.recovered (.inr ⟨D, pl, h, ?_⟩), .of_not_barred rfl nofun nofun⟩
      exact h.first hw fun _ _ hst => nomatch hs.symm.trans hst
    | text d => exact recoverText_spec hvia hs
  · refine RunTriple.pure_pre ?_
    rintro ⟨m, rfl⟩
    exact RunTriple.ret fun w _ h =>
      ⟨Fallen.recovered (.inr ⟨D, pl, h.1, h.2.1⟩), .inl h.2.2⟩

theorem recoverOrProcessProcessingRun_gone :
    RunTriple host config k t (Gone t g .processing)
      (recoverOrProcessProcessingRun host config k).run
      (fun r w => Recovered t g r w ∧ Decided config k t g .missing r w) := by
  have hnone : ∀ w : RunWorld Tid, w.view.Inv config k → Gone t g .processing w →
      w.dirs .processing = none := fun w _ h => h.dirs_none (le_refl _)
  refine RunTriple.adaptBind (M := fun _ => Gone t g .processing)
    ((validateRunLeaseProtocol_spec (D := CoreDir.absent) fun w hw h =>
      RunWorld.look_none (hnone w hw h)).weaken fun r w _ h => ?_) fun _ => ?_
  · cases r with
    | ok _ => exact h.1
    | error e =>
      obtain ⟨hgone, h | ⟨-, hr⟩⟩ := h
      · exact nomatch h
      · exact ⟨Fallen.recovered (.inl hgone), .inl hr.faults⟩
  refine RunTriple.askBind (M := fun (c : Except IoError (Doc RunStatus)) w =>
    Gone t g .processing w ∧ (c = .error .notFound ∨ ∃ m, c = .error (.other m)))
    ((RunTriple.sys_read fun w hw h => RunWorld.look_none (hnone w hw h)).weaken
      fun r w _ h => ⟨h.1, h.2.imp_right And.left⟩) fun c => ?_
  refine RunTriple.strengthen (RunTriple.pure_pre ?_) fun w _ h => ⟨h.2, h.1⟩
  rintro (rfl | ⟨m, rfl⟩)
  · refine RunTriple.runAdapt ((processProcessingRun_absent hnone).weaken fun r w _ h => ?_)
    obtain ⟨hgone, e, rfl⟩ := h
    exact ⟨Fallen.recovered (.inl hgone), .of_not_barred rfl nofun nofun⟩
  · exact RunTriple.ret fun w _ h => ⟨Fallen.recovered (.inl h), .of_not_barred rfl nofun nofun⟩

/-- The failure of a recovery is published, if the run is still there. -/
theorem publishRecoveryFailure_spec (error : String) :
    RunTriple host config k t (Fallen t g) (publishRecoveryFailure config k error)
      (fun r w => w.view.Session t g ∧
        (w.faults ≠ [] ∨ r = .failedPublished error ∧ Gone t g .processing w)) := by
  refine RunTriple.or_pre ?_ (RunTriple.exists_pre fun D => RunTriple.exists_pre fun pl => ?_)
  · refine RunTriple.bind (dirExists_absent fun w _ h => h.dirs_none (le_refl _)) fun found => ?_
    refine RunTriple.pure_pre ?_
    rintro rfl
    exact RunTriple.ret fun w _ h => ⟨h.session, .inr ⟨rfl, h⟩⟩
  · refine RunTriple.bind (M := fun found w => (At t g .processing D pl w ∧ First pl w) ∧
      (found = false → w.faults ≠ []))
      ((RunTriple.sys_idle rfl).weaken fun r w _ h => ⟨h.1, ?_⟩) fun found => ?_
    · rintro rfl
      obtain ⟨-, hr⟩ | ⟨w₀, x, now, -, ⟨hat, -⟩, hr⟩ := h.2
      · exact hr.faults
      · obtain ⟨d, hd, -⟩ := hat.exists_dir
        simp [RunOp.run, hd] at hr
    split
    · refine RunTriple.bind (M := fun r w => w.view.Session t g ∧
        (w.faults ≠ [] ∨ r = .ok () ∧ Gone t g .processing w))
        ((writeRunFailure_spec _).conseq (fun w _ h => h.1) fun r w _ h => ?_) fun r => ?_
      · obtain h | ⟨-, h⟩ := h
        · exact ⟨h.2.session, .inr h⟩
        · exact ⟨h.session, .inl h.faults⟩
      · cases r with
        | ok _ => exact RunTriple.ret fun w _ h => ⟨h.1, h.2.imp_right fun h => ⟨rfl, h.2⟩⟩
        | error e =>
          exact RunTriple.ret fun w _ h => ⟨h.1, h.2.imp_right fun h => by cases h.1⟩
    · exact RunTriple.ret fun w _ h => ⟨h.1.1.session, .inl (h.2 (by simp_all))⟩

/-- What a recovery answers, unless a call has failed. -/
def Resolved (config : ServerConfig) (k : RunKey) (t : Tid) (g : Grip Tid) (s : FileState .status)
    (r : ProcessingTargetOutcome) (w : RunWorld Tid) : Prop :=
  w.faults ≠ [] ∨ ((∃ m, r = .incompatible m) ∧ barred config k s = true) ∨
    (r = .recovered ∨ ∃ e, r = .failedPublished e) ∧ barred config k s = false ∧
      Gone t g .processing w

instance {s : FileState .status} {r : ProcessingTargetOutcome} :
    Stable config k t (Resolved config k t g s r) :=
  inferInstanceAs (Stable config k t fun w => w.faults ≠ [] ∨
    ((∃ m, r = .incompatible m) ∧ barred config k s = true) ∨
      (r = .recovered ∨ ∃ e, r = .failedPublished e) ∧ barred config k s = false ∧
        Gone t g .processing w)

theorem resolve_spec {s : FileState .status} :
    ∀ r, RunTriple host config k t
      (fun w => Recovered t g r w ∧ Decided config k t g s r w)
      (match r with
        | .ok _ => return .recovered
        | .error (.incompatibleStatus message) => return .incompatible message
        | .error (.other recoveryError) => publishRecoveryFailure config k recoveryError)
      (fun r w => w.view.Session t g ∧ Resolved config k t g s r w) := by
  intro r
  match r with
  | .ok () =>
    refine RunTriple.ret fun w _ ⟨h, hdecided⟩ => ⟨h.1, hdecided.imp_right fun ⟨hs, hgone⟩ => .inr ?_⟩
    exact ⟨.inl rfl, by simpa using hs, hgone rfl⟩
  | .error (.incompatibleStatus message) =>
    refine RunTriple.ret fun w _ ⟨h, hdecided⟩ => ⟨h.1, hdecided.imp_right fun ⟨hs, _⟩ => .inl ?_⟩
    exact ⟨⟨message, rfl⟩, hs.1 ⟨message, rfl⟩⟩
  | .error (.other e) =>
    refine (publishRecoveryFailure_spec e).frame (J := fun w => w.faults ≠ [] ∨ barred config k s = false)
      |>.conseq (fun w _ ⟨h, hdecided⟩ => ⟨h.2 ⟨_, rfl⟩, hdecided.imp_right fun ⟨hs, _⟩ => ?_⟩)
        fun r w _ ⟨⟨hsession, h⟩, hs⟩ => ⟨hsession, ?_⟩
    · simpa using hs
    · obtain h | ⟨rfl, hgone⟩ := h
      · exact .inl h
      · exact hs.imp_right fun hs => .inr ⟨.inr ⟨_, rfl⟩, hs, hgone⟩

theorem recoverLocked_at (hvia : g.via = .processing) :
    RunTriple host config k t (At t g .processing D pl) (recoverLocked host config k)
      (fun r w => w.view.Session t g ∧ Resolved config k t g D.status r w) :=
  RunTriple.bind (recoverOrProcessProcessingRun_spec hvia) resolve_spec

theorem recoverLocked_gone :
    RunTriple host config k t (Gone t g .processing) (recoverLocked host config k)
      (fun r w => w.view.Session t g ∧ Resolved config k t g .missing r w) :=
  RunTriple.bind recoverOrProcessProcessingRun_gone resolve_spec

theorem recoverLocked_spec (hvia : g.via = .processing) :
    RunTriple host config k t (Owns t g .processing) (recoverLocked host config k)
      (fun _ w => w.view.Session t g) :=
  RunTriple.or_pre
    (RunTriple.exists_pre fun _ => RunTriple.exists_pre fun _ =>
      (recoverLocked_at hvia).weaken fun _ _ _ h => h.1)
    (recoverLocked_gone.weaken fun _ _ _ h => h.1)

/-- A recovery leaves no lock behind. -/
theorem recoverProcessingRunIfUnlocked_spec :
    RunTriple host config k t (Idle t) (recoverProcessingRunIfUnlocked host config k).run
      (fun _ => Idle t) := by
  refine RunTriple.askBind (M := fun _ => Idle t)
    ((RunTriple.sys_idle rfl).weaken fun _ _ _ h => h.1) fun found => ?_
  split
  · exact RunTriple.ret fun w _ h => h
  refine RunTriple.liftBind (tryLockExistingDir_spec rfl) fun r => RunTriple.or_pre ?_ ?_
  · refine RunTriple.exists_pre fun g => RunTriple.pure_pre ?_
    rintro rfl
    refine RunTriple.pure_pre fun hvia => ?_
    refine RunTriple.liftBind (recoverLocked_spec hvia) fun outcome => ?_
    exact RunTriple.askBind RunTriple.close fun _ => RunTriple.ret fun w _ h => h
  · refine RunTriple.pure_pre fun hne => ?_
    split
    · exact RunTriple.ret fun w _ h => h
    · exact RunTriple.ret fun w _ h => h
    · exact RunTriple.ret fun w _ h => h
    · exact absurd rfl (hne _)

end Purgery.Server
