import Purgery.Server.Exclusion.InputCalls

namespace Purgery.Server

open Purgery.Interleaving

section Core

def CoreDir.put (D : CoreDir) (s : FileState .status) (tmp : FileState .status) : CoreDir :=
  { D with status := s, statusTmp := tmp }

variable {D : CoreDir} {s s' tmp tmp' : FileState .status}

@[simp] theorem CoreDir.put_put : (D.put s tmp).put s' tmp' = D.put s' tmp' := rfl

@[simp] theorem CoreDir.put_self : D.put D.status D.statusTmp = D := rfl

@[simp] theorem CoreDir.put_id : (D.put s tmp).id = D.id := rfl

@[simp] theorem CoreDir.put_lock : (D.put s tmp).lock = D.lock := rfl

@[simp] theorem CoreDir.put_touched : (D.put s tmp).touched = D.touched := rfl

@[simp] theorem CoreDir.put_status : (D.put s tmp).status = s := rfl

@[simp] theorem CoreDir.put_statusTmp : (D.put s tmp).statusTmp = tmp := rfl

@[simp] theorem CoreDir.put_inputs (config : ServerConfig) (k : RunKey) (ph : RunPhase) :
    (D.put s tmp).inputs config k ph = D.inputs config k ph := rfl

/-- The calls that write the status file at a phase. -/
def RunOp.writesStatus (ph : RunPhase) : RunOp → Bool
  | .openTmp ph' .status => ph' == ph
  | .writeTmp _ .status _ => true
  | .publish ph' .status => ph' == ph
  | _ => false

theorem RunOp.writesStatus_cases {o : RunOp} {ph : RunPhase} (h : o.writesStatus ph = true) :
    o = .openTmp ph .status ∨ (∃ dir doc, o = .writeTmp dir .status doc) ∨
      o = .publish ph .status := by
  cases o with
  | openTmp ph' f =>
    cases f with
    | status => exact .inl (by simpa [RunOp.writesStatus] using h)
    | _ => simp [RunOp.writesStatus] at h
  | writeTmp dir f doc =>
    cases f with
    | status => exact .inr (.inl ⟨dir, doc, rfl⟩)
    | _ => simp [RunOp.writesStatus] at h
  | publish ph' f =>
    cases f with
    | status => exact .inr (.inr (by simpa [RunOp.writesStatus] using h))
    | _ => simp [RunOp.writesStatus] at h
  | _ => simp [RunOp.writesStatus] at h

theorem RunDir.core_openTmp_status (d : RunDir) (torn : Except String (Doc RunStatus))
    (now : Nat) :
    (d.openTmp .status torn now).core = d.core.put d.core.status (FileState.ofTorn torn) := by
  unfold RunDir.openTmp
  split <;> rfl

theorem RunDir.core_publish_status (d : RunDir) (now : Nat) :
    (d.publish .status now).core = d.core.put d.core.statusTmp .missing := rfl

variable {Tid : Type}

theorem RunWorld.setDir_view (w : RunWorld Tid) (ph : RunPhase) (d : Option RunDir) :
    (w.setDir ph d).view = w.view.setDir ph (d.map RunDir.core) := by
  have h : (w.setDir ph d).view.dirs = (w.view.setDir ph (d.map RunDir.core)).dirs := by
    funext ph'
    by_cases hne : ph' = ph
    · subst hne
      simp [RunWorld.view, RunWorld.setDir, View.setDir]
    · simp [RunWorld.view, RunWorld.setDir, View.setDir, hne]
  unfold RunWorld.view View.setDir at h ⊢
  simpa [RunWorld.setDir] using h

theorem RunWorld.move_view (w : RunWorld Tid) {src : RunPhase} {d : RunDir}
    (hd : w.dirs src = some d) (dst : RunPhase) :
    ((w.setDir src none).setDir dst (some d)).view = w.view.move src dst := by
  have h : w.view.dirs src = some d.core := by simp [RunWorld.view, hd]
  rw [RunWorld.setDir_view, RunWorld.setDir_view, View.move, h]
  rfl

end Core

variable {Tid : Type} [DecidableEq Tid]
variable {host : Host} {config : ServerConfig} {k : RunKey} {t : Tid} {g : Grip Tid}
variable {ph : RunPhase} {D : CoreDir} {pl : List (RunPhase × Doc RunStatus)}
variable {w w' : RunWorld Tid} {o : RunOp}

namespace At

theorem phaseOf (h : At t g ph D pl w) (hw : w.view.Inv config k) :
    w.phaseOf D.id = some ph := by
  obtain ⟨d, hd, hcore⟩ := h.exists_dir
  have hid : d.id = D.id := by rw [← hcore]; rfl
  have hn : ∀ ph', ph' ≠ ph → w.dirs ph' = none := fun ph' hne => h.dirs_none hw hne
  obtain rfl | rfl := RunPhase.queued_cases h.queued
  · simp [RunWorld.phaseOf, allPhases, hd, hid, hn .incoming (by decide)]
  · simp [RunWorld.phaseOf, allPhases, hd, hid, hn .incoming (by decide), hn .ready (by decide)]

/-- The holder changes the status files. -/
theorem put (h : At t g ph D pl w) (hw : w.view.Inv config k) {s tmp : FileState .status}
    (hview : w'.view = w.view.setDir ph (some (D.put s tmp)))
    (hstatus : 2 ≤ ph.rank → s = D.status) (hremoves : o.removes = false)
    (hspawn : ∀ c, o ≠ .spawn c) :
    Guar t o true w w' ∧ w'.view.Inv config k ∧ At t g ph (D.put s tmp) pl w' := by
  have hl : w'.locks = w.locks := congrArg View.locks hview
  have hp : w'.pass = w.pass := congrArg View.pass hview
  have hf : w'.faults = w.faults := congrArg View.faults hview
  have hi : w'.nextIno = w.nextIno := congrArg View.nextIno hview
  have hpub : w'.published = w.published := congrArg View.published hview
  refine ⟨h.guar hw (h.others hw hl hp hf hi fun ph' hpast => ?_) hremoves
    (fun c hc => absurd hc (hspawn c)), ?_, ?_⟩
  · rw [hview]
    exact hpast.setDir h.dir
  · rw [hview]
    exact hw.update h.dir (.inl rfl) rfl (fun _ _ => rfl) hstatus
  · refine ⟨⟨hl.trans h.session.locks, h.session.tid, ?_⟩, h.fresh, h.queued, ?_,
      hpub.trans h.published⟩
    · rw [hview]
      exact h.session.idle
    · rw [hview]
      exact View.setDir_same

end At

/-- No status was published in `processing`. -/
def Unpublished (pl : List (RunPhase × Doc RunStatus)) : Prop :=
  ∀ doc, (RunPhase.processing, doc) ∉ pl

/-- The holder may publish the status: the failure of malformed inputs in
`ready`, or the first status in `processing`. -/
def Publishable (config : ServerConfig) (k : RunKey) (ph : RunPhase) (D : CoreDir)
    (pl : List (RunPhase × Doc RunStatus)) (st : RunStatus) (w : RunWorld Tid) : Prop :=
  (ph = .ready ∧ (w.faults ≠ [] ∨ ∃ e, D.inputs config k .ready = .error (.other e))) ∨
  (ph = .processing ∧ st.purgeryVersion = currentPurgeryVersion ∧ st.key = k) ∧
    (Unpublished pl ∨ w.view.RecoverySpoilt)

instance {st : RunStatus} : Lasting (Publishable config k ph D pl st : RunWorld Tid → Prop) :=
  inferInstanceAs (Lasting fun w =>
    (ph = .ready ∧ (w.faults ≠ [] ∨ ∃ e, D.inputs config k .ready = .error (.other e))) ∨
    (ph = .processing ∧ st.purgeryVersion = currentPurgeryVersion ∧ st.key = k) ∧
      (Unpublished pl ∨ w.view.RecoverySpoilt))

instance {st : RunStatus} : Stable config k t (Publishable config k ph D pl st) :=
  Lasting.stable inferInstance

theorem Publishable.inv {st : RunStatus} (h : Publishable config k ph D pl st w)
    (hw : w.view.Inv config k) (hat : At t g ph D pl w) :
    ((w.view.setDir ph (some (D.put (.text (Doc.ofValue st)) .missing))).note ph
      (Doc.ofValue st)).Inv config k := by
  obtain ⟨rfl, he⟩ | ⟨⟨rfl, hversion, hkey⟩, hfirst⟩ := h
  · have hu : (w.view.setDir .ready (some (D.put (.text (Doc.ofValue st)) .missing))).Inv config k :=
      hw.update hat.dir (.inl rfl) rfl (fun _ _ => rfl) fun h => absurd h (by decide)
    exact hu.note_ready View.setDir_same _ fun hf => he.resolve_left (absurd hf)
  · refine hw.publish hat.dir st rfl rfl (fun _ => rfl) rfl hversion hkey (hfirst.imp_left ?_)
    intro hn doc hdoc
    rw [View.PublishedInProcessing, show w.view.published = pl from hat.published] at hdoc
    exact hn doc hdoc

namespace RunTriple

/-- The temporary status file of the run's directory is opened. -/
theorem at_openTmp :
    RunTriple host config k t (At t g ph D pl) (Server.sys (.openTmp ph .status)) (fun r w =>
      (∃ tmp : FileState .status, tmp.isMissing = false ∧ r = .ok D.id ∧
        At t g ph (D.put D.status tmp) pl w) ∨
      (∃ e, r = .error e) ∧ At t g ph D pl w ∧ Failed g ph pl (.openTmp ph .status) w) := by
  refine RunTriple.sys (fun _ w m hw hat _ => .inr ⟨⟨_, rfl⟩, hat.noteFault hw _⟩)
    fun w now x hw hat _ => ?_
  obtain ⟨d, hd, rfl⟩ := hat.exists_dir
  have hview : (w.setDir ph (some (d.openTmp .status x now))).view =
      w.view.setDir ph (some (d.core.put d.core.status (FileState.ofTorn x))) := by
    rw [RunWorld.setDir_view, Option.map_some, RunDir.core_openTmp_status]
  obtain ⟨hg, hi, hat'⟩ := hat.put (o := .openTmp ph .status) hw hview (fun _ => rfl) rfl nofun
  simp only [RunOp.run, hd]
  exact ⟨hg, hi, .inl ⟨_, FileState.ofTorn_isMissing x, rfl, hat'⟩⟩

theorem at_writeTmp {doc : Doc RunStatus} (htmp : D.statusTmp.isMissing = false) :
    RunTriple host config k t (At t g ph D pl) (Server.sys (.writeTmp D.id .status doc))
      (fun r w => (r = .ok () ∧ At t g ph (D.put D.status (.text doc)) pl w) ∨
        (∃ e, r = .error e) ∧ At t g ph D pl w ∧
          Failed g ph pl (.writeTmp D.id .status doc) w) := by
  refine RunTriple.sys (fun _ w m hw hat _ => .inr ⟨⟨_, rfl⟩, hat.noteFault hw _⟩)
    fun w now x hw hat _ => ?_
  obtain ⟨d, hd, rfl⟩ := hat.exists_dir
  have hhas : d.has (.tmp .status) = true := by
    have h : (d.tmp .status).isMissing = false := htmp
    simp [RunDir.has, h]
  have hview : (w.setDir ph (some { d.setTmp .status (.text doc) with tmpMtime := now })).view =
      w.view.setDir ph (some (d.core.put d.core.status (.text doc))) := by
    rw [RunWorld.setDir_view]
    rfl
  obtain ⟨hg, hi, hat'⟩ := hat.put (o := .writeTmp d.core.id .status doc) hw hview
    (fun _ => rfl) rfl nofun
  simp only [RunOp.run, hat.phaseOf hw, hd, Option.map_some, hhas, if_true]
  exact ⟨hg, hi, .inl ⟨trivial, hat'⟩⟩

/-- Call `fs::write` on the temporary status file. -/
theorem at_writeFile {doc : Doc RunStatus} :
    RunTriple host config k t (At t g ph D pl) (writeFile ph .status doc) (fun r w =>
      (r = .ok () ∧ At t g ph (D.put D.status (.text doc)) pl w) ∨
      (∃ e, r = .error e) ∧ ∃ tmp o, At t g ph (D.put D.status tmp) pl w ∧
        Failed g ph pl o w ∧ o.writesStatus ph = true) := by
  refine RunTriple.bind at_openTmp fun r => ?_
  refine RunTriple.or_pre ?_ ?_
  · refine RunTriple.exists_pre fun tmp => RunTriple.pure_pre fun htmp => RunTriple.pure_pre ?_
    rintro rfl
    refine (at_writeTmp (D := D.put D.status tmp) htmp).weaken fun r w _ h => ?_
    exact h.imp_right fun ⟨he, hat, hf⟩ => ⟨he, tmp, _, hat, hf, rfl⟩
  · refine RunTriple.pure_pre ?_
    rintro ⟨e, rfl⟩
    refine RunTriple.ret fun w _ h => .inr ⟨⟨e, rfl⟩, D.statusTmp, _, h.1, h.2, ?_⟩
    simp [RunOp.writesStatus]

/-- The rename of the temporary status file over the status. -/
theorem at_publish {st : RunStatus} (htmp : D.statusTmp = .text (Doc.ofValue st)) :
    RunTriple host config k t (fun w => At t g ph D pl w ∧ Publishable config k ph D pl st w)
      (Server.sys (.publish ph .status)) (fun r w =>
      (r = .ok () ∧ At t g ph (D.put (.text (Doc.ofValue st)) .missing)
        ((ph, Doc.ofValue st) :: pl) w) ∨
      (∃ e, r = .error e) ∧ At t g ph D pl w ∧ Failed g ph pl (.publish ph .status) w) := by
  refine RunTriple.sys (fun _ w m hw h _ => .inr ⟨⟨_, rfl⟩, h.1.noteFault hw _⟩)
    fun w now x hw h _ => ?_
  obtain ⟨hat, hpub⟩ := h
  have hinv := hpub.inv hw hat
  obtain ⟨d, hd, rfl⟩ := hat.exists_dir
  have htmp' : d.tmp .status = .text (Doc.ofValue st) := htmp
  have hhas : d.has (.tmp .status) = true := by simp [RunDir.has, htmp', FileState.isMissing]
  have hview : ((w.setDir ph (some (d.publish .status now))).notePublished ph
      (statusText .status (d.tmp .status))).view =
      (w.view.setDir ph (some (d.core.put (.text (Doc.ofValue st)) .missing))).note ph
        (Doc.ofValue st) := by
    have h := RunWorld.setDir_view w ph (some (d.publish .status now))
    rw [Option.map_some, RunDir.core_publish_status, show d.core.statusTmp = _ from htmp] at h
    rw [← h, htmp']
    rfl
  simp only [RunOp.run, hd, hhas, if_true]
  refine ⟨hat.guar hw (hat.others hw rfl rfl rfl rfl fun ph' hpast => ?_) rfl (by rintro _ ⟨⟩), ?_,
    .inl ⟨trivial, ?_⟩⟩
  · rw [hview]
    exact hpast.setDir hat.dir
  · rw [hview]
    exact hinv
  · refine ⟨?_, hat.fresh, hat.queued, ?_, ?_⟩
    · rw [hview]
      exact ⟨hat.session.locks, hat.session.tid, hat.session.idle⟩
    · rw [hview]
      exact View.setDir_same
    · simp [RunWorld.notePublished, htmp', statusText, RunWorld.setDir, hat.published]

/-- The status is written and put in place, or a call fails before that. -/
theorem at_writeStatus {ε : Type} {st : RunStatus} {e₁ e₂ : IoError → ε} :
    RunTriple host config k t (fun w => At t g ph D pl w ∧ Publishable config k ph D pl st w)
      (do
        Server.io (writeFile ph .status (Doc.ofValue st)) e₁
        Server.io (Server.sys (.publish ph .status)) e₂ : ExceptT ε Call Unit).run
      (fun r w => (r = .ok () ∧ At t g ph (D.put (.text (Doc.ofValue st)) .missing)
          ((ph, Doc.ofValue st) :: pl) w) ∨
        (∃ e, r = .error (e₁ e) ∨ r = .error (e₂ e)) ∧ ∃ tmp o, At t g ph (D.put D.status tmp) pl w ∧
          Failed g ph pl o w ∧ o.writesStatus ph = true) := by
  refine RunTriple.ioBind (M := fun _ w =>
    At t g ph (D.put D.status (.text (Doc.ofValue st))) pl w ∧ Publishable config k ph D pl st w)
    (at_writeFile.frame.weaken fun r w _ h => ?_) fun _ =>
    RunTriple.io ((at_publish (D := D.put D.status (.text (Doc.ofValue st))) rfl).weaken
      fun r w _ h => ?_)
  · obtain ⟨⟨rfl, hat⟩ | ⟨⟨e, rfl⟩, h'⟩, hpub⟩ := h
    · exact ⟨hat, hpub⟩
    · exact .inr ⟨⟨e, .inl rfl⟩, h'⟩
  · obtain ⟨rfl, hat⟩ | ⟨⟨e, rfl⟩, hat, hf⟩ := h
    · exact .inl ⟨rfl, hat⟩
    · exact .inr ⟨⟨e, .inr rfl⟩, _, _, hat, hf, by simp [RunOp.writesStatus]⟩

end RunTriple

end Purgery.Server
