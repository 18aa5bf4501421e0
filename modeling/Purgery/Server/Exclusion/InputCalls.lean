import Purgery.Server.Exclusion.Change
import Purgery.Server.Exclusion.Frame

namespace Purgery.Server

open Purgery.Interleaving

variable {Tid : Type} [DecidableEq Tid]
variable {host : Host} {config : ServerConfig} {k : RunKey} {t : Tid}
variable {I : RunWorld Tid → Prop} {D : CoreDir} {ph : RunPhase}

/-- A reader of `ph` finds the input files of `D`. -/
structure Shows (config : ServerConfig) (k : RunKey) (I : RunWorld Tid → Prop) (ph : RunPhase)
    (D : CoreDir) : Prop where
  lease : ∀ w, w.view.Inv config k → I w → (w.look ph fun d => (d.file .lease).read) = D.lease.read
  runConfig : ∀ w, w.view.Inv config k → I w →
    (w.look ph fun d => (d.file .runConfig).read) = D.runConfig.read
  manifest : ∀ w, w.view.Inv config k → I w →
    (w.look ph fun d => (d.file .manifest).read) = D.manifest.read

/-- What a reader finds in a directory that is not there. -/
def CoreDir.absent : CoreDir :=
  ⟨0, none, .missing, .missing, .missing, .missing, .missing, false⟩

theorem CoreDir.absent_inputs (config : ServerConfig) (k : RunKey) (ph : RunPhase) :
    ∃ e, CoreDir.absent.inputs config k ph = .error (.other e) := ⟨_, rfl⟩

theorem RunWorld.look_view {w : RunWorld Tid} {α : Type} {f : RunDir → Except IoError α}
    {v : Except IoError α} (hd : w.view.dirs ph = some D) (hf : ∀ d, d.core = D → f d = v) :
    w.look ph f = v := by
  obtain ⟨d, hd, hcore⟩ : ∃ d, w.dirs ph = some d ∧ d.core = D := by
    simpa [RunWorld.view] using hd
  simp [RunWorld.look, hd, hf d hcore]

theorem Shows.of_dir (h : ∀ w, w.view.Inv config k → I w → w.view.dirs ph = some D) :
    Shows config k I ph D where
  lease w hw hI := RunWorld.look_view (h w hw hI) fun d hd => by rw [← hd]; rfl
  runConfig w hw hI := RunWorld.look_view (h w hw hI) fun d hd => by rw [← hd]; rfl
  manifest w hw hI := RunWorld.look_view (h w hw hI) fun d hd => by rw [← hd]; rfl

theorem RunWorld.dirs_view {w : RunWorld Tid} (h : w.view.dirs ph = none) : w.dirs ph = none := by
  simpa [RunWorld.view] using h

theorem RunWorld.look_none {w : RunWorld Tid} {α : Type} {f : RunDir → Except IoError α}
    (h : w.dirs ph = none) : w.look ph f = .error .notFound := by
  simp [RunWorld.look, h]

theorem Shows.of_none (h : ∀ w, w.view.Inv config k → I w → w.dirs ph = none) :
    Shows config k I ph CoreDir.absent where
  lease w hw hI := RunWorld.look_none (h w hw hI)
  runConfig w hw hI := RunWorld.look_none (h w hw hI)
  manifest w hw hI := RunWorld.look_none (h w hw hI)

theorem checkLease_fault (m : String) :
    ∃ e, checkLease config k ph (.error (.other m)) = .error (.other e) := ⟨_, rfl⟩

theorem checkRunConfig_fault (m : String) :
    ∃ e, checkRunConfig config k ph (.error (.other m)) = .error (.other e) := ⟨_, rfl⟩

theorem checkManifest_fault (m : String) :
    ∃ e, checkManifest config k ph (.error (.other m)) = .error (.other e) := ⟨_, rfl⟩

/-- Reading the lease gives what the lease file amounts to, or the call failed. -/
theorem validateRunLeaseProtocol_spec [hI : Stable config k t I]
    (hs : ∀ w, w.view.Inv config k → I w →
      (w.look ph fun d => (d.file .lease).read) = D.lease.read) :
    RunTriple host config k t I (validateRunLeaseProtocol config k ph).run (fun r w => I w ∧
      (r = checkLease config k ph D.lease.read ∨
        (∃ e, r = .error (.other e)) ∧ Recorded config k t I (.read ph .lease) w)) := by
  refine RunTriple.runBind (M := fun c w => I w ∧ (c = D.lease.read ∨
    (∃ m, c = .error (.other m)) ∧ Recorded config k t I (.read ph .lease) w)) ?_ fun c => ?_
  · exact RunTriple.ask (RunTriple.sys_read hs)
  · refine RunTriple.ret fun w _ ⟨hI', h⟩ => ⟨hI', ?_⟩
    obtain rfl | ⟨⟨m, rfl⟩, hr⟩ := h
    · exact .inl rfl
    · exact .inr ⟨checkLease_fault m, hr⟩

/-- A file is read and checked: the check fails on the answer of a failed
call. -/
theorem RunTriple.readChecked {α β : Type} [Stable config k t I] {f : FileName}
    {v : Except IoError (Doc f.Content)}
    {check : Except IoError (Doc f.Content) → Except ProcessingError α}
    {next : α → ExceptT ProcessingError Call β} {Q : Except ProcessingError β → RunWorld Tid → Prop}
    [∀ r, Stable config k t (Q r)]
    (hv : ∀ w, w.view.Inv config k → I w → (w.look ph fun d => (d.file f).read) = v)
    (hcheck : ∀ m, ∃ e, check (.error (.other m)) = .error (.other e))
    (hok : ∀ a, check v = .ok a → RunTriple host config k t I (next a).run Q)
    (herror : ∀ e w, I w → check v = .error e ∨ (∃ m, e = .other m) ∧ w.faults ≠ [] →
      Q (.error e) w) :
    RunTriple host config k t I
      (Server.ask (RunOp.read ph f) >>= fun c => ExceptT.mk (pure (check c)) >>= next).run Q := by
  refine RunTriple.runBind (M := fun c w => I w ∧ (c = v ∨ (∃ m, c = .error (.other m)) ∧
    Recorded config k t I (.read ph f) w)) (RunTriple.ask (RunTriple.sys_read hv)) fun c => ?_
  refine RunTriple.runCheck (fun a ha => ?_) fun e he w _ ⟨hI, h⟩ => ?_
  · by_cases hc : c = v
    · subst hc
      exact (hok a ha).strengthen fun w _ h => h.1
    · refine RunTriple.strengthen (I := fun _ => False) (fun w _ h => h.elim) fun w _ ⟨_, h⟩ => ?_
      obtain ⟨⟨m, rfl⟩, _⟩ := h.resolve_left hc
      obtain ⟨e, he⟩ := hcheck m
      exact absurd (he.symm.trans ha) (by simp)
  · refine herror e w hI (h.imp (fun hc => by rw [← hc, he]) fun ⟨⟨m, hm⟩, hr⟩ => ⟨?_, hr.faults⟩)
    obtain ⟨e', he'⟩ := hcheck m
    subst hm
    exact ⟨e', by simpa using he.symm.trans he'⟩

/-- Reading the inputs gives what the files amount to, or a call failed. -/
theorem readCompatibleRunInputs_spec [hI : Stable config k t I] (hs : Shows config k I ph D) :
    RunTriple host config k t I (readCompatibleRunInputs config k ph).run (fun r w => I w ∧
      (r = D.inputs config k ph ∨ (∃ e, r = .error (.other e)) ∧ w.faults ≠ [])) := by
  unfold readCompatibleRunInputs CoreDir.inputs
  refine RunTriple.runBind (M := fun _ w => I w ∧ checkLease config k ph D.lease.read = .ok ())
    ?_ fun _ => ?_
  · refine (validateRunLeaseProtocol_spec hs.lease).weaken fun r w _ ⟨hI', h⟩ => ?_
    cases r with
    | ok _ => exact ⟨hI', (h.resolve_right (by simp)).symm⟩
    | error e =>
      refine ⟨hI', h.imp (fun h => ?_) fun ⟨⟨e', he⟩, hr⟩ => ⟨⟨e', ?_⟩, hr.faults⟩⟩
      · rw [← h]
        rfl
      · cases he
        rfl
  refine RunTriple.strengthen (RunTriple.pure_pre fun hl => ?_) fun w _ h => h.symm
  simp only [hl]
  refine RunTriple.readChecked hs.runConfig checkRunConfig_fault (fun rc hrc => ?_)
    fun e w hI' h => ⟨hI', ?_⟩
  · refine RunTriple.readChecked hs.manifest checkManifest_fault (fun m hm => ?_)
      fun e w hI' h => ⟨hI', ?_⟩
    · refine RunTriple.runCheck (fun _ he => ?_) fun e he w _ hI' => ⟨hI', .inl ?_⟩
      · refine RunTriple.ret fun w _ hI' => ⟨hI', .inl ?_⟩
        simp [hrc, hm, he, bind, Except.bind, pure, Except.pure]
      · simp [hrc, hm, he, bind, Except.bind]
    · refine h.imp (fun h => ?_) fun ⟨⟨m, hm⟩, hf⟩ => ⟨⟨m, by rw [hm]⟩, hf⟩
      simp only [hrc, h]
      rfl
  · refine h.imp (fun h => ?_) fun ⟨⟨m, hm⟩, hf⟩ => ⟨⟨m, by rw [hm]⟩, hf⟩
    simp only [h]
    rfl

end Purgery.Server
