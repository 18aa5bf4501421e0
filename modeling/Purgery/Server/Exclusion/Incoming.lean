import Purgery.Server.Exclusion.Collection

namespace Purgery.Server

open Purgery.Interleaving

variable {Tid : Type} [DecidableEq Tid]
variable {host : Host} {config : ServerConfig} {k : RunKey} {t : Tid}
variable {ph : RunPhase} {w w' : RunWorld Tid} {o : RunOp}

/-- The directory of a run that is not accepted is changed, while no collection
deletes it. -/
theorem RunWorld.incoming_rely (hpass : ∀ u, w.pass u = none) {d d' : RunDir}
    (hd : w.dirs .incoming = some d) (u : Tid) : w.Rely u (w.setDir .incoming (some d')) where
  locks g hl _ := by
    refine ⟨hl, rfl, fun ph hq => ?_⟩
    have hne : ph ≠ .incoming := by
      rintro rfl
      exact nomatch hq
    simp [RunWorld.view, RunWorld.setDir, hne]
  pass := rfl
  shrink ph _ hp _ := absurd ((hpass u).symm.trans hp) (by simp)
  past ph hpast := by
    rw [RunWorld.setDir_view]
    exact hpast.setDir (D := d.core) (by simp [RunWorld.view, hd])
  nextIno := le_refl _
  faults := ⟨[], rfl⟩
  noGrip h := h

theorem RunWorld.incoming_contents {d' : RunDir} (hq : ph.queued = true) :
    (w.setDir .incoming (some d')).contents ph = w.contents ph := by
  have hne : ph ≠ .incoming := by
    rintro rfl
    exact nomatch hq
  simp [RunWorld.contents, RunWorld.setDir, hne]

namespace RunTriple

theorem incoming_openTmp :
    RunTriple host config k t (Idle t) (Server.sys (.openTmp .incoming .lease))
      (fun _ => Idle t) := by
  refine RunTriple.sys (fun _ w m hw h _ => h.rely (RunWorld.noteFault_rely t))
    fun w now x hw hidle hc => ?_
  cases hd : w.dirs .incoming with
  | none =>
    simp only [RunOp.run, hd]
    exact ⟨Guar.same (by rintro ⟨⟩) (by rintro _ ⟨⟩), hw, hidle⟩
  | some d =>
    have hview := RunWorld.view_setDir hd (RunDir.core_openTmp d .lease x now (by rintro ⟨⟩))
    simp only [RunOp.run, hd]
    refine ⟨Guar.spare (fun u _ => RunWorld.incoming_rely (hc.alone rfl) hd u)
      (fun ph hq => RunWorld.incoming_contents hq) rfl (by rintro ⟨⟩) (by rintro _ ⟨⟩) rfl hidle, ?_, hidle⟩
    rw [hview]
    exact hw

/-- A heartbeat writes the copy of the lease, wherever the directory is by now. -/
theorem incoming_writeTmp {dir : Nat} {doc : Doc LeaseFile} :
    RunTriple host config k t (Idle t) (Server.sys (.writeTmp dir .lease doc))
      (fun _ => Idle t) := by
  refine RunTriple.sys (fun _ w m hw h _ => h.rely (RunWorld.noteFault_rely t))
    fun w now x hw hidle hc => ?_
  have hview := RunWorld.view_writeTmp (w := w) host t dir now .lease doc (by rintro ⟨⟩)
  cases hp : w.phaseOf dir with
  | none =>
    simp only [RunOp.run, hp]
    exact ⟨Guar.same (by rintro ⟨⟩) (by rintro _ ⟨⟩), hw, hidle⟩
  | some p =>
    obtain ⟨d, hd, _⟩ := RunWorld.phaseOf_some hp
    have hrun : ∃ d', (RunOp.run host t (.writeTmp dir .lease doc) x now w).2 =
        w.setDir p (some d') ∧ d'.id = d.id ∧ (∀ e, d'.has e = true → d.has e = true) ∧
        d'.file = d.file ∧ Function.update d'.tmp .lease .missing =
          Function.update d.tmp .lease .missing ∧ d'.tree = d.tree := by
      by_cases hhas : d.has (.tmp .lease) = true
      · refine ⟨{ d.setTmp .lease (.text doc) with tmpMtime := now },
          by simp [RunOp.run, hp, hd, hhas], rfl, fun e he => ?_, rfl, by simp [RunDir.setTmp], rfl⟩
        cases e with
        | tmp f =>
          by_cases hf : f = .lease
          · rw [hf]
            exact hhas
          · simpa [RunDir.has, RunDir.setTmp, hf] using he
        | _ => exact he
      · exact ⟨d, by simp [RunOp.run, hp, hd, hhas], rfl, fun _ he => he, rfl, rfl, rfl⟩
    obtain ⟨d', hrun, hid, hhas, hfile, htmp, htree⟩ := hrun
    rw [hrun] at hview ⊢
    refine ⟨Guar.spare (fun u _ => ⟨fun g hl _ => ⟨hl, rfl, fun ph _ => ?_⟩, rfl,
      fun ph d'' _ h => ?_, fun ph hpast => ?_, le_refl _, ⟨[], rfl⟩, fun h => h⟩) (fun ph _ => ?_)
      rfl (by rintro ⟨⟩) (by rintro _ ⟨⟩) rfl hidle, ?_, hidle⟩
    · rw [hview]
    · by_cases hne : ph = p
      · subst hne
        obtain rfl : d' = d'' := by simpa [RunWorld.setDir] using h
        exact ⟨d, hd, hid, hhas⟩
      · exact ⟨d'', by simpa [RunWorld.setDir, hne] using h, rfl, fun _ he => he⟩
    · rw [hview]
      exact hpast
    · by_cases hne : ph = p
      · subst hne
        simp [RunWorld.contents, RunWorld.setDir, hd, hfile, htmp, htree]
      · simp [RunWorld.contents, RunWorld.setDir, hne]
    · rw [hview]
      exact hw

theorem incoming_publish :
    RunTriple host config k t (Idle t) (Server.sys (.publish .incoming .lease))
      (fun _ => Idle t) := by
  refine RunTriple.sys (fun _ w m hw h _ => h.rely (RunWorld.noteFault_rely t))
    fun w now x hw hidle hc => ?_
  cases hd : w.dirs .incoming with
  | none =>
    simp only [RunOp.run, hd]
    exact ⟨Guar.same (by rintro ⟨⟩) (by rintro _ ⟨⟩), hw, hidle⟩
  | some d =>
    have hd' : w.view.dirs .incoming = some d.core := by simp [RunWorld.view, hd]
    by_cases hhas : d.has (.tmp .lease) = true
    · simp only [RunOp.run, hd, hhas, if_true]
      refine ⟨Guar.spare (fun u _ => RunWorld.incoming_rely (hc.alone rfl) hd u)
        (fun ph hq => RunWorld.incoming_contents hq) rfl (by rintro ⟨⟩) (by rintro _ ⟨⟩) rfl hidle, ?_, hidle⟩
      have hview := RunWorld.setDir_view w .incoming (some (d.publish .lease now))
      refine (congrArg (View.Inv config k) hview).mpr (hw.update hd' (.inl rfl) rfl (by rintro ⟨⟩) ?_)
      exact fun hr => absurd hr (by decide)
    · simp only [RunOp.run, hd, hhas]
      exact ⟨Guar.same (by rintro ⟨⟩) (by rintro _ ⟨⟩), hw, hidle⟩

/-- An incoming run is accepted: nobody has ever opened its lock. -/
theorem incoming_move :
    RunTriple host config k t (Idle t) (Server.sys (.move .incoming .ready))
      (fun _ => Idle t) := by
  refine RunTriple.sys (fun _ w m hw h _ => h.rely (RunWorld.noteFault_rely t))
    fun w now x hw hidle hc => ?_
  cases hd : w.dirs .incoming with
  | none =>
    simp only [RunOp.run, hd]
    exact ⟨Guar.same (by rintro ⟨⟩) (by rintro _ ⟨⟩), hw, hidle⟩
  | some d =>
    have hd' : w.view.dirs .incoming = some d.core := by simp [RunWorld.view, hd]
    cases hr : w.dirs .ready with
    | some d' =>
      cases hw.unique .incoming .ready _ d'.core hd' (by simp [RunWorld.view, hr])
    | none =>
      have hpass := hc.alone rfl
      have hview := RunWorld.move_view w hd .ready
      simp only [RunOp.run, hd, hr]
      refine ⟨⟨fun u hu => ⟨fun g hl _ => ?_, rfl, fun ph _ hp _ => ?_, fun ph hpast => ?_,
        le_refl _, ⟨[], rfl⟩, fun h => h⟩, fun _ => .inl rfl, by rintro ⟨⟩, by rintro _ ⟨⟩,
        fun g hg ht => absurd ht (hidle.2 g hg), by rintro ⟨⟩⟩, ?_, hidle⟩
      · rw [hw.incoming_locks hd] at hl
        cases hl
      · exact absurd ((hpass u).symm.trans hp) (by simp)
      · rw [hview]
        exact hpast.move hd' (by decide)
      · rw [hview]
        exact hw.moved hd' (by decide) hpass (fun _ => rfl) (by rintro ⟨⟩) (by rintro ⟨⟩)

end RunTriple

/-- A heartbeat leaves no lock and no removal behind. -/
theorem heartbeatRun_spec :
    RunTriple host config k t (Idle t) (heartbeatRun config k).run (fun _ => Idle t) := by
  refine RunTriple.askBind ((RunTriple.sys_idle rfl).weaken fun _ _ _ h => h.1) fun found => ?_
  split
  · exact RunTriple.ret fun w _ h => h
  refine RunTriple.ioBind (M := fun _ => Idle t)
    ((RunTriple.sys_idle rfl).weaken fun r w _ h => by cases r <;> exact h.1) fun content => ?_
  refine RunTriple.runCheck (fun lease _ => ?_) fun _ _ w _ h => h
  refine RunTriple.askBind ((RunTriple.sys_idle rfl).weaken fun _ _ _ h => h.1) fun now => ?_
  refine RunTriple.ioBind (M := fun _ => Idle t) (RunTriple.weaken (Q := fun _ => Idle t) ?_
    fun r w _ h => by cases r <;> exact h) fun _ => RunTriple.io RunTriple.incoming_publish
  refine RunTriple.bind RunTriple.incoming_openTmp fun r => ?_
  split
  · exact RunTriple.ret fun w _ h => h
  · exact RunTriple.incoming_writeTmp

theorem inLaterPhase_idle (phs : List RunPhase) : Idly (inLaterPhase phs) := by
  induction phs with
  | nil => trivial
  | cons ph phs ih =>
    refine Prog.Only.bind (only_sys rfl) fun found => ?_
    split
    · trivial
    · exact ih

theorem finishRun_spec :
    RunTriple host config k t (Idle t) (finishRun config k).run (fun _ => Idle t) := by
  refine RunTriple.liftBind (RunTriple.of_idle (inLaterPhase_idle _)) fun later => ?_
  split
  · exact RunTriple.ret fun w _ h => h
  refine RunTriple.askBind ((RunTriple.sys_idle rfl).weaken fun _ _ _ h => h.1) fun found => ?_
  split
  · exact RunTriple.ret fun w _ h => h
  refine RunTriple.askBind ((RunTriple.sys_idle rfl).weaken fun _ _ _ h => h.1) fun found => ?_
  split
  · exact RunTriple.ret fun w _ h => h
  refine RunTriple.ioBind (M := fun _ => Idle t)
    ((RunTriple.sys_idle rfl).weaken fun r w _ h => by cases r <;> exact h.1) fun content => ?_
  refine RunTriple.runCheck (fun lease _ => ?_) fun _ _ w _ h => h
  refine RunTriple.askBind ((RunTriple.sys_idle rfl).weaken fun _ _ _ h => h.1) fun now => ?_
  split
  · exact RunTriple.ret fun w _ h => h
  refine RunTriple.askBind ((RunTriple.sys_idle rfl).weaken fun _ _ _ h => h.1) fun found => ?_
  split
  · exact RunTriple.ret fun w _ h => h
  refine RunTriple.ioBind (M := fun _ => Idle t)
    ((RunTriple.sys_idle rfl).weaken fun r w _ h => by cases r <;> exact h.1) fun _ => ?_
  exact RunTriple.io RunTriple.incoming_move

section RunState

theorem dirModifiedAt_spec :
    RunTriple host config k t (Idle t) (dirModifiedAt ph) (fun _ => Idle t) := by
  refine RunTriple.bind ((RunTriple.sys_modified (.inr (.inr fun _ => rfl))).weaken
    (R := fun _ => Idle t) fun r w _ h => ?_) fun r => ?_
  · obtain ⟨_, h⟩ | ⟨_, _, ⟨hm, _⟩ | ⟨_, h⟩⟩ := h
    · exact h
    · exact nomatch hm
    · exact h
  · split <;> exact RunTriple.ret fun w _ h => h

theorem waitingResponse_spec (now : Nat) :
    RunTriple host config k t (Idle t) (waitingResponse ph now) (fun _ => Idle t) :=
  RunTriple.bind dirModifiedAt_spec fun _ => RunTriple.ret fun w _ h => h

theorem terminalPhaseResponse_spec (now : Nat) :
    RunTriple host config k t (Idle t) (terminalPhaseResponse k ph now) (fun _ => Idle t) := by
  refine RunTriple.bind ((RunTriple.sys_idle rfl).weaken fun _ _ _ h => h.1) fun found => ?_
  split
  · refine RunTriple.bind ((RunTriple.sys_idle rfl).weaken fun _ _ _ h => h.1) fun content => ?_
    split
    · exact RunTriple.bind dirModifiedAt_spec fun _ => RunTriple.ret fun w _ h => h
    · exact RunTriple.ret fun w _ h => h
    · exact RunTriple.bind dirModifiedAt_spec fun _ => RunTriple.ret fun w _ h => h
  · exact RunTriple.ret fun w _ h => h

theorem readProgressFields_spec (now : Nat) :
    RunTriple host config k t (Idle t) (readProgressFields k now) (fun _ => Idle t) := by
  refine RunTriple.bind ((RunTriple.sys_idle rfl).weaken fun _ _ _ h => h.1) fun content => ?_
  have hplain : ∀ message status, RunTriple host config k t (Idle t) (do
      let updatedAt ← dirModifiedAt .processing
      return { plainResponse "processing" false message updatedAt now with
        progressStatus := some status }) (fun _ => Idle t) := fun _ _ =>
    RunTriple.bind dirModifiedAt_spec fun _ => RunTriple.ret fun w _ h => h
  split
  · exact hplain _ _
  · split
    · split
      · exact hplain _ _
      · split
        · exact RunTriple.ret fun w _ h => h
        · exact hplain _ _
    · split
      · exact hplain _ _
      · exact hplain _ _

theorem processorState_spec :
    RunTriple host config k t (Idle t) (processorState config k) (fun _ => Idle t) := by
  refine RunTriple.bind (probeProcessorLockReadonly_spec.conseq (R := fun _ => Idle t)
    (fun w _ h => ⟨h, nofun⟩) fun r w _ h => ?_) fun r => ?_
  · obtain h | ⟨⟨h, _⟩, _⟩ := h
    · exact h.1
    · exact nomatch h
  · split <;> exact RunTriple.ret fun w _ h => h

/-- `run-state` leaves no lock and no removal behind. -/
theorem runState_spec :
    RunTriple host config k t (Idle t) (runState config k) (fun _ => Idle t) := by
  refine RunTriple.bind ((RunTriple.sys_idle rfl).weaken fun _ _ _ h => h.1) fun now => ?_
  refine RunTriple.bind ((RunTriple.sys_idle rfl).weaken fun _ _ _ h => h.1) fun found => ?_
  split
  · exact waitingResponse_spec now
  refine RunTriple.bind ((RunTriple.sys_idle rfl).weaken fun _ _ _ h => h.1) fun found => ?_
  split
  · exact waitingResponse_spec now
  refine RunTriple.bind ((RunTriple.sys_idle rfl).weaken fun _ _ _ h => h.1) fun found => ?_
  split
  · exact RunTriple.bind (readProgressFields_spec now) fun _ =>
      RunTriple.bind processorState_spec fun _ => RunTriple.ret fun w _ h => h
  refine RunTriple.bind (terminalPhaseResponse_spec now) fun r => ?_
  split
  · exact RunTriple.ret fun w _ h => h
  refine RunTriple.bind (terminalPhaseResponse_spec now) fun r => ?_
  split <;> exact RunTriple.ret fun w _ h => h

end RunState

end Purgery.Server
