import Purgery.Server.Exclusion.Recovery

namespace Purgery.Server

open Purgery.Interleaving

variable {Tid : Type} [DecidableEq Tid]
variable {host : Host} {config : ServerConfig} {k : RunKey} {t : Tid} {g : Grip Tid}
variable {ph : RunPhase} {D : CoreDir} {pl : List (RunPhase × Doc RunStatus)}
variable {w : RunWorld Tid} {I : RunWorld Tid → Prop}

/-- The holder takes back the status that it wrote into a ready run. -/
theorem At.removeEntry (h : At t g .ready D pl w) (hw : w.view.Inv config k) {o : RunOp}
    {e : RunEntry} {now : Nat} (he : e = .file .status ∨ e = .tmp .status)
    (hremoves : o.removes = false) (hspawn : ∀ c, o ≠ .spawn c) :
    Guar t o true w (w.change .ready fun d => d.removeEntry e now).2 ∧
      (w.change .ready fun d => d.removeEntry e now).2.view.Inv config k ∧
      ∃ D', At t g .ready D' pl (w.change .ready fun d => d.removeEntry e now).2 := by
  obtain ⟨d, hd, rfl⟩ := h.exists_dir
  by_cases hhas : d.has e = true
  · have hput : ∃ s tmp, ((d.without e).stamp now).core = d.core.put s tmp := by
      obtain rfl | rfl := he
      · exact ⟨.missing, d.core.statusTmp, rfl⟩
      · exact ⟨d.core.status, .missing, rfl⟩
    obtain ⟨s, tmp, hput⟩ := hput
    have hrun : (w.change .ready fun d => d.removeEntry e now).2 =
        w.setDir .ready (some ((d.without e).stamp now)) := by
      simp [RunWorld.change, hd, RunDir.removeEntry, hhas]
    rw [hrun]
    obtain ⟨hg, hi, hat⟩ := h.put (o := o) hw (by rw [RunWorld.setDir_view, Option.map_some, hput])
      (fun hr => absurd hr (by decide)) hremoves hspawn
    exact ⟨hg, hi, _, hat⟩
  · have hrun : (w.change .ready fun d => d.removeEntry e now).2 = w := by
      simp [RunWorld.change, hd, RunDir.removeEntry, hhas]
    rw [hrun]
    exact ⟨h.guar hw (fun u _ => RunWorld.Rely.refl u w) hremoves fun c hc => absurd hc (hspawn c),
      hw, _, h⟩

namespace RunTriple

theorem at_removeFile :
    RunTriple host config k t (fun w => ∃ D, At t g .ready D pl w)
      (Server.sys (.removeFile .ready .status)) (fun _ w => ∃ D, At t g .ready D pl w) := by
  refine RunTriple.exists_pre fun D => RunTriple.sys
    (fun _ w m hw h _ => ⟨D, (h.noteFault hw _).1⟩) fun w now x hw h _ => ?_
  exact h.removeEntry hw (.inl rfl) rfl nofun

theorem at_removeTmp :
    RunTriple host config k t (fun w => ∃ D, At t g .ready D pl w)
      (Server.sys (.removeTmp .ready .status)) (fun _ w => ∃ D, At t g .ready D pl w) := by
  refine RunTriple.exists_pre fun D => RunTriple.sys
    (fun _ w m hw h _ => ⟨D, (h.noteFault hw _).1⟩) fun w now x hw h _ => ?_
  exact h.removeEntry hw (.inr rfl) rfl nofun

end RunTriple

/-- The malformed run was moved to `failed`, or a call has failed. -/
def Discarded (t : Tid) (g : Grip Tid) (error : String) (r : ReadyClaimOutcome)
    (w : RunWorld Tid) : Prop :=
  w.faults ≠ [] ∨ r = .malformedReadyMovedToFailed error ∧ Gone t g .processing w

instance {error : String} {r : ReadyClaimOutcome} : Stable config k t (Discarded t g error r) :=
  inferInstanceAs (Stable config k t fun w => w.faults ≠ [] ∨
    r = .malformedReadyMovedToFailed error ∧ Gone t g .processing w)

/-- A malformed run fails: its status is in place before it moves. -/
theorem handleMalformedReady_spec (error : String) :
    RunTriple host config k t (fun w => At t g .ready D pl w ∧
        (w.faults ≠ [] ∨ ∃ e, D.inputs config k .ready = .error (.other e)))
      (handleMalformedReady config k error)
      (fun r w => (∀ l, r ≠ .claimed l) ∧ w.view.Session t g ∧ Discarded t g error r w) := by
  have hof : StatusOf k (runFailure k error) := runFailure_statusOf error
  refine RunTriple.bind (RunTriple.strengthen RunTriple.at_writeStatus
    fun w _ h => ⟨h.1, .inl ⟨rfl, h.2⟩⟩) fun r => RunTriple.or_pre ?_ ?_
  · refine RunTriple.pure_pre ?_
    rintro rfl
    refine RunTriple.bind (M := fun parent w => At t g .ready
      (D.put (.text (Doc.ofValue (runFailure k error))) .missing)
      ((.ready, Doc.ofValue (runFailure k error)) :: pl) w ∧
        ((∃ e, parent = .error e) → w.faults ≠ []))
      ((RunTriple.sys_idle rfl).weaken fun r w _ h => ⟨h.1, ?_⟩) fun parent => ?_
    · rintro ⟨e, rfl⟩
      obtain ⟨-, hr⟩ | ⟨_, _, _, _, _, hr⟩ := h.2
      · exact hr.faults
      · cases hr
    split
    · exact RunTriple.ret fun w _ h => ⟨by rintro _ ⟨⟩, h.1.session, .inl (h.2 ⟨_, rfl⟩)⟩
    refine RunTriple.strengthen (I := fun w => g.fresh = true ∧ At t g .ready
      (D.put (.text (Doc.ofValue (runFailure k error))) .missing)
      ((.ready, Doc.ofValue (runFailure k error)) :: pl) w)
      (RunTriple.pure_pre fun hfresh => ?_) fun w _ h => ⟨h.1.fresh, h.1⟩
    refine RunTriple.bind (RunTriple.strengthen (RunTriple.at_finish rfl)
      fun w _ h => ⟨h, .inl hof.classify⟩) fun moved => RunTriple.or_pre ?_ ?_
    · refine RunTriple.pure_pre ?_
      rintro rfl
      refine RunTriple.bind (RunTriple.sys_prune rfl fun w _ h g' hg' _ => ?_) fun _ =>
        RunTriple.ret fun w _ h => ⟨by rintro _ ⟨⟩, h.session, .inr ⟨rfl, h⟩⟩
      obtain rfl : g' = g := by simpa [show w.locks = [g] from h.session.locks] using hg'
      exact hfresh
    · refine RunTriple.pure_pre ?_
      rintro ⟨e, rfl⟩
      refine RunTriple.bind (RunTriple.strengthen RunTriple.at_removeFile.frame
        fun w _ h => ⟨⟨_, h.1⟩, h.2.faults⟩) fun _ => ?_
      refine RunTriple.bind RunTriple.at_removeTmp.frame fun _ => ?_
      refine RunTriple.ret fun w _ h => ?_
      obtain ⟨⟨_, hat⟩, hf⟩ := h
      exact ⟨by rintro _ ⟨⟩, hat.session, .inl hf⟩
  · refine RunTriple.pure_pre ?_
    rintro ⟨e, rfl | rfl⟩
    all_goals
      refine RunTriple.bind (RunTriple.strengthen
        (RunTriple.at_removeTmp.frame (J := fun w => w.faults ≠ []))
        fun w _ h => by
          obtain ⟨_, _, hat, hf, _⟩ := h
          exact ⟨⟨_, hat⟩, hf.faults⟩) fun _ => ?_
      refine RunTriple.ret fun w _ h => ?_
      obtain ⟨⟨_, hat⟩, hf⟩ := h
      exact ⟨by rintro _ ⟨⟩, hat.session, .inl hf⟩

theorem handleMalformedReady_gone (error : String) :
    RunTriple host config k t (Gone t g .ready) (handleMalformedReady config k error)
      (fun r w => (∃ e e', r = .malformedReadyMoveFailed e e') ∧ w.view.Session t g) := by
  have hnone : ∀ w : RunWorld Tid, w.view.Inv config k → Gone t g .ready w →
      w.dirs .ready = none := fun w _ h => h.dirs_none (le_refl _)
  refine RunTriple.bind (writeFile_absent_bind hnone) fun r => ?_
  refine RunTriple.strengthen (RunTriple.pure_pre ?_) fun w _ h => ⟨h.2, h.1⟩
  rintro ⟨e, rfl⟩
  refine RunTriple.bind (RunTriple.sys_absent (e := .notFound) (fun w hw h x now => ?_) nofun
    nofun) fun _ => RunTriple.ret fun w _ h => ⟨⟨_, _, rfl⟩, h.1.session⟩
  simp [RunOp.run, RunWorld.change, hnone w hw h, RunOp.failed]

theorem recheckState_spec [Stable config k t I] :
    RunTriple host config k t I (recheckState k) (fun r w => (∀ l, r ≠ .claimed l) ∧ I w) := by
  have hlook : ∀ ph, RunTriple host config k t I (sys (.dirExists ph)) (fun _ => I) :=
    fun ph => (RunTriple.sys_idle rfl).weaken fun _ _ _ h => h.1
  refine RunTriple.bind (hlook _) fun found => ?_
  split
  · exact RunTriple.ret fun w _ h => ⟨by rintro _ ⟨⟩, h⟩
  refine RunTriple.bind (hlook _) fun found => ?_
  split
  · exact RunTriple.ret fun w _ h => ⟨by rintro _ ⟨⟩, h⟩
  refine RunTriple.bind (hlook _) fun found => ?_
  split
  · exact RunTriple.ret fun w _ h => ⟨by rintro _ ⟨⟩, h⟩
  refine RunTriple.bind (hlook _) fun found => ?_
  split
  · exact RunTriple.ret fun w _ h => ⟨by rintro _ ⟨⟩, h⟩
  · exact RunTriple.ret fun w _ h => ⟨by rintro _ ⟨⟩, h⟩

/-- The run was claimed by process `t`, or the process is left without a lock. -/
def Claimed (t : Tid) (r : ReadyClaimOutcome) (w : RunWorld Tid) : Prop :=
  (∃ g D pl, r = .claimed g.ino ∧ g.via = .ready ∧ Working t g D pl w ∧ First pl w) ∨
    (∀ l, r ≠ .claimed l) ∧ Idle t w

instance {r : ReadyClaimOutcome} : Stable config k t (Claimed t r) :=
  inferInstanceAs (Stable config k t fun w =>
    (∃ g D pl, r = .claimed g.ino ∧ g.via = .ready ∧ Working t g D pl w ∧ First pl w) ∨
      (∀ l, r ≠ .claimed l) ∧ Idle t w)

/-- No status was published in `processing` while the run is still in `ready`. -/
theorem At.first_ready (h : At t g .ready D pl w) (hw : w.view.Inv config k) : First pl w := by
  by_cases hspoilt : w.view.RecoverySpoilt
  · exact .inr hspoilt
  · refine .inl fun doc hdoc => ?_
    have hpub : w.view.PublishedInProcessing doc := by
      rw [View.PublishedInProcessing, show w.view.published = pl from h.published]
      exact hdoc
    obtain ⟨hr, _⟩ | ht | hs := hw.final _ _ D hpub h.dir
    · exact absurd hr (by decide)
    · exact absurd (ht.symm.trans (h.untouched hw)) (by simp)
    · exact hspoilt hs

theorem renameClaimed_spec (hvia : g.via = .ready) {x : RunConfig × Manifest}
    (hx : D.inputs config k .ready = .ok x) :
    RunTriple host config k t (fun w => At t g .ready D pl w ∧ First pl w)
      (renameClaimed k g.ino) (Claimed t) := by
  refine RunTriple.bind ((RunTriple.sys_idle rfl).weaken fun _ _ _ h => h.1) fun parent => ?_
  split
  · refine RunTriple.bind (RunTriple.strengthen RunTriple.close fun w _ h => h.1.session) fun _ => ?_
    exact RunTriple.ret fun w _ h => .inr ⟨by rintro _ ⟨⟩, h⟩
  refine RunTriple.bind ((RunTriple.at_claim hx).frame.weaken fun r w _ h => ?_) fun moved =>
    RunTriple.or_pre (I := fun w => moved = .ok () ∧ Working t g D pl w ∧ First pl w)
      (J := fun w => (∃ e, moved = .error e) ∧ At t g .ready D pl w) ?_ ?_
  · obtain ⟨h | h, hfirst⟩ := h
    · exact .inl ⟨h.1, h.2, hfirst⟩
    · exact .inr h
  · refine RunTriple.pure_pre ?_
    rintro rfl
    exact RunTriple.ret fun w _ h => .inl ⟨g, D, pl, rfl, hvia, h⟩
  · refine RunTriple.pure_pre ?_
    rintro ⟨e, rfl⟩
    refine RunTriple.bind (RunTriple.strengthen RunTriple.close fun w _ h => h.session) fun _ => ?_
    exact recheckState_spec.weaken fun r w _ h => .inr h

theorem claimReadyRun_spec :
    RunTriple host config k t (Idle t) (claimReadyRun config k) (Claimed t) := by
  have hend : RunTriple host config k t (Idle t) (recheckState k) (Claimed t) :=
    recheckState_spec.weaken fun r w _ h => .inr h
  have hmalformed : ∀ {g : Grip Tid} {r : ReadyClaimOutcome}, RunTriple host config k t
      (fun w => (∀ l, r ≠ .claimed l) ∧ w.view.Session t g)
      (sys (.close g.ino) >>= fun _ => pure r) (Claimed t) := fun {g r} =>
    RunTriple.pure_pre fun hr => RunTriple.bind RunTriple.close fun _ =>
      RunTriple.ret fun w _ h => .inr ⟨hr, h⟩
  refine RunTriple.bind ((RunTriple.sys_idle rfl).weaken fun _ _ _ h => h.1) fun found => ?_
  split
  · exact hend
  refine RunTriple.bind (tryLockExistingDir_spec rfl) fun r => RunTriple.or_pre ?_ ?_
  · refine RunTriple.exists_pre fun g => RunTriple.pure_pre ?_
    rintro rfl
    refine RunTriple.pure_pre fun hvia => RunTriple.or_pre
      (RunTriple.exists_pre fun D => RunTriple.exists_pre fun pl => ?_) ?_
    · refine RunTriple.bind (readCompatibleRunInputs_spec (D := D) (Shows.of_dir fun w hw h => h.dir))
        fun r => ?_
      split
      · refine RunTriple.bind (RunTriple.strengthen RunTriple.close fun w _ h => h.1.session) fun _ => ?_
        exact RunTriple.ret fun w _ h => .inr ⟨by rintro _ ⟨⟩, h⟩
      · rename_i e
        refine RunTriple.bind ((handleMalformedReady_spec (D := D) e).conseq
          (fun w _ h => ⟨h.1, ?_⟩) fun _ _ _ h => ⟨h.1, h.2.1⟩) fun r => hmalformed
        exact h.2.symm.imp (fun h => h.2) fun h => ⟨e, h.symm⟩
      · rename_i x
        refine RunTriple.strengthen (I := fun w => D.inputs config k .ready = .ok x ∧
          At t g .ready D pl w ∧ First pl w) (RunTriple.pure_pre fun hx => renameClaimed_spec hvia hx)
          fun w hw h => ⟨?_, h.1, h.1.first_ready hw⟩
        obtain h | ⟨⟨_, h⟩, _⟩ := h.2
        · exact h.symm
        · cases h
    · obtain ⟨e₀, he₀⟩ := CoreDir.absent_inputs config k .ready
      refine RunTriple.bind (M := fun r w => (∃ e, r = .error (.other e)) ∧ Gone t g .ready w)
        ((readCompatibleRunInputs_spec (Shows.of_none fun w _ h => h.dirs_none (le_refl _))).weaken
          fun r w _ h => ⟨?_, h.1⟩) fun r => ?_
      · obtain h | h := h.2
        · exact ⟨e₀, h.trans he₀⟩
        · exact h.1
      · refine RunTriple.pure_pre ?_
        rintro ⟨e, rfl⟩
        refine RunTriple.bind ((handleMalformedReady_gone e).weaken fun r w _ h => ⟨?_, h.2⟩)
          fun r => hmalformed
        obtain ⟨⟨_, _, rfl⟩, -⟩ := h
        rintro _ ⟨⟩
  · refine RunTriple.pure_pre fun hne => ?_
    split
    · exact RunTriple.ret fun w _ h => .inr ⟨by rintro _ ⟨⟩, h⟩
    · exact hend
    · exact RunTriple.ret fun w _ h => .inr ⟨by rintro _ ⟨⟩, h⟩
    · exact absurd rfl (hne _)

end Purgery.Server
