import Purgery.Client.LedgerRules

namespace Purgery.Client

open Purgery.Path
open Purgery.Interleaving
open Purgery.Server (IoError)

/-! The calls on the states of runs keep the contract of a client. -/

section Notions

variable {S : Site} {J K : ClientWorld → Prop} {k : RunKey} {n : Nat} {w w' : ClientWorld}
variable {path name : String}

/-- Whatever is resumed does not matter. -/
def Site.Enduring (S : Site) (J : ClientWorld → Prop) : Prop :=
  ∀ w w', Resumed S.orderly w w' → J w → J w'

/-- The run has come so far. -/
def Site.Logged (S : Site) (k : RunKey) (n : Nat) (w : ClientWorld) : Prop :=
  S.orderly → w.log (RunKey.runName k) = milestones.take n

/-- The state of the run, if it is still there, is not needed any more. -/
def Site.Closable (S : Site) (name : String) (w : ClientWorld) : Prop :=
  S.orderly → (w.runState name).accepted = none ∨ w.log name = milestones.take 4

/-- No run that is not cleaned up needs the ledger. -/
def Site.Retirable (S : Site) (path : String) (w : ClientWorld) : Prop :=
  S.orderly → ∀ name st, (w.runState name).accepted = some st → st.phase ≠ .cleanupComplete →
    ledgerPath S.stateDir st.nickname st.runId ≠ path

/-- The id is given out, and no run has begun with it. -/
def Site.Fresh (S : Site) (id : String) (w : ClientWorld) : Prop :=
  S.orderly → id ∈ w.issued ∧ ∀ nickname, w.log (runName nickname id) = []

theorem Site.Enduring.lasting (h : S.Enduring J) : Lasting J :=
  fun w w' hs => h w w' hs.resumed

theorem Site.Enduring.and (h : S.Enduring J) (h' : S.Enduring K) :
    S.Enduring fun w => J w ∧ K w :=
  fun w w' hs hw => ⟨h w w' hs hw.1, h' w w' hs hw.2⟩

variable (S path) in
theorem enduring_answered (status : RunStatus) : S.Enduring (S.Answered path status) :=
  fun _ _ hw h => ⟨hw.history.subset h.reported, h.path_eq, h.proper⟩

variable (S) in
theorem enduring_fresh (id : String) : S.Enduring (S.Fresh id) := by
  intro w w' hw h ho
  obtain ⟨hissued, hlog⟩ := h ho
  exact ⟨hw.issued ▸ hissued, fun nickname => hw.unbegun ho _ (hlog nickname)⟩

theorem lasting_logged : Lasting (S.Logged k n) := fun w w' hw h ho => by rw [hw.log, h ho]

variable (S name) in
theorem lasting_closable : Lasting (S.Closable name) := by
  intro w w' hw h ho
  rw [hw.runs, hw.log]
  exact h ho

variable (S path) in
theorem lasting_retirable : Lasting (S.Retirable path) := by
  intro w w' hw h ho name st hst
  rw [hw.runs] at hst
  exact h ho name st hst

/-- A state is that of its run. -/
theorem key_of_state {r : RemoteRun} {ts : Option RunStatus} {phase : ClientRunPhase}
    (hk : ProperId k.runId.asStr) (hs : Sane w.history (RunKey.runName k) r ts phase) :
    r.key = k := by
  obtain ⟨hnickname, hid⟩ := runName_injective hk hs.proper hs.name_eq
  obtain ⟨⟨nickname, hn⟩, ⟨runId, hi⟩⟩ := k
  obtain ⟨⟨⟨nickname', hn'⟩, ⟨runId', hi'⟩⟩, host, serverCommand, manifest, runConfig⟩ := r
  simp only at hnickname hid ⊢
  subst hnickname
  subst hid
  rfl

/-- A run that has begun and is not cleaned up has its ledger. -/
theorem stocked_of_logged (hw : S.Keeps w) (ho : S.orderly) (hk : ProperId k.runId.asStr)
    (h : S.Logged k n w) (hn : n = 1 ∨ n = 2 ∨ n = 3) :
    Stocked w (RunKey.ledgerPath S.stateDir k) := by
  have hphase := (hw.logs ho (RunKey.runName k)).2
  rw [h ho] at hphase
  obtain ⟨st, hst, hne⟩ : ∃ st, (w.runState (RunKey.runName k)).accepted = some st ∧
      st.phase ≠ .cleanupComplete := by
    cases hst : (w.runState (RunKey.runName k)).accepted with
    | none =>
      rw [hst] at hphase
      obtain rfl | rfl | rfl := hn <;> exact nomatch hphase
    | some st =>
      rw [hst] at hphase
      refine ⟨st, rfl, fun hcomplete => ?_⟩
      rw [Option.map_some, hcomplete] at hphase
      obtain rfl | rfl | rfl := hn <;> exact nomatch hphase
  have hstocked := hw.stocked ho _ st hst hne
  obtain ⟨r, ts, phase, rfl, hsane⟩ := hw.runs _ st hst
  rwa [RunKey.ledgerPath, ← key_of_state hk hsane]

/-- The ledger of a run that is cleaned up, or was never begun, is needed by no other. -/
theorem retirable_of_logged (hw : S.Keeps w) (hk : ProperId k.runId.asStr)
    (h : S.Logged k n w) (hn : n = 0 ∨ n = 4) :
    S.Retirable (RunKey.ledgerPath S.stateDir k) w := by
  intro ho name st hst hphase heq
  obtain ⟨r, ts, phase, rfl, hsane⟩ := hw.runs name st hst
  obtain ⟨hnickname, hid⟩ := ledgerPath_injective hsane.proper hk heq
  have hname : name = RunKey.runName k :=
    hsane.name_eq.trans (congrArg₂ runName hnickname hid)
  have hlogs := (hw.logs ho name).2
  rw [hst, hname, h ho] at hlogs
  obtain rfl | rfl := hn
  · exact nomatch hlogs
  · exact hphase (Option.some_inj.1 hlogs)

end Notions

section Calls

variable {S : Site} {J : ClientWorld → Prop} {k : RunKey} {n : Nat} {w : ClientWorld}
variable {path name : String} {r : RemoteRun} {ts : Option RunStatus} {phase : ClientRunPhase}

theorem onward_runTmp (f : RunStateFile) : Onward w (w.putRunTmp name f) :=
  ⟨List.prefix_refl _, fun _ => id, fun _ => rfl, rfl, rfl⟩

theorem keeps_runTmp (f : RunStateFile) (hw : S.Keeps w) : S.Keeps (w.putRunTmp name f) :=
  hw.onward (onward_runTmp f) hw.ledgers fun _ => id

theorem ensures_openRunTmp (hJ : Lasting J) : S.Ensures J (ask (.openRunTmp name)) fun _ => J := by
  refine ensures_ask hJ.settled (fun _ => hJ.settled) fun x w _ hw hpre => ?_
  obtain ⟨fault, torn⟩ := x
  cases fault with
  | some message => exact ⟨.refl _, hw, hpre⟩
  | none => exact ⟨.refl _, keeps_runTmp _ hw, hJ w _ (onward_runTmp _) hpre⟩

theorem ensures_writeRunTmp (hJ : Lasting J) {d : Doc ClientRunState} :
    S.Ensures J (ask (.writeRunTmp name d)) fun r w => ∀ a, r = .ok a →
      J w ∧ w.runTmp name = .text d := by
  refine ensures_ask hJ.settled (fun r w t h a ha => ?_) fun x w _ hw hpre => ?_
  · obtain ⟨hj, htmp⟩ := h a ha
    exact ⟨hJ.settled w t hj, htmp⟩
  · cases x with
    | some message => exact ⟨.refl _, hw, nofun⟩
    | none =>
      exact ⟨.refl _, keeps_runTmp _ hw, fun _ _ => ⟨hJ w _ (onward_runTmp _) hpre,
        Function.update_self ..⟩⟩

/-- A run that has come to its next phase. -/
def ClientWorld.advanced (w : ClientWorld) (name : String) (d : Doc ClientRunState)
    (phase : ClientRunPhase) : ClientWorld :=
  ((w.putRunState name (.text d)).putRunTmp name .missing).logged name (.reached phase)

/-- The next phase of the run may be persisted. -/
structure Site.MayAdvance (S : Site) (r : RemoteRun) (ts : Option RunStatus)
    (phase : ClientRunPhase) (n : Nat) (w : ClientWorld) : Prop where
  next : milestones[n]? = some (.reached phase)
  sane : Sane w.history (RunKey.runName r.key) r ts phase
  logged : S.Logged r.key n w
  issued : S.orderly → r.key.runId.asStr ∈ w.issued
  stocked : S.orderly → phase ≠ .cleanupComplete →
    Stocked w (RunKey.ledgerPath S.stateDir r.key)

variable (S r ts phase n) in
theorem lasting_mayAdvance : Lasting (S.MayAdvance r ts phase n) := fun w w' hw h =>
  ⟨h.next, h.sane.mono hw.history, lasting_logged w w' hw h.logged,
    fun ho => hw.issued ▸ h.issued ho, fun ho hphase => hw.stocked _ (h.stocked ho hphase)⟩

theorem take_succ_milestone (h : milestones[n]? = some (.reached phase)) :
    milestones.take (n + 1) = milestones.take n ++ [.reached phase] := by
  rw [List.take_add_one, h]
  rfl

theorem keeps_advanced (hw : S.Keeps w) (h : S.MayAdvance r ts phase n w)
    (hkept : S.kept (w.advanced (RunKey.runName r.key) (Doc.ofValue (r.state ts phase)) phase)) :
    S.Keeps (w.advanced (RunKey.runName r.key) (Doc.ofValue (r.state ts phase)) phase) := by
  have haccepted : (Doc.ofValue (r.state ts phase)).accepted = some (r.state ts phase) :=
    Doc.accepted_ofValue rfl compatible_current
  have hrun : ∀ name, ((w.advanced (RunKey.runName r.key) (Doc.ofValue (r.state ts phase))
      phase).runState name).accepted = if name = RunKey.runName r.key then
        some (r.state ts phase) else (w.runState name).accepted := by
    intro name
    change (Function.update w.runState _ _ name).accepted = _
    rw [Function.update_apply]
    split
    · exact haccepted
    · rfl
  have hlog : ∀ name, (w.advanced (RunKey.runName r.key) (Doc.ofValue (r.state ts phase))
      phase).log name = if name = RunKey.runName r.key then
        w.log (RunKey.runName r.key) ++ [.reached phase] else w.log name := by
    intro name
    change Function.update w.log _ _ name = _
    rw [Function.update_apply]
    rfl
  refine ⟨⟨hw.ledgers, fun name st hst => ?_, fun ho name => ?_, fun ho name st hst hphase => ?_,
    fun ho name hne => ?_, hw.ended⟩, hkept⟩
  · rw [hrun] at hst
    split at hst
    · rename_i hname
      exact ⟨r, ts, phase, (Option.some_inj.1 hst).symm, hname ▸ h.sane⟩
    · exact hw.runs name st hst
  · rw [hrun, hlog]
    split
    · rw [h.logged ho, ← take_succ_milestone h.next]
      refine ⟨List.take_prefix _ _, ?_⟩
      rw [take_succ_milestone h.next, phaseAfter, List.getLast?_concat]
      rfl
    · exact hw.logs ho name
  · rw [hrun] at hst
    split at hst
    · obtain rfl := Option.some_inj.1 hst
      exact h.stocked ho hphase
    · exact hw.stocked ho name st hst hphase
  · rw [hlog] at hne
    split at hne
    · rename_i hname
      exact ⟨_, _, hname, h.sane.proper, h.issued ho⟩
    · exact hw.used ho name hne

theorem logged_advanced (h : S.MayAdvance r ts phase n w) :
    S.Logged r.key (n + 1)
      (w.advanced (RunKey.runName r.key) (Doc.ofValue (r.state ts phase)) phase) := by
  intro ho
  rw [take_succ_milestone h.next, ← h.logged ho]
  exact Function.update_self ..

theorem resumed_advanced (h : S.MayAdvance r ts phase n w) (hn : n ≠ 0) :
    Resumed S.orderly w
      (w.advanced (RunKey.runName r.key) (Doc.ofValue (r.state ts phase)) phase) := by
  refine ⟨List.prefix_refl _, rfl, fun ho name hname => ?_⟩
  have hne : name ≠ RunKey.runName r.key := by
    rintro rfl
    rw [h.logged ho, List.take_eq_nil_iff] at hname
    exact hname.elim hn nofun
  exact (Function.update_of_ne hne ..).trans hname

/-- The state of a run comes to its place. -/
theorem ensures_publishRun {K : ClientWorld → Prop} (hJ : Lasting J) (hK : Settled K)
    (hadvanced : ∀ w, S.kept w → J w → S.MayAdvance r ts phase n w →
      S.kept (w.advanced (RunKey.runName r.key) (Doc.ofValue (r.state ts phase)) phase) ∧
        K (w.advanced (RunKey.runName r.key) (Doc.ofValue (r.state ts phase)) phase)) :
    S.Ensures (fun w => (J w ∧ S.MayAdvance r ts phase n w) ∧
        w.runTmp (RunKey.runName r.key) = .text (Doc.ofValue (r.state ts phase)))
      (ask (.publishRun (RunKey.runName r.key))) fun a w => ∀ u, a = .ok u → K w ∧
        S.Logged r.key (n + 1) w := by
  have hpre := hJ.and (lasting_mayAdvance S n r ts phase)
  refine ensures_ask (fun w t h => ⟨hpre.settled w t h.1, h.2⟩) (fun a w t h u hu => ?_)
    fun x w _ hw h => ?_
  · exact ⟨hK w t (h u hu).1, lasting_logged.settled w t (h u hu).2⟩
  · obtain ⟨⟨hj, hmay⟩, htmp⟩ := h
    cases x with
    | some message => exact ⟨.refl _, hw, nofun⟩
    | none =>
      have haccepted : (Doc.ofValue (r.state ts phase)).accepted = some (r.state ts phase) :=
        Doc.accepted_ofValue rfl compatible_current
      have hstep : (SyncOp.publishRun (RunKey.runName r.key)).step S.sha none w =
          (.ok (), w.advanced (RunKey.runName r.key) (Doc.ofValue (r.state ts phase)) phase) := by
        simp only [SyncOp.step, htmp, RunStateFile.accepted, haccepted]
        rfl
      rw [hstep]
      obtain ⟨hkept, hk⟩ := hadvanced w hw.kept hj hmay
      exact ⟨.refl _, keeps_advanced hw hmay hkept, fun _ _ => ⟨hk, logged_advanced hmay⟩⟩

variable (ts phase) in
/-- A run comes to its next phase. -/
theorem persist_advances {K : ClientWorld → Prop} (hJ : Lasting J) (hK : Settled K)
    (hadvanced : ∀ w, S.kept w → J w → S.MayAdvance r ts phase n w →
      S.kept (w.advanced (RunKey.runName r.key) (Doc.ofValue (r.state ts phase)) phase) ∧
        K (w.advanced (RunKey.runName r.key) (Doc.ofValue (r.state ts phase)) phase)) :
    S.Yields (fun w => J w ∧ S.MayAdvance r ts phase n w)
      (persistClientRunState S.stateDir r ts phase) fun _ w => K w ∧ S.Logged r.key (n + 1) w := by
  have hpre := hJ.and (lasting_mayAdvance S n r ts phase)
  have hdir : S.Ensures _ (ask (.createRunDir (RunKey.runName r.key))) _ :=
    ensures_quiet rfl hpre.stillKept
  refine Site.Yields.bind (.attempt (hdir.weaken fun _ w _ h _ _ => h)) fun _ => ?_
  refine Site.Yields.bind (.attempt ((ensures_openRunTmp hpre).weaken fun _ w _ h _ _ => h))
    fun _ => ?_
  refine Site.Yields.bind (.attempt (ensures_writeRunTmp hpre)) fun _ => ?_
  exact .attempt (ensures_publishRun hJ hK hadvanced)

/-- A run that can be resumed. -/
structure RemoteRun.Proper (r : RemoteRun) : Prop where
  id : ProperId r.key.runId.asStr
  manifest : r.manifest.purgeryVersion = currentPurgeryVersion
  runConfig : r.runConfig.purgeryVersion = currentPurgeryVersion

/-- A terminal status that may be persisted. -/
def Vouched (r : RemoteRun) (ts : Option RunStatus) (phase : ClientRunPhase) (w : ClientWorld) :
    Prop :=
  phase = .terminalStatusSeen → ∃ status, ts = some status ∧ .reported status ∈ w.history ∧
    status.key = r.key ∧ Compatible status.purgeryVersion

variable (r ts phase) in
theorem lasting_vouched : Lasting (Vouched r ts phase) := by
  intro w w' hw h hphase
  obtain ⟨status, hts, hmem, hrest⟩ := h hphase
  exact ⟨status, hts, hw.history.subset hmem, hrest⟩

theorem mem_known (h : milestones[n]? = some (.reached phase)) :
    phase ∈ [ClientRunPhase.uploadCompleteFinishPending, .waitingForTerminalState,
      .terminalStatusSeen, .cleanupComplete] := by
  have hmem := List.mem_of_getElem? h
  simpa [milestones] using hmem

/-- The ids of the runs that have begun are given out. -/
theorem issued_of_logged (hw : S.Keeps w) (ho : S.orderly) (hk : ProperId k.runId.asStr)
    (h : S.Logged k n w) (hn : n ≠ 0) : k.runId.asStr ∈ w.issued := by
  have hne : w.log (RunKey.runName k) ≠ [] := by
    rw [h ho]
    exact fun hnil => (List.take_eq_nil_iff.1 hnil).elim hn nofun
  obtain ⟨nickname, id, hname, hid, hmem⟩ := hw.used ho _ hne
  obtain ⟨-, rfl⟩ := runName_injective hk hid hname
  exact hmem

theorem mayAdvance_of_logged (hw : S.Keeps w) (hr : r.Proper) (hn : n ≠ 0)
    (hnext : milestones[n]? = some (.reached phase)) (h : S.Logged r.key n w)
    (hvouched : Vouched r ts phase w) : S.MayAdvance r ts phase n w where
  next := hnext
  sane := ⟨rfl, hr.id, hr.manifest, hr.runConfig, mem_known hnext, hvouched⟩
  logged := h
  issued ho := issued_of_logged hw ho hr.id h hn
  stocked ho hphase := by
    refine stocked_of_logged hw ho hr.id h ?_
    have hlt : n < milestones.length := (List.getElem?_eq_some_iff.1 hnext).1
    have hlast : n ≠ 4 := by
      rintro rfl
      exact nomatch Option.some_inj.1 hnext
    simp only [milestones, List.length_cons, List.length_nil] at hlt
    omega

variable (ts phase) in
/-- A run that has begun comes to its next phase. -/
theorem persist_keeps (hJ : S.Enduring J) (hr : r.Proper) (hn : n ≠ 0)
    (hnext : milestones[n]? = some (.reached phase)) :
    S.Yields (fun w => (J w ∧ Vouched r ts phase w) ∧ S.Logged r.key n w)
      (persistClientRunState S.stateDir r ts phase) fun _ w =>
        J w ∧ S.Logged r.key (n + 1) w := by
  have hadvances := persist_advances (S := S) (n := n) (r := r) ts phase
    hJ.lasting hJ.lasting.settled fun w hkept hj hmay =>
      ⟨S.endures w _ (resumed_advanced hmay hn) hkept, hJ w _ (resumed_advanced hmay hn) hj⟩
  exact hadvances.strengthen fun w hw h =>
    ⟨h.1.1, mayAdvance_of_logged hw hr hn hnext h.2 h.1.2⟩

end Calls

section Ends

variable {S : Site} {J : ClientWorld → Prop} {k : RunKey} {w : ClientWorld} {path name : String}

/-- The state of a run is gone. -/
def ClientWorld.closed (w : ClientWorld) (name : String) : ClientWorld :=
  (w.runState name).accepted.elim (w.putRunState name .missing) fun _ =>
    (w.putRunState name .missing).logged name .removed

theorem closed_runs (name' : String) : ((w.closed name).runState name').accepted =
    if name' = name then none else (w.runState name').accepted := by
  have hupdate : (Function.update w.runState name .missing name').accepted =
      if name' = name then none else (w.runState name').accepted := by
    rw [Function.update_apply]
    split <;> rfl
  unfold ClientWorld.closed
  cases (w.runState name).accepted <;> exact hupdate

theorem closed_log (name' : String) : (w.closed name).log name' =
    if name' = name ∧ (w.runState name).accepted ≠ none then w.log name ++ [.removed]
    else w.log name' := by
  unfold ClientWorld.closed
  cases hst : (w.runState name).accepted with
  | none => simp [ClientWorld.putRunState]
  | some st =>
    simp only [Option.elim_some, ClientWorld.logged, ClientWorld.putRunState,
      Function.update_apply, ne_eq, reduceCtorEq, not_false_eq_true, and_true]

variable (w name) in
theorem closed_same : (w.closed name).files = w.files ∧ (w.closed name).history = w.history ∧
    (w.closed name).issued = w.issued := by
  unfold ClientWorld.closed
  cases (w.runState name).accepted <;> exact ⟨rfl, rfl, rfl⟩

theorem resumed_closed (h : S.Closable name w) : Resumed S.orderly w (w.closed name) := by
  obtain ⟨-, hhistory, hissued⟩ := closed_same w name
  refine ⟨hhistory ▸ List.prefix_refl _, hissued, fun ho name' hname' => ?_⟩
  rw [closed_log]
  split
  · rename_i hcase
    obtain ⟨rfl, hsome⟩ := hcase
    have hlog := (h ho).resolve_left hsome
    rw [hname'] at hlog
    exact nomatch hlog
  · exact hname'

theorem keeps_closed (hw : S.Keeps w) (h : S.Closable name w) : S.Keeps (w.closed name) := by
  obtain ⟨hfiles, hhistory, hissued⟩ := closed_same w name
  refine ⟨⟨?_, fun name' st hst => ?_, fun ho name' => ?_, fun ho name' st hst hphase => ?_,
    fun ho name' hne => ?_, ?_⟩, S.endures w _ (resumed_closed h) hw.kept⟩
  · rw [hfiles, hhistory]
    exact hw.ledgers
  · rw [closed_runs] at hst
    split at hst
    · exact nomatch hst
    · rw [hhistory]
      exact hw.runs name' st hst
  · rw [closed_runs, closed_log]
    by_cases hname : name' = name
    · subst hname
      by_cases hsome : (w.runState name').accepted = none
      · simpa [hsome] using hw.logs ho name'
      · rw [if_pos rfl, if_pos ⟨rfl, hsome⟩, (h ho).resolve_left hsome]
        exact ⟨List.prefix_refl _, rfl⟩
    · rw [if_neg hname, if_neg fun hcase => hname hcase.1]
      exact hw.logs ho name'
  · rw [closed_runs] at hst
    split at hst
    · exact nomatch hst
    · unfold Stocked
      rw [hfiles]
      exact hw.stocked ho name' st hst hphase
  · rw [hissued]
    rw [closed_log] at hne
    split at hne
    · rename_i hcase
      obtain ⟨rfl, hsome⟩ := hcase
      refine hw.used ho name' ?_
      rw [(h ho).resolve_left hsome]
      exact nofun
    · exact hw.used ho name' hne
  · rw [hhistory]
    exact hw.ended

/-- The state of a run may go once the run is cleaned up. -/
theorem ensures_removeRunDir (hJ : S.Enduring J) :
    S.Ensures (fun w => J w ∧ S.Closable name w) (ask (.removeRunDir name)) fun _ w =>
      J w ∧ S.Closable name w := by
  have hpre := hJ.lasting.and (lasting_closable S name)
  have htmp : ∀ (c : Bool) (w : ClientWorld), Onward w (if c then w.putRunTmp name .missing else w)
      ∧ (S.Keeps w → S.Keeps (if c then w.putRunTmp name .missing else w)) := by
    intro c w
    cases c with
    | false => exact ⟨(Still.refl w).onward, id⟩
    | true => exact ⟨onward_runTmp _, keeps_runTmp _⟩
  refine ensures_ask hpre.settled (fun _ => hpre.settled) fun x w _ hw h => ?_
  obtain ⟨fault, stateGone, tmpGone⟩ := x
  obtain ⟨honward, hkeeps⟩ := htmp (fault.isNone || tmpGone) w
  have htree : (if (fault.isNone || tmpGone) = true then w.putRunTmp name .missing else w).tree =
      w.tree := by
    split <;> rfl
  generalize hw₁ : (if (fault.isNone || tmpGone) = true then w.putRunTmp name .missing else w) = w₁
    at honward hkeeps htree
  have hstep : ((SyncOp.removeRunDir name).step S.sha (fault, stateGone, tmpGone) w).2 =
      if fault.isNone || stateGone then w₁.closed name else w₁ := by
    simp only [SyncOp.step, hw₁, ClientWorld.closed, honward.runs]
  rw [hstep]
  obtain ⟨hj, hclosable⟩ := hpre w w₁ honward h
  split
  · obtain ⟨hfiles, -, -⟩ := closed_same w₁ name
    have htree' : (w₁.closed name).tree = w.tree := by
      rw [← htree, ClientWorld.tree, hfiles]
      rfl
    rw [htree']
    refine ⟨.refl _, keeps_closed (hkeeps hw) hclosable, hJ _ _ (resumed_closed hclosable) hj,
      fun _ => .inl ?_⟩
    rw [closed_runs, if_pos rfl]
  · rw [htree]
    exact ⟨.refl _, hkeeps hw, hj, hclosable⟩

theorem removeClientRunState_keeps (hJ : S.Enduring J) :
    S.Yields (fun w => J w ∧ S.Closable (RunKey.runName k) w) (removeClientRunState k) fun _ w =>
      J w ∧ S.Closable (RunKey.runName k) w := by
  have hpre := hJ.lasting.and (lasting_closable S (RunKey.runName k))
  exact .lift_bind (ensures_removeRunDir hJ) fun _ => .pure hpre.settled

theorem resumed_retired : Resumed S.orderly w (w.putLedger path .missing) :=
  ⟨List.prefix_refl _, rfl, fun _ _ => id⟩

theorem keeps_retired (hw : S.Keeps w) (h : S.Retirable path w) :
    S.Keeps (w.putLedger path .missing) := by
  have hledger : ∀ p, ((w.putLedger path .missing).files.ledger p).accepted =
      if p = path then none else (w.files.ledger p).accepted := by
    intro p
    change (Function.update w.files.ledger path .missing p).accepted = _
    rw [Function.update_apply]
    split <;> rfl
  refine ⟨⟨fun p s hs => ?_, hw.runs, hw.logs, fun ho name st hst hphase => ?_, hw.used,
    hw.ended⟩, S.endures w _ resumed_retired hw.kept⟩
  · rw [hledger] at hs
    split at hs
    · exact nomatch hs
    · exact hw.ledgers p s hs
  · unfold Stocked
    rw [hledger, if_neg (h ho name st hst hphase)]
    exact hw.stocked ho name st hst hphase

/-- A ledger may go once no run needs it. -/
theorem retire_keeps (hJ : Lasting J) (hretired : ∀ w, J w → J (w.putLedger path .missing)) :
    S.Yields (fun w => J w ∧ S.Retirable path w) (retireCleanupStateFile path) fun _ => J := by
  have hpre := hJ.and (lasting_retirable S path)
  refine .attempt (ensures_ask hpre.settled (fun r w t h a ha => hJ.settled w t (h a ha))
    fun x w _ hw h => ?_)
  cases x with
  | some message => exact ⟨.refl _, hw, by rintro _ ⟨⟩⟩
  | none =>
    simp only [SyncOp.step]
    split
    · exact ⟨.refl _, hw, by rintro _ ⟨⟩⟩
    · exact ⟨.refl _, keeps_retired hw h.2, fun _ _ => hretired w h.1⟩

variable (path) in
theorem processAndRetire_keeps (hJ : Lasting J)
    (hretired : ∀ w, J w → J (w.putLedger path .missing)) :
    S.Yields (fun w => J w ∧ S.Retirable path w) (processCleanupStateFileAndRetire path)
      fun _ => J := by
  have hpre := hJ.and (lasting_retirable S path)
  refine Site.Yields.bind (processCleanupStateFile_keeps hpre) fun outcome => ?_
  have hdone : S.Yields J (pure outcome : SyncM CleanupOutcome) fun _ => J := .pure hJ.settled
  cases outcome with
  | complete => exact Site.Yields.bind (retire_keeps hJ hretired) fun _ => hdone
  | stillPending => exact hdone.strengthen fun w _ h => h.1

end Ends

end Purgery.Client
