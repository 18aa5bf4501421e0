import Purgery.Client.DrainRules

namespace Purgery.Client

open Purgery.Path
open Purgery.Interleaving
open Purgery.Server (IoError)

/-! What a sync does before its own work keeps the contract of a client. -/

section Runs

variable {S : Site} {name : String} {dbg : Debug} {fuel : Nat} {st : ClientRunState}
variable {seen : Trouble} {w : ClientWorld}

/-- No run was left because its ledger is gone. -/
def Trouble.Mild (orderly : Prop) (seen : Trouble) : Prop :=
  orderly → ∀ e, seen.firstDrainError = some e → e.wedged = false

/-- What no reader accepts may be put aside. -/
theorem ensures_setAside :
    S.Ensures (fun w => (w.runState name).accepted = none) (ask (.setAside name)) fun _ _ =>
      True := by
  refine ensures_ask (fun _ _ => id) (fun _ _ _ => id) fun x w _ hw h => ?_
  have honward : Onward w (w.putRunState name .missing) := by
    refine ⟨List.prefix_refl _, fun _ => id, fun name' => ?_, rfl, rfl⟩
    change (Function.update w.runState name .missing name').accepted = _
    rw [Function.update_apply]
    split
    · rename_i hname
      rw [hname, h]
      rfl
    · rfl
  cases x with
  | some message => exact ⟨.refl _, hw, trivial⟩
  | none =>
    simp only [SyncOp.step]
    split
    · exact ⟨.refl _, hw, trivial⟩
    · exact ⟨.refl _, hw.onward honward hw.ledgers fun _ => id, trivial⟩

/-- A state in its place is drained, and then its directory goes. -/
theorem drainOne_accepted :
    S.Yields (fun w => (w.runState name).accepted = some st) (drainOne dbg S.stateDir fuel st)
      fun _ => S.Closable name := by
  have hdrain : S.Yields (fun w => ∃ r ts phase n, (st = r.state ts phase ∧
      name = RunKey.runName r.key ∧ r.Proper ∧ milestones[n]? = some (.reached phase)) ∧
        S.Logged r.key (n + 1) w ∧ Vouched r ts phase w) (drainOne dbg S.stateDir fuel st)
      fun _ => S.Closable name := by
    refine Triple.exists_pre fun r => Triple.exists_pre fun ts => Triple.exists_pre fun phase =>
      Triple.exists_pre fun n => Triple.pure_pre ?_
    rintro ⟨rfl, rfl, hr, hnext⟩
    exact drainOne_keeps hr hnext
  refine hdrain.strengthen fun w hw hst => ?_
  obtain ⟨r, ts, phase, rfl, hsane⟩ := hw.runs name st hst
  have hknown : Milestone.reached phase ∈ milestones := by
    have hphase := hsane.known
    simpa [milestones] using hphase
  obtain ⟨n, hnext⟩ := List.mem_iff_getElem?.1 hknown
  obtain rfl := hsane.name_eq
  exact ⟨r, ts, phase, n, ⟨rfl, rfl, ⟨hsane.proper, hsane.manifest, hsane.runConfig⟩, hnext⟩,
    logged_of_phase hw hst hnext, hsane.seen⟩

theorem ensures_readRun : S.Ensures (fun _ => True) (ask (.readRun name)) fun r w =>
    ∀ d, r = .ok d → w.runState name = .text d := by
  refine (ensures_answer (J := fun _ => True) (o := .readRun name) rfl (fun _ _ _ => id)
    (A := fun r w => ∀ d, r = .ok d → w.runState name = .text d) (fun _ _ _ => id)
    fun x w _ _ _ d hd => ?_).weaken fun _ _ _ h => h.2
  cases x with
  | some message => exact nomatch hd
  | none =>
    change (w.runState name).read = .ok d at hd
    change w.runState name = .text d
    cases hfile : w.runState name with
    | missing =>
      rw [hfile] at hd
      exact nomatch hd
    | unreadable message =>
      rw [hfile] at hd
      exact nomatch hd
    | text d' =>
      rw [hfile] at hd
      rw [Except.ok.inj hd]

theorem ensures_mild {pre : ClientWorld → Prop} {seen' : Trouble} (h : seen'.Mild S.orderly) :
    S.Ensures pre (.ret seen') fun seen' _ => seen'.Mild S.orderly :=
  ensures_ret fun _ _ _ => h

theorem drainNext_keeps (hseen : seen.Mild S.orderly) :
    S.Ensures (fun w => (w.runState name).accepted = some st)
      (do
        match ← (drainOne dbg S.stateDir fuel st).run with
        | .ok () =>
          let _ ← ask (.removeRunDir name)
          return seen
        | .error e => return ⟨true, seen.firstDrainError.or (some e)⟩)
      fun seen' _ => seen'.Mild S.orderly := by
  have hdrain : S.Yields (fun w => (w.runState name).accepted = some st)
      (drainOne dbg S.stateDir fuel st) fun _ => S.Closable name := drainOne_accepted
  refine ensures_bind hdrain fun r => ?_
  cases r with
  | ok u =>
    exact ensures_bind ((ensures_removeRunDir enduring_true).strengthen fun _ _ h => ⟨trivial, h⟩)
      fun _ => ensures_mild hseen
  | error e =>
    refine ensures_ret fun w t h ho e' he' => ?_
    cases hfirst : seen.firstDrainError with
    | none =>
      rw [hfirst] at he'
      exact Option.some_inj.1 he' ▸ h ho
    | some first =>
      rw [hfirst] at he'
      exact Option.some_inj.1 he' ▸ hseen ho first hfirst

/-- Only a state that no reader accepts is put aside, and only a run that is done with
loses its directory. -/
theorem resumeRun_keeps (hseen : seen.Mild S.orderly) :
    S.Ensures (fun _ => True) (resumeRun dbg S.stateDir fuel name seen) fun seen' _ =>
      seen'.Mild S.orderly := by
  have hnote : ({ seen with anyError := true } : Trouble).Mild S.orderly := hseen
  refine ensures_bind (ensures_quiet rfl fun _ _ _ => id) fun found => ?_
  cases found with
  | false => exact ensures_mild hseen
  | true =>
    refine ensures_bind ensures_readRun fun content => ?_
    cases content with
    | error e => exact ensures_mild hseen
    | ok d =>
      dsimp only
      have haside : d.accepted = none → S.Ensures
          (fun w => ∀ d', Except.ok (ε := IoError) d = .ok d' → w.runState name = .text d')
          (ask (.setAside name) >>= fun _ => .ret { seen with anyError := true })
          fun seen' _ => seen'.Mild S.orderly := fun hnone => by
        refine ensures_bind (ensures_setAside.strengthen fun w _ h => ?_) fun _ =>
          ensures_mild hnote
        rw [h d rfl]
        exact hnone
      split
      · exact ensures_mild hseen
      · rename_i message hprobe
        refine haside ?_
        unfold Doc.accepted
        rw [hprobe]
      · rename_i version hprobe
        split
        · exact ensures_mild hseen
        · rename_i u hversion
          split
          · rename_i message hparsed
            refine haside ?_
            unfold Doc.accepted
            rw [hprobe, hparsed]
            simp only [Except.toOption, ite_self]
          · rename_i st hparsed
            have haccepted : d.accepted = some st := by
              unfold Doc.accepted
              rw [hprobe, hparsed]
              exact if_pos (requireCompatible_ok.1 hversion)
            refine (drainNext_keeps hseen).strengthen fun w _ h => ?_
            rw [h d rfl]
            exact haccepted

theorem resumeNames_keeps (names : List String) (hseen : seen.Mild S.orderly) :
    S.Ensures (fun _ => True) (resumeNames dbg S.stateDir fuel names seen) fun seen' _ =>
      seen'.Mild S.orderly := by
  induction names generalizing seen with
  | nil => exact ensures_mild hseen
  | cons name rest ih =>
    refine ensures_bind (resumeRun_keeps hseen) fun seen' => ?_
    intro w hw hseen'
    exact ih hseen' w hw trivial

theorem resumeRuns_keeps :
    S.Yields (fun _ => True) (resumeRuns dbg S.stateDir fuel) fun _ _ => True := by
  have hdone : ∀ {pre : ClientWorld → Prop}, S.Yields pre (pure () : SyncM Unit) fun _ _ => True :=
    .pure fun _ _ _ => trivial
  refine .lift_bind (ensures_quiet rfl fun _ _ _ => id) fun isDir => ?_
  cases isDir with
  | false => exact hdone
  | true =>
    refine .lift_bind (ensures_quiet rfl fun _ _ _ => id) fun names => ?_
    split
    · exact hdone
    · exact .abort _
    · rename_i names
      have hstart : (⟨false, none⟩ : Trouble).Mild S.orderly := fun _ _ h => nomatch h
      refine .lift_bind (resumeNames_keeps (sortNames names) hstart) fun seen => ?_
      split
      · refine .fail fun w h ho => ?_
        cases hfirst : seen.firstDrainError with
        | none => rfl
        | some e => exact h ho e hfirst
      · exact hdone

end Runs

section Pending

variable {S : Site} {path name : String} {s : DurableCleanupState} {w : ClientWorld}

theorem ensures_runExists : S.Ensures (fun _ => True) (ask (.runExists name)) fun found w =>
    found = false → S.orderly → (w.runState name).accepted = none := by
  refine (ensures_answer (J := fun _ => True) (o := .runExists name) rfl (fun _ _ _ => id)
    (A := fun found w => found = false → S.orderly → (w.runState name).accepted = none)
    (fun _ _ _ => id) fun x w htruth _ _ hfound ho => ?_).weaken fun _ _ _ h => h.2
  obtain rfl : x = false := htruth ho
  change (!false && (w.runState name).present) = false at hfound
  change (w.runState name).accepted = none
  cases hfile : w.runState name with
  | missing => rfl
  | unreadable message => rfl
  | text d =>
    rw [hfile] at hfound
    exact nomatch hfound

/-- No run needs a ledger whose run is not remembered. -/
theorem retirable_of_absent (hw : S.Keeps w) (hpath : path = ledgerPath S.stateDir s.nickname
    s.operationId) (hproper : ProperId s.operationId) (hnone : S.orderly →
      (w.runState (runName s.nickname s.operationId)).accepted = none) : S.Retirable path w := by
  intro ho name st hst _ heq
  obtain ⟨r, ts, phase, rfl, hsane⟩ := hw.runs name st hst
  obtain ⟨hnickname, hid⟩ := ledgerPath_injective hsane.proper hproper (heq.trans hpath)
  have hname : name = runName s.nickname s.operationId :=
    hsane.name_eq.trans (congrArg₂ runName hnickname hid)
  rw [hname, hnone ho] at hst
  exact nomatch hst

/-- A ledger is retired only if the run that it belongs to is not remembered. -/
theorem resumeLedger_keeps (hpath : path = ledgerPath S.stateDir s.nickname s.operationId)
    (hproper : ProperId s.operationId) :
    S.Ensures (fun _ => True) (resumeLedger path s) fun _ _ => True := by
  have htrue : Lasting fun _ => True := fun _ _ _ => id
  have hdone : ∀ {pre : ClientWorld → Prop}, S.Ensures pre (.ret ()) fun _ _ => True :=
    ensures_ret fun _ _ _ => trivial
  refine ensures_bind (M := fun _ _ => True) (Triple.weaken (processCleanupStateFile_keeps htrue)
    fun _ _ _ _ => trivial) fun r => ?_
  cases r with
  | error e => exact hdone
  | ok outcome =>
    cases outcome with
    | stillPending => exact ensures_bind (ensures_quiet rfl htrue.stillKept) fun _ => hdone
    | complete =>
      refine ensures_bind ensures_runExists fun found => ?_
      cases found with
      | true => exact hdone
      | false =>
        refine ensures_bind (M := fun _ _ => True) (Triple.conseq
          (retire_keeps (S := S) htrue fun _ _ => trivial) (fun w hw h => ⟨trivial, ?_⟩)
          fun _ _ _ _ => trivial) fun _ => hdone
        exact retirable_of_absent hw hpath hproper (h rfl)

theorem resumeEntry_keeps :
    S.Ensures (fun _ => True) (resumeEntry S.stateDir name) fun _ _ => True := by
  have hdone : ∀ {pre : ClientWorld → Prop}, S.Ensures pre (.ret ()) fun _ _ => True :=
    ensures_ret fun _ _ _ => trivial
  unfold resumeEntry
  split
  · exact hdone
  · refine ensures_bind (ensures_readLedger fun _ _ _ => id) fun content => ?_
    cases content with
    | error e => exact hdone
    | ok d =>
      dsimp only
      split
      · exact hdone
      · rename_i version hprobe
        split
        · exact hdone
        · rename_i u hversion
          split
          · exact hdone
          · rename_i s hparsed
            have haccepted : d.accepted = some s := by
              unfold Doc.accepted
              rw [hprobe, hparsed]
              exact if_pos (requireCompatible_ok.1 hversion)
            have hledger : S.Ensures (fun _ => (join S.stateDir name =
                ledgerPath S.stateDir s.nickname s.operationId ∧ ProperId s.operationId) ∧ True)
                (resumeLedger (join S.stateDir name) s) fun _ _ => True :=
              Triple.pure_pre fun h => resumeLedger_keeps h.1 h.2
            refine hledger.strengthen fun w hw h => ⟨?_, trivial⟩
            obtain ⟨first, hb⟩ := hw.ledgers (join S.stateDir name) s
              (by rw [h.2 d rfl]; exact haccepted)
            exact ⟨hb.path_eq, hb.proper⟩

theorem resumeEntries_keeps (entries : List (Except IoError String)) :
    S.Yields (fun _ => True) (resumeEntries S.stateDir entries) fun _ _ => True := by
  induction entries with
  | nil => exact .pure fun _ _ _ => trivial
  | cons entry rest ih =>
    cases entry with
    | error e => exact .abort _
    | ok name => exact .lift_bind resumeEntry_keeps fun _ => ih

theorem resumePendingCleanups_keeps :
    S.Yields (fun _ => True) (resumePendingCleanups S.stateDir) fun _ _ => True := by
  have hdone : ∀ {pre : ClientWorld → Prop}, S.Yields pre (pure () : SyncM Unit) fun _ _ => True :=
    .pure fun _ _ _ => trivial
  have hcreate : S.Ensures (fun _ => True) (stateDirPath S.stateDir).run fun _ _ => True :=
    Triple.weaken (Site.Yields.attempt (S := S) (M := fun _ _ => True)
      ((ensures_quiet rfl fun _ _ _ => id).weaken fun _ _ _ _ _ _ => trivial)) fun _ _ _ _ => trivial
  refine .lift_bind hcreate fun r => ?_
  cases r with
  | error e => exact hdone
  | ok u =>
    refine .lift_bind (ensures_quiet rfl fun _ _ _ => id) fun found => ?_
    cases found with
    | false => exact hdone
    | true =>
      refine .bind (.attempt ((ensures_quiet (o := .listStateDir) (J := fun _ => True) rfl
        fun _ _ _ => id).weaken fun _ _ _ _ _ _ => trivial)) fun entries => ?_
      exact resumeEntries_keeps entries

end Pending

end Purgery.Client
