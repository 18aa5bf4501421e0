import Purgery.Client.ResumeRules

namespace Purgery.Client

open Purgery.Path
open Purgery.Interleaving
open Purgery.Server (IoError FileKind)

/-! A sync keeps the contract of a client. -/

section Ids

variable {S : Site} {K pre : ClientWorld → Prop} {α : Type} {id : String} {w : ClientWorld}

/-- The site where more is kept. -/
def Site.also (S : Site) (K : ClientWorld → Prop) (hK : S.Enduring K) : Site :=
  { S with
    kept := fun w => S.kept w ∧ K w
    endures := fun w w' h hw => ⟨S.endures w w' h hw.1, hK w w' h hw.2⟩ }

theorem also_keeps {hK : S.Enduring K} : (S.also K hK).Keeps w ↔ S.Keeps w ∧ K w :=
  ⟨fun h => ⟨⟨h.toInv, h.kept.1⟩, h.kept.2⟩, fun h => ⟨h.1.toInv, h.1.kept, h.2⟩⟩

theorem Site.Yields.also {hK : S.Enduring K} {x : SyncM α} {M : α → ClientWorld → Prop}
    (h : (S.also K hK).Yields pre x M) :
    S.Yields (fun w => pre w ∧ K w) x fun a w => M a w ∧ K w := by
  have hstable : ∀ w w', S.contract.rely () w w' → K w → K w' := by
    rintro w _ ⟨t, rfl⟩ hk
    exact hK.lasting.settled w t hk
  refine Triple.weaken (Triple.keep (C := S.contract) (D := (S.also K hK).contract)
    (fun _ => also_keeps) rfl rfl hstable h) fun r w _ hr => ?_
  cases r with
  | ok a => exact hr
  | error e => exact hr.1

/-- An id is given out, and no run has begun with it. -/
theorem ensures_generate (hkept : ∀ w, S.kept w) :
    S.Ensures (fun _ => True) (ask .generate) fun id w =>
      ProperId id.asStr ∧ S.Fresh id.asStr w := by
  refine ensures_ask (fun _ _ => id) (fun id w t h =>
    ⟨h.1, (enduring_fresh S id.asStr).lasting.settled w t h.2⟩) fun u w htruth hw _ => ?_
  refine ⟨.refl _, ⟨⟨hw.ledgers, hw.runs, hw.logs, hw.stocked, fun ho name hname => ?_,
    hw.ended⟩, hkept _⟩, u.proper, fun ho => ⟨List.mem_cons_self, fun nickname => ?_⟩⟩
  · obtain ⟨nickname, id, heq, hproper, hmem⟩ := hw.used ho name hname
    exact ⟨nickname, id, heq, hproper, List.mem_cons_of_mem _ hmem⟩
  · by_contra hne
    obtain ⟨nickname', id, heq, hproper, hmem⟩ := hw.used ho _ hne
    obtain ⟨-, hid⟩ := runName_injective u.proper hproper heq
    exact htruth ho (hid ▸ hmem)

theorem logged_of_fresh {k : RunKey} (h : S.Fresh k.runId.asStr w) : S.Logged k 0 w :=
  fun ho => (h ho).2 k.nickname.asStr

end Ids

section Files

variable {S : Site} {J : ClientWorld → Prop} {α : Type} {spec : SourceSpec}

/-- Code that only reads local files. -/
theorem onFiles_keeps {c : ExceptT String FileCall α} {Q : α → Prop}
    (hreads : c.run.Only fun o => o.reads = true)
    (hanswers : Gives c Q) (hJ : StillKept J) :
    S.Yields J (onFiles c) fun a w => J w ∧ Q a := by
  have honly : (fileCalls.embed c.run).Only fun o => o.quiet = true :=
    hreads.embed fileCalls fun _ h => h
  refine .answered (Triple.weaken (Triple.answers (ensures_only honly hJ)
    (hanswers.embed fileCalls)) fun r w _ h a ha => ⟨h.1, h.2 a ha⟩)

theorem reading {o : FileOp} (h : o.reads = true) : (file o).Only fun o => o.reads = true :=
  ⟨h, fun _ => trivial⟩

theorem captureChild_reads {path : String} {found : Found} :
    (captureChild spec path found).run.Only fun o => o.reads = true := by
  refine .runBind (.runLift (reading rfl)) fun ft => ?_
  split
  · trivial
  · split
    · trivial
    · split
      · trivial
      · refine .runBind (.runLift (reading rfl)) fun _ => ?_
        refine .runBind (.runLift (reading rfl)) fun _ => ?_
        exact .runBind (.runAdapt (reading rfl)) fun _ => trivial
      · exact .runBind (.runAdapt (reading rfl)) fun _ => trivial
      · trivial

theorem captureChildren_reads (paths : List String) (found : Found) :
    (captureChildren spec paths found).run.Only fun o => o.reads = true := by
  induction paths generalizing found with
  | nil => trivial
  | cons path rest ih => exact .runBind captureChild_reads fun found => ih found

theorem captureBelow_reads (path : String) (found : Found) : (do
    let paths ← ExceptT.lift (file (.walk path))
    let (entries, dirs) ← captureChildren spec paths found
    return sortByDepth (entries ++ dirs.reverse.map fun d => directoryEntry d.1 d.2) :
      ExceptT String FileCall (List CleanupEntry)).run.Only fun o => o.reads = true :=
  .runBind (.runLift (reading rfl)) fun paths =>
    .runBind (captureChildren_reads paths found) fun _ => trivial

theorem captureCleanupIdentity_reads :
    (captureCleanupIdentity spec).run.Only fun o => o.reads = true := by
  refine .runBind (.runAdapt (reading rfl)) fun ft => ?_
  split
  · exact .runBind (.runAdapt (reading rfl)) fun _ => trivial
  · exact .runBind (.runAdapt (reading rfl)) fun _ => trivial
  · exact captureBelow_reads _ _
  · exact captureBelow_reads _ _

/-- What has been found is not confirmed, and the source is part of it. -/
def Found.Bare (found : Found) : Prop := (∀ e ∈ found.1, e.bare = e) ∧ found.2 ≠ []

theorem captureChild_bare {path : String} {found : Found} (h : found.Bare) :
    Gives (captureChild spec path found) Found.Bare := by
  have hentry : ∀ e : CleanupEntry, e.bare = e → Found.Bare (found.1 ++ [e], found.2) := by
    refine fun e he => ⟨fun e' he' => ?_, h.2⟩
    obtain hmem | hmem := List.mem_append.1 he'
    · exact h.1 e' hmem
    · rw [List.mem_singleton.1 hmem, he]
  refine .after fun ft => ?_
  split
  · exact .pure h
  · split
    · exact .pure h
    · split
      · exact .pure ⟨h.1, List.append_ne_nil_of_left_ne_nil h.2 _⟩
      · exact .after fun _ => .after fun _ => .after fun _ => .pure (hentry _ rfl)
      · exact .after fun _ => .pure (hentry _ rfl)
      · exact .pure h

theorem captureChildren_bare (paths : List String) {found : Found} (h : found.Bare) :
    Gives (captureChildren spec paths found) Found.Bare := by
  induction paths generalizing found with
  | nil => exact .pure h
  | cons path rest ih => exact .bind (captureChild_bare h) fun _ => ih

theorem captureBelow_bare (path : String) {found : Found} (h : found.Bare) : Gives (do
    let paths ← ExceptT.lift (file (.walk path))
    let (entries, dirs) ← captureChildren spec paths found
    return sortByDepth (entries ++ dirs.reverse.map fun d => directoryEntry d.1 d.2) :
      ExceptT String FileCall (List CleanupEntry)) fun entries =>
        entries ≠ [] ∧ ∀ e ∈ entries, e.bare = e := by
  refine .after fun paths => .bind (captureChildren_bare paths h)
    fun found' h' => .pure ⟨fun hnil => ?_, fun e he => ?_⟩
  · have hperm := List.mergeSort_perm (found'.1 ++ found'.2.reverse.map fun d =>
      directoryEntry d.1 d.2) fun a b : CleanupEntry => decide (b.depth ≤ a.depth)
    rw [show List.mergeSort _ _ = [] from hnil] at hperm
    have happend := hperm.symm.eq_nil
    rw [List.append_eq_nil_iff, List.map_eq_nil_iff, List.reverse_eq_nil_iff] at happend
    exact h'.2 happend.2
  · obtain hmem | hmem := List.mem_append.1 (List.mem_mergeSort.1 he)
    · exact h'.1 e hmem
    · obtain ⟨d, -, rfl⟩ := List.mem_map.1 hmem
      rfl

theorem captureCleanupIdentity_bare : Gives (captureCleanupIdentity spec) fun entries =>
    entries ≠ [] ∧ ∀ e ∈ entries, e.bare = e := by
  have hone : ∀ e : CleanupEntry, e.bare = e → [e] ≠ [] ∧ ∀ e' ∈ [e], e'.bare = e' :=
    fun e he => ⟨by rintro ⟨⟩, List.forall_mem_singleton.2 he⟩
  refine .after fun ft => ?_
  split
  · exact .after fun _ => .pure (hone _ rfl)
  · exact .after fun _ => .pure (hone _ rfl)
  · exact captureBelow_bare _ ⟨by rintro _ ⟨⟩, by rintro ⟨⟩⟩
  · exact captureBelow_bare _ ⟨by rintro _ ⟨⟩, by rintro ⟨⟩⟩

theorem buildManifest_reads {k : RunKey} {transform : Option String} :
    (buildManifest spec k transform).run.Only fun o => o.reads = true := by
  refine .runBind (.runAdapt (reading rfl)) fun metadata => ?_
  refine .runBind trivial fun _ => .runBind trivial fun _ => .runBind trivial fun _ => ?_
  refine .runBind ?_ fun _ => .runBind ?_ fun _ => trivial
  · unfold fileIdentity
    split
    · exact .runBind (.runAdapt (reading rfl)) fun _ => trivial
    · trivial
  · unfold fileTarget
    split
    · exact .runBind (.runAdapt (reading rfl)) fun _ => trivial
    · trivial

theorem buildManifest_version {k : RunKey} {transform : Option String} :
    Gives (buildManifest spec k transform) fun m => m.purgeryVersion = currentPurgeryVersion :=
  .after fun _ => .after fun _ => .after fun _ => .after fun _ => .after fun _ => .after fun _ =>
    .pure rfl

end Files

section Passthrough

variable {S : Site} {J : ClientWorld → Prop} {spec : SourceSpec} {k : RunKey}
variable {source host operand path : String} {purpose : Purpose} {deleteAfterImport : Bool}
variable {first : DurableCleanupState} {ledger : Option String} {remote : RemoteDestination}

/-- The ledger of an operation, if it may delete. -/
def Site.Captured (S : Site) (k : RunKey) (ledger : Option String) (w : ClientWorld) : Prop :=
  ∀ path, ledger = some path → path = RunKey.ledgerPath S.stateDir k ∧
    ∃ first, first.OfRun k ∧ S.Holds path first w

variable (S k ledger) in
theorem stillKept_captured : StillKept (S.Captured k ledger) := by
  intro w w' hs h path hpath
  obtain ⟨heq, first, hrun, hholds⟩ := h path hpath
  exact ⟨heq, first, hrun, stillKept_holds w w' hs hholds⟩

theorem captureLedger_keeps (hJ : Lasting J) (hk : ProperId k.runId.asStr) :
    S.Yields J (captureLedger S.stateDir spec k deleteAfterImport) fun ledger w =>
      (deleteAfterImport = true → ledger ≠ none) ∧ J w ∧ S.Captured k ledger w := by
  cases deleteAfterImport with
  | false => exact .pure fun w t h => ⟨nofun, hJ.settled w t h, nofun⟩
  | true =>
    refine .bind (onFiles_keeps captureCleanupIdentity_reads captureCleanupIdentity_bare
      hJ.stillKept) fun entries => ?_
    split
    · rename_i hempty
      refine Triple.false_pre fun w _ h => h.2.1 (List.isEmpty_iff.1 hempty)
    · have hwrite : S.Yields (fun w => (entries ≠ [] ∧ ∀ e ∈ entries, e.bare = e) ∧ J w)
          (do
            let path ← writeCleanupState S.stateDir
              ⟨currentPurgeryVersion, k.nickname.asStr, k.runId.asStr, entries⟩
            return some path) fun ledger w =>
              (true = true → ledger ≠ none) ∧ J w ∧ S.Captured k ledger w := by
        refine Triple.pure_pre fun hentries => ?_
        refine Site.Yields.bind (writeCleanupState_keeps hJ hentries.2 hk compatible_current)
          fun path => Site.Yields.pure fun w t h => ⟨fun _ => nofun, hJ.settled w t h.2.1, ?_⟩
        rintro _ ⟨⟩
        exact ⟨h.1, _, ⟨rfl, rfl⟩, stillKept_holds.settled w t h.2.2⟩
      exact hwrite.strengthen fun _ _ h => ⟨h.2, h.1⟩

/-- A transfer that went well is remembered. -/
theorem rsync_keeps {args : List String} {what route : String} (hJ : StillKept J) :
    S.Yields J
      (do
        let outcome ← ExceptT.lift (ask (.remote (.rsync purpose source args)))
        checked (rsyncOutcome what route outcome)) fun _ w =>
      J w ∧ ∃ t h, w.history = h ++ [.transferred purpose source t] := by
  have hevent : S.Ensures J (ask (.remote (.rsync purpose source args))) fun outcome w =>
      J w ∧ (outcome = some true → ∃ t h, w.history = h ++ [.transferred purpose source t]) := by
    refine ensures_answer (o := .remote (.rsync purpose source args)) rfl hJ
      (A := fun outcome w => outcome = some true → ∃ t h,
        w.history = h ++ [.transferred purpose source t]) (fun _ _ _ => id)
      fun x w _ _ _ hx => ?_
    obtain rfl : x = some true := hx
    exact ⟨w.tree, w.history, rfl⟩
  refine .lift_bind hevent fun outcome => .checked fun u hok w t h => ⟨hJ.settled w t h.1, ?_⟩
  refine h.2 ?_
  unfold rsyncOutcome at hok
  split at hok
  · exact nomatch hok
  · exact nomatch hok
  · rfl

theorem runRsync_keeps (hJ : StillKept J) :
    S.Yields J (runRsync source host purpose operand) fun _ w =>
      J w ∧ ∃ t h, w.history = h ++ [.transferred purpose source t] :=
  rsync_keeps hJ

/-- What was captured before a transfer. -/
theorem sent_of_transferred {t : LocalTree} {h : List SyncEvent} {w : ClientWorld}
    (hrun : first.OfRun k) (hmem : .captured first ∈ w.history)
    (hhistory : w.history = h ++ [.transferred (.direct k) source t]) : Sent first w := by
  refine ⟨k, source, t, hrun, ?_⟩
  rw [hhistory] at hmem ⊢
  obtain hbefore | hlast := List.mem_append.1 hmem
  · exact (List.singleton_sublist.2 hbefore).append (List.Sublist.refl [_])
  · exact nomatch List.mem_singleton.1 hlast

theorem passthroughWithCleanup_keeps (hk : ProperId k.runId.asStr) :
    S.Yields (fun w => S.Fresh k.runId.asStr w ∧ S.Captured k ledger w)
      (passthroughWithCleanup spec k remote ledger) fun _ _ => True := by
  have hfresh := (enduring_fresh S k.runId.asStr).lasting
  have hpre := hfresh.stillKept.and (stillKept_captured S k ledger)
  refine .bind (runRsync_keeps hpre) fun _ => ?_
  cases ledger with
  | none => exact .pure fun _ _ _ => trivial
  | some path =>
    have hcleanup : S.Yields (fun w => ∃ first, path = RunKey.ledgerPath S.stateDir k ∧
        (S.Logged k 0 w ∧ S.Holds path first w) ∧ Sent first w)
        (do
          onLedgers (confirmAllImports path)
          let _ ← processCleanupStateFileAndRetire path
          return ()) fun _ _ => True := by
      refine Triple.exists_pre fun first => Triple.pure_pre ?_
      rintro rfl
      have hlogged := lasting_logged (S := S) (k := k) (n := 0)
      refine Site.Yields.bind (confirmAllImports_keeps hlogged) fun _ => ?_
      refine Site.Yields.bind ((processAndRetire_keeps _ hlogged logged_retired).strengthen
        fun w hw h => ⟨h, retirable_of_logged hw hk h (.inl rfl)⟩) fun _ => ?_
      exact .pure fun _ _ _ => trivial
    refine hcleanup.strengthen fun w _ h => ?_
    obtain ⟨⟨hfresh, hcaptured⟩, t, hist, hhistory⟩ := h
    obtain ⟨hpath, first, hrun, hholds⟩ := hcaptured path rfl
    obtain ⟨s, hs, hb⟩ := hholds
    exact ⟨first, hpath, ⟨logged_of_fresh hfresh, s, hs, hb⟩,
      sent_of_transferred hrun hb.warranted.captured hhistory⟩

end Passthrough

section Transform

variable {S : Site} {J : ClientWorld → Prop} {spec : SourceSpec} {dbg : Debug} {fuel : Nat}
variable {r : RemoteRun} {ledger : Option String} {setup : ServerRunSetup} {status : RunStatus}
variable {host serverCommand : String} {k : RunKey}

theorem setUpServer_keeps (hJ : StillKept J) :
    S.Yields J (setUpServer host serverCommand setup) fun _ => J := by
  cases setup with
  | alreadyDone => exact .pure hJ.settled
  | needed =>
    refine .bind (Site.Yields.retold _ (checkServerVersion_keeps hJ)) fun _ => ?_
    exact .lift_bind (ensures_quiet rfl hJ) fun _ => .pure hJ.settled

theorem beginRun_keeps (hJ : StillKept J) :
    S.Yields J (beginRun host serverCommand k) fun _ => J :=
  .bind (command_keeps hJ) fun _ => .checked fun _ _ => hJ.settled

theorem prepareRun_keeps (hJ : StillKept J) :
    S.Yields J (prepareRun host serverCommand k) fun _ => J :=
  .bind (command_keeps hJ) fun _ => .checked fun _ _ => hJ.settled

theorem quietly {o : SyncOp} {α : Type} {x : SyncM α} (h : o.quiet = true) (hJ : StillKept J)
    {M : α → ClientWorld → Prop} (hx : S.Yields J x M) :
    S.Yields J (ExceptT.lift (ask o) >>= fun _ => x) M :=
  .lift_bind (ensures_quiet h hJ) fun _ => hx

theorem resolved_proper {destination : Option String} {r' : RemoteRun} (hr : r.Proper)
    (h : r.resolved destination = .ok r') : r'.Proper ∧ r'.key = r.key := by
  unfold RemoteRun.resolved at h
  split at h
  · obtain rfl := Except.ok.inj h
    exact ⟨hr, rfl⟩
  · split at h
    · exact nomatch h
    · obtain rfl := Except.ok.inj h
      exact ⟨⟨hr.id, hr.manifest, rfl⟩, rfl⟩

/-- Staging changes nothing but where the run goes. -/
theorem stageRun_keeps {resp : Purgery.Server.BeginRunResponse} (hr : r.Proper)
    (hJ : StillKept J) :
    S.Yields J (stageRun spec r resp) fun r' w => (r'.Proper ∧ r'.key = r.key) ∧ J w := by
  have hremote : ∀ o : RemoteOp, S.Ensures J (ask (.remote o)) fun _ => J :=
    fun o => ensures_quiet rfl hJ
  refine .bind (.answered ((hremote _).weaken fun _ _ _ h _ _ => h)) fun _ => ?_
  refine .bind (.answered ((hremote _).weaken fun _ _ _ h _ _ => h)) fun _ => ?_
  refine .bind (prepareRun_keeps hJ) fun prepared => ?_
  refine .bind (.checked (M := fun r' w => (r'.Proper ∧ r'.key = r.key) ∧ J w)
    fun r' hr' w t h => ⟨resolved_proper hr hr', hJ.settled w t h⟩) fun r' => ?_
  refine .bind (runRsync_keeps ?_) fun _ => .pure fun w t h => ⟨h.1.1, hJ.settled w t h.1.2⟩
  exact fun w w' hs h => ⟨h.1, hJ w w' hs h.2⟩

/-- A run begins once its ledger is in its place. -/
theorem persistFirst_keeps (hkept : ∀ w, S.kept w) (hr : r.Proper) :
    S.Yields (fun w => S.Fresh r.key.runId.asStr w ∧
        Stocked w (RunKey.ledgerPath S.stateDir r.key))
      (persistClientRunState S.stateDir r none .uploadCompleteFinishPending) fun _ =>
        S.Logged r.key 1 := by
  have hadvances := persist_advances (S := S) (n := 0) (r := r) none
    .uploadCompleteFinishPending (J := fun _ => True) (K := fun _ => True)
    (fun _ _ _ => id) (fun _ _ => id) fun w _ _ _ => ⟨hkept _, trivial⟩
  refine hadvances.conseq (fun w hw h => ⟨trivial, ?_⟩) fun _ _ _ h => h.2
  exact ⟨rfl, ⟨rfl, hr.id, hr.manifest, hr.runConfig, mem_known (n := 0) rfl, nofun⟩,
    logged_of_fresh h.1, fun ho => (h.1 ho).1, fun _ _ => h.2⟩

theorem finishStaged_keeps (hkept : ∀ w, S.kept w) (hr : r.Proper) :
    S.Yields (fun w => S.Fresh r.key.runId.asStr w ∧
        Stocked w (RunKey.ledgerPath S.stateDir r.key))
      (finishStaged S.stateDir r) fun _ => S.Logged r.key 2 := by
  have hlogged := (lasting_logged (S := S) (k := r.key) (n := 1)).stillKept
  have hpersist := persist_keeps (S := S) (n := 1) none .waitingForTerminalState
    enduring_true hr (by decide) rfl
  have hhealthy : S.Ensures _ (ask (.remote .heartbeatHealthy)) _ := ensures_quiet rfl hlogged
  refine .bind (persistFirst_keeps hkept hr) fun _ => ?_
  refine .bind (.answered (hhealthy.weaken fun _ _ _ h _ _ => h)) fun _ => ?_
  refine .bind (finishRun_keeps hlogged) fun _ => ?_
  refine .lift_bind (ensures_quiet rfl hlogged) fun _ => ?_
  exact hpersist.conseq (fun _ _ h => ⟨⟨trivial, nofun⟩, h⟩) fun _ _ _ h => h.2

theorem awaitStatus_keeps (hr : r.Proper) :
    S.Yields (S.Logged r.key 2) (awaitStatus dbg S.stateDir fuel r) fun status w =>
      S.Logged r.key 3 w ∧ S.Answered (RunKey.ledgerPath S.stateDir r.key) status w := by
  have hlogged := lasting_logged (S := S) (k := r.key) (n := 2)
  refine .bind (driveServer_keeps hlogged.stillKept) fun _ => ?_
  refine .bind (readServerStatus_keeps hlogged.stillKept) fun status => ?_
  split
  · exact .abort _
  · rename_i hmatch
    have hkey := status_key hmatch
    have hanswered := enduring_answered S (RunKey.ledgerPath S.stateDir r.key) status
    have hpersist := persist_keeps (n := 2) (some status) .terminalStatusSeen
      hanswered hr (by decide) rfl
    refine .bind (hpersist.strengthen fun w _ h => ?_) fun _ => .pure fun w t h =>
      ⟨lasting_logged.settled w t h.2, hanswered.lasting.settled w t h.1⟩
    exact ⟨⟨answered_of_key hr hkey h.2.1, fun _ => ⟨status, rfl, h.2.1, hkey, h.2.2⟩⟩, h.1⟩

theorem cleanAfterRun_keeps (hr : r.Proper) (hledger : ∀ path, ledger = some path →
    path = RunKey.ledgerPath S.stateDir r.key) :
    S.Yields (fun w => S.Logged r.key 3 w ∧
        S.Answered (RunKey.ledgerPath S.stateDir r.key) status w)
      (cleanAfterRun S.stateDir r ledger status) fun _ _ => True := by
  have hlogged := lasting_logged (S := S) (k := r.key) (n := 3)
  have hforget : S.Yields (S.Logged r.key 4) (removeClientRunState r.key) fun _ _ => True :=
    forget_keeps.weaken fun _ _ _ _ => trivial
  cases ledger with
  | none =>
    refine .bind (M := fun _ => S.Logged r.key 3) (.pure fun w t h => hlogged.settled w t h.1)
      fun complete => ?_
    refine .bind (persistCleaned_keeps hr) fun _ => ?_
    cases complete <;> exact hforget
  | some path =>
    obtain rfl := hledger path rfl
    have hconfirm := confirmImportsFromStatus_keeps (S := S) (RunKey.ledgerPath S.stateDir r.key)
      status hlogged
    refine .bind (M := fun _ => S.Logged r.key 3) (.bind hconfirm fun _ =>
      .bind (processCleanupStateFile_keeps hlogged) fun outcome => .pure hlogged.settled)
      fun complete => ?_
    refine .bind (persistCleaned_keeps hr) fun _ => ?_
    cases complete with
    | false => exact hforget
    | true => exact .bind (retireLogged_keeps hr.id) fun _ => hforget

theorem serverRun_keeps (hkept : ∀ w, S.kept w) (hr : r.Proper) (hledger : ledger ≠ none) :
    S.Yields (fun w => S.Fresh r.key.runId.asStr w ∧ S.Captured r.key ledger w)
      (serverRun dbg S.stateDir fuel setup spec ledger r) fun _ _ => True := by
  have hJ := (enduring_fresh S r.key.runId.asStr).lasting.stillKept.and
    (stillKept_captured S r.key ledger)
  refine .bind (setUpServer_keeps hJ) fun _ => ?_
  refine .bind (beginRun_keeps hJ) fun resp => ?_
  refine .lift_bind (ensures_quiet rfl hJ) fun _ => ?_
  refine .lift_bind (stageRun_keeps hr hJ) fun staged => ?_
  cases staged with
  | error e =>
    refine .lift_bind (ensures_quiet rfl fun _ _ _ => id) fun _ => ?_
    exact .fail fun _ h => h
  | ok r' =>
    have hrest : S.Yields (fun w => (r'.Proper ∧ r'.key = r.key ∧ ∀ path, ledger = some path →
        path = RunKey.ledgerPath S.stateDir r'.key) ∧ S.Fresh r'.key.runId.asStr w ∧
          Stocked w (RunKey.ledgerPath S.stateDir r'.key))
        (do
          finishStaged S.stateDir r'
          let status ← awaitStatus dbg S.stateDir fuel r'
          cleanAfterRun S.stateDir r' ledger status
          checked (ensureSuccessfulStatus status)) fun _ _ => True := by
      refine Triple.pure_pre ?_
      rintro ⟨hr', -, hpath⟩
      refine Site.Yields.bind (finishStaged_keeps hkept hr') fun _ => ?_
      refine Site.Yields.bind (awaitStatus_keeps hr') fun status => ?_
      refine Site.Yields.bind (cleanAfterRun_keeps hr' hpath) fun _ => ?_
      exact .checked fun _ _ _ _ _ => trivial
    refine hrest.strengthen fun w _ h => ?_
    obtain ⟨⟨hr', hkey⟩, hfresh, hcaptured⟩ := h
    rw [hkey]
    refine ⟨⟨hr', rfl, fun path hpath => (hcaptured path hpath).1⟩, hfresh, ?_⟩
    obtain ⟨path, rfl⟩ := Option.ne_none_iff_exists'.1 hledger
    obtain ⟨rfl, first, -, s, hs, -⟩ := hcaptured path rfl
    exact Option.isSome_iff_exists.2 ⟨s, hs⟩

end Transform

section Sync

variable {S : Site} {dbg : Debug} {fuel : Nat} {user : Identity} {args : SyncArgs}
variable {setup : ServerRunSetup} {spec : SourceSpec} {k : RunKey} {runId : RunId}

theorem syncEntry_keeps (hkept : ∀ w, S.kept w) (hk : ProperId k.runId.asStr)
    (hargs : ¬(args.transform.isSome && !args.deleteAfterImport) = true) :
    S.Yields (S.Fresh k.runId.asStr) (syncEntry dbg S.stateDir fuel args setup spec k)
      fun _ _ => True := by
  have hfresh := (enduring_fresh S k.runId.asStr).lasting
  refine .bind (.checked (M := fun _ => S.Fresh k.runId.asStr) fun _ _ => hfresh.settled)
    fun remote => ?_
  split
  · exact (runRsync_keeps hfresh.stillKept).weaken fun _ _ _ _ => trivial
  · refine .bind (onFiles_keeps buildManifest_reads buildManifest_version hfresh.stillKept)
      fun manifest => ?_
    have hrest : S.Yields (fun w => manifest.purgeryVersion = currentPurgeryVersion ∧
        S.Fresh k.runId.asStr w)
        (do
          let ledger ← captureLedger S.stateDir spec k args.deleteAfterImport
          if args.transform.isNone then passthroughWithCleanup spec k remote ledger
          else
            serverRun dbg S.stateDir fuel setup spec ledger
              ⟨k, remote.host, args.serverCommand, manifest,
                ⟨currentPurgeryVersion, k.nickname, remote.path, true⟩⟩) fun _ _ => True := by
      refine Triple.pure_pre fun hmanifest => ?_
      refine Site.Yields.bind (captureLedger_keeps hfresh hk) fun ledger => ?_
      split
      · exact (passthroughWithCleanup_keeps hk).strengthen fun _ _ h => h.2
      · rename_i htransform
        have hproper : RemoteRun.Proper ⟨k, remote.host, args.serverCommand, manifest,
          ⟨currentPurgeryVersion, k.nickname, remote.path, true⟩⟩ := ⟨hk, hmanifest, rfl⟩
        refine Triple.pure_pre fun hledger => serverRun_keeps hkept hproper (hledger ?_)
        cases htransform' : args.transform with
        | none =>
          rw [htransform'] at htransform
          exact absurd rfl htransform
        | some t => simpa [htransform'] using hargs
    exact hrest.strengthen fun _ _ h => ⟨h.2, h.1⟩

theorem startSync_keeps :
    S.Yields (S.Fresh runId.asStr) (startSync dbg S.stateDir fuel user args) fun _ w =>
      ¬(args.transform.isSome && !args.deleteAfterImport) = true ∧ S.Fresh runId.asStr w := by
  have hfresh := (enduring_fresh S runId.asStr).lasting
  have hpending : (S.also _ (enduring_fresh S runId.asStr)).Yields (fun _ => True)
      (resumePendingCleanups S.stateDir) fun _ _ => True := resumePendingCleanups_keeps
  have hruns : (S.also _ (enduring_fresh S runId.asStr)).Yields (fun _ => True)
      (resumeRuns dbg S.stateDir fuel) fun _ _ => True := resumeRuns_keeps
  refine .bind (hpending.also.strengthen fun _ _ h => ⟨trivial, h⟩) fun _ => ?_
  refine .bind (hruns.also.weaken fun _ _ _ h => h.2) fun _ => ?_
  refine .lift_bind (ensures_quiet rfl hfresh.stillKept) fun surroundings => ?_
  refine .bind (.checked (M := fun _ => S.Fresh runId.asStr) fun _ _ => hfresh.settled)
    fun spec => ?_
  split
  · exact .abort _
  · rename_i hargs
    refine .bind (.checked (M := fun _ => S.Fresh runId.asStr) fun _ _ => hfresh.settled)
      fun nickname => ?_
    exact .pure fun w t h => ⟨hargs, hfresh.settled w t h⟩

theorem syncUnsplit_keeps (hkept : ∀ w, S.kept w) (hid : ProperId runId.asStr) :
    S.Yields (S.Fresh runId.asStr) (syncUnsplit dbg S.stateDir fuel user args runId setup)
      fun _ _ => True := by
  refine .bind startSync_keeps fun started => ?_
  obtain ⟨spec, nickname⟩ := started
  exact Triple.pure_pre fun hargs => syncEntry_keeps (k := ⟨nickname, runId⟩) hkept hid hargs

/-- A fresh id for each root. -/
theorem syncRoots_keeps (hkept : ∀ w, S.kept w) {nickname : Nickname} {source : String}
    (roots : List SplitCandidate) :
    S.Yields (fun _ => True) (syncRoots dbg S.stateDir fuel user args nickname source roots)
      fun _ _ => True := by
  induction roots with
  | nil => exact .pure fun _ _ _ => trivial
  | cons root rest ih =>
    refine .lift_bind (ensures_generate hkept) fun runId => Triple.pure_pre fun hid => ?_
    exact Site.Yields.bind (syncUnsplit_keeps hkept hid) fun _ => ih

theorem runSplit_keeps (hkept : ∀ w, S.kept w) {pattern : String} :
    S.Yields (fun _ => True) (runSplit dbg S.stateDir fuel user args pattern setup spec k)
      fun _ _ => True := by
  have htrue : StillKept fun _ => True := fun _ _ _ => id
  have hdone : ∀ {pre : ClientWorld → Prop}, S.Yields pre (pure () : SyncM Unit) fun _ _ => True :=
    .pure fun _ _ _ => trivial
  refine .bind (.checked (M := fun _ _ => True) fun _ _ _ _ _ => trivial) fun _ => ?_
  refine .bind (.checked (M := fun _ _ => True) fun _ _ _ _ _ => trivial) fun target => ?_
  split
  · unfold passthroughSplit
    split
    · exact hdone
    · exact (runRsync_keeps htrue).weaken fun _ _ _ _ => trivial
    · exact (rsync_keeps htrue).weaken fun _ _ _ _ => trivial
  · refine .lift_bind (ensures_quiet rfl htrue) fun found => ?_
    obtain ⟨metadata, walk⟩ := found
    dsimp only
    split
    · exact .abort _
    · split
      · exact hdone
      · split
        · exact .bind (setUpServer_keeps htrue) fun _ => syncRoots_keeps hkept _
        · exact syncRoots_keeps hkept _

theorem runSync_keeps (hkept : ∀ w, S.kept w) :
    S.Yields (fun _ => True) (runSync dbg S.stateDir fuel user args) fun _ _ => True := by
  refine .lift_bind (ensures_generate hkept) fun runId => Triple.pure_pre fun hid => ?_
  refine Site.Yields.bind startSync_keeps fun started => ?_
  obtain ⟨spec, nickname⟩ := started
  refine Triple.pure_pre fun hargs => ?_
  have hentry : S.Yields (S.Fresh runId.asStr)
      (syncEntry dbg S.stateDir fuel args .needed spec ⟨nickname, runId⟩) fun _ _ => True :=
    syncEntry_keeps (k := ⟨nickname, runId⟩) hkept hid hargs
  dsimp only
  split
  · exact (runSplit_keeps hkept).strengthen fun _ _ _ => trivial
  · exact hentry

/-- No sync ends because a ledger is missing. -/
theorem ensures_exit (hkept : ∀ w, S.kept w) {result : Except SyncError Unit} :
    S.Ensures (fun _ => ∀ e, result = .error e → S.orderly → e.wedged = false)
      (ask (.exit result)) fun _ _ => True := by
  refine ensures_ask (fun _ _ => id) (fun _ _ _ => id) fun x w _ hw h => ?_
  have honward : Onward w (w.remember (some (.ended result))) := onward_remember _
  refine ⟨.refl _, ⟨⟨fun path s hs => ?_, fun name st hst => ?_, hw.logs, hw.stocked, hw.used,
    fun ho e he => ?_⟩, hkept _⟩, trivial⟩
  · obtain ⟨first, hb⟩ := hw.ledgers path s hs
    exact ⟨first, hb.mono honward.history⟩
  · obtain ⟨r, ts, phase, heq, hsane⟩ := hw.runs name st hst
    exact ⟨r, ts, phase, heq, hsane.mono honward.history⟩
  · obtain hbefore | hnow := List.mem_append.1 he
    · exact hw.ended ho e hbefore
    · have heq : SyncEvent.ended (.error e) = .ended result := List.mem_singleton.1 hnow
      exact h e (SyncEvent.ended.inj heq).symm ho

theorem clientMain_keeps (hkept : ∀ w, S.kept w) :
    S.Ensures (fun _ => True) (clientMain dbg S.stateDir fuel user args) fun _ _ => True := by
  refine ensures_bind (runSync_keeps hkept) fun result => (ensures_exit hkept).strengthen
    fun w _ h e he => ?_
  rw [he] at h
  exact h

end Sync

end Purgery.Client
