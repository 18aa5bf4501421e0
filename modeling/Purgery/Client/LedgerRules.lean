import Purgery.Client.Rules

namespace Purgery.Client

open Purgery.Path
open Purgery.Interleaving
open Purgery.Server (IoError)

/-! The code on ledgers keeps the contract of a client. -/

section Embedded

variable {α β : Type} {x : ExceptT String CleanupCall α} {f : α → ExceptT String CleanupCall β}

theorem run_onLedgers : (onLedgers x).run =
    cleanupCalls.embed x.run >>= fun r => .ret (r.mapError SyncError.message) := rfl

theorem onLedgers_bind : onLedgers (x >>= f) = onLedgers x >>= fun a => onLedgers (f a) := by
  change (onLedgers (x >>= f)).run = (onLedgers x >>= fun a => onLedgers (f a)).run
  rw [Prog.run_bind, run_onLedgers, run_onLedgers, Prog.run_bind, Embedding.embed_bind, bind_assoc, bind_assoc]
  refine congrArg (cleanupCalls.embed x.run >>= ·) (funext fun r => ?_)
  cases r <;> rfl

end Embedded

section Handle

variable {S : Site} {α β : Type} {pre J : ClientWorld → Prop}

/-- The same for code on ledgers. -/
def Site.Handles (S : Site) (pre : ClientWorld → Prop) (x : ExceptT String CleanupCall α)
    (post : α → ClientWorld → Prop) : Prop :=
  S.Yields pre (onLedgers x) post

namespace Site.Handles

variable {x : ExceptT String CleanupCall α} {f : α → ExceptT String CleanupCall β}
variable {M : α → ClientWorld → Prop} {N : β → ClientWorld → Prop}

theorem bind (hx : S.Handles pre x M) (hf : ∀ a, S.Handles (M a) (f a) N) :
    S.Handles pre (x >>= f) N := by
  unfold Site.Handles
  rw [onLedgers_bind]
  exact Yields.bind hx hf

theorem pure {a : α} (h : ∀ w t, pre w → M a (w.withTree t)) :
    S.Handles pre (Pure.pure a) M :=
  ensures_ret h

theorem weaken {M' : α → ClientWorld → Prop} (h : S.Handles pre x M)
    (hM : ∀ a w, S.Keeps w → M a w → M' a w) : S.Handles pre x M' :=
  Yields.weaken h hM

theorem strengthen {pre' : ClientWorld → Prop} (h : S.Handles pre x M)
    (hpre : ∀ w, S.Keeps w → pre' w → pre w) : S.Handles pre' x M :=
  Yields.strengthen h hpre

/-- A call that may fail. -/
theorem attempt {ε : Type} {c : CleanupCall (Except ε α)} {text : ε → String}
    (h : S.Ensures pre (cleanupCalls.embed c) fun r w => ∀ a, r = .ok a → M a w) :
    S.Handles pre (ExceptT.adapt text (ExceptT.mk c)) M := by
  have hrun : (ExceptT.adapt text (ExceptT.mk c)).run = c >>= fun r => .ret (r.mapError text) := rfl
  refine Triple.map ?_
  rw [hrun, Embedding.embed_bind]
  refine Triple.map (Triple.weaken h fun r w _ hr => ?_)
  cases r with
  | ok a => exact hr a rfl
  | error e => exact fun _ => rfl

theorem lift {p : CleanupCall α} (h : S.Ensures pre (cleanupCalls.embed p) M) :
    S.Handles pre (ExceptT.lift p) M := by
  have hrun : (ExceptT.lift p : ExceptT String CleanupCall α).run = p >>= fun a => .ret (.ok a) :=
    rfl
  refine Triple.map ?_
  rw [hrun, Embedding.embed_bind]
  exact Triple.map h

theorem check {r : Except String α} (h : ∀ a, r = .ok a → ∀ w t, pre w → M a (w.withTree t)) :
    S.Handles pre (ExceptT.mk (Pure.pure r)) M :=
  Yields.checked h

end Site.Handles

end Handle

section Ledgers

variable {S : Site} {pre J : ClientWorld → Prop} {path : String} {first s : DurableCleanupState}
variable {w : ClientWorld}

/-- A change of what is written aside. -/
theorem onward_tmp (tmp : String → LedgerFile) :
    Onward w { w with files := { w.files with tmp := tmp } } :=
  ⟨List.prefix_refl _, fun _ => id, fun _ => rfl, rfl, rfl⟩

theorem keeps_tmp (tmp : String → LedgerFile) (hw : S.Keeps w) :
    S.Keeps { w with files := { w.files with tmp := tmp } } :=
  hw.onward (onward_tmp tmp) hw.ledgers fun _ => id

theorem ensures_openTmp (hJ : Lasting J) :
    S.Ensures J (ask (.cleanup (.openTmp path))) fun _ => J := by
  refine ensures_ask hJ.settled (fun _ => hJ.settled) fun x w _ hw hpre => ?_
  obtain ⟨fault, torn⟩ := x
  cases fault with
  | some message => exact ⟨.refl _, hw, hpre⟩
  | none => exact ⟨.refl _, keeps_tmp _ hw, hJ w _ (onward_tmp _) hpre⟩

theorem ensures_writeTmp (hJ : Lasting J) {d : Doc DurableCleanupState} :
    S.Ensures J (ask (.cleanup (.write path d))) fun r w => ∀ a, r = .ok a →
      J w ∧ w.files.tmp path = .text d := by
  refine ensures_ask hJ.settled (fun r w t h a ha => ?_) fun x w _ hw hpre => ?_
  · obtain ⟨hj, htmp⟩ := h a ha
    exact ⟨hJ.settled w t hj, htmp⟩
  · cases x with
    | some message => exact ⟨.refl _, hw, nofun⟩
    | none =>
      exact ⟨.refl _, keeps_tmp _ hw, fun _ _ => ⟨hJ w _ (onward_tmp _) hpre,
        Function.update_self ..⟩⟩

/-- A new version of a ledger comes in the place of the old one. -/
def ClientWorld.withLedger (w : ClientWorld) (path : String) (d : Doc DurableCleanupState) :
    ClientWorld :=
  { w with files := { w.files with
      ledger := Function.update w.files.ledger path (.text d)
      tmp := Function.update w.files.tmp path .missing } }

theorem onward_withLedger {d : Doc DurableCleanupState} (hd : d.accepted.isSome = true) :
    Onward w (w.withLedger path d) := by
  refine ⟨List.prefix_refl _, fun p hp => ?_, fun _ => rfl, rfl, rfl⟩
  unfold Stocked ClientWorld.withLedger
  by_cases hpath : p = path
  · subst hpath
    simpa [LedgerFile.accepted] using hd
  · simp only [Function.update_of_ne hpath]
    exact hp

theorem keeps_withLedger {d : Doc DurableCleanupState} (hd : d.accepted = some s)
    (hs : Backed S.stateDir w.history path first s) (hw : S.Keeps w) :
    S.Keeps (w.withLedger path d) := by
  refine hw.onward (onward_withLedger (by rw [hd]; rfl)) (fun p s' hs' => ?_) fun _ => id
  unfold ClientWorld.withLedger at hs'
  by_cases hpath : p = path
  · subst hpath
    simp only [Function.update_self, LedgerFile.accepted, hd, Option.some.injEq] at hs'
    exact ⟨first, hs' ▸ hs⟩
  · simp only [Function.update_of_ne hpath] at hs'
    exact hw.ledgers p s' hs'

theorem ensures_publish (hJ : Lasting J) {d : Doc DurableCleanupState} (hd : d.accepted = some s) :
    S.Ensures (fun w => (J w ∧ Backed S.stateDir w.history path first s) ∧
      w.files.tmp path = .text d) (ask (.cleanup (.publish path))) fun _ => J := by
  refine ensures_ask (fun w t h => ⟨⟨hJ.settled w t h.1.1, h.1.2⟩, h.2⟩) (fun _ => hJ.settled)
    fun x w _ hw hpre => ?_
  obtain ⟨⟨hj, hs⟩, htmp⟩ := hpre
  cases x with
  | some message => exact ⟨.refl _, hw, hj⟩
  | none =>
    have hstep : (SyncOp.cleanup (.publish path)).step S.sha none w =
        (.ok (), w.withLedger path d) := by
      simp only [SyncOp.step, CleanupOp.step, htmp]
      rfl
    rw [hstep]
    exact ⟨.refl _, keeps_withLedger hd hs hw, hJ w _ (onward_withLedger (by rw [hd]; rfl)) hj⟩

theorem lasting_backed (stateDir path : String) (first s : DurableCleanupState) :
    Lasting fun w => Backed stateDir w.history path first s :=
  fun _ _ hs hb => hb.mono hs.history

variable (first) in
theorem writeCleanupStateAtomic_keeps (hJ : Lasting J) (hs : Compatible s.purgeryVersion) :
    S.Handles (fun w => J w ∧ Backed S.stateDir w.history path first s)
      (writeCleanupStateAtomic path s) fun _ => J := by
  have hboth := hJ.and (lasting_backed S.stateDir path first s)
  have hdoc : (Doc.ofValue s).accepted = some s := Doc.accepted_ofValue rfl hs
  refine .bind (.attempt ((ensures_openTmp hboth).weaken fun _ w _ h _ _ => h)) fun _ => ?_
  refine .bind (.attempt (ensures_writeTmp hboth)) fun _ => ?_
  exact .attempt ((ensures_publish hJ hdoc).weaken fun _ w _ h _ _ => h)

theorem ensures_readLedger (hJ : StillKept J) :
    S.Ensures J (ask (.cleanup (.read path))) fun r w => J w ∧
      ∀ d, r = .ok d → w.files.ledger path = .text d := by
  refine ensures_answer (o := .cleanup (.read path)) rfl hJ
    (A := fun r w => ∀ d, r = .ok d → w.files.ledger path = .text d) (fun _ _ _ => id)
    fun x w _ _ _ d hd => ?_
  cases x with
  | some message => exact nomatch hd
  | none =>
    change (w.files.ledger path).read = .ok d at hd
    change w.files.ledger path = .text d
    cases hfile : w.files.ledger path with
    | missing =>
      rw [hfile] at hd
      exact nomatch hd
    | unreadable message =>
      rw [hfile] at hd
      exact nomatch hd
    | text d' =>
      rw [hfile] at hd
      rw [Except.ok.inj hd]

theorem ledger_compatible {f : LedgerFile} (h : f.accepted = some s) :
    Compatible s.purgeryVersion := by
  cases f with
  | missing => exact nomatch h
  | unreadable message => exact nomatch h
  | text d =>
    obtain ⟨-, version, hversion, hcompatible⟩ := Doc.accepted_iff.1 h
    exact Option.some_inj.1 hversion ▸ hcompatible

/-- What is read is what is there, and good enough to go on with. -/
theorem readCleanupState_reads (hJ : StillKept J) :
    S.Handles J (readCleanupState path) fun s w =>
      J w ∧ (w.files.ledger path).accepted = some s := by
  have hkept : ∀ d, StillKept fun w => J w ∧ w.files.ledger path = .text d := by
    intro d w w' hs h
    refine ⟨hJ w w' hs h.1, ?_⟩
    obtain ⟨t, es, -, rfl⟩ := hs
    exact h.2
  refine .bind (.attempt ((ensures_readLedger hJ).weaken fun r w _ h d hd =>
    (⟨h.1, h.2 d hd⟩ : J w ∧ w.files.ledger path = .text d))) fun d => ?_
  refine .bind (M := fun _ w => (J w ∧ w.files.ledger path = .text d) ∧
    ∃ context, requireCompatibleTomlVersion d context = .ok ()) (.check ?_) fun _ => .check ?_
  · intro _ hversion w t h
    refine ⟨(hkept d).settled w t h, "cleanup state " ++ path, ?_⟩
    cases hcheck : requireCompatibleTomlVersion d ("cleanup state " ++ path) with
    | ok u => rfl
    | error e =>
      rw [hcheck] at hversion
      exact nomatch hversion
  · rintro s hs w t ⟨h, context, hversion⟩
    obtain ⟨hj, hfile⟩ := (hkept d).settled w t h
    refine ⟨hj, ?_⟩
    rw [hfile]
    refine accepted_of_checks hversion ?_
    cases hparsed : d.parsed with
    | ok s' =>
      rw [hparsed] at hs
      rw [Except.ok.inj hs]
    | error e =>
      rw [hparsed] at hs
      exact nomatch hs

end Ledgers

section Loops

variable {S : Site} {J : ClientWorld → Prop} {path : String} {first s : DurableCleanupState}
variable {done rest es : List CleanupEntry} {e : CleanupEntry} {w : ClientWorld}

/-- The ledger that a loop works on. -/
abbrev Site.Works (S : Site) (path : String) (first s : DurableCleanupState)
    (es : List CleanupEntry) (w : ClientWorld) : Prop :=
  Backed S.stateDir w.history path first { s with entries := es }

theorem Backed.markCleaned {h : List SyncEvent} {stateDir : String}
    (hb : Backed stateDir h path first { s with entries := done ++ e :: rest }) :
    Backed stateDir h path first { s with entries := done ++ e.markCleaned :: rest } := by
  refine ⟨hb.path_eq, hb.proper, hb.warranted.remark ?_ fun e' he' hconfirmed => ?_⟩
  · simp only [List.map_append, List.map_cons]
    rfl
  · obtain hmem | hmem := List.mem_append.1 he'
    · exact hb.warranted.confirmed e' (List.mem_append_left _ hmem) hconfirmed
    · obtain rfl | hmem := List.mem_cons.1 hmem
      · exact hb.warranted.confirmed e (List.mem_append_right _ List.mem_cons_self) hconfirmed
      · exact hb.warranted.confirmed e'
          (List.mem_append_right _ (List.mem_cons_of_mem _ hmem)) hconfirmed

theorem keeps_tree {t : LocalTree} (hw : S.Keeps w) : S.Keeps (w.withTree t) :=
  hw.still (still_withTree w t)

/-- An object is only removed while the loop may do so. -/
theorem ensures_clean (hJ : StillKept J) (hdeletable : ∀ w, J w → Deletable w.history e) :
    S.Ensures J (ask (.cleanup (.clean e))) fun _ => J := by
  refine ensures_ask hJ.settled (fun _ => hJ.settled) fun x w _ hw hpre => ?_
  exact ⟨allowed_clean x (hdeletable w hpre), keeps_tree hw, hJ.settled w _ hpre⟩

theorem ensures_removeDir (hJ : StillKept J) (hkind : e.kind = .directory)
    (hdeletable : ∀ w, J w → Deletable w.history e) :
    S.Ensures J (ask (.cleanup (.removeDir e.localPath))) fun _ => J := by
  refine ensures_ask hJ.settled (fun _ => hJ.settled) fun x w _ hw hpre => ?_
  exact ⟨allowed_removeDir x hkind (hdeletable w hpre), keeps_tree hw, hJ.settled w _ hpre⟩

theorem works_deletable (hconfirmed : (!e.importConfirmed || e.cleaned) = false)
    (hb : S.Works path first s (done ++ e :: rest) w) : Deletable w.history e := by
  simp only [Bool.or_eq_false_iff, Bool.not_eq_false'] at hconfirmed
  exact hb.warranted.deletable (List.mem_append_right _ List.mem_cons_self) hconfirmed.1

variable (S path first s) in
theorem lasting_works (hJ : Lasting J) (es : List CleanupEntry) :
    Lasting fun w => J w ∧ S.Works path first s es w :=
  hJ.and (lasting_backed S.stateDir path first { s with entries := es })

theorem writeMarked_keeps (hJ : Lasting J) (hs : Compatible s.purgeryVersion) :
    S.Handles (fun w => J w ∧ S.Works path first s (done ++ e :: rest) w)
      (writeCleanupStateAtomic path { s with entries := done ++ e.markCleaned :: rest })
      fun _ w => J w ∧ S.Works path first s (done ++ e.markCleaned :: rest) w := by
  have hmarked := lasting_works S path first s hJ (done ++ e.markCleaned :: rest)
  refine Site.Handles.strengthen (writeCleanupStateAtomic_keeps first hmarked hs) fun w _ h => ?_
  exact ⟨⟨h.1, h.2.markCleaned⟩, h.2.markCleaned⟩

theorem cleanFiles_keeps (hJ : Lasting J) (hs : Compatible s.purgeryVersion) :
    S.Handles (fun w => J w ∧ S.Works path first s (done ++ rest) w)
      (cleanFiles path s done rest) fun es w => J w ∧ S.Works path first s es w := by
  have hboth := lasting_works S path first s hJ
  induction rest generalizing done with
  | nil =>
    rw [List.append_nil]
    exact .pure (hboth done).settled
  | cons e rest ih =>
    have hnext := @ih (done ++ [e])
    rw [List.append_assoc, List.singleton_append] at hnext
    rw [cleanFiles]
    split
    · exact hnext
    · rename_i hconfirmed
      split
      · exact hnext
      · have hclean := ensures_clean (S := S) (hboth (done ++ e :: rest)).stillKept fun w h =>
          works_deletable (Bool.eq_false_iff.2 hconfirmed) h.2
        refine .bind (.lift hclean) fun cleaned => ?_
        cases cleaned with
        | false => exact hnext
        | true =>
          have hmarked := @ih (done ++ [e.markCleaned])
          rw [List.append_assoc, List.singleton_append] at hmarked
          exact .bind (writeMarked_keeps hJ hs) fun _ => hmarked

variable (path first done rest) in
theorem cleanDirectories_keeps (hJ : Lasting J) (hs : Compatible s.purgeryVersion) :
    S.Handles (fun w => J w ∧ S.Works path first s (done ++ rest) w)
      (cleanDirectories path s done rest) fun es w => J w ∧ S.Works path first s es w := by
  have hboth := lasting_works S path first s hJ
  induction rest generalizing done with
  | nil =>
    rw [List.append_nil]
    exact .pure (hboth done).settled
  | cons e rest ih =>
    have hnext := @ih (done ++ [e])
    rw [List.append_assoc, List.singleton_append] at hnext
    rw [cleanDirectories]
    split
    · exact hnext
    · rename_i hconfirmed
      split
      · exact hnext
      · rename_i hkind
        have hcurrent := (hboth (done ++ e :: rest)).stillKept
        refine .bind (.lift (ensures_quiet (o := .cleanup (.readDir e.localPath)) rfl hcurrent))
          fun children => ?_
        split
        · exact hnext
        · have hremove := ensures_removeDir (S := S) hcurrent (not_not.1 hkind) fun w h =>
            works_deletable (Bool.eq_false_iff.2 hconfirmed) h.2
          have hmarked := @ih (done ++ [e.markCleaned])
          rw [List.append_assoc, List.singleton_append] at hmarked
          have hwrite := Site.Handles.bind (writeMarked_keeps hJ hs) fun _ => hmarked
          refine .bind (.lift hremove) fun removed => ?_
          split
          · exact hnext
          · exact hwrite
          · exact hwrite

/-- A pass over a ledger deletes nothing without a reason, and loses no ledger. -/
theorem processCleanupStateFile_keeps (hJ : Lasting J) :
    S.Handles J (processCleanupStateFile path) fun _ => J := by
  refine .bind (readCleanupState_reads hJ.stillKept) fun s => ?_
  have hloops : S.Handles (fun w => ∃ first, Compatible s.purgeryVersion ∧ J w ∧
      S.Works path first s ([] ++ s.entries) w)
      (do
        let entries ← cleanFiles path s [] s.entries
        let entries ← cleanDirectories path s [] entries
        return if entries.all (·.cleaned) then CleanupOutcome.complete else .stillPending)
      fun _ => J := by
    refine Triple.exists_pre fun first => Triple.pure_pre fun hs => ?_
    refine Site.Handles.bind (cleanFiles_keeps hJ hs) fun es => ?_
    refine Site.Handles.bind (cleanDirectories_keeps path first [] es hJ hs) fun es => ?_
    exact Site.Handles.pure fun w t h => hJ.settled w t h.1
  refine Site.Handles.strengthen hloops fun w hw h => ?_
  obtain ⟨first, hb⟩ := hw.ledgers path s h.2
  exact ⟨first, ledger_compatible h.2, h.1, hb⟩

end Loops

section Confirmations

variable {S : Site} {J : ClientWorld → Prop} {path : String} {first : DurableCleanupState}
variable {status : RunStatus} {w : ClientWorld}

/-- The ledger of a capture. -/
def Site.Holds (S : Site) (path : String) (first : DurableCleanupState) (w : ClientWorld) : Prop :=
  ∃ s, (w.files.ledger path).accepted = some s ∧ Backed S.stateDir w.history path first s

/-- What was captured was sent to its destination after that. -/
def Sent (first : DurableCleanupState) (w : ClientWorld) : Prop :=
  ∃ k source t, first.OfRun k ∧
    [.captured first, .transferred (.direct k) source t].Sublist w.history

/-- A status of the run that the ledger belongs to was read. -/
structure Site.Answered (S : Site) (path : String) (status : RunStatus) (w : ClientWorld) :
    Prop where
  reported : .reported status ∈ w.history
  path_eq : path = RunKey.ledgerPath S.stateDir status.key
  proper : ProperId status.key.runId.asStr

theorem stillKept_holds : StillKept (S.Holds path first) := by
  rintro w _ ⟨t, es, -, rfl⟩ ⟨s, hs, hb⟩
  exact ⟨s, hs, hb.mono (List.prefix_append _ _)⟩

theorem lasting_sent : Lasting (Sent first) := by
  rintro w w' hw ⟨k, source, t, hrun, hsub⟩
  exact ⟨k, source, t, hrun, hsub.trans hw.history.sublist⟩

variable (S path status) in
theorem lasting_answered : Lasting (S.Answered path status) :=
  fun _ _ hw h => ⟨hw.history.subset h.reported, h.path_eq, h.proper⟩

theorem confirmAllImports_keeps (hJ : Lasting J) :
    S.Handles (fun w => (J w ∧ S.Holds path first w) ∧ Sent first w) (confirmAllImports path)
      fun _ => J := by
  refine Site.Handles.bind (readCleanupState_reads ((hJ.stillKept.and stillKept_holds).and
    lasting_sent.stillKept)) fun s => ?_
  have hwrite : S.Handles (fun w => Compatible s.purgeryVersion ∧ J w ∧
      Backed S.stateDir w.history path first
        { s with entries := s.entries.map CleanupEntry.confirm })
      (writeCleanupStateAtomic path { s with entries := s.entries.map CleanupEntry.confirm })
      fun _ => J :=
    Triple.pure_pre fun hs => writeCleanupStateAtomic_keeps first hJ hs
  refine Site.Handles.strengthen hwrite fun w _ h => ?_
  obtain ⟨⟨⟨hj, s', hs', hb⟩, k, source, t, hrun, hsub⟩, hs⟩ := h
  obtain rfl : s' = s := Option.some_inj.1 (hs'.symm.trans hs)
  exact ⟨ledger_compatible hs, hj, hb.path_eq, hb.proper, hb.warranted.confirmAll hrun hsub⟩

variable (path status) in
theorem confirmImportsFromStatus_keeps (hJ : Lasting J) :
    S.Handles (fun w => J w ∧ S.Answered path status w) (confirmImportsFromStatus status path)
      fun _ => J := by
  refine Site.Handles.bind (readCleanupState_reads (hJ.and (lasting_answered S path status)).stillKept) fun s => ?_
  have hwrite : S.Handles (fun w => ∃ first, Compatible s.purgeryVersion ∧ J w ∧
      Backed S.stateDir w.history path first
        { s with entries := confirmEntries status s.entries })
      (writeCleanupStateAtomic path { s with entries := confirmEntries status s.entries })
      fun _ => J :=
    Triple.exists_pre fun first => Triple.pure_pre fun hs =>
      writeCleanupStateAtomic_keeps first hJ hs
  refine Site.Handles.strengthen hwrite fun w hw h => ?_
  obtain ⟨⟨hj, hanswered⟩, hs⟩ := h
  obtain ⟨first, hb⟩ := hw.ledgers path s hs
  have hpath : ledgerPath S.stateDir s.nickname s.operationId =
      ledgerPath S.stateDir status.key.nickname.asStr status.key.runId.asStr :=
    hb.path_eq.symm.trans hanswered.path_eq
  obtain ⟨hnickname, hid⟩ := ledgerPath_injective hb.proper hanswered.proper hpath
  have hrun : first.OfRun status.key :=
    ⟨hb.warranted.nickname.symm.trans hnickname, hb.warranted.operation.symm.trans hid⟩
  exact ⟨first, ledger_compatible hs, hj, hb.path_eq, hb.proper,
    hb.warranted.confirmFrom hrun hanswered.reported⟩

end Confirmations

section Capture

variable {S : Site} {J : ClientWorld → Prop} {path : String} {first : DurableCleanupState}
variable {w : ClientWorld}

theorem onward_remember (e : Option SyncEvent) : Onward w (w.remember e) :=
  ⟨List.prefix_append _ _, fun _ => id, fun _ => rfl, rfl, rfl⟩

/-- The first version of a ledger comes to its place. -/
theorem ensures_publishLedger (hJ : Lasting J) (hbare : ∀ e ∈ first.entries, e.bare = e)
    (hpath : path = ledgerPath S.stateDir first.nickname first.operationId)
    (hproper : ProperId first.operationId) (hversion : Compatible first.purgeryVersion) :
    S.Ensures (fun w => J w ∧ w.files.tmp path = .text (Doc.ofValue first))
      (ask (.publishLedger path)) fun r w => ∀ a, r = .ok a → J w ∧ S.Holds path first w := by
  have hdoc : (Doc.ofValue first).accepted = some first := Doc.accepted_ofValue rfl hversion
  refine ensures_ask (fun w t h => ⟨hJ.settled w t h.1, h.2⟩) (fun r w t h a ha => ?_)
    fun x w _ hw hpre => ?_
  · exact ⟨hJ.settled w t (h a ha).1, stillKept_holds.settled w t (h a ha).2⟩
  · obtain ⟨hj, htmp⟩ := hpre
    cases x with
    | some message => exact ⟨.refl _, hw, nofun⟩
    | none =>
      have hstep : (SyncOp.publishLedger path).step S.sha none w =
          (.ok (), (w.remember (some (.captured first))).withLedger path (Doc.ofValue first)) := by
        simp only [SyncOp.step, htmp, LedgerFile.accepted, hdoc]
        rfl
      rw [hstep]
      have hbacked : Backed S.stateDir (w.history ++ [.captured first]) path first first :=
        ⟨hpath, hproper, warranted_first (List.mem_append_right _ List.mem_cons_self) hbare⟩
      have hremember : S.Keeps (w.remember (some (.captured first))) := by
        refine hw.still ⟨w.tree, [.captured first], fun r hr => ?_, rfl⟩
        exact nomatch List.mem_singleton.1 hr
      refine ⟨.refl _, keeps_withLedger hdoc hbacked hremember, fun _ _ => ⟨?_, first, ?_, hbacked⟩⟩
      · exact hJ w _ ((onward_remember _).trans (onward_withLedger (by rw [hdoc]; rfl))) hj
      · simp [ClientWorld.withLedger, LedgerFile.accepted, hdoc]

theorem writeCleanupState_keeps (hJ : Lasting J) (hbare : ∀ e ∈ first.entries, e.bare = e)
    (hproper : ProperId first.operationId) (hversion : Compatible first.purgeryVersion) :
    S.Yields J (writeCleanupState S.stateDir first) fun path w =>
      path = ledgerPath S.stateDir first.nickname first.operationId ∧ J w ∧
        S.Holds path first w := by
  have hquiet : S.Ensures J (ask .createStateDir) fun _ => J := ensures_quiet rfl hJ.stillKept
  refine Site.Yields.bind (.attempt (hquiet.weaken fun _ w _ h _ _ => h)) fun _ => ?_
  refine Site.Yields.bind (.attempt ((ensures_openTmp hJ).weaken fun _ w _ h _ _ => h)) fun _ => ?_
  refine Site.Yields.bind (.attempt (ensures_writeTmp hJ)) fun _ => ?_
  refine Site.Yields.bind (.attempt (ensures_publishLedger hJ hbare rfl hproper hversion))
    fun _ => ?_
  exact .pure fun w t h => ⟨rfl, hJ.settled w t h.1, stillKept_holds.settled w t h.2⟩

end Capture

end Purgery.Client
