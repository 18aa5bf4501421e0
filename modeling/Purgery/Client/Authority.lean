import Purgery.Client.SyncRules

namespace Purgery.Client

open Purgery.Path
open Purgery.Interleaving

/-! What holds of every history of the clients of a state directory. -/

section Sound

variable (sha : List UInt8 → String) (orderly : Prop) (stateDir : String)

/-- The site where nothing else is kept. -/
def Site.plain : Site := ⟨sha, orderly, stateDir, fun _ => True, fun _ _ _ => id⟩

theorem plain_sound : (Site.plain sha orderly stateDir).contract.Sound where
  toClosed := Site.closed _
  guar_rely t u _ _ _ _ h := absurd rfl h
  leave_inv _ _ h _ := h
  leave_rely t u _ h := absurd rfl h
  leave_start _ _ _ := trivial
  env_inv t w _ h := h.still (still_withTree w t)
  env_rely _ t _ _ _ := ⟨t, rfl⟩
  init_inv w h := by
    obtain ⟨hledgers, hruns, hhistory, hlog⟩ := h
    refine ⟨⟨fun path s hs => ?_, fun name st hst => ?_, fun _ name => ?_, fun _ name st hst => ?_,
      fun _ name hname => absurd (hlog name) hname, fun _ e he => ?_⟩, trivial⟩
    · rw [hledgers] at hs
      exact nomatch hs
    · rw [hruns] at hst
      exact nomatch hst
    · rw [hruns, hlog]
      exact ⟨List.nil_prefix, rfl⟩
    · rw [hruns] at hst
      exact nomatch hst
    · rw [hhistory] at he
      exact nomatch he
  init_start _ _ _ := trivial
  start_rely _ _ _ _ _ := trivial
  program_wp t p w hp hw _ := by
    obtain ⟨dbg, fuel, user, args, hdir, rfl⟩ := hp
    exact clientMain_keeps (S := Site.plain sha orderly stateDir) (fun _ => trivial) w hw trivial

variable {sha orderly stateDir} {c : Config Unit SyncOp SyncOp.Res ClientWorld}

theorem reachable_inv (h : Reachable (clientSystem sha stateDir) (syncPolicy orderly) c) :
    Inv orderly stateDir c.world :=
  (h.inv (plain_sound sha orderly stateDir)).toInv

/-- Nothing is asked of a disorderly history. -/
theorem reachable_disorderly (h : Reachable (clientSystem sha stateDir) .any c) :
    Reachable (clientSystem sha stateDir) (syncPolicy False) c := by
  have hle : Policy.any.le (syncPolicy False) :=
    ⟨fun _ _ _ _ _ => False.elim, fun _ _ => id, fun _ _ => id⟩
  exact h.mono hle

end Sound

section Histories

variable (sha : List UInt8 → String) (stateDir : String)
variable {c : Config Unit SyncOp SyncOp.Res ClientWorld}

/-- A ledger that a client would act on is the one of a capture, and each of its
confirmations has a reason. -/
theorem ledgers_warranted (h : Reachable (clientSystem sha stateDir) .any c) {path : String}
    {s : DurableCleanupState} (hs : (c.world.files.ledger path).accepted = some s) :
    ∃ first, Backed stateDir c.world.history path first s := by
  exact (reachable_inv (reachable_disorderly h)).ledgers path s hs

/-- Through any number of syncs and crashes a run takes each phase once and in order,
and its ledger stays until it is cleaned up. -/
theorem runs_in_order (h : Reachable (clientSystem sha stateDir) (syncPolicy True) c)
    (name : String) :
    c.world.log name <+: milestones ∧
      (c.world.runState name).accepted.map (·.phase) = phaseAfter (c.world.log name) ∧
      ∀ st, (c.world.runState name).accepted = some st → st.phase ≠ .cleanupComplete →
        Stocked c.world (ledgerPath stateDir st.nickname st.runId) := by
  have hinv := reachable_inv h
  obtain ⟨hlog, hphase⟩ := hinv.logs trivial name
  exact ⟨hlog, hphase, fun st => hinv.stocked trivial name st⟩

/-- Recovery never stops for want of a ledger, so no run blocks all later syncs. -/
theorem never_wedged (h : Reachable (clientSystem sha stateDir) (syncPolicy True) c)
    {e : SyncError} (he : .ended (.error e) ∈ c.world.history) : e.wedged = false :=
  (reachable_inv h).ended trivial e he

end Histories

instance (o : SyncOp) (x : o.Choice) (w : ClientWorld) : Decidable (o.Truthful x w) := by
  cases o <;> simp only [SyncOp.Truthful] <;> infer_instance

instance (orderly : Prop) [Decidable orderly] : (syncPolicy orderly).Checkable where
  step _ o x w := inferInstanceAs (Decidable (orderly → o.Truthful x w))
  env _ _ := .isTrue trivial
  crash _ _ := .isTrue trivial

section Sample

def firstUlid : Ulid := ⟨"01J0000000000000000000000A", by decide +kernel⟩

def secondUlid : Ulid := ⟨"01J0000000000000000000000B", by decide +kernel⟩

def noteKey : RunKey := ⟨⟨"me", by decide⟩, firstUlid.runId⟩

def noteStatus : RunStatus :=
  ⟨currentPurgeryVersion, noteKey.runId, noteKey.nickname, .partiallyDone,
    [⟨.regularFile, "note", "note", .imported, ["/inbox/note"], some "ocr", none⟩], none⟩

def smoothFile : (o : FileOp) → o.Choice
  | .symlinkMetadata _ | .readLink _ | .removeFile _ | .removeDir _ => (none, ())
  | .metadata _ | .sha256 _ => (none, .error .notFound)
  | .walk _ => (none, [], fun _ => true)
  | .readDir _ => (none, [], .ok [])

def smoothCleanup : (o : CleanupOp) → o.Choice
  | .read _ | .write _ _ | .publish _ => none
  | .openTmp _ => (none, .missing)
  | .clean _ => smoothFile
  | .readDir p => smoothFile (.readDir p)
  | .removeDir p => smoothFile (.removeDir p)

def noteServer : (c : ServerCommand) → c.Output
  | .version => .ok ⟨protocolVersion, currentPurgeryVersion⟩
  | .gc | .finishRun _ => ()
  | .beginRun _ => .ok ⟨protocolVersion, currentPurgeryVersion, "", "", "", "/in", "", "", 60⟩
  | .prepareRun _ => .ok ⟨protocolVersion, currentPurgeryVersion, "", "", none⟩
  | .status _ => Doc.ofValue noteStatus

def noteRemote : (o : RemoteOp) → o.Res
  | .command _ _ c => .ok (noteServer c)
  | .writeRunConfig _ _ _ | .writeManifest _ _ _ | .heartbeatHealthy => .ok ()
  | .rsync _ _ _ => some true
  | .startHeartbeat _ _ | .stopHeartbeat => ()
  | .drive (.runState _) =>
    .ok ⟨"done", true, "", 0, 0, none, none, none, none, none, none, none⟩
  | .drive (.spawn _) | .drive .waitpid | .drive .reap => .error "offline"
  | .drive .kill => (.error "offline", 0)
  | .drive .expired => true
  | .drive .nap | .drive .pause => ()

/-- No call fails, and a run of the first id is found. -/
def smooth (u : Ulid) : (o : SyncOp) → o.Choice
  | .file o => smoothFile o
  | .cleanup o => smoothCleanup o
  | .remote o => noteRemote o
  | .lookAround => (.error "no current directory", none)
  | .walkSource _ => ([], fun _ => true)
  | .generate => u
  | .stateDirExists | .runsIsDir => true
  | .ledgerExists _ | .runExists _ => false
  | .listStateDir => .ok []
  | .listRuns => .ok [RunKey.runName noteKey]
  | .openRunTmp _ => (none, .missing)
  | .removeRunDir _ => (none, false, false)
  | .readRun _ | .createStateDir | .publishLedger _ | .retire _ | .createRunDir _
  | .writeRunTmp _ _ | .publishRun _ | .setAside _ => none
  | .exit _ => ()

def noteWorld : ClientWorld where
  files := ⟨[((false, ["note"]), .file [1, 2] 7)], fun _ => .missing, fun _ => .missing⟩
  runState _ := .missing
  runTmp _ := .missing
  history := []
  issued := []
  log _ := []

def noteSha (bytes : List UInt8) : String := String.ofList (bytes.map fun b => Char.ofNat b.toNat)

def noteProgram : { p : Sync Unit // (clientSystem noteSha "state").program p } :=
  ⟨clientMain ⟨fun _ => "", fun _ => ""⟩ "state" 2 ⟨none, none, none, none, none⟩
      ⟨some "ocr", true, none, some "me", some "state", "purgery-server", "note", "host:inbox/"⟩,
    _, _, _, _, rfl, rfl⟩

/-- A client crashes while its run is being processed, and the next one resumes it. -/
def noteSchedule (n : Nat) : List (Event (clientSystem noteSha "state")) :=
  .spawn () noteProgram :: List.replicate 36 (.step () (smooth firstUlid)) ++
    .leave () :: .spawn () noteProgram :: List.replicate n (.step () (smooth secondUlid))

def notePlayed (n : Nat) : Option (Config Unit SyncOp SyncOp.Res ClientWorld) :=
  play (syncPolicy True) (noteSchedule n) ⟨noteWorld, fun _ => none⟩

theorem notePlayed_reachable {n : Nat} (test : Config Unit SyncOp SyncOp.Res ClientWorld → Bool)
    (h : (notePlayed n).any test = true) :
    ∃ c, Reachable (clientSystem noteSha "state") (syncPolicy True) c ∧ test c = true :=
  exists_reachable (noteSchedule n) ⟨fun _ => rfl, fun _ => rfl, rfl, fun _ => rfl⟩ test h

/-- The client is about to delete the note. -/
def cleansNote (c : Config Unit SyncOp SyncOp.Res ClientWorld) : Bool :=
  match c.threads () with
  | some (.call (.cleanup (.clean e)) _) =>
    let after := ((SyncOp.cleanup (.clean e)).step noteSha smoothFile c.world).2
    c.world.tree.lookup (false, ["note"]) == some (.file [1, 2] 7) &&
      after.tree.lookup (false, ["note"]) == none
  | _ => false

theorem ledgers_warranted_note : ∃ c s first,
    Reachable (clientSystem noteSha "state") .any c ∧
      (c.world.files.ledger (RunKey.ledgerPath "state" noteKey)).accepted = some s ∧
      Backed "state" c.world.history (RunKey.ledgerPath "state" noteKey) first s := by
  obtain ⟨c, hc, htest⟩ := notePlayed_reachable (n := 21)
    (fun c => (c.world.files.ledger (RunKey.ledgerPath "state" noteKey)).accepted.isSome)
    (by decide +kernel)
  obtain ⟨s, hs⟩ := Option.isSome_iff_exists.1 htest
  have hany := hc.mono (Policy.le_any _)
  obtain ⟨first, hb⟩ := ledgers_warranted noteSha "state" hany hs
  exact ⟨c, s, first, hany, hs, hb⟩

theorem runs_in_order_note : ∃ c,
    Reachable (clientSystem noteSha "state") (syncPolicy True) c ∧
      c.world.log (RunKey.runName noteKey) = milestones ∧
      c.world.log (RunKey.runName noteKey) <+: milestones := by
  obtain ⟨c, hc, htest⟩ := notePlayed_reachable (n := 32)
    (fun c => c.world.log (RunKey.runName noteKey) == milestones) (by decide +kernel)
  exact ⟨c, hc, beq_iff_eq.1 htest, (runs_in_order noteSha "state" hc _).1⟩

def endedInError : SyncEvent → Bool
  | .ended (.error _) => true
  | _ => false

theorem never_wedged_note : ∃ c e,
    Reachable (clientSystem noteSha "state") (syncPolicy True) c ∧
      .ended (.error e) ∈ c.world.history ∧ e.wedged = false := by
  obtain ⟨c, hc, htest⟩ := notePlayed_reachable (n := 32)
    (fun c => c.world.history.any endedInError) (by decide +kernel)
  obtain ⟨event, hmem, hended⟩ := List.any_eq_true.1 htest
  unfold endedInError at hended
  split at hended
  · rename_i e
    exact ⟨c, e, hc, hmem, never_wedged noteSha "state" hc hmem⟩
  · cases hended

end Sample

end Purgery.Client
