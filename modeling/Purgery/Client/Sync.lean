import Purgery.Client.Manifest
import Purgery.Client.Resume
import Purgery.Client.Split.Sentinel
import Purgery.Client.Split.Target

namespace Purgery.Client

open Purgery.Path
open Purgery.Interleaving
open Purgery.Server (BeginRunResponse PrepareRunResponse)

/-! A sync: first what earlier syncs have left, then the new operation. -/

structure SyncArgs where
  transform : Option String
  deleteAfterImport : Bool
  split : Option String
  nickname : Option String
  stateDir : Option String
  serverCommand : String
  source : String
  destination : String

def resolveStateDir (stateDir : Option String) (id : Identity) : String :=
  match stateDir, id.xdgStateHome, id.home with
  | some dir, _, _ => dir
  | none, some dir, _ => dir ++ "/purgery"
  | none, none, some home => home ++ "/.local/state/purgery"
  | none, none, none => "/tmp/purgery-client"

section Transfers

variable (source host : String)

def buildRsyncArgs (source destination : String) : List String :=
  ["--recursive", "--partial", "--inplace", "--mkpath", "--archive", "--human-readable",
    "--info=progress2,stats2", "--protect-args", "--", source, destination]

def rsyncOutcome (what route : String) : Option Bool → Except String Unit
  | none => .error ("failed to execute " ++ what ++ ": " ++ route)
  | some false => .error (what ++ " failed: " ++ route)
  | some true => .ok ()

def runRsync (purpose : Purpose) (operand : String) : SyncM Unit := do
  let outcome ← ExceptT.lift (ask (.remote (.rsync purpose source
    (buildRsyncArgs source (host ++ ":" ++ operand)))))
  checked (rsyncOutcome "rsync" (source ++ " -> " ++ host ++ ":" ++ operand) outcome)

/-- The slash after the source puts the selected entries below the target itself. -/
def filterTransferArgs (remoteDir : String) (filters : SplitFilters) : List String :=
  ["--archive", "--partial", "--inplace", "--mkpath", "--protect-args", "--prune-empty-dirs"] ++
    filters.includeRules.map ("--include=" ++ ·) ++
    ["--exclude=" ++ filters.excludeRule, "--", source ++ "/", host ++ ":" ++ remoteDir ++ "/"]

def runRsyncFilterTransfer (purpose : Purpose) (remoteDir : String) (filters : SplitFilters) :
    SyncM Unit := do
  let outcome ← ExceptT.lift (ask (.remote (.rsync purpose source
    (filterTransferArgs source host remoteDir filters))))
  checked (rsyncOutcome "rsync filter transfer" (source ++ " -> " ++ host ++ ":" ++ remoteDir)
    outcome)

/-- A split that neither transforms nor deletes is one transfer. -/
def passthroughSplit (k : RunKey) (kind : SourceKind) (pattern remoteDir : String) :
    SyncM Unit :=
  match runPassthroughSplit kind pattern with
  | none => return ()
  | some .entry => runRsync source host (.direct k) remoteDir
  | some (.filtered filters) => runRsyncFilterTransfer source host (.direct k) remoteDir filters

end Transfers

section Commands

/-- The version checks that each response of the server has to pass. -/
def checkResponse {α : Type} (what : String) (version : α → Nat × String)
    (answer : Except String α) : Except String α :=
  match answer with
  | .error _ => .error ("failed to parse " ++ what ++ " response")
  | .ok resp =>
    if (version resp).1 ≠ protocolVersion then
      .error (what ++ " response has protocol_version " ++ toString (version resp).1 ++
        "; expected " ++ toString protocolVersion)
    else
      match requireCompatiblePurgeryVersion (version resp).2 (what ++ " response") with
      | .error _ => .error ("incompatible purgery_version in " ++ what ++ " response")
      | .ok () => .ok resp

variable (host serverCommand : String) (k : RunKey)

def beginRun : SyncM BeginRunResponse := do
  checked (checkResponse "begin-run" (fun r => (r.protocolVersion, r.purgeryVersion))
    (← command host serverCommand (.beginRun k)))

def prepareRun : SyncM PrepareRunResponse := do
  checked (checkResponse "prepare-run" (fun r => (r.protocolVersion, r.purgeryVersion))
    (← command host serverCommand (.prepareRun k)))

/-- Who has already checked the version of the server and had it collect garbage. -/
inductive ServerRunSetup where
  | needed
  | alreadyDone

def setUpServer (setup : ServerRunSetup) : SyncM Unit := do
  match setup with
  | .needed =>
    attemptTo (checkServerVersion host serverCommand).run
      "server version compatibility check failed"
    let _ ← ExceptT.lift (ask (.remote (.command host serverCommand .gc)))
    return ()
  | .alreadyDone => return ()

end Commands

section Transform

variable (dbg : Debug) (stateDir : String) (fuel : Nat)

/-- The run with the destination that the server has made of a relative one. -/
def RemoteRun.resolved (r : RemoteRun) (destination : Option String) :
    Except String RemoteRun :=
  match destination with
  | none => .ok r
  | some dest =>
    match DestinationPath.new dest with
    | .error _ => .error "server returned invalid resolved destination"
    | .ok path => .ok { r with runConfig := ⟨currentPurgeryVersion, r.key.nickname, path, true⟩ }

/-- Put the run into the staging area of the server. -/
def stageRun (spec : SourceSpec) (r : RemoteRun) (resp : BeginRunResponse) : SyncM RemoteRun := do
  answered (ask (.remote (.writeRunConfig r.host resp.runConfigPath r.runConfig)))
  answered (ask (.remote (.writeManifest r.host resp.manifestPath r.manifest)))
  let prepared ← prepareRun r.host r.serverCommand r.key
  let r' ← checked (r.resolved prepared.destination)
  runRsync spec.operationPath r.host (.staging r.key)
    (String.ofList (DestinationPath.trimEndSlashes resp.filesDir.toList) ++ "/")
  return r'

def finishStaged (r : RemoteRun) : SyncM Unit := do
  persistClientRunState stateDir r none .uploadCompleteFinishPending
  answered (ask (.remote .heartbeatHealthy))
  finishRun r.host r.serverCommand r.key
  ExceptT.lift (ask (.remote .stopHeartbeat))
  persistClientRunState stateDir r none .waitingForTerminalState

/-- Wait for the status of the run, and remember it. -/
def awaitStatus (r : RemoteRun) : SyncM RunStatus := do
  let _ ← driveServer r.host r.key dbg fuel
  let status ← readServerStatus r.host r.serverCommand r.key
  if status.nickname ≠ r.key.nickname ∨ status.runId ≠ r.key.runId then
    abort "server status envelope does not match requested run"
  else
    persistClientRunState stateDir r (some status) .terminalStatusSeen
    return status

def cleanAfterRun (r : RemoteRun) (ledger : Option String) (status : RunStatus) : SyncM Unit := do
  let complete ← (do
    match ledger with
    | none => return false
    | some path =>
      onLedgers (confirmImportsFromStatus status path)
      let outcome ← onLedgers (processCleanupStateFile path)
      return outcome == .complete : SyncM Bool)
  persistClientRunState stateDir r none .cleanupComplete
  match complete, ledger with
  | true, some path => retireCleanupStateFile path
  | _, _ => pure ()
  removeClientRunState r.key

def serverRun (setup : ServerRunSetup) (spec : SourceSpec) (ledger : Option String)
    (r : RemoteRun) : SyncM Unit := do
  setUpServer r.host r.serverCommand setup
  let resp ← beginRun r.host r.serverCommand r.key
  ExceptT.lift (ask (.remote (.startHeartbeat r.key resp.heartbeatIntervalSecs)))
  match ← ExceptT.lift (stageRun spec r resp).run with
  | .error e =>
    ExceptT.lift (ask (.remote .stopHeartbeat))
    throw e
  | .ok r =>
    finishStaged stateDir r
    let status ← awaitStatus dbg stateDir fuel r
    cleanAfterRun stateDir r ledger status
    checked (ensureSuccessfulStatus status)

end Transform

section Sync

variable (dbg : Debug) (stateDir : String) (fuel : Nat) (id : Identity)

/-- The ledger of what may later be deleted. -/
def captureLedger (spec : SourceSpec) (k : RunKey) (deleteAfterImport : Bool) :
    SyncM (Option String) := do
  if deleteAfterImport then
    let entries ← onFiles (captureCleanupIdentity spec)
    if entries.isEmpty then return none
    else
      let path ← writeCleanupState stateDir
        ⟨currentPurgeryVersion, k.nickname.asStr, k.runId.asStr, entries⟩
      return some path
  else return none

def passthroughWithCleanup (spec : SourceSpec) (k : RunKey) (remote : RemoteDestination)
    (ledger : Option String) : SyncM Unit := do
  runRsync spec.operationPath remote.host (.direct k) remote.path.operand
  match ledger with
  | none => return ()
  | some path =>
    onLedgers (confirmAllImports path)
    let _ ← processCleanupStateFileAndRetire path
    return ()

/-- One operation on one source entry. -/
def syncEntry (args : SyncArgs) (setup : ServerRunSetup) (spec : SourceSpec) (k : RunKey) :
    SyncM Unit := do
  let remote ← checked (parseDestination args.destination)
  if args.transform.isNone && !args.deleteAfterImport then
    runRsync spec.operationPath remote.host (.direct k) remote.path.operand
  else
    let manifest ← onFiles (buildManifest spec k args.transform)
    let ledger ← captureLedger stateDir spec k args.deleteAfterImport
    if args.transform.isNone then passthroughWithCleanup spec k remote ledger
    else
      serverRun dbg stateDir fuel setup spec ledger
        ⟨k, remote.host, args.serverCommand, manifest,
          ⟨currentPurgeryVersion, k.nickname, remote.path, true⟩⟩

/-- Recovery comes first, and its failure is the end of the sync. -/
def startSync (args : SyncArgs) : SyncM (SourceSpec × Nickname) := do
  resumePendingCleanups stateDir
  resumeRuns dbg stateDir fuel
  let surroundings ← ExceptT.lift (ask .lookAround)
  let spec ← checked (normalizeSource surroundings args.source)
  if args.transform.isSome && !args.deleteAfterImport then
    abort "--delete-after-import is required when --transform is used"
  else
    let nickname ← checked (chooseNickname dbg args.nickname id)
    return (spec, nickname)

/-- `run_sync_with_run_id` without a split. -/
def syncUnsplit (args : SyncArgs) (runId : RunId) (setup : ServerRunSetup) : SyncM Unit := do
  let (spec, nickname) ← startSync dbg stateDir fuel id args
  syncEntry dbg stateDir fuel args setup spec ⟨nickname, runId⟩

/-- Each root of a split is an operation of its own. -/
def syncRoots (args : SyncArgs) (nickname : Nickname) (source : String) :
    List SplitCandidate → SyncM Unit
  | [] => return ()
  | root :: rest => do
    let runId ← ExceptT.lift (ask .generate)
    syncUnsplit dbg stateDir fuel id
      { args with
        split := none
        nickname := some nickname.asStr
        stateDir := some stateDir
        source := root.path
        destination := splitDestination args.destination source root.path } runId .alreadyDone
    syncRoots args nickname source rest

/-- A matcher that panics ends the process. -/
def runSplit (args : SyncArgs) (pattern : String) (setup : ServerRunSetup) (spec : SourceSpec)
    (k : RunKey) : SyncM Unit := do
  checked (validateSplitPattern pattern)
  let target ← checked (parseDestination args.destination)
  if args.transform.isNone && !args.deleteAfterImport then
    passthroughSplit spec.operationPath target.host k spec.kind pattern target.path.operand
  else
    let (metadata, walk) ← ExceptT.lift (ask (.walkSource spec.operationPath))
    match discoverSplitEntries spec.operationPath pattern metadata walk with
    | none => abort "the matcher panicked"
    | some roots =>
      if roots.isEmpty then return ()
      else
        if args.transform.isSome then setUpServer target.host args.serverCommand setup
        syncRoots dbg stateDir fuel id args k.nickname spec.operationPath roots

def runSyncWithRunId (args : SyncArgs) (runId : RunId) (setup : ServerRunSetup) :
    SyncM Unit := do
  let (spec, nickname) ← startSync dbg stateDir fuel id args
  match args.split with
  | some pattern => runSplit dbg stateDir fuel id args pattern setup spec ⟨nickname, runId⟩
  | none => syncEntry dbg stateDir fuel args setup spec ⟨nickname, runId⟩

def runSync (args : SyncArgs) : SyncM Unit := do
  let runId ← ExceptT.lift (ask .generate)
  runSyncWithRunId dbg stateDir fuel id args runId .needed

/-- `main`: the result decides the exit code. -/
def clientMain (args : SyncArgs) : Sync Unit := do
  let result ← (runSync dbg stateDir fuel id args).run
  ask (.exit result)

end Sync

end Purgery.Client
