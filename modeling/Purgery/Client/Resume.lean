import Purgery.Client.Nicknames
import Purgery.Client.Pending
import Purgery.Client.Replies

namespace Purgery.Client

open Purgery.Path
open Purgery.Interleaving
open Purgery.Server (IoError RunStateResponse)

/-! The runs that earlier syncs have left: each is driven to its end before a new
sync starts. -/

section Persist

def runDirPath (stateDir : String) (k : RunKey) : String :=
  join (join stateDir "runs") (runName k.nickname.asStr k.runId.asStr)

/-- Where a run is processed, and what was agreed on. -/
structure RemoteRun where
  key : RunKey
  host : String
  serverCommand : String
  manifest : Manifest
  runConfig : RunConfig

def RemoteRun.state (r : RemoteRun) (terminalStatus : Option RunStatus) (phase : ClientRunPhase) :
    ClientRunState where
  protocolVersion := protocolVersion
  purgeryVersion := currentPurgeryVersion
  nickname := r.key.nickname.asStr
  runId := r.key.runId.asStr
  host := r.host
  serverCommand := r.serverCommand
  manifest := Doc.ofValue r.manifest
  runConfig := Doc.ofValue r.runConfig
  phase := phase
  terminalStatus := terminalStatus.map Doc.ofValue

def RunKey.runName (k : RunKey) : String := Client.runName k.nickname.asStr k.runId.asStr

variable (stateDir : String)

def RunKey.ledgerPath (k : RunKey) : String :=
  Client.ledgerPath stateDir k.nickname.asStr k.runId.asStr

def persistClientRunState (r : RemoteRun) (terminalStatus : Option RunStatus)
    (phase : ClientRunPhase) : SyncM Unit := do
  let name := RunKey.runName r.key
  let dir := runDirPath stateDir r.key
  let path := join dir "state.toml"
  let message := "failed to write run state: " ++ path ++ ".tmp"
  attemptTo (ask (.createRunDir name)) ("failed to create run state dir: " ++ dir)
  attemptTo (ask (.openRunTmp name)) message
  attemptTo (ask (.writeRunTmp name (Doc.ofValue (r.state terminalStatus phase)))) message
  attemptTo (ask (.publishRun name)) ("failed to publish run state: " ++ path)

def removeClientRunState (k : RunKey) : SyncM Unit := do
  let _ ← ExceptT.lift (ask (.removeRunDir (RunKey.runName k)))
  return ()

end Persist

section Server

variable (host serverCommand : String) (k : RunKey)

def command (c : ServerCommand) : SyncM c.Output :=
  answered (ask (.remote (.command host serverCommand c)))

def checkServerVersion : SyncM Unit := do
  match ← command host serverCommand .version with
  | .error _ => abort "failed to parse server version response"
  | .ok resp =>
    if resp.protocolVersion ≠ protocolVersion then
      abort ("server " ++ host ++ " has protocol_version " ++ toString resp.protocolVersion ++
        "; client expects " ++ toString protocolVersion)
    else
      checked ((requireCompatiblePurgeryVersion resp.purgeryVersion ("server " ++ host)).mapError
        VersionError.message)

def finishRun : SyncM Unit := command host serverCommand (.finishRun k)

def readServerStatus : SyncM RunStatus := do
  checked (readStatus (← command host serverCommand (.status k)))

/-- The loop of `Drive`, cut off after `n` iterations. -/
def driveServer (dbg : Debug) (n : Nat) : SyncM RunStateResponse := do
  match ← ExceptT.lift (driveCalls.embed (driveServerUntilTerminal dbg.option host k n)) with
  | some r => checked r
  | none => abort "still driving"

end Server

section Terminal

def maxListedEntries : Nat := 5

def EntryStatusEntry.problem (e : EntryStatusEntry) : Bool :=
  e.status == .failed || e.status == .skipped

def describeProblem (e : EntryStatusEntry) : String :=
  "; entry relative_path=\"" ++ e.relativePath ++ "\"" ++
    (e.transform.elim "" fun t => " transform=\"" ++ t ++ "\"") ++
    (e.error.elim "" fun message => " error=\"" ++ message ++ "\"")

def countStatus (status : RunStatus) (s : FileStatus) : Nat :=
  status.entries.countP fun e => e.status == s

def unsuccessful (status : RunStatus) : String :=
  let problems := status.entries.filter EntryStatusEntry.problem
  let detail := "sync completed with unsuccessful server status: run " ++
    status.nickname.asStr ++ "/" ++ status.runId.asStr ++ " state=" ++ status.state.asStr ++
    (status.error.elim "" fun message => "; server error: " ++ message) ++
    "; imported=" ++ toString (countStatus status .imported) ++
    " failed=" ++ toString (countStatus status .failed) ++
    " skipped=" ++ toString (countStatus status .skipped)
  let listed := (problems.take maxListedEntries).foldl (fun text e => text ++ describeProblem e)
    detail
  if maxListedEntries < problems.length then
    listed ++ "; (" ++ toString (problems.length - maxListedEntries) ++
      " more failed/skipped entries not shown)"
  else listed

def ensureSuccessfulStatus (status : RunStatus) : Except String Unit :=
  match status.state with
  | .done => .ok ()
  | .partiallyDone | .failed => .error (unsuccessful status)

end Terminal

section Drain

variable (dbg : Debug) (stateDir : String) (fuel : Nat) (r : RemoteRun)

/-- Whether the ledger of the run, if there is one, is done with. -/
def cleanFromStatus (status : RunStatus) : SyncM Bool := do
  let path := RunKey.ledgerPath stateDir r.key
  if ← ExceptT.lift (ask (.ledgerExists path)) then
    onLedgers (confirmImportsFromStatus status path)
    let outcome ← onLedgers (processCleanupStateFile path)
    return outcome == .complete
  else if r.runConfig.deleteAfterImport && !r.manifest.entries.isEmpty then
    throw (.missingLedger r.key)
  else return false

def processCleanupFromStatus (status : RunStatus) : SyncM Unit := do
  let complete ← cleanFromStatus stateDir r status
  persistClientRunState stateDir r none .cleanupComplete
  if complete then retireCleanupStateFile (RunKey.ledgerPath stateDir r.key)
  removeClientRunState r.key

def finishCleanupCompleteResume (k : RunKey) : SyncM Unit := do
  let path := RunKey.ledgerPath stateDir k
  if ← ExceptT.lift (ask (.ledgerExists path)) then
    let _ ← ExceptT.lift (processCleanupStateFileAndRetire path).run
  removeClientRunState k

/-- The status that was persisted has to be that of the run. -/
def persistedStatus (k : RunKey) (d : Doc RunStatus) : Except String RunStatus :=
  match d.parsed with
  | .error _ => .error "failed to parse persisted status"
  | .ok s =>
    match requireCompatiblePurgeryVersion s.purgeryVersion "status" with
    | .error _ => .error "incompatible persisted status version"
    | .ok () =>
      if s.nickname ≠ k.nickname ∨ s.runId ≠ k.runId then
        .error ("persisted terminal status envelope does not match: expected " ++
          k.nickname.asStr ++ "/" ++ k.runId.asStr ++ " but got " ++ s.nickname.asStr ++ "/" ++
          s.runId.asStr)
      else .ok s

/-- Clean up, and say whether the run went well. -/
def drainWith (status : RunStatus) : SyncM Unit := do
  processCleanupFromStatus stateDir r status
  checked (ensureSuccessfulStatus status)

def drainTerminal (terminalStatus : Option (Doc RunStatus)) : SyncM Unit := do
  match terminalStatus with
  | some d =>
    let status ← checked (persistedStatus r.key d)
    drainWith stateDir r status
  | none =>
    let status ← attemptTo (readServerStatus r.host r.serverCommand r.key).run
      "no persisted terminal status and could not re-read from server"
    drainWith stateDir r status

def drainWaiting : SyncM Unit := do
  let _ ← driveServer r.host r.key dbg fuel
  let status ← readServerStatus r.host r.serverCommand r.key
  if status.nickname ≠ r.key.nickname ∨ status.runId ≠ r.key.runId then
    abort "server status envelope does not match persisted run"
  else
    persistClientRunState stateDir r (some status) .terminalStatusSeen
    drainTerminal stateDir r (some (Doc.ofValue status))

def drainPending : SyncM Unit := do
  finishRun r.host r.serverCommand r.key
  persistClientRunState stateDir r none .waitingForTerminalState
  drainWaiting dbg stateDir fuel r

/-- The loop over the phases; each leads to the next one. -/
def drainLoop (state : ClientRunState) : SyncM Unit :=
  match state.phase with
  | .uploadCompleteFinishPending => drainPending dbg stateDir fuel r
  | .waitingForTerminalState => drainWaiting dbg stateDir fuel r
  | .terminalStatusSeen => drainTerminal stateDir r state.terminalStatus
  | .cleanupComplete => finishCleanupCompleteResume stateDir r.key
  | .abandoned => return ()
  | .corrupt => abort ("persisted run state " ++ state.nickname ++ "/" ++ state.runId ++
      " is marked corrupt; manual intervention required")

/-- The run that a persisted state speaks of. -/
def remoteRun (state : ClientRunState) : Except String RemoteRun := do
  let nickname ← (Nickname.new state.nickname).mapError fun e =>
    "invalid nickname in persisted state: " ++ nicknameError dbg e
  let runId ← (RunId.new state.runId).mapError fun e =>
    "invalid run_id in persisted state: " ++ runIdError dbg e
  let manifest ← state.manifest.parsed.mapError fun _ => "failed to parse persisted manifest"
  (requireCompatiblePurgeryVersion manifest.purgeryVersion "manifest").mapError fun _ =>
    "incompatible persisted manifest version"
  let runConfig ← state.runConfig.parsed.mapError fun _ => "failed to parse persisted run config"
  (requireCompatiblePurgeryVersion runConfig.purgeryVersion "run config").mapError fun _ =>
    "incompatible persisted run config version"
  return ⟨⟨nickname, runId⟩, state.host, state.serverCommand, manifest, runConfig⟩

def drainOne (state : ClientRunState) : SyncM Unit := do
  let r ← checked (remoteRun dbg state)
  if state.phase = .cleanupComplete then finishCleanupCompleteResume stateDir r.key
  else
    attemptTo (checkServerVersion r.host r.serverCommand).run
      "server version check failed while resuming persisted run"
    drainLoop dbg stateDir fuel r state

/-- What the loop over the persisted runs has met: an error, and the first that was
of a run being drained. -/
structure Trouble where
  anyError : Bool
  firstDrainError : Option SyncError

/-- One entry of `runs`. A state that is no TOML, or no state, is set aside. -/
def resumeRun (name : String) (seen : Trouble) : Sync Trouble := do
  if ← ask (.runExists name) then
    match ← ask (.readRun name) with
    | .error _ => return seen
    | .ok content =>
      match content.probe with
      | .error .missingVersion => return seen
      | .error (.invalidToml _) =>
        let _ ← ask (.setAside name)
        return { seen with anyError := true }
      | .ok version =>
        match requireCompatiblePurgeryVersion version "client run state" with
        | .error _ => return seen
        | .ok () =>
          match content.parsed with
          | .error _ =>
            let _ ← ask (.setAside name)
            return { seen with anyError := true }
          | .ok state =>
            match ← (drainOne dbg stateDir fuel state).run with
            | .ok () =>
              let _ ← ask (.removeRunDir name)
              return seen
            | .error e => return ⟨true, seen.firstDrainError.or (some e)⟩
  else return seen

def resumeNames : List String → Trouble → Sync Trouble
  | [], seen => return seen
  | name :: rest, seen => do
    let seen ← resumeRun dbg stateDir fuel name seen
    resumeNames rest seen

def sortNames (names : List String) : List String :=
  names.mergeSort fun a b => decide (a ≤ b)

def resumeRuns : SyncM Unit := do
  if ← ExceptT.lift (ask .runsIsDir) then
    match ← ExceptT.lift (ask .listRuns) with
    | .error .notFound => return ()
    | .error (.other _) => abort "failed to read runs directory"
    | .ok names =>
      let seen ← ExceptT.lift (resumeNames dbg stateDir fuel (sortNames names) ⟨false, none⟩)
      if seen.anyError then throw (.blocked seen.firstDrainError)
      else return ()
  else return ()

end Drain

end Purgery.Client
