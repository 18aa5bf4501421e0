import Purgery.Server.Entry

namespace Purgery.Server

open Purgery.Interleaving

/-- Outcome of an attempt to claim a ready run. -/
inductive ReadyClaimOutcome where
  | claimed (lock : Nat)
  | alreadyProcessing
  | alreadyTerminal
  | activeClaimer
  | incompatibleReady (message : String)
  | malformedReadyMovedToFailed (error : String)
  | malformedReadyMoveFailed (originalError publishError : String)
  | notFound
  | claimFailed (error : String)
deriving DecidableEq

section Claim

variable (config : ServerConfig) (k : RunKey)

def recheckState : Call ReadyClaimOutcome := do
  if ← sys (.dirExists .processing) then return .alreadyProcessing
  if ← sys (.dirExists .done) then return .alreadyTerminal
  if ← sys (.dirExists .failed) then return .alreadyTerminal
  if ← sys (.dirExists .ready) then
    return .claimFailed ("failed to claim run " ++ k.nickname.asStr ++ "/" ++ k.runId.asStr ++
      ": ready still exists but rename failed")
  return .notFound

/-- Publish the failure in `ready`, then move the run: a run that cannot be
moved stays in `ready` without the status. -/
def handleMalformedReady (originalError : String) : Call ReadyClaimOutcome := do
  match ← (publishStatusAtomic config k .ready (runFailure k originalError)).run with
  | .error e =>
    let _ ← sys (.removeTmp .ready .status)
    return .malformedReadyMoveFailed originalError
      ("failed to write failure status to ready: " ++ e)
  | .ok _ =>
    let parent : Except IoError Unit ← sys (.createParent .failed)
    match parent with
    | .error e =>
      return .malformedReadyMoveFailed originalError
        ("failed to create failed parent: " ++ e.message)
    | .ok _ =>
      let moved : Except IoError Unit ← sys (.move .ready .failed)
      match moved with
      | .error e =>
        let _ ← sys (.removeFile .ready .status)
        let _ ← sys (.removeTmp .ready .status)
        return .malformedReadyMoveFailed originalError
          ("failed to move malformed ready to failed: " ++ e.message)
      | .ok _ =>
        let _ ← sys (.removeLock .failed)
        return .malformedReadyMovedToFailed originalError

/-- Rename the locked run from `ready` to `processing`. -/
def renameClaimed (lock : Nat) : Call ReadyClaimOutcome := do
  let parent : Except IoError Unit ← sys (.createParent .processing)
  match parent with
  | .error e =>
    let _ ← sys (.close lock)
    return .claimFailed ("failed to create processing parent: " ++ e.message)
  | .ok _ =>
    let moved : Except IoError Unit ← sys (.move .ready .processing)
    match moved with
    | .ok _ => return .claimed lock
    | .error _ =>
      let _ ← sys (.close lock)
      recheckState k

/-- The lock is taken before the ready directory is read or changed. -/
def claimReadyRun : Call ReadyClaimOutcome := do
  if !(← sys (.dirExists .ready)) then recheckState k
  else
    match ← (tryLockExistingDir config k .ready).run with
    | .ok .busy => return .activeClaimer
    | .ok .missing => recheckState k
    | .error e => return .claimFailed ("failed to acquire processor lock: " ++ e)
    | .ok (.acquired lock) =>
      match ← (readCompatibleRunInputs config k .ready).run with
      | .error (.incompatible _ message) =>
        let _ ← sys (.close lock)
        return .incompatibleReady message
      | .error (.other e) =>
        let outcome ← handleMalformedReady config k e
        let _ ← sys (.close lock)
        return outcome
      | .ok _ => renameClaimed k lock

end Claim

section Processing

variable (host : Host) (config : ServerConfig) (k : RunKey)

/-- Publish a run-level failure and report the error. -/
def failRun (message : String) : ExceptT ProcessingError Call Unit := do
  ExceptT.adapt ProcessingError.other (writeRunFailure config k message)
  throw (.other message)

def entryStatus (outcome : EntryOutcome) : RunStatus where
  purgeryVersion := currentPurgeryVersion
  runId := k.runId
  nickname := k.nickname
  state := outcome.state
  entries := [outcome.intoEntry]
  error := none

/-- The work area is made anew: a stale one is removed if it can be. -/
def resetWorkArea : ExceptT ProcessingError Call Unit := do
  let _ ← ExceptT.lift (removeSubtree .processing .work).run
  io (sys .createWork) fun _ =>
    .other ("failed to create work area: " ++ workDir config.workDir k)

def publishEntryStatus (outcome : EntryOutcome) : ExceptT ProcessingError Call Unit := do
  io (writeFile .processing .status (Doc.ofValue (entryStatus k outcome))) fun _ =>
    .other ("failed to write temporary status: " ++ filePath config k .processing "status.toml.tmp")
  io (sys (.publish .processing .status)) fun _ =>
    .other ("failed to finalize status: " ++ filePath config k .processing "status.toml")

def processEntries (runConfig : RunConfig) (manifest : Manifest) (entry : ManifestEntry) :
    ExceptT ProcessingError Call Unit := do
  resetWorkArea config k
  ExceptT.lift (writeProgressBestEffort config k "processing_started" 0
    manifest.entries.length "" "")
  ExceptT.lift (writeProgressBestEffort config k "processing_entry" 0 1
    entry.relativePath.asStr "")
  let outcome ← ExceptT.lift
    (processManifestEntry host config k entry 0 1 runConfig.destination)
  if outcome.state = .done then
    let _ ← ExceptT.lift (removeSubtree .processing .work).run
  ExceptT.lift (writeProgressBestEffort config k "publishing_status" 0 1 "" "")
  publishEntryStatus config k outcome
  ExceptT.adapt .other (finalizeProcessingRun config k outcome.state)

def processProcessingRun : ExceptT ProcessingError Call Unit := do
  match ← ExceptT.lift (readCompatibleRunInputs config k .processing).run with
  | .error (.incompatible path message) => throw (.incompatible path message)
  | .error (.other e) => failRun config k e
  | .ok (runConfig, manifest) =>
    match validateTransformRun config manifest runConfig, manifest.entries with
    | .error e, _ => failRun config k e
    | .ok _, [] => return ()
    | .ok _, entry :: _ => processEntries host config k runConfig manifest entry

end Processing

end Purgery.Server
