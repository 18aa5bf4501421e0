import Purgery.Server.Process

namespace Purgery.Server

open Purgery.Interleaving

inductive RecoveryError where
  | incompatibleStatus (message : String)
  | other (message : String)
deriving DecidableEq

def RecoveryError.ofProcessing : ProcessingError → RecoveryError
  | .incompatible _ message => .incompatibleStatus message
  | .other message => .other message

section

variable (host : Host) (config : ServerConfig) (k : RunKey)

def statusPath : String := filePath config k .processing "status.toml"

/-- What recovery makes of the text of an existing status. -/
inductive StatusVerdict where
  | incompatible (message : String)
  | replace (message : String)
  | finalize (state : RunState)

def classifyStatus (content : Doc RunStatus) : StatusVerdict :=
  match content.probe with
  | .error .missingVersion =>
    .incompatible ("status file '" ++ statusPath config k ++
      "' is missing purgery_version (too old); leaving in place for operator inspection")
  | .error (.invalidToml _) =>
    .replace ("interrupted processing had malformed status file '" ++ statusPath config k ++ "'")
  | .ok version =>
    match requireCompatiblePurgeryVersion version "status" with
    | .error _ =>
      .incompatible ("status file '" ++ statusPath config k ++
        "' has incompatible purgery_version: producer " ++ version ++ ", current " ++
        currentPurgeryVersion ++ "; leaving in place for operator inspection")
    | .ok _ =>
      match RunStatus.fromToml content with
      | .error e =>
        .replace ("interrupted processing had malformed status file '" ++ statusPath config k ++
          "': " ++ e)
      | .ok status =>
        if status.nickname ≠ k.nickname ∨ status.runId ≠ k.runId then
          .replace "interrupted processing had mismatched status envelope"
        else .finalize status.state

def recoverOrProcessProcessingRun : ExceptT RecoveryError Call Unit := do
  ExceptT.adapt RecoveryError.ofProcessing (validateRunLeaseProtocol config k .processing)
  match ← ask (.read .processing .status) with
  | .ok content =>
    match classifyStatus config k content with
    | .incompatible message => throw (.incompatibleStatus message)
    | .replace message => ExceptT.adapt .other (writeRunFailure config k message)
    | .finalize state => ExceptT.adapt .other (finalizeProcessingRun config k state)
  | .error .notFound =>
    ExceptT.adapt RecoveryError.ofProcessing (processProcessingRun host config k)
  | .error e =>
    throw (.other ("failed to read processing status: " ++ statusPath config k ++ ": " ++
      e.message))

/-- Outcome of an attempt to recover a processing run. -/
inductive ProcessingTargetOutcome where
  | recovered
  | activeProcessor
  | incompatible (message : String)
  | notFound
  | failedPublished (error : String)
  | failurePublishFailed (recoveryError publishError : String)
deriving DecidableEq

/-- The failure of a recovery is published while the lock is held. -/
def publishRecoveryFailure (recoveryError : String) : Call ProcessingTargetOutcome := do
  if ← sys (.dirExists .processing) then
    match ← (writeRunFailure config k ("processing recovery failed: " ++ recoveryError)).run with
    | .ok _ => return .failedPublished recoveryError
    | .error publishError => return .failurePublishFailed recoveryError publishError
  else return .failedPublished recoveryError

def recoverLocked : Call ProcessingTargetOutcome := do
  match ← (recoverOrProcessProcessingRun host config k).run with
  | .ok _ => return .recovered
  | .error (.incompatibleStatus message) => return .incompatible message
  | .error (.other recoveryError) => publishRecoveryFailure config k recoveryError

def recoverProcessingRunIfUnlocked : ExceptT String Call ProcessingTargetOutcome := do
  if !(← ask (.dirExists .processing)) then return .notFound
  else
    match ← ExceptT.lift (tryLockExistingDir config k .processing).run with
    | .ok .busy => return .activeProcessor
    | .ok .missing => return .notFound
    | .error e =>
      throw ("failed to check processor lock on processing run " ++ k.nickname.asStr ++ "/" ++
        k.runId.asStr ++ ": " ++ e)
    | .ok (.acquired lock) =>
      let outcome ← ExceptT.lift (recoverLocked host config k)
      ask (.close lock)
      return outcome

end

end Purgery.Server
