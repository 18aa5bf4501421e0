import Purgery.Server.Recover

namespace Purgery.Server

open Purgery.Interleaving

inductive ProcessRunOutcome where
  | processed
  | alreadyTerminal
  | alreadyActive
  | claimInProgress
deriving DecidableEq

def ProcessRunOutcome.asStr : ProcessRunOutcome → String
  | .processed => "processed"
  | .alreadyTerminal => "already_terminal"
  | .alreadyActive => "already_active"
  | .claimInProgress => "claim_in_progress"

structure ProcessRunInnerResult where
  outcome : ProcessRunOutcome
  runPhase : Option String
  statusState : Option String
  message : Option String
deriving DecidableEq

section Terminal

variable (k : RunKey)

def runName : String := k.nickname.asStr ++ "/" ++ k.runId.asStr

/-- The status of a terminal directory, as an answer to the client needs it. -/
def verifyStatus (ph : RunPhase) : Except IoError (Doc RunStatus) → Except String RunStatus
  | .error _ => .error ("terminal directory exists for run " ++ runName k ++ " in phase " ++
      ph.asStr ++ " but status.toml is unreadable")
  | .ok content =>
    match RunStatus.fromToml content with
    | .error _ => .error ("terminal status.toml is invalid for run " ++ runName k ++
        " in phase " ++ ph.asStr)
    | .ok status =>
      match requireCompatiblePurgeryVersion status.purgeryVersion "terminal status" with
      | .error _ => .error ("incompatible terminal status version for run " ++ runName k ++
          " in phase " ++ ph.asStr)
      | .ok _ =>
        if status.nickname ≠ k.nickname ∨ status.runId ≠ k.runId then
          .error ("terminal status envelope mismatch for run " ++ runName k ++ " in phase " ++
            ph.asStr ++ ": status has nickname=" ++ status.nickname.asStr ++ ", run_id=" ++
            status.runId.asStr)
        else .ok status

def verifiedStatusIn (ph : RunPhase) (otherwise : ExceptT String Call (Option (String × String))) :
    ExceptT String Call (Option (String × String)) := do
  if ← ask (.dirExists ph) then
    let content ← ask (.read ph .status)
    let status ← ExceptT.mk (pure (verifyStatus k ph content))
    return some (ph.asStr, status.state.asStr)
  else otherwise

def verifiedTerminalStatus : ExceptT String Call (Option (String × String)) :=
  verifiedStatusIn k .done (verifiedStatusIn k .failed (return none))

def terminalResponse (outcome : ProcessRunOutcome) (message : String) :
    ExceptT String Call ProcessRunInnerResult := do
  match ← verifiedTerminalStatus k with
  | none => throw ("run " ++ runName k ++ " expected terminal status after outcome " ++
      outcome.asStr ++ " but no verified terminal status exists")
  | some (runPhase, statusState) =>
    return ⟨outcome, some runPhase, some statusState, some message⟩

def alreadyTerminalResponse (message absent : String) :
    ExceptT String Call ProcessRunInnerResult := do
  match ← verifiedTerminalStatus k with
  | none => throw absent
  | some (runPhase, statusState) =>
    return ⟨.alreadyTerminal, some runPhase, some statusState, some message⟩

end Terminal

section

variable (host : Host) (config : ServerConfig) (k : RunKey)

def handleProcessRunProcessingOutcome : ExceptT String Call ProcessRunInnerResult := do
  match ← recoverProcessingRunIfUnlocked host config k with
  | .recovered => terminalResponse k .processed "processing run recovered and completed"
  | .activeProcessor =>
    return ⟨.alreadyActive, some "processing", none,
      some "processor lock is held by another process"⟩
  | .failedPublished error =>
    terminalResponse k .processed ("processing recovery failed: " ++ error)
  | .incompatible message =>
    throw ("abandoned processing run is incompatible: " ++ message)
  | .notFound =>
    alreadyTerminalResponse k "processing run completed before recovery"
      ("run " ++ runName k ++ " disappeared from processing but no verified terminal status exists")
  | .failurePublishFailed _ _ =>
    throw "processing recovery failed and could not publish failure"

/-- A claimed run is processed; a run whose processing fails is moved to
`failed`. -/
def processClaimed : ExceptT String Call ProcessRunInnerResult := do
  match ← ExceptT.lift (processProcessingRun host config k).run with
  | .ok _ => terminalResponse k .processed "run processed successfully"
  | .error (.incompatible _ message) => throw ("incompatible run in processing: " ++ message)
  | .error (.other error) =>
    match ← ExceptT.lift (moveToFailed config k).run with
    | .ok _ => terminalResponse k .processed error
    | .error moveError =>
      throw (error ++ "; failed to move target run to failed: " ++ moveError)

/-- The run was not found in `ready`: it may be in a later phase. -/
def processNotReady : ExceptT String Call ProcessRunInnerResult := do
  if ← ask (.dirExists .processing) then handleProcessRunProcessingOutcome host config k
  else
    alreadyTerminalResponse k "run was already in a terminal phase"
      ("run " ++ runName k ++ " not found in ready, processing, or terminal phases")

def processRunInner : ExceptT String Call ProcessRunInnerResult := do
  match ← ExceptT.lift (claimReadyRun config k) with
  | .claimed lock =>
    let inner ← ExceptT.lift (processClaimed host config k).run
    ask (.close lock)
    ExceptT.mk (pure inner)
  | .activeClaimer =>
    return ⟨.claimInProgress, some "ready", none,
      some "another process owns the ready processor lock"⟩
  | .alreadyProcessing => handleProcessRunProcessingOutcome host config k
  | .alreadyTerminal =>
    alreadyTerminalResponse k "run was already in a terminal phase"
      ("run " ++ runName k ++
        " reported as terminal by claim ready but no verified terminal status found")
  | .incompatibleReady message => throw ("incompatible run left in place: " ++ message)
  | .malformedReadyMovedToFailed error =>
    terminalResponse k .processed ("malformed ready run moved to failed: " ++ error)
  | .malformedReadyMoveFailed _ _ => throw "malformed ready run could not be moved to failed"
  | .notFound => processNotReady host config k
  | .claimFailed error => throw error

/-- `process-once` on one of the ready runs that it found. -/
def processReadyRun : Call Unit := do
  match ← claimReadyRun config k with
  | .claimed lock =>
    match ← (processProcessingRun host config k).run with
    | .ok _ => pure ()
    | .error _ => let _ ← (moveToFailed config k).run
    sys (.close lock)
  | _ => return ()

def recoverFoundRun : Call Unit := do
  let _ ← (recoverProcessingRunIfUnlocked host config k).run

end

end Purgery.Server
