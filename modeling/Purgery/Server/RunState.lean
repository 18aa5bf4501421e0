import Purgery.Server.ProcessRun

namespace Purgery.Server

open Purgery.Interleaving

structure RunStateResponse where
  phase : String
  terminal : Bool
  message : String
  updatedAtUnixSecs : Nat
  observedAtUnixSecs : Nat
  progressState : Option String
  entryIndex : Option Nat
  entryTotal : Option Nat
  currentEntry : Option String
  currentTransform : Option String
  progressStatus : Option String
  processorState : Option String
deriving DecidableEq

inductive TerminalStatusOutcome where
  | valid
  | incompatible
  | malformed (reason : String)
deriving DecidableEq

section

variable (config : ServerConfig) (k : RunKey)

def tryReadStatus : Except IoError (Doc RunStatus) → TerminalStatusOutcome
  | .error _ => .malformed "missing/unreadable"
  | .ok content =>
    match RunStatus.fromToml content with
    | .ok status =>
      match requireCompatiblePurgeryVersion status.purgeryVersion "status" with
      | .error _ => .incompatible
      | .ok _ =>
        if status.nickname ≠ k.nickname ∨ status.runId ≠ k.runId then
          .malformed "envelope mismatch"
        else .valid
    | .error _ =>
      match content.probe with
      | .error .missingVersion => .incompatible
      | _ => .malformed "malformed"

def dirModifiedAt (ph : RunPhase) : Call Nat := do
  match ← sys (.modified ph fun _ => false) with
  | .ok mtime => return mtime
  | .error _ => return 0

def plainResponse (phase : String) (terminal : Bool) (message : String) (updatedAt now : Nat) :
    RunStateResponse :=
  ⟨phase, terminal, message, updatedAt, now, none, none, none, none, none, none, none⟩

/-- The response while a run is processed, before the processor is probed. -/
def readProgressFields (now : Nat) : Call RunStateResponse := do
  let plain (message status : String) : Call RunStateResponse := do
    let updatedAt ← dirModifiedAt .processing
    return { plainResponse "processing" false message updatedAt now with
      progressStatus := some status }
  match ← sys (.read .processing .progress) with
  | .error _ => plain "run phase: processing" "missing"
  | .ok content =>
    match content.parsed with
    | .ok progress =>
      match requireCompatiblePurgeryVersion progress.purgeryVersion "progress" with
      | .error _ =>
        plain "run phase: processing (incompatible progress version)" "incompatible_version"
      | .ok _ =>
        if progress.nickname = k.nickname.asStr ∧ progress.runId = k.runId.asStr then
          return ⟨"processing", false,
            "processing: " ++ toString (progress.entryIndex + 1) ++ "/" ++
              toString progress.entryTotal ++ " entries, current: " ++ progress.currentEntry ++
              " transform: " ++ progress.currentTransform,
            progress.updatedAtUnixSecs, now, some progress.state, some progress.entryIndex,
            some progress.entryTotal, some progress.currentEntry,
            some progress.currentTransform, some "valid", none⟩
        else plain "run phase: processing (progress envelope mismatch)" "envelope_mismatch"
    | .error _ =>
      match content.probe with
      | .error .missingVersion =>
        plain "run phase: processing (progress missing purgery_version)" "incompatible_version"
      | _ => plain "run phase: processing (malformed progress)" "malformed"

def processorState : Call (Option String) := do
  match ← (probeProcessorLockReadonly config k .processing false).run with
  | .ok (some true) => return some "active"
  | .ok (some false) => return some "idle"
  | .ok none => return none
  | .error _ => return some "unknown"

/-- The answer for a terminal directory: `none` if the next one is to be tried. -/
def terminalPhaseResponse (ph : RunPhase) (now : Nat) : Call (Option RunStateResponse) := do
  if ← sys (.dirExists ph) then
    let content ← sys (.read ph .status)
    match tryReadStatus k content with
    | .valid =>
      let updatedAt ← dirModifiedAt ph
      return some (plainResponse ph.asStr true ("run is " ++ ph.asStr) updatedAt now)
    | .incompatible => return none
    | .malformed reason =>
      let updatedAt ← dirModifiedAt ph
      return some (plainResponse "corrupt" false
        (ph.asStr ++ " directory exists but status is " ++ reason) updatedAt now)
  else return none

def waitingResponse (ph : RunPhase) (now : Nat) : Call RunStateResponse := do
  let updatedAt ← dirModifiedAt ph
  return plainResponse ph.asStr false ("run phase: " ++ ph.asStr) updatedAt now

def runState : Call RunStateResponse := do
  let now ← sys .unixNow
  if ← sys (.dirExists .incoming) then waitingResponse .incoming now
  else if ← sys (.dirExists .ready) then waitingResponse .ready now
  else if ← sys (.dirExists .processing) then
    let response ← readProgressFields k now
    let state ← processorState config k
    return { response with processorState := state }
  else
    match ← terminalPhaseResponse k .done now with
    | some response => return response
    | none =>
      match ← terminalPhaseResponse k .failed now with
      | some response => return response
      | none => return plainResponse "not_found" false "no matching run found" 0 now

end

end Purgery.Server
