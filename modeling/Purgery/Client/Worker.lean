import Purgery.Server.RunState

namespace Purgery.Client

open Server

/-- The record that `process-run` prints. -/
structure ProcessRunResponse where
  protocolVersion : Nat
  purgeryVersion : String
  nickname : String
  runId : String
  outcome : String
  runPhase : Option String
  statusState : Option String
  message : Option String
deriving DecidableEq

/-- The response of `process_run_target` to the result of the inner function. -/
def processRunResponse (k : RunKey) (result : ProcessRunInnerResult) : ProcessRunResponse :=
  ⟨protocolVersion, currentPurgeryVersion, k.nickname.asStr, k.runId.asStr,
    result.outcome.asStr, result.runPhase, result.statusState, result.message⟩

def outcomeFromStrName : String → Option ProcessRunOutcome
  | "processed" => some .processed
  | "already_terminal" => some .alreadyTerminal
  | "already_active" => some .alreadyActive
  | "claim_in_progress" => some .claimInProgress
  | _ => none

structure ProgressSnapshot where
  phase : String
  terminal : Bool
  processorState : Option String
  progressState : Option String
  entryIndex : Option Nat
  entryTotal : Option Nat
  updatedAtUnixSecs : Nat
deriving DecidableEq

def ProgressSnapshot.of (s : RunStateResponse) : ProgressSnapshot :=
  ⟨s.phase, s.terminal, s.processorState, s.progressState, s.entryIndex, s.entryTotal,
    s.updatedAtUnixSecs⟩

def maxNoProgressCount : Nat := 3

structure NoProgressTracker where
  count : Nat
  lastSnapshot : Option ProgressSnapshot

def NoProgressTracker.new : NoProgressTracker := ⟨0, none⟩

def NoProgressTracker.advance (tracker : NoProgressTracker) (state : RunStateResponse) :
    Bool × NoProgressTracker :=
  let snap := ProgressSnapshot.of state
  if tracker.lastSnapshot = some snap then
    (tracker.count + 1 < maxNoProgressCount, { tracker with count := tracker.count + 1 })
  else (true, ⟨0, some snap⟩)

/-- What a worker exit and a fresh run-state make the drive loop do. -/
inductive WorkerExitDecision where
  | terminal (state : RunStateResponse)
  | continueWithFreshState (state : RunStateResponse)

section

variable (debug : Option String → String) (k : RunKey)

/-- `stdout` is what the worker printed, parsed, or nothing. -/
def parseProcessRunResponse (stdout : Option (Except String ProcessRunResponse)) :
    Except String ProcessRunResponse := do
  let run := k.nickname.asStr ++ "/" ++ k.runId.asStr
  match stdout with
  | none => throw ("process-run exited successfully but produced empty stdout for run " ++ run)
  | some (.error _) => throw ("failed to parse process-run response TOML for run " ++ run)
  | some (.ok resp) =>
    if resp.protocolVersion ≠ protocolVersion then
      throw ("process-run response protocol_version " ++ toString resp.protocolVersion ++
        " does not match client version " ++ toString protocolVersion ++ " for run " ++ run)
    else
      match requireCompatiblePurgeryVersion resp.purgeryVersion "process-run response" with
      | .error _ =>
        throw ("incompatible purgery_version in process-run response for run " ++ run)
      | .ok _ =>
        if resp.nickname ≠ k.nickname.asStr ∨ resp.runId ≠ k.runId.asStr then
          throw ("process-run response envelope mismatch for run " ++ run ++
            " (response nickname=" ++ resp.nickname ++ ", run_id=" ++ resp.runId ++ ")")
        else return resp

/-- What the client concludes from the answer of its worker and from `fresh`,
the answer of the run-state that it asks for then. `debug` renders an optional
string. -/
def handleProcessRunSuccess (stdout : Option (Except String ProcessRunResponse))
    (fresh : Except String RunStateResponse) (noProgress : NoProgressTracker) :
    Except String (WorkerExitDecision × NoProgressTracker) := do
  let run := k.nickname.asStr ++ "/" ++ k.runId.asStr
  let resp ← parseProcessRunResponse k stdout
  match outcomeFromStrName resp.outcome with
  | none => throw ("unknown process-run outcome '" ++ resp.outcome ++ "'")
  | some outcome =>
    let fresh ← fresh
    match outcome with
    | .processed | .alreadyTerminal =>
      if !fresh.terminal then
        throw ("process-run reported outcome=" ++ resp.outcome ++
          " but fresh run-state is not terminal for run " ++ run ++ " (phase=" ++ fresh.phase ++
          ")")
      else return (.terminal fresh, noProgress)
    | .alreadyActive =>
      if fresh.phase ≠ "processing" ∨ fresh.processorState ≠ some "active" then
        throw ("process-run reported outcome=already_active but fresh run-state is not " ++
          "processing/active for run " ++ run ++ " (phase=" ++ fresh.phase ++
          ", processor_state=" ++ debug fresh.processorState ++ ")")
      else return (.continueWithFreshState fresh, noProgress)
    | .claimInProgress =>
      if fresh.terminal then return (.terminal fresh, noProgress)
      else if fresh.phase = "processing" ∧ fresh.processorState = some "active" then
        return (.continueWithFreshState fresh, noProgress)
      else if fresh.phase = "ready" then
        let (progressing, noProgress) := noProgress.advance fresh
        if progressing then return (.continueWithFreshState fresh, noProgress)
        else
          throw ("process-run repeatedly exited without progress: outcome=claim_in_progress " ++
            "and target remained ready after " ++ toString maxNoProgressCount ++
            " consecutive attempts for run " ++ run)
      else return (.continueWithFreshState fresh, noProgress)

end

variable {debug : Option String → String} {k : RunKey}

theorem outcomeFromStrName_asStr (o : ProcessRunOutcome) : outcomeFromStrName o.asStr = some o := by
  cases o <;> rfl

/-- The client accepts what the server prints. -/
theorem parseProcessRunResponse_own (r : ProcessRunInnerResult) :
    parseProcessRunResponse k (some (.ok (processRunResponse k r))) =
      .ok (processRunResponse k r) := by
  have hv : requireCompatiblePurgeryVersion currentPurgeryVersion "process-run response" =
      .ok () := by decide
  simp [parseProcessRunResponse, processRunResponse, hv, pure, Except.pure]

/-- An answer of the server that the run is over stands if a fresh run-state
says the same. -/
theorem handleProcessRunSuccess_over {r : ProcessRunInnerResult} {fresh : RunStateResponse}
    (hr : r.outcome = .processed ∨ r.outcome = .alreadyTerminal) (hfresh : fresh.terminal = true)
    (noProgress : NoProgressTracker) :
    handleProcessRunSuccess debug k (some (.ok (processRunResponse k r))) (.ok fresh) noProgress =
      .ok (.terminal fresh, noProgress) := by
  have hout : outcomeFromStrName (processRunResponse k r).outcome = some r.outcome :=
    outcomeFromStrName_asStr r.outcome
  unfold handleProcessRunSuccess
  rw [parseProcessRunResponse_own]
  simp only [bind, Except.bind, hout]
  obtain h | h := hr <;> simp [h, hfresh, pure, Except.pure]

end Purgery.Client
