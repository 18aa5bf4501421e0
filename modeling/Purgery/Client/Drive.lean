import Purgery.Client.Worker
import Purgery.Interleaving.Runs

namespace Purgery.Client

open Purgery.Interleaving Server

/-! The loop in which the client supervises `process-run` until the run is over. -/

/-- What the worker printed: a response, or nothing, or an error response. -/
structure CapturedStdout where
  response : Option (Except String ProcessRunResponse)
  protocolError : Except String String

/-- How the local ssh process ended; `trimmed` is `stderr` without the blanks
around it. -/
structure ExitStatus where
  code : Option Int
  stdout : CapturedStdout
  stderr : String
  trimmed : String

inductive RemoteCommandExit where
  | success (stdout : CapturedStdout)
  | remoteFailure (exitCode : Option Int) (stdout : CapturedStdout) (stderr : String)
  | transportFailure (exitCode : Option Int) (details : String)
  | killed

/-- What the client asks the system: `spawn` starts the local process of
`process-run`, `waitpid` polls it, `kill` answers how many later polls still find
it, and `reap` is the poll after those. -/
inductive ClientOp where
  | runState (k : RunKey)
  | spawn (k : RunKey)
  | waitpid
  | kill
  | reap
  | expired
  | nap
  | pause
  deriving DecidableEq

abbrev ClientOp.Res : ClientOp → Type
  | runState _ => Except String RunStateResponse
  | spawn _ => Except String Unit
  | waitpid => Except String (Option ExitStatus)
  | kill => Except String Unit × Nat
  | reap => Except String ExitStatus
  | expired => Bool
  | nap | pause => Unit

abbrev Act (α : Type) := Prog ClientOp ClientOp.Res α

def act (o : ClientOp) : Act o.Res := Prog.perform o

/-- Code of the loop, which may return from it. -/
abbrev Part (α : Type) := ExceptT (Except String RunStateResponse) Act α

def leave {α : Type} (r : Except String RunStateResponse) : Part α := throw r

section Handle

def ExitStatus.exit (status : ExitStatus) : RemoteCommandExit :=
  let withStderr (message : String) : String :=
    if status.stderr.isEmpty then message else message ++ ": " ++ status.stderr
  match status.code with
  | some 0 => .success status.stdout
  | some 255 => .transportFailure (some 255) (withStderr "SSH exit code 255")
  | some code => .remoteFailure (some code) status.stdout status.trimmed
  | none => .transportFailure none (withStderr "local SSH process terminated by signal")

def waitpidError (e : String) : RemoteCommandExit := .transportFailure none ("waitpid error: " ++ e)

def tryWait : Act (Except String (Option RemoteCommandExit)) := do
  match ← act .waitpid with
  | .error e => return .ok (some (waitpidError e))
  | .ok none => return .ok none
  | .ok (some status) => return .ok (some status.exit)

/-- After so many naps of 50 ms the grace period is over. -/
def terminalWorkerGrace : Nat := 100

def waitTimeout (naps : Nat) : Act (Except String (Option RemoteCommandExit)) := do
  match ← tryWait with
  | .error e => return .error e
  | .ok (some exit) => return .ok (some exit)
  | .ok none =>
    match naps with
    | 0 => return .ok none
    | naps + 1 =>
      if ← act .expired then return .ok none
      else
        act .nap
        waitTimeout naps

def wait : Nat → Act RemoteCommandExit
  | 0 => do
    match ← act .reap with
    | .error e => return waitpidError e
    | .ok status => return status.exit
  | polls + 1 => do
    act .nap
    wait polls

def terminateAndReap : Act RemoteCommandExit := do
  let killed ← act .kill
  wait killed.2

/-- The terminal state stands, whatever becomes of the worker. -/
def finishWorkerAfterTerminal (worker : Bool) : Act Unit := do
  if worker then
    match ← waitTimeout terminalWorkerGrace with
    | .ok (some _) => return ()
    | .ok none | .error _ =>
      let _ ← terminateAndReap
      return ()
  else return ()

def terminateWorkerOnError (worker : Bool) : Act Unit := do
  if worker then
    let _ ← terminateAndReap
    return ()
  else return ()

end Handle

inductive ProcessorObservation where
  | active
  | idle
  | unknown (raw : String)
  | missing

def processorObservation (state : RunStateResponse) : ProcessorObservation :=
  match state.processorState with
  | some "active" => .active
  | some "idle" => .idle
  | some other => .unknown other
  | none => .missing

structure DriveState where
  worker : Bool
  state : RunStateResponse
  noProgress : NoProgressTracker

section Drive

variable (debug : Option String → String) (host : String) (k : RunKey)

def runTitle : String := k.nickname.asStr ++ "/" ++ k.runId.asStr

/-- The state to go on with: a failed poll is passed over while a worker runs. -/
def pollState (st : DriveState) : Part RunStateResponse := do
  match ← ExceptT.lift (act (.runState k)) with
  | .ok state => return state
  | .error _ =>
    if st.worker then return st.state
    else leave (.error ("failed to poll run-state for run " ++ runTitle k))

/-- A worker that is gone said that it succeeded. -/
def afterSuccess (stdout : CapturedStdout) (noProgress : NoProgressTracker) :
    Part (RunStateResponse × NoProgressTracker) := do
  match parseProcessRunResponse k stdout.response with
  | .error e => leave (.error e)
  | .ok resp =>
    if (outcomeFromStrName resp.outcome).isNone then
      leave (.error ("unknown process-run outcome '" ++ resp.outcome ++ "'"))
    else
      let fresh ← ExceptT.lift (act (.runState k))
      match handleProcessRunSuccess debug k stdout.response fresh noProgress with
      | .error e => leave (.error e)
      | .ok (.terminal state, _) => leave (.ok state)
      | .ok (.continueWithFreshState state, noProgress) => return (state, noProgress)

def afterTransportFailure : Part RunStateResponse := do
  match ← ExceptT.lift (act (.runState k)) with
  | .error _ =>
    leave (.error ("process-run transport failed for run " ++ runTitle k ++
      " and fresh run-state could not be read; leaving persisted state for resume"))
  | .ok fresh => if fresh.terminal then leave (.ok fresh) else return fresh

def remoteFailureMessage (stdout : CapturedStdout) (stderr : String) : String :=
  match stdout.protocolError with
  | .ok message => "process-run failed on " ++ host ++ ": " ++ message
  | .error _ => "process-run remote failure for run " ++ runTitle k ++ ": " ++ stderr

def afterRemoteFailure (stdout : CapturedStdout) (stderr : String) : Part RunStateResponse := do
  let message := remoteFailureMessage host k stdout stderr
  match ← ExceptT.lift (act (.runState k)) with
  | .error _ => leave (.error message)
  | .ok fresh =>
    if fresh.terminal then leave (.ok fresh)
    else
      match processorObservation fresh with
      | .unknown raw =>
        leave (.error ("process-run remote failure for run " ++ runTitle k ++ ": " ++ message ++
          "; fresh run-state is processing with unknown processor_state=\"" ++ raw ++
          "\", so the client refused to recover/restart"))
      | .idle | .missing => leave (.error message)
      | .active => if fresh.phase = "ready" then leave (.error message) else return fresh

def afterExit (exit : RemoteCommandExit) (noProgress : NoProgressTracker) :
    Part (RunStateResponse × NoProgressTracker) := do
  match exit with
  | .success stdout => afterSuccess debug k stdout noProgress
  | .transportFailure _ _ =>
    let fresh ← afterTransportFailure k
    return (fresh, noProgress)
  | .remoteFailure _ stdout stderr =>
    let fresh ← afterRemoteFailure host k stdout stderr
    return (fresh, noProgress)
  | .killed => leave (.error ("process-run was killed for run " ++ runTitle k))

/-- Look whether the worker has exited. -/
def checkWorker (st : DriveState) : Part DriveState := do
  if !st.worker then return st
  else
    match ← ExceptT.lift tryWait with
    | .error _ =>
      ExceptT.lift (terminateWorkerOnError st.worker)
      leave (.error ("failed to check process-run worker for run " ++ runTitle k))
    | .ok none => return st
    | .ok (some exit) =>
      let (state, noProgress) ← afterExit debug host k exit st.noProgress
      return ⟨false, state, noProgress⟩

/-- Whether to start a worker. -/
def restartWorker (st : DriveState) : Except String Bool :=
  match st.state.phase with
  | "ready" => .ok (!st.worker)
  | "processing" =>
    match processorObservation st.state with
    | .active => .ok false
    | .idle => .ok (!st.worker)
    | .unknown _ | .missing =>
      if st.worker then .ok false
      else .error ("run " ++ runTitle k ++ " is in processing phase but processor ownership " ++
        "cannot be determined (processor_state=" ++ debug st.state.processorState ++
        "); leaving persisted state for resume")
  | "not_found" => .error ("run " ++ runTitle k ++ " not found on server")
  | other => .error ("unexpected run-state phase '" ++ other ++ "' for run " ++ runTitle k)

def startWorker (st : DriveState) : Part DriveState := do
  match restartWorker debug k st with
  | .error e =>
    ExceptT.lift (terminateWorkerOnError st.worker)
    leave (.error e)
  | .ok false => return st
  | .ok true =>
    match ← ExceptT.lift (act (.spawn k)) with
    | .error e => leave (.error e)
    | .ok () => return { st with worker := true }

def driveIteration (st : DriveState) : Part DriveState := do
  let state ← pollState k st
  if state.terminal then
    ExceptT.lift (finishWorkerAfterTerminal st.worker)
    leave (.ok state)
  else
    let st ← checkWorker debug host k { st with state := state }
    let st ← startWorker debug k st
    ExceptT.lift (act .pause)
    return st

/-- At most so many iterations of the loop; it may go on after them. -/
def driveFrom : Nat → DriveState → Act (Option (Except String RunStateResponse))
  | 0, _ => return none
  | n + 1, st => do
    match ← (driveIteration debug host k st).run with
    | .error r => return some r
    | .ok st => driveFrom n st

/-- The state before the first poll. -/
def dummyRunState : RunStateResponse :=
  ⟨"starting", false, "", 0, 0, none, none, none, none, none, none, none⟩

def driveServerUntilTerminal (n : Nat) : Act (Option (Except String RunStateResponse)) :=
  driveFrom debug host k n ⟨false, dummyRunState, .new⟩

end Drive

end Purgery.Client
