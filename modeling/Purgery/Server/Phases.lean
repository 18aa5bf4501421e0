import Purgery.Interleaving.Prog
import Purgery.Server.Operation

namespace Purgery.Server

open Purgery.Interleaving

abbrev Call (α : Type) := Prog RunOp RunOp.Res α

def sys (o : RunOp) : Call o.Res := Prog.perform o

def ask {ε : Type} (o : RunOp) : ExceptT ε Call o.Res := ExceptT.lift (sys o)

def io {ε α : Type} (x : Call (Except IoError α)) (describe : IoError → ε) :
    ExceptT ε Call α := ExceptT.adapt describe (ExceptT.mk x)

/-- `fs::write` of a temporary file. -/
def writeFile (ph : RunPhase) (f : FileName) (d : Doc f.Content) : Call (Except IoError Unit) := do
  let opened : Except IoError Nat ← sys (.openTmp ph f)
  match opened with
  | .error e => return .error e
  | .ok dir => sys (.writeTmp dir f d)

def filePath (config : ServerConfig) (k : RunKey) (ph : RunPhase) (name : String) : String :=
  Path.join (config.workDir.runDir k ph) name

section Lock

/-- Outcome of an attempt to acquire the processor lock on an existing run
directory. -/
inductive ProcessorLockAttempt where
  | acquired (ino : Nat)
  | busy
  | missing
deriving DecidableEq

def tryLockExistingDir (config : ServerConfig) (k : RunKey) (ph : RunPhase) :
    ExceptT String Call ProcessorLockAttempt := do
  if !(← ask (.dirExists ph)) then return .missing
  let lockPath := filePath config k ph "processor.lock"
  let ino ← io (sys (.openLock ph)) fun e =>
    "failed to open processor lock file " ++ lockPath ++ ": " ++ e.message
  match ← ask (.flock ph ino) with
  | .ok true => return .acquired ino
  | .ok false =>
    ask (.close ino)
    return .busy
  | .error _ =>
    ask (.close ino)
    throw ("failed to lock processor: " ++ lockPath)

/-- Observe the processor lock without creating it: `none` if the directory is
not there, otherwise whether a processor holds the lock. -/
def probeProcessorLockReadonly (config : ServerConfig) (k : RunKey) (ph : RunPhase)
    (sweep : Bool) : ExceptT String Call (Option Bool) := do
  if !(← ask (.probeDir ph sweep)) then return none
  if !(← ask (.lockExists ph sweep)) then return some false
  let lockPath := filePath config k ph "processor.lock"
  match ← ask (.openLockReadonly ph sweep) with
  | .error .notFound => return some false
  | .error e => throw ("failed to open processor lock for probe: " ++ lockPath ++ ": " ++ e.message)
  | .ok ino =>
    let attempt ← ask (.probeFlock ph ino sweep)
    ask (.close ino)
    match attempt with
    | .ok true => return some false
    | .ok false => return some true
    | .error _ => throw ("failed to probe processor lock: " ++ lockPath)

end Lock

section Status

def publishStatusAtomic (config : ServerConfig) (k : RunKey) (ph : RunPhase)
    (status : RunStatus) : ExceptT String Call Unit := do
  io (writeFile ph .status (Doc.ofValue status)) fun _ =>
    "failed to write temporary status: " ++ filePath config k ph "status.toml.tmp"
  io (sys (.publish ph .status)) fun _ =>
    "failed to publish status: " ++ filePath config k ph "status.toml"

/-- A failure of the run as a whole. -/
def runFailure (k : RunKey) (error : String) : RunStatus where
  purgeryVersion := currentPurgeryVersion
  runId := k.runId
  nickname := k.nickname
  state := .failed
  entries := []
  error := some error

def writeRunFailure (config : ServerConfig) (k : RunKey) (error : String) :
    ExceptT String Call Unit := do
  io (writeFile .processing .status (Doc.ofValue (runFailure k error))) fun _ =>
    "failed to write temporary run failure status: " ++
      filePath config k .processing "status.toml.tmp"
  io (sys (.publish .processing .status)) fun _ =>
    "failed to finalize run failure status: " ++ filePath config k .processing "status.toml"
  io (sys (.createParent .failed)) fun _ =>
    "failed to create failed parent: " ++
      Path.join (config.workDir.nicknameDir k.nickname) "failed"
  io (sys (.move .processing .failed)) fun _ =>
    "failed to move run-level failure to failed: " ++ config.workDir.runDir k .processing ++
      " -> " ++ config.workDir.runDir k .failed
  let _ ← ask (.removeLock .failed)

end Status

section Progress

inductive ExistingProgress where
  | compatibleStartedAt (startedAt : Nat)
  | missing
  | incompatible
  | malformed

def existingProgress (k : RunKey) : Except IoError (Doc ProcessingProgress) → ExistingProgress
  | .error _ => .missing
  | .ok content =>
    match content.probe with
    | .error .missingVersion => .incompatible
    | .error (.invalidToml _) => .malformed
    | .ok version =>
      match requireCompatiblePurgeryVersion version "progress" with
      | .error _ => .incompatible
      | .ok _ =>
        match content.parsed with
        | .error _ => .malformed
        | .ok progress =>
          if progress.nickname ≠ k.nickname.asStr ∨ progress.runId ≠ k.runId.asStr then .malformed
          else .compatibleStartedAt progress.startedAtUnixSecs

def validateProgressUpdate (state : String) (entryIndex entryTotal : Nat)
    (currentEntry currentTransform : String) : Except String Unit :=
  if state == "processing_started" || state == "publishing_status" then
    if !currentEntry.isEmpty then
      .error ("run-level progress state " ++ state ++ " must not have current_entry")
    else if !currentTransform.isEmpty then
      .error ("run-level progress state " ++ state ++ " must not have current_transform")
    else .ok ()
  else if state == "processing_entry" || state == "transform_started" ||
      state == "transform_running" || state == "transform_finished" then
    if entryTotal == 0 then
      .error ("per-entry progress state " ++ state ++ " must have entry_total > 0")
    else if entryIndex ≥ entryTotal then .error "entry_index must be less than entry_total"
    else if currentEntry.isEmpty then
      .error ("per-entry progress state " ++ state ++ " must have current_entry")
    else if state == "processing_entry" then
      if !currentTransform.isEmpty then
        .error "processing_entry must not have current_transform"
      else .ok ()
    else if currentTransform.isEmpty then
      .error ("transform progress state " ++ state ++ " must have current_transform")
    else .ok ()
  else .error ("unknown progress state: " ++ state)

def writeProgress (config : ServerConfig) (k : RunKey) (state : String)
    (entryIndex entryTotal : Nat) (currentEntry currentTransform : String) :
    ExceptT String Call Unit := do
  match validateProgressUpdate state entryIndex entryTotal currentEntry currentTransform with
  | .error e => throw e
  | .ok _ =>
    let now ← ask .unixNow
    let existing ← ask (.read .processing .progress)
    let write (startedAt : Nat) : ExceptT String Call Unit := do
      let progress : ProcessingProgress :=
        { protocolVersion := protocolVersion, purgeryVersion := currentPurgeryVersion,
          nickname := k.nickname.asStr, runId := k.runId.asStr, phase := "processing",
          state := state, entryIndex := entryIndex, entryTotal := entryTotal,
          currentEntry := currentEntry, currentTransform := currentTransform,
          startedAtUnixSecs := startedAt, updatedAtUnixSecs := now }
      io (writeFile .processing .progress (Doc.ofValue progress)) fun _ =>
        "failed to write progress: " ++ filePath config k .processing "progress.toml.tmp"
      io (sys (.publish .processing .progress)) fun _ =>
        "failed to publish progress: " ++ filePath config k .processing "progress.toml"
    match existingProgress k existing with
    | .incompatible => return ()
    | .compatibleStartedAt startedAt => write startedAt
    | .missing => write now
    | .malformed => write now

def writeProgressBestEffort (config : ServerConfig) (k : RunKey) (state : String)
    (entryIndex entryTotal : Nat) (currentEntry currentTransform : String) : Call Unit := do
  let _ ← (writeProgress config k state entryIndex entryTotal currentEntry currentTransform).run

end Progress

section Finalize

/-- `remove_dir_all` of a subtree of a run directory, which stops in the middle
when the process does. -/
def removeSubtree (ph : RunPhase) (s : Subtree) : ExceptT IoError Call Unit := do
  io (sys (.breakTree ph s)) id
  io (sys (.removeTree ph s)) id

def pruneSubtree (ph : RunPhase) (s : Subtree) : ExceptT String Call Unit := do
  if ← ask (.treeExists ph s) then
    io (removeSubtree ph s).run fun e => "failed to remove: " ++ e.message

def pruneFile (ph : RunPhase) (f : FileName) : ExceptT String Call Unit := do
  if ← ask (.fileExists ph f) then
    io (sys (.removeFile ph f)) fun e => "failed to remove: " ++ e.message

def pruneTemporaries (ph : RunPhase) : List FileName → ExceptT String Call Unit
  | [] => return ()
  | f :: fs => do
    io (sys (.removeTmp ph f)) fun e => "failed to remove: " ++ e.message
    pruneTemporaries ph fs

/-- Keep the status of a successful terminal run and remove the rest. -/
def pruneSuccessTerminal (ph : RunPhase) : ExceptT String Call Unit := do
  pruneSubtree ph .files
  pruneSubtree ph .work
  pruneFile ph .lease
  pruneFile ph .progress
  if ← ask (.lockExists ph false) then
    io (sys (.removeLock ph)) fun e => "failed to remove: " ++ e.message
  let temporaries ← io (sys (.listTmp ph)) IoError.message
  pruneTemporaries ph temporaries

def RunState.phase : RunState → RunPhase
  | .done => .done
  | .partiallyDone => .done
  | .failed => .failed

def finalizeProcessingRun (config : ServerConfig) (k : RunKey) (state : RunState) :
    ExceptT String Call Unit := do
  let dest := RunState.phase state
  io (sys (.createParent dest)) fun _ =>
    "failed to create " ++ dest.asStr ++ " parent: " ++
      Path.join (config.workDir.nicknameDir k.nickname) dest.asStr
  io (sys (.move .processing dest)) fun _ =>
    "failed to move run to " ++ dest.asStr ++ ": " ++ config.workDir.runDir k .processing ++
      " -> " ++ config.workDir.runDir k dest
  if state = .done then
    let _ ← ExceptT.lift (pruneSuccessTerminal dest).run
  else
    let _ ← ask (.removeLock dest)

def moveToFailed (config : ServerConfig) (k : RunKey) : ExceptT String Call Unit := do
  if ← ask (.dirExists .processing) then
    io (sys (.createParent .failed)) fun _ =>
      "failed to create failed parent: " ++
        Path.join (config.workDir.nicknameDir k.nickname) "failed"
    io (sys (.move .processing .failed)) fun _ =>
      "failed to move run to failed: " ++ config.workDir.runDir k .processing ++ " -> " ++
        config.workDir.runDir k .failed
    let _ ← ask (.removeLock .failed)

end Finalize

end Purgery.Server
