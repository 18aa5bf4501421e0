import Purgery.Client.Store

namespace Purgery.Client

open Purgery.Path
open Purgery.Interleaving
open Purgery.Server (IoError)

/-! The ledgers of a sync: their first version, their confirmation, and the ledgers
that earlier syncs have left. -/

section Confirm

variable (status : RunStatus)

/-- The status says that this very object was imported. -/
def importedBy (e : CleanupEntry) : Bool :=
  status.entries.any fun s => s.status == .imported && s.localPath == e.localPath &&
    s.relativePath == e.relativePath && s.kind == e.kind

def below (dir relativePath : String) : Bool :=
  (dir ++ "/").toList.isPrefixOf relativePath.toList

/-- The entries that the status names, and all that is below the directories among them. -/
def confirmEntries (entries : List CleanupEntry) : List CleanupEntry :=
  let first := entries.map fun e => { e with importConfirmed := importedBy status e }
  let confirmedDirs := (first.filter fun e => e.importConfirmed && e.kind == .directory).map
    (·.relativePath)
  first.map fun e =>
    { e with importConfirmed :=
        e.importConfirmed || confirmedDirs.any fun dir => below dir e.relativePath }

def confirmImportsFromStatus (path : String) : ExceptT String CleanupCall Unit := do
  let state ← readCleanupState path
  writeCleanupStateAtomic path { state with entries := confirmEntries status state.entries }

end Confirm

section Ledgers

variable (stateDir : String)

def stateDirPath : SyncM Unit :=
  attemptTo (ask .createStateDir) ("failed to create state dir: " ++ stateDir)

/-- The first version of a ledger. -/
def writeCleanupState (state : DurableCleanupState) : SyncM String := do
  stateDirPath stateDir
  let path := ledgerPath stateDir state.nickname state.operationId
  let message := "failed to write cleanup state: " ++ path ++ ".tmp"
  attemptTo (ask (.cleanup (.openTmp path))) message
  attemptTo (ask (.cleanup (.write path (Doc.ofValue state)))) message
  attemptTo (ask (.publishLedger path)) ("failed to atomically publish cleanup state: " ++ path)
  return path

def retireCleanupStateFile (path : String) : SyncM Unit :=
  attemptTo (ask (.retire path)) ("failed to remove cleanup state file: " ++ path)

def processCleanupStateFileAndRetire (path : String) : SyncM CleanupOutcome := do
  let outcome ← onLedgers (processCleanupStateFile path)
  if outcome = .complete then retireCleanupStateFile path
  return outcome

/-- `Path::extension`, of a file name. -/
def extension (name : String) : Option String :=
  let cs := name.toList.reverse
  let after := cs.takeWhile (· != '.')
  if after.length + 1 < cs.length then some (String.ofList after.reverse) else none

def ledgerFileName (name : String) : Bool :=
  extension name == some "toml" && "cleanup-".toList.isPrefixOf name.toList

/-- A ledger is retired unless the run that it belongs to is still remembered; what
is read after an unfinished pass is only counted. -/
def resumeLedger (path : String) (state : DurableCleanupState) : Sync Unit := do
  match ← (onLedgers (processCleanupStateFile path)).run with
  | .error _ => return ()
  | .ok .complete =>
    if ← ask (.runExists (runName state.nickname state.operationId)) then return ()
    else
      let _ ← (retireCleanupStateFile path).run
      return ()
  | .ok .stillPending =>
    let _ ← ask (.cleanup (.read path))
    return ()

/-- Ledgers that this version cannot read are left alone. -/
def resumeEntry (name : String) : Sync Unit := do
  if !ledgerFileName name then return ()
  else
    let path := join stateDir name
    match ← ask (.cleanup (.read path)) with
    | .error _ => return ()
    | .ok content =>
      match content.probe with
      | .error _ => return ()
      | .ok version =>
        match requireCompatiblePurgeryVersion version "cleanup state" with
        | .error _ => return ()
        | .ok () =>
          match content.parsed with
          | .error _ => return ()
          | .ok state => resumeLedger path state

def resumeEntries : List (Except IoError String) → SyncM Unit
  | [] => return ()
  | .error e :: _ => abort e.message
  | .ok name :: rest => do
    ExceptT.lift (resumeEntry stateDir name)
    resumeEntries rest

def resumePendingCleanups : SyncM Unit := do
  match ← ExceptT.lift (stateDirPath stateDir).run with
  | .error _ => return ()
  | .ok () =>
    if ← ExceptT.lift (ask .stateDirExists) then
      let entries ← attemptTo (ask .listStateDir) ("failed to read state dir: " ++ stateDir)
      resumeEntries stateDir entries
    else return ()

end Ledgers

end Purgery.Client
