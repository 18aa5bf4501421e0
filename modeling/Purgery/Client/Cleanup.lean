import Purgery.Client.Capture

namespace Purgery.Client

open Purgery.Path
open Purgery.Interleaving
open Purgery.Server (FileKind IoError)

inductive CleanupOutcome where
  | complete
  | stillPending
deriving DecidableEq

section Clean

/-- Remove the object if it is still the one that the entry describes. -/
def tryCleanEntry (entry : CleanupEntry) : FileCall Bool := do
  match ← file (.symlinkMetadata entry.localPath) with
  | .error .notFound => return true
  | .error _ => return false
  | .ok symmeta =>
    match entry.kind with
    | .directory => return false
    | .symlink =>
      if symmeta.kind ≠ .symlink then return false
      else
        match entry.linkTarget with
        | none => return false
        | some expected =>
          match ← file (.readLink entry.localPath) with
          | .error _ => return false
          | .ok current =>
            if current ≠ expected then return false
            else return (← file (.removeFile entry.localPath)).isOk
    | .regularFile =>
      if symmeta.kind ≠ .regularFile then return false
      else
        match ← file (.metadata entry.localPath) with
        | .error _ => return false
        | .ok found =>
          if found.len ≠ entry.size then return false
          else if mtimeNs found.modified ≠ entry.mtimeNs then return false
          else
            match entry.sha256 with
            | none => return false
            | some expected =>
              match ← file (.sha256 entry.localPath) with
              | .error _ => return false
              | .ok actual =>
                if actual ≠ expected then return false
                else return (← file (.removeFile entry.localPath)).isOk

/-- What is found in the directory is known, and removed or not imported. -/
def canRemoveDirectory (entries : List CleanupEntry) (dir : CleanupEntry) :
    Except IoError (List String) → Bool
  | .error .notFound => true
  | .error _ => false
  | .ok children => children.all fun name =>
      let childPath := join dir.localPath name
      (entries.any fun e => same e.localPath childPath) &&
        entries.any fun e => same e.localPath childPath && (e.cleaned || !e.importConfirmed)

end Clean

/-- A ledger file as its readers find it. -/
inductive LedgerFile where
  | missing
  | unreadable (message : String)
  | text (d : Doc DurableCleanupState)

def LedgerFile.read : LedgerFile → Except IoError (Doc DurableCleanupState)
  | .missing => .error .notFound
  | .unreadable message => .error (.other message)
  | .text d => .ok d

/-- The local files, and the ledgers by the paths of their files. -/
structure ClientFiles where
  tree : LocalTree
  ledger : String → LedgerFile
  tmp : String → LedgerFile

/-- The calls of a cleanup. To check an entry and to remove its object is one. -/
inductive CleanupOp where
  | read (path : String)
  | openTmp (path : String)
  | write (path : String) (d : Doc DurableCleanupState)
  | publish (path : String)
  | clean (entry : CleanupEntry)
  | readDir (path : String)
  | removeDir (path : String)

namespace CleanupOp

abbrev Res : CleanupOp → Type
  | read _ => Except IoError (Doc DurableCleanupState)
  | openTmp _ | write _ _ | publish _ | removeDir _ => Except IoError Unit
  | clean _ => Bool
  | readDir _ => Except IoError (List String)

/-- What the environment settles: whether calls fail, what a file holds while it is
written, and the outcomes of the calls on the local files. -/
abbrev Choice : CleanupOp → Type
  | read _ | write _ _ | publish _ => Option String
  | openTmp _ => Option String × LedgerFile
  | clean _ => (o : FileOp) → o.Choice
  | readDir path => (FileOp.readDir path).Choice
  | removeDir path => (FileOp.removeDir path).Choice

def step (sha : List UInt8 → String) (o : CleanupOp) (x : o.Choice) (w : ClientFiles) :
    o.Res × ClientFiles :=
  match o, x with
  | read _, some message => (.error (.other message), w)
  | read path, none => ((w.ledger path).read, w)
  | openTmp _, (some message, _) => (.error (.other message), w)
  | openTmp path, (none, torn) => (.ok (), { w with tmp := Function.update w.tmp path torn })
  | write _ _, some message => (.error (.other message), w)
  | write path d, none => (.ok (), { w with tmp := Function.update w.tmp path (.text d) })
  | publish _, some message => (.error (.other message), w)
  | publish path, none =>
    match w.tmp path with
    | .missing => (.error .notFound, w)
    | d => (.ok (), { w with
        ledger := Function.update w.ledger path d
        tmp := Function.update w.tmp path .missing })
  | clean entry, outcomes =>
    let (cleaned, tree) := (tryCleanEntry entry).solo (fun o => o.step sha (outcomes o)) w.tree
    (cleaned, { w with tree := tree })
  | readDir path, x =>
    let (r, tree) := (FileOp.readDir path).step sha x w.tree
    (r, { w with tree := tree })
  | removeDir path, x =>
    let (r, tree) := (FileOp.removeDir path).step sha x w.tree
    (r, { w with tree := tree })

end CleanupOp

abbrev CleanupCall := Prog CleanupOp CleanupOp.Res

def cleanup (o : CleanupOp) : CleanupCall o.Res := Prog.perform o

section Process

variable (path : String)

def writeCleanupStateAtomic (state : DurableCleanupState) : ExceptT String CleanupCall Unit := do
  let describe (_ : IoError) : String := "failed to write cleanup state: " ++ path ++ ".tmp"
  ExceptT.adapt describe (ExceptT.mk (cleanup (.openTmp path)))
  ExceptT.adapt describe (ExceptT.mk (cleanup (.write path (Doc.ofValue state))))
  ExceptT.adapt (fun _ => "failed to atomically update cleanup state: " ++ path)
    (ExceptT.mk (cleanup (.publish path)))

def readCleanupState : ExceptT String CleanupCall DurableCleanupState := do
  let content ← ExceptT.adapt (fun _ => "failed to read cleanup state: " ++ path)
    (ExceptT.mk (cleanup (.read path)))
  ExceptT.mk (pure ((requireCompatibleTomlVersion content ("cleanup state " ++ path)).mapError
    fun e => "incompatible cleanup state version: " ++ e.message))
  ExceptT.mk (pure (content.parsed.mapError ("failed to parse cleanup state: " ++ ·)))

def CleanupEntry.confirm (e : CleanupEntry) : CleanupEntry := { e with importConfirmed := true }

def CleanupEntry.markCleaned (e : CleanupEntry) : CleanupEntry := { e with cleaned := true }

/-- Files and symlinks; `done` is what the loop has passed. -/
def cleanFiles (state : DurableCleanupState) :
    List CleanupEntry → List CleanupEntry → ExceptT String CleanupCall (List CleanupEntry)
  | done, [] => return done
  | done, e :: rest => do
    if !e.importConfirmed || e.cleaned then cleanFiles state (done ++ [e]) rest
    else if e.kind = .directory then cleanFiles state (done ++ [e]) rest
    else
      let cleaned ← ExceptT.lift (cleanup (.clean e))
      if cleaned then
        writeCleanupStateAtomic path { state with entries := done ++ e.markCleaned :: rest }
        cleanFiles state (done ++ [e.markCleaned]) rest
      else cleanFiles state (done ++ [e]) rest

/-- Directories, which are empty by then. -/
def cleanDirectories (state : DurableCleanupState) :
    List CleanupEntry → List CleanupEntry → ExceptT String CleanupCall (List CleanupEntry)
  | done, [] => return done
  | done, e :: rest => do
    if !e.importConfirmed || e.cleaned then cleanDirectories state (done ++ [e]) rest
    else if e.kind ≠ .directory then cleanDirectories state (done ++ [e]) rest
    else
      let children ← ExceptT.lift (cleanup (.readDir e.localPath))
      if !canRemoveDirectory (done ++ e :: rest) e children then
        cleanDirectories state (done ++ [e]) rest
      else
        match ← ExceptT.lift (cleanup (.removeDir e.localPath)) with
        | .error (.other _) => cleanDirectories state (done ++ [e]) rest
        | .ok () | .error .notFound =>
          writeCleanupStateAtomic path { state with entries := done ++ e.markCleaned :: rest }
          cleanDirectories state (done ++ [e.markCleaned]) rest

def processCleanupStateFile : ExceptT String CleanupCall CleanupOutcome := do
  let state ← readCleanupState path
  let entries ← cleanFiles path state [] state.entries
  let entries ← cleanDirectories path state [] entries
  return if entries.all (·.cleaned) then .complete else .stillPending

/-- All that was captured has been imported. -/
def confirmAllImports : ExceptT String CleanupCall Unit := do
  let state ← readCleanupState path
  writeCleanupStateAtomic path
    { state with entries := state.entries.map CleanupEntry.confirm }

end Process

end Purgery.Client
