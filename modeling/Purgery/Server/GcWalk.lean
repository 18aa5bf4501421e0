import Mathlib
import Purgery.Core.Rounds
import Purgery.Server.Gc
import Purgery.Server.World

namespace Purgery.Server

namespace Walk

/-! The collection of a `work_dir` that may hold anything, under any names. -/

/-- The name of a directory entry: text, or bytes that are none. -/
inductive OsName where
  | text (s : String)
  | bytes (raw : ByteArray) (invalid : ¬raw.IsValidUTF8)
deriving DecidableEq

def OsName.toStr : OsName → Option String
  | text s => some s
  | bytes _ _ => none

/-- The names that lead to a path from `work_dir`. -/
abbrev OsPath := List OsName

/-- The entries of a directory, in the order in which it is read. -/
structure Listing (α : Type) where
  entries : List (OsName × α)
  distinct : (entries.map Prod.fst).Nodup

/-- Something in a run directory: what it is, and what is found in it if it is read
as a lease or as a status. -/
structure FileObject where
  kind : FileKind
  modified : Nat
  lease : Except IoError (Doc LeaseFile)
  status : Except IoError (Doc RunStatus)

/-- A directory in a phase directory. -/
structure RunObject where
  modified : Nat
  content : Listing FileObject

/-- What is at the path of a phase directory; an entry that is no directory is `none`. -/
inductive PhaseObject where
  | file
  | dir (content : Listing (Option RunObject))

/-- A directory in `work_dir`. -/
structure TopObject where
  modified : Nat
  phases : RunPhase → Option PhaseObject

/-- `work_dir`; an entry that is no directory is `none`. -/
abbrev WorkTree := Listing (Option TopObject)

/-- Which calls fail, and what becomes of an attempt to lock a file that is there:
whether somebody else holds the lock. -/
structure GcFaults where
  metadata : OsPath → Option String
  removal : OsPath → Option String
  lock : OsPath → Except String Bool

inductive GcEvent where
  | decided (path : OsPath) (expired : Bool)
  | removed (path : OsPath)
deriving DecidableEq

inductive GcStop where
  | failed (message : String)
  | panicked
deriving DecidableEq

abbrev GcRound := Round GcEvent GcStop

/-- `with_context`: the message of an error, not of a panic. -/
def GcRound.withContext (context : String) (r : GcRound) : GcRound :=
  Round.mapStop (fun s => match s with
    | .failed _ => .failed context
    | .panicked => .panicked) r

def phaseName (ph : RunPhase) : OsName := .text ph.asStr

namespace RunObject

variable (d : RunObject) (name : String)

def find : Option FileObject := d.content.entries.lookup (.text name)

def readLease : Except IoError (Doc LeaseFile) :=
  match d.find "lease.toml" with
  | none => .error .notFound
  | some o => o.lease

def readStatus : Except IoError (Doc RunStatus) :=
  match d.find "status.toml" with
  | none => .error .notFound
  | some o => o.status

end RunObject

section

variable (config : ServerConfig) (faults : GcFaults) (now : Nat)

/-- `exists()` and `is_dir()` of something that is there. -/
def readable (path : OsPath) : Bool := (faults.metadata path).isNone

def mtimeSecs (path : OsPath) (modified : Nat) : Except GcStop Nat :=
  match faults.metadata path with
  | some message => .error (.failed message)
  | none => .ok modified

def removeAt (path : OsPath) : GcRound :=
  match faults.removal path with
  | some message => .halt (.failed message)
  | none => .event (.removed path)

/-- Of a symlink only the link is removed. -/
def removeDirAll (kind : FileKind) (path : OsPath) : GcRound :=
  match kind with
  | .directory | .symlink => removeAt faults path
  | .regularFile | .other => .halt (.failed "Not a directory (os error 20)")

def removeFile (kind : FileKind) (path : OsPath) : GcRound :=
  match kind with
  | .directory => .halt (.failed "Is a directory (os error 21)")
  | .symlink | .regularFile | .other => removeAt faults path

/-- Log the decision, and remove what is expired. -/
def settle (context : String) (path : OsPath) (expired : Bool) : GcRound :=
  (Round.event (.decided path expired)).andThen
    (if expired then GcRound.withContext context (removeAt faults path) else .done)

def expireAfter (context : String) (path : OsPath) (modified retention : Nat) : GcRound :=
  .attempt (mtimeSecs faults path modified) fun mtime =>
    settle faults context path (pastRetention now retention mtime)

def collectInvalidNicknameDir (name : String) (d : TopObject) : GcRound :=
  expireAfter faults now ("failed to remove invalid top-level directory: " ++ name)
    [.text name] d.modified config.gc.orphanRetentionSecs

variable (n : Nickname) (k : RunKey) (ph : RunPhase) (id : String) (path : OsPath) (d : RunObject)

def collectUnknown : GcRound :=
  expireAfter faults now
    ("failed to remove orphan request: " ++
      Path.join (Path.join (config.workDir.nicknameDir n) ph.asStr) id)
    path d.modified config.gc.orphanRetentionSecs

def removeContext : String :=
  "failed to remove expired " ++ ph.asStr ++ " run " ++ k.runId.asStr ++ ": " ++
    config.workDir.runDir k ph

def collectIncoming : GcRound :=
  let orphan :=
    expireAfter faults now (removeContext config k .incoming) path d.modified
      config.gc.orphanRetentionSecs
  match d.readLease with
  | .error _ => orphan
  | .ok content =>
    match trustedLease k content with
    | none => orphan
    | some lease =>
      settle faults (removeContext config k .incoming) path (decide (now ≥ lease.expiresAtUnixSecs))

/-- Whether somebody holds the processor lock, as far as there is a run directory. -/
def probeProcessorLockReadonly : Except GcStop (Option Bool) :=
  if !readable faults path then .ok none
  else
    match d.find "processor.lock" with
    | none => .ok (some false)
    | some o =>
      let lockPath := path ++ [.text "processor.lock"]
      let refused := "failed to open processor lock for probe: " ++
        Path.join (config.workDir.runDir k .processing) "processor.lock"
      if !readable faults lockPath then .ok (some false)
      else if o.kind = .directory then .error (.failed refused)
      else
        match faults.lock lockPath with
        | .error _ => .error (.failed refused)
        | .ok held => .ok (some held)

def collectProcessing : GcRound :=
  .attempt (mtimeSecs faults path d.modified) fun mtime =>
    let expired := pastRetention now config.gc.processingRetentionSecs mtime
    .attempt (probeProcessorLockReadonly config faults k path d) fun held =>
      match held with
      | some true => .event (.decided path false)
      | _ => settle faults (removeContext config k .processing) path expired

def expiryForTerminal (retention : Nat) : Except GcStop Bool :=
  if classifyTerminalStatus k ph d.readStatus then
    match d.find "status.toml" with
    | none => .error (.failed IoError.notFound.message)
    | some o =>
      (mtimeSecs faults (path ++ [.text "status.toml"]) o.modified).map
        (pastRetention now retention)
  else
    (mtimeSecs faults path d.modified).map (pastRetention now config.gc.orphanRetentionSecs)

def collectFailed : GcRound :=
  .attempt (expiryForTerminal config faults now k .failed path d config.gc.failedRetentionSecs)
    fun expired => settle faults (removeContext config k .failed) path expired

def pruneIn (remove : FileKind → OsPath → GcRound) (name : String) : GcRound :=
  match d.find name with
  | none => .done
  | some o =>
    if readable faults (path ++ [.text name]) then remove o.kind (path ++ [.text name]) else .done

/-- A name that is no text cannot be part of a path. -/
def pruneTemporary (entry : OsName × FileObject) : GcRound :=
  match entry.1.toStr with
  | none => .halt .panicked
  | some name =>
    if ".tmp".toList.isSuffixOf name.toList then removeFile faults entry.2.kind (path ++ [.text name]) else .done

/-- No name ends in `.tmp` of what is removed before the directory is read. -/
def pruneSuccessTerminal : GcRound :=
  (Round.each (pruneIn faults path d (removeDirAll faults)) ["files", "work"]).andThen
    ((Round.each (pruneIn faults path d (removeFile faults))
        ["lease.toml", "progress.toml", "processor.lock"]).andThen
      (Round.each (pruneTemporary faults path) d.content.entries))

def collectDone : GcRound :=
  .attempt (expiryForTerminal config faults now k .done path d config.gc.doneRetentionSecs)
    fun expired =>
      if expired then settle faults (removeContext config k .done) path true
      else
        Round.andThen
          (if prunable k d.readStatus then
            GcRound.withContext ("failed to prune successful terminal state: " ++
              config.workDir.runDir k .done) (pruneSuccessTerminal faults path d)
          else .done)
          (.event (.decided path false))

def collectRun : GcRound :=
  match ph with
  | .incoming => collectIncoming config faults now k path d
  | .ready =>
    expireAfter faults now (removeContext config k .ready) path d.modified
      config.gc.readyRetentionSecs
  | .processing => collectProcessing config faults now k path d
  | .done => collectDone config faults now k path d
  | .failed => collectFailed config faults now k path d

/-- An entry of a phase directory; its path is made before it is looked at. -/
def collectEntry (top : OsName) (entry : OsName × Option RunObject) : GcRound :=
  match entry.1.toStr with
  | none => .halt .panicked
  | some id =>
    let path := [top, phaseName ph, entry.1]
    match entry.2 with
    | none => .done
    | some d =>
      if !readable faults path then .done
      else
        match RunId.new id with
        | .error _ => collectUnknown config faults now n ph id path d
        | .ok runId => collectRun config faults now ⟨n, runId⟩ ph path d

def collectPhase (top : OsName) (d : TopObject) (ph : RunPhase) : GcRound :=
  match d.phases ph with
  | none => .done
  | some o =>
    if !readable faults [top, phaseName ph] then .done
    else
      match o with
      | .file => .halt (.failed ("failed to read " ++ ph.asStr ++ " dir: " ++
          Path.join (config.workDir.nicknameDir n) ph.asStr))
      | .dir content => Round.each (collectEntry config faults now n ph top) content.entries

def collectTop (entry : OsName × Option TopObject) : GcRound :=
  match entry.2 with
  | none => .done
  | some d =>
    if !readable faults [entry.1] then .done
    else
      match entry.1.toStr with
      | none => .done
      | some name =>
        match Nickname.new name with
        | .error _ => collectInvalidNicknameDir config faults now name d
        | .ok n => Round.each (collectPhase config faults now n entry.1 d) allPhases

def runGc (work : WorkTree) : GcRound :=
  if !readable faults [] then .done
  else Round.each (collectTop config faults now) work.entries

end

end Walk

end Purgery.Server
