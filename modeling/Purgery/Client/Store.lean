import Purgery.Client.Cleanup
import Purgery.Client.Drive
import Purgery.Client.Split.Discovery
import Purgery.Core.Acceptance
import Purgery.Server.Intake

namespace Purgery.Client

open Purgery.Path
open Purgery.Interleaving
open Purgery.Server (BeginRunResponse IoError PrepareRunResponse)

/-! What a client keeps in its state directory, and all the calls of a sync. -/

section Records

/-- How far a transform run has come, as the client remembers it. -/
inductive ClientRunPhase where
  | uploadCompleteFinishPending
  | waitingForTerminalState
  | terminalStatusSeen
  | cleanupComplete
  | abandoned
  | corrupt
deriving DecidableEq

/-- What a later sync needs to go on with a run. -/
structure ClientRunState where
  protocolVersion : Nat
  purgeryVersion : String
  nickname : String
  runId : String
  host : String
  serverCommand : String
  manifest : Doc Manifest
  runConfig : Doc RunConfig
  phase : ClientRunPhase
  terminalStatus : Option (Doc RunStatus)

instance : Document ClientRunState := ⟨fun s => some s.purgeryVersion⟩

inductive RunStateFile where
  | missing
  | unreadable (message : String)
  | text (d : Doc ClientRunState)

def RunStateFile.read : RunStateFile → Except IoError (Doc ClientRunState)
  | .missing => .error .notFound
  | .unreadable message => .error (.other message)
  | .text d => .ok d

def RunStateFile.accepted : RunStateFile → Option ClientRunState
  | .text d => d.accepted
  | .missing | .unreadable _ => none

def RunStateFile.present : RunStateFile → Bool
  | .missing => false
  | .unreadable _ | .text _ => true

def LedgerFile.accepted : LedgerFile → Option DurableCleanupState
  | .text d => d.accepted
  | .missing | .unreadable _ => none

def LedgerFile.present : LedgerFile → Bool
  | .missing => false
  | .unreadable _ | .text _ => true

def ledgerName (nickname operationId : String) : String :=
  "cleanup-" ++ nickname ++ "-" ++ operationId ++ ".toml"

def ledgerPath (stateDir nickname operationId : String) : String :=
  join stateDir (ledgerName nickname operationId)

/-- The directory of a run below `runs`. -/
def runName (nickname runId : String) : String := nickname ++ "-" ++ runId

/-- The characters of a ULID: no `I`, `L`, `O` and `U`. -/
def ulidChar (c : Char) : Bool := c.isDigit || (c.isUpper && !"ILOU".toList.contains c)

structure Ulid where
  text : String
  valid : text.length = 26 ∧ text.toList.all ulidChar = true

theorem runIdChar_of_ulidChar {c : Char} (h : ulidChar c = true) : runIdChar c = true := by
  simp only [ulidChar, Bool.or_eq_true, Bool.and_eq_true] at h
  have halphanum : c.isAlphanum = true := by
    show ((c.isUpper || c.isLower) || c.isDigit) = true
    obtain h | ⟨h, -⟩ := h <;> simp [h]
  simp [runIdChar, nicknameChar, halphanum]

/-- `RunId::generate` -/
def Ulid.runId (u : Ulid) : RunId where
  asStr := u.text
  valid := by
    refine ⟨fun hnil => ?_, List.all_eq_true.2 fun c hc => ?_⟩
    · have hlen := u.valid.1
      rw [← String.length_toList, hnil] at hlen
      exact nomatch hlen
    · exact runIdChar_of_ulidChar (List.all_eq_true.1 u.valid.2 c hc)

end Records

section Remote

structure VersionResponse where
  protocolVersion : Nat
  purgeryVersion : String

/-- The commands that a client runs on the server. -/
inductive ServerCommand where
  | version
  | gc
  | beginRun (k : RunKey)
  | prepareRun (k : RunKey)
  | finishRun (k : RunKey)
  | status (k : RunKey)

/-- What a command prints, as its reader finds it. -/
abbrev ServerCommand.Output : ServerCommand → Type
  | version => Except String VersionResponse
  | gc | finishRun _ => Unit
  | beginRun _ => Except String BeginRunResponse
  | prepareRun _ => Except String PrepareRunResponse
  | status _ => Doc RunStatus

/-- Whether files go to their destination or to the staging area of a run. -/
inductive Purpose where
  | direct (k : RunKey)
  | staging (k : RunKey)
deriving DecidableEq

/-- The calls that leave this machine; the purpose is only remembered. An rsync may
not start, and it may not succeed. -/
inductive RemoteOp where
  | command (host serverCommand : String) (c : ServerCommand)
  | writeRunConfig (host path : String) (content : RunConfig)
  | writeManifest (host path : String) (content : Manifest)
  | rsync (purpose : Purpose) (source : String) (args : List String)
  | startHeartbeat (k : RunKey) (intervalSecs : Nat)
  | heartbeatHealthy
  | stopHeartbeat
  | drive (o : ClientOp)

abbrev RemoteOp.Res : RemoteOp → Type
  | command _ _ c => Except String c.Output
  | writeRunConfig _ _ _ | writeManifest _ _ _ | heartbeatHealthy => Except String Unit
  | rsync _ _ _ => Option Bool
  | startHeartbeat _ _ | stopHeartbeat => Unit
  | drive o => o.Res

end Remote

section World

/-- What happened to the state of a run. -/
inductive Milestone where
  | reached (phase : ClientRunPhase)
  | removed
deriving DecidableEq

/-- Why a sync fails; a sync that could not resume earlier runs names the first error. -/
inductive SyncError where
  | message (text : String)
  | missingLedger (k : RunKey)
  | blocked (first : Option SyncError)

def SyncError.text : SyncError → String
  | .message text => text
  | .missingLedger k =>
    "cleanup state file '" ++ ledgerName k.nickname.asStr k.runId.asStr ++
      "' is required for run " ++ k.nickname.asStr ++ "/" ++ k.runId.asStr ++
      " with delete_after_import but is missing or corrupt"
  | .blocked none => "failed to resume one or more prior run states; refusing to start new sync"
  | .blocked (some first) =>
    "failed to resume one or more prior run states; refusing to start new sync: " ++ first.text

/-- What is remembered of a history. -/
inductive SyncEvent where
  | captured (ledger : DurableCleanupState)
  | transferred (purpose : Purpose) (source : String) (tree : LocalTree)
  | reported (status : RunStatus)
  | ended (result : Except SyncError Unit)

/-- The local files, which are not in the state directory, the files of the state
directory, and what is remembered: the events, the ids that were given out and
what happened to each run. -/
structure ClientWorld where
  files : ClientFiles
  runState : String → RunStateFile
  runTmp : String → RunStateFile
  history : List SyncEvent
  issued : List String
  log : String → List Milestone

namespace ClientWorld

variable (w : ClientWorld)

def tree : LocalTree := w.files.tree

def withTree (t : LocalTree) : ClientWorld := { w with files := { w.files with tree := t } }

def remember (e : Option SyncEvent) : ClientWorld := { w with history := w.history ++ e.toList }

def logged (name : String) (m : Milestone) : ClientWorld :=
  { w with log := Function.update w.log name (w.log name ++ [m]) }

def putRunState (name : String) (f : RunStateFile) : ClientWorld :=
  { w with runState := Function.update w.runState name f }

def putRunTmp (name : String) (f : RunStateFile) : ClientWorld :=
  { w with runTmp := Function.update w.runTmp name f }

def putLedger (path : String) (f : LedgerFile) : ClientWorld :=
  { w with files := { w.files with ledger := Function.update w.files.ledger path f } }

end ClientWorld

/-- The event that an answer from elsewhere is. -/
def RemoteOp.event (t : LocalTree) : (o : RemoteOp) → o.Res → Option SyncEvent
  | .rsync purpose source _, some true => some (.transferred purpose source t)
  | .command _ _ (.status _), .ok d => d.parsed.toOption.map .reported
  | _, _ => none

end World

/-- The calls of a sync. -/
inductive SyncOp where
  | file (o : FileOp)
  | cleanup (o : CleanupOp)
  | remote (o : RemoteOp)
  | lookAround
  | walkSource (source : String)
  | generate
  | createStateDir
  | stateDirExists
  | listStateDir
  | ledgerExists (path : String)
  | publishLedger (path : String)
  | retire (path : String)
  | runsIsDir
  | listRuns
  | runExists (name : String)
  | readRun (name : String)
  | createRunDir (name : String)
  | openRunTmp (name : String)
  | writeRunTmp (name : String) (d : Doc ClientRunState)
  | publishRun (name : String)
  | setAside (name : String)
  | removeRunDir (name : String)
  | exit (result : Except SyncError Unit)

namespace SyncOp

abbrev Res : SyncOp → Type
  | file o => o.Res
  | cleanup o => o.Res
  | remote o => o.Res
  | lookAround => Surroundings
  | walkSource _ => Option SourceKind × List WalkEntry
  | generate => RunId
  | stateDirExists | ledgerExists _ | runsIsDir | runExists _ => Bool
  | listStateDir => Except IoError (List (Except IoError String))
  | listRuns => Except IoError (List String)
  | readRun _ => Except IoError (Doc ClientRunState)
  | createStateDir | publishLedger _ | retire _ | createRunDir _ | openRunTmp _ | writeRunTmp _ _
  | publishRun _ | setAside _ | removeRunDir _ => Except IoError Unit
  | exit _ => Unit

/-- What the environment settles: whether calls fail, what others answer, what a
file holds while it is written, what a failed removal has removed, and the next id. -/
abbrev Choice : SyncOp → Type
  | file o => o.Choice
  | cleanup o => o.Choice
  | remote o => o.Res
  | lookAround => Except String CurrentDir × Option String
  | walkSource _ => List (List String) × (List String → Bool)
  | generate => Ulid
  | stateDirExists | runsIsDir => Bool
  | ledgerExists _ | runExists _ => Bool
  | listStateDir => Except IoError (List (Except IoError String))
  | listRuns => Except IoError (List String)
  | openRunTmp _ => Option String × RunStateFile
  | removeRunDir _ => Option String × Bool × Bool
  | readRun _ | createStateDir | publishLedger _ | retire _ | createRunDir _ | writeRunTmp _ _
  | publishRun _ | setAside _ => Option String
  | exit _ => Unit

variable (sha : List UInt8 → String)

def LocalNode.sourceKind : LocalNode → Option SourceKind
  | .dir => some .directory
  | .file _ _ => some .regularFile
  | .symlink _ => some .symlink
  | .other => none

/-- What a process sees of the files around it. -/
def surroundings (cwd : Except String CurrentDir) (fault : Option String) (t : LocalTree) :
    Surroundings where
  currentDir := cwd
  symlinkMetadata p :=
    match fault, t.find p with
    | some message, _ => .error message
    | none, none => .error (t.absent p).message
    | none, some n => .ok (LocalNode.sourceKind n)

/-- The source and what a walk below it finds. -/
def walked (source : String) (order : List (List String)) (keep : List String → Bool)
    (t : LocalTree) : Option SourceKind × List WalkEntry :=
  let found := (t.below source).filter fun ns => t.direct source ns && keep ns
  ((t.find source).bind LocalNode.sourceKind, (arrange order found).map fun ns =>
    ⟨ns, t.lookup (isAbsolute source, components source ++ ns) == some .dir⟩)

def step (o : SyncOp) (x : o.Choice) (w : ClientWorld) : o.Res × ClientWorld :=
  match o, x with
  | file o, x =>
    let (r, t) := o.step sha x w.tree
    (r, w.withTree t)
  | cleanup o, x =>
    let (r, files) := o.step sha x w.files
    (r, { w with files := files })
  | remote o, answer => (answer, w.remember (o.event w.tree answer))
  | lookAround, (cwd, fault) => (surroundings cwd fault w.tree, w)
  | walkSource source, (order, keep) => (walked source order keep w.tree, w)
  | generate, u => (u.runId, { w with issued := u.text :: w.issued })
  | createStateDir, some message => (.error (.other message), w)
  | createStateDir, none => (.ok (), w)
  | stateDirExists, answer => (answer, w)
  | listStateDir, answer => (answer, w)
  | ledgerExists path, fault => (!fault && (w.files.ledger path).present, w)
  | publishLedger _, some message => (.error (.other message), w)
  | publishLedger path, none =>
    match w.files.tmp path with
    | .missing => (.error .notFound, w)
    | d =>
      let files := { w.files with
        ledger := Function.update w.files.ledger path d
        tmp := Function.update w.files.tmp path .missing }
      (.ok (), { w with files := files }.remember (d.accepted.map .captured))
  | retire _, some message => (.error (.other message), w)
  | retire path, none =>
    match w.files.ledger path with
    | .missing => (.error .notFound, w)
    | _ => (.ok (), w.putLedger path .missing)
  | runsIsDir, answer => (answer, w)
  | listRuns, answer => (answer, w)
  | runExists name, fault => (!fault && (w.runState name).present, w)
  | readRun _, some message => (.error (.other message), w)
  | readRun name, none => ((w.runState name).read, w)
  | createRunDir _, some message => (.error (.other message), w)
  | createRunDir _, none => (.ok (), w)
  | openRunTmp _, (some message, _) => (.error (.other message), w)
  | openRunTmp name, (none, torn) => (.ok (), w.putRunTmp name torn)
  | writeRunTmp _ _, some message => (.error (.other message), w)
  | writeRunTmp name d, none => (.ok (), w.putRunTmp name (.text d))
  | publishRun _, some message => (.error (.other message), w)
  | publishRun name, none =>
    match w.runTmp name with
    | .missing => (.error .notFound, w)
    | d =>
      let moved := (w.putRunState name d).putRunTmp name .missing
      (.ok (), d.accepted.elim moved fun s => moved.logged name (.reached s.phase))
  | setAside _, some message => (.error (.other message), w)
  | setAside name, none =>
    match w.runState name with
    | .missing => (.error .notFound, w)
    | _ => (.ok (), w.putRunState name .missing)
  | removeRunDir name, (fault, stateGone, tmpGone) =>
    let w₁ := if fault.isNone || tmpGone then w.putRunTmp name .missing else w
    let w₂ :=
      if fault.isNone || stateGone then
        (w.runState name).accepted.elim (w₁.putRunState name .missing) fun _ =>
          (w₁.putRunState name .missing).logged name .removed
      else w₁
    (fault.elim (.ok ()) fun message => .error (.other message), w₂)
  | exit result, () => ((), w.remember (some (.ended result)))

end SyncOp

abbrev Sync := Prog SyncOp SyncOp.Res

abbrev SyncM := ExceptT SyncError Sync

def ask (o : SyncOp) : Sync o.Res := Prog.perform o

def abort {α : Type} (text : String) : SyncM α := throw (.message text)

/-- A call that may fail, with the text of its failure. -/
def attemptTo {α ε : Type} (c : Sync (Except ε α)) (text : String) : SyncM α :=
  ExceptT.adapt (fun _ => .message text) (ExceptT.mk c)

def answered {α : Type} (c : Sync (Except String α)) : SyncM α :=
  ExceptT.adapt .message (ExceptT.mk c)

def checked {α : Type} (x : Except String α) : SyncM α := answered (pure x)

def fileCalls : Embedding FileOp FileOp.Res FileOp.Choice SyncOp SyncOp.Res SyncOp.Choice where
  op := .file
  res _ := id
  choice _ := id

def cleanupCalls :
    Embedding CleanupOp CleanupOp.Res CleanupOp.Choice SyncOp SyncOp.Res SyncOp.Choice where
  op := .cleanup
  res _ := id
  choice _ := id

def driveCalls :
    Embedding ClientOp ClientOp.Res ClientOp.Res SyncOp SyncOp.Res SyncOp.Choice where
  op o := .remote (.drive o)
  res _ := id
  choice _ := id

def onFiles {α : Type} (c : ExceptT String FileCall α) : SyncM α :=
  answered (fileCalls.embed c.run)

def onLedgers {α : Type} (c : ExceptT String CleanupCall α) : SyncM α :=
  answered (cleanupCalls.embed c.run)

end Purgery.Client
