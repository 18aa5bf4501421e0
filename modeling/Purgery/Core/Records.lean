import Purgery.Core.Document
import Purgery.Core.Names
import Purgery.Core.Transform

namespace Purgery

inductive FileStatus where
  | imported
  | failed
  | skipped
deriving DecidableEq

inductive RunState where
  | done
  | partiallyDone
  | failed
deriving DecidableEq

def RunState.asStr : RunState → String
  | .done => "done"
  | .partiallyDone => "partial"
  | .failed => "failed"

structure EntryStatusEntry where
  kind : ManifestEntryKind
  localPath : String
  relativePath : String
  status : FileStatus
  finalPaths : List String
  transform : Option String
  error : Option String
deriving DecidableEq

structure RunStatus where
  purgeryVersion : String
  runId : RunId
  nickname : Nickname
  state : RunState
  entries : List EntryStatusEntry
  error : Option String
deriving DecidableEq

instance : Document RunStatus := ⟨fun s => some s.purgeryVersion⟩

def RunStatus.key (s : RunStatus) : RunKey := ⟨s.nickname, s.runId⟩

structure LeaseFile where
  protocolVersion : Nat
  purgeryVersion : String
  nickname : String
  runId : String
  createdAtUnixSecs : Nat
  lastHeartbeatUnixSecs : Nat
  expiresAtUnixSecs : Nat
deriving DecidableEq

instance : Document LeaseFile := ⟨fun l => some l.purgeryVersion⟩

structure RunConfig where
  purgeryVersion : String
  nickname : Nickname
  destination : DestinationPath
  deleteAfterImport : Bool
deriving DecidableEq

instance : Document RunConfig := ⟨fun c => some c.purgeryVersion⟩

def RunConfig.fromToml (d : Doc RunConfig) : Except String RunConfig :=
  d.parsed.mapError ("failed to parse config TOML: " ++ ·)

def RunStatus.fromToml (d : Doc RunStatus) : Except String RunStatus :=
  d.parsed.mapError ("failed to parse status TOML: " ++ ·)

structure ManifestEntry where
  localPath : String
  stagedPath : NormalizedRelativePath
  relativePath : NormalizedRelativePath
  kind : ManifestEntryKind
  size : Nat
  mtimeNs : Int
  sha256 : Option String
  linkTarget : Option String
  transform : Option String
deriving DecidableEq

structure Manifest where
  purgeryVersion : String
  runId : RunId
  nickname : Nickname
  entries : List ManifestEntry
deriving DecidableEq

instance : Document Manifest := ⟨fun m => some m.purgeryVersion⟩

def ManifestEntryKind.debug : ManifestEntryKind → String
  | .directory => "Directory"
  | .regularFile => "RegularFile"
  | .symlink => "Symlink"

def ManifestEntry.invalid (e : ManifestEntry) : Bool :=
  match e.kind with
  | .directory => e.size != 0 || e.mtimeNs != 0 || e.sha256.isSome || e.linkTarget.isSome
  | .regularFile => e.linkTarget.isSome
  | .symlink => e.linkTarget.isNone || e.size != 0 || e.mtimeNs != 0 || e.sha256.isSome

def Manifest.fromToml (d : Doc Manifest) : Except String Manifest :=
  match d.parsed with
  | .error e => .error ("failed to parse manifest TOML: " ++ e)
  | .ok m =>
    if m.entries.isEmpty then .error "manifest has no filesystem entries"
    else
      match m.entries.find? ManifestEntry.invalid with
      | some e => .error ("invalid manifest entry: " ++ e.relativePath.asStr ++
          " has fields incompatible with " ++ e.kind.debug)
      | none => .ok m

/-- The two run files name the run whose directory holds them. -/
def validateEnvelope (k : RunKey) (runConfig : RunConfig) (manifest : Manifest) :
    Except String Unit :=
  if runConfig.nickname ≠ k.nickname then
    .error ("directory nickname '" ++ k.nickname.asStr ++
      "' does not match run config nickname '" ++ runConfig.nickname.asStr ++ "'")
  else if manifest.nickname ≠ k.nickname then
    .error ("manifest nickname '" ++ manifest.nickname.asStr ++
      "' does not match directory nickname '" ++ k.nickname.asStr ++ "'")
  else if manifest.runId ≠ k.runId then
    .error ("manifest run_id '" ++ manifest.runId.asStr ++
      "' does not match directory run_id '" ++ k.runId.asStr ++ "'")
  else .ok ()

structure ProcessingProgress where
  protocolVersion : Nat
  purgeryVersion : String
  nickname : String
  runId : String
  phase : String
  state : String
  entryIndex : Nat
  entryTotal : Nat
  currentEntry : String
  currentTransform : String
  startedAtUnixSecs : Nat
  updatedAtUnixSecs : Nat
deriving DecidableEq

instance : Document ProcessingProgress := ⟨fun p => some p.purgeryVersion⟩

instance : Document ResolvedDestinationPlan := ⟨fun _ => none⟩

structure GCConfig where
  incomingLeaseSecs : Nat
  heartbeatIntervalSecs : Nat
  readyRetentionSecs : Nat
  processingRetentionSecs : Nat
  doneRetentionSecs : Nat
  failedRetentionSecs : Nat
  orphanRetentionSecs : Nat
deriving DecidableEq

def GCConfig.default : GCConfig := ⟨1800, 60, 3600, 3600, 3600, 86400, 86400⟩

structure ServerConfig where
  workDir : ServerWorkDir
  transforms : String → Option TransformDefinition
  gc : GCConfig

end Purgery
