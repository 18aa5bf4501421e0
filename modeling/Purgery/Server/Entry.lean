import Purgery.Server.Inputs

namespace Purgery.Server

open Purgery.Interleaving

inductive EntryOutcome where
  | success (kind : ManifestEntryKind) (localPath relativePath : String)
      (finalPaths : List String) (transform : Option String)
  | failure (kind : ManifestEntryKind) (localPath relativePath error : String)
deriving DecidableEq

def EntryOutcome.intoEntry : EntryOutcome → EntryStatusEntry
  | .success kind localPath relativePath finalPaths transform =>
    ⟨kind, localPath, relativePath, .imported, finalPaths, transform, none⟩
  | .failure kind localPath relativePath error =>
    ⟨kind, localPath, relativePath, .failed, [], none, some error⟩

def EntryOutcome.state : EntryOutcome → RunState
  | .success _ _ _ _ _ => .done
  | .failure _ _ _ _ => .failed

def failedEntry (entry : ManifestEntry) (error : String) : EntryOutcome :=
  .failure entry.kind entry.localPath entry.relativePath.asStr error

section Staged

/-- The staged object has the kind that the manifest gives it. -/
def kindMatches : ManifestEntryKind → FileKind → Bool
  | .directory, .directory => true
  | .regularFile, .regularFile => true
  | .symlink, .symlink => true
  | _, _ => false

def verifyStaged (host : Host) (entry : ManifestEntry) (path : String) :
    ExceptT String Call Unit := do
  let actual ← io (sys (.stagedLen entry.stagedPath.asStr)) fun
    | .notFound => "file not found: " ++ path
    | e => "I/O error: " ++ e.message
  if actual ≠ entry.size then
    throw ("size mismatch: expected " ++ toString entry.size ++ ", got " ++ toString actual)
  else
    match entry.sha256 with
    | none => return ()
    | some expected =>
      let bytes ← io (sys (.stagedBytes entry.stagedPath.asStr)) fun e =>
        "I/O error: " ++ e.message
      if host.sha256 bytes ≠ expected then throw "SHA-256 mismatch" else return ()

/-- The checks on the staged object before anything is planned or copied. -/
def checkStaged (host : Host) (config : ServerConfig) (k : RunKey) (entry : ManifestEntry) :
    ExceptT String Call Unit := do
  let expectedStaged ←
    match NormalizedRelativePath.new (Path.join "files" entry.relativePath.asStr) with
    | .error _ => throw "failed to normalize expected staged path"
    | .ok p => pure p
  if entry.stagedPath ≠ expectedStaged then
    throw ("staged_path mismatch: expected '" ++ expectedStaged.asStr ++ "', got '" ++
      entry.stagedPath.asStr ++ "'")
  else
    let kind ← io (sys (.stagedKind entry.stagedPath.asStr)) fun e =>
      "failed to read staged metadata: " ++ e.message
    if !kindMatches entry.kind kind then
      throw "staged filesystem kind does not match manifest kind"
    else
      match entry.kind with
      | .regularFile =>
        let path := filePath config k .processing entry.stagedPath.asStr
        ExceptT.adapt ("staged file identity check failed: " ++ ·) (verifyStaged host entry path)
      | .symlink =>
        match entry.linkTarget with
        | none => throw "symlink manifest entry has no link_target"
        | some expected =>
          let actual ← io (sys (.stagedTarget entry.stagedPath.asStr)) fun e =>
            "failed to read staged symlink: " ++ e.message
          if Path.same actual expected then return ()
          else throw "staged symlink target does not match manifest"
      | .directory => return ()

end Staged

section Plan

def inspectDestination (path : String) : ExceptT String Call DestinationState := do
  match ← ask (.destinationKind path) with
  | .ok .symlink =>
    match ← ask (.destinationTarget path) with
    | .ok .directory => return .directory
    | .ok _ => return .nonDirectory
    | .error .notFound => return .danglingSymlink
    | .error e => throw ("failed to inspect destination symlink: " ++ e.message)
  | .ok .directory => return .directory
  | .ok _ => return .nonDirectory
  | .error .notFound => return .missing
  | .error e => throw ("failed to inspect destination: " ++ e.message)

def sourceDirectoryEmpty (entry : ManifestEntry) : ExceptT String Call Bool :=
  if entry.kind = .directory then
    io (sys (.stagedEmpty entry.stagedPath.asStr)) fun e =>
      "failed to inspect source directory: " ++ e.message
  else return false

def resolvePlan (destination : DestinationPath) (entry : ManifestEntry) :
    ExceptT String Call ResolvedDestinationPlan := do
  let state ← inspectDestination destination.path
  let empty ← sourceDirectoryEmpty entry
  ExceptT.mk (pure ((resolveDestination destination entry.relativePath entry.kind empty
    state).mapError DestinationResolutionError.message))

/-- A plan that was made before is used again. -/
def loadOrResolveDestinationPlan (destination : DestinationPath) (entry : ManifestEntry) :
    ExceptT String Call ResolvedDestinationPlan := do
  if ← ask (.fileExists .processing .plan) then
    let contents ← io (sys (.read .processing .plan)) fun e =>
      "failed to read destination plan: " ++ e.message
    ExceptT.mk (pure (contents.parsed.mapError ("failed to parse destination plan: " ++ ·)))
  else
    let plan ← resolvePlan destination entry
    io (writeFile .processing .plan (Doc.ofValue plan)) fun e =>
      "failed to write destination plan: " ++ e.message
    io (sys (.publish .processing .plan)) fun e =>
      "failed to publish destination plan: " ++ e.message
    return plan

end Plan

section Work

def copyFile (source path : String) : Call (Except IoError Unit) := do
  let opened : Except IoError Unit ← sys (.openWorkFile path)
  match opened with
  | .error e => return .error e
  | .ok _ => sys (.copyToWork source path)

def createWorkParent (path : String) : ExceptT String Call Unit :=
  io (sys (.createWorkParent path)) fun e => "failed to create work parent: " ++ e.message

/-- One object of a staged directory. -/
def copyStagedChild (relativePath source : String) (child : String) :
    ExceptT String Call Unit := do
  io (sys .walkNext) fun e => "failed to walk staged directory: " ++ e.message
  let relative := String.ofList (child.toList.drop (source.length + 1))
  let path := Path.join relativePath relative
  let kind ← io (sys (.stagedKind child)) fun e =>
    "failed to read staged entry metadata: " ++ e.message
  match kind with
  | .directory =>
    io (sys (.createWorkDir path)) fun e => "failed to create work subdirectory: " ++ e.message
  | .regularFile =>
    createWorkParent path
    io (copyFile child path) fun e => "failed to copy staged file to work area: " ++ e.message
  | .symlink =>
    createWorkParent path
    let target ← io (sys (.stagedTarget child)) fun e =>
      "failed to read staged symlink: " ++ e.message
    io (sys (.linkInWork path target)) fun e => "failed to create work symlink: " ++ e.message
  | .other =>
    throw ("unsupported filesystem object in staged directory: " ++ relative)

def copyStagedChildren (relativePath source : String) : List String → ExceptT String Call Unit
  | [] => return ()
  | child :: rest => do
    copyStagedChild relativePath source child
    copyStagedChildren relativePath source rest

/-- Copy the staged object into the work area and return its path there. -/
def prepareWorkEntry (config : ServerConfig) (k : RunKey) (entry : ManifestEntry) :
    ExceptT String Call String := do
  let source := entry.stagedPath.asStr
  let path := entry.relativePath.asStr
  createWorkParent path
  match entry.kind with
  | .directory =>
    io (sys (.createWorkDir path)) fun e => "failed to create work directory: " ++ e.message
    let children ← io (sys (.walkStaged source)) fun e =>
      "failed to walk staged directory: " ++ e.message
    copyStagedChildren path source children
  | .regularFile =>
    io (copyFile source path) fun e => "failed to copy to work area: " ++ e.message
  | .symlink =>
    let target ← io (sys (.stagedTarget source)) fun e =>
      "failed to read staged symlink: " ++ e.message
    io (sys (.linkInWork path target)) fun e => "failed to create work symlink: " ++ e.message
  return Path.join (workDir config.workDir k) path

end Work

section Apply

def trimEnds (s : String) : String :=
  String.ofList (((s.toList.dropWhile Char.isWhitespace).reverse.dropWhile
    Char.isWhitespace).reverse)

def debugCode : Option Int → String
  | none => "None"
  | some n => "Some(" ++ toString n ++ ")"

def captured (name : String) : Except String String → String
  | .ok text => text
  | .error e => "(" ++ name ++ " unavailable: " ++ e ++ ")"

def exitFailure (name : String) (exit : TransformExit) : String :=
  name ++ " failed with exit code " ++ debugCode exit.code ++ "\nstdout: " ++
    trimEnds (captured "stdout" exit.stdout) ++ "\nstderr: " ++
    trimEnds (captured "stderr" exit.stderr)

/-- Wait for the transform, which reports that it runs `n` more times. -/
def awaitTransform (name : String) (running : Call Unit) : Nat → ExceptT String Call Unit
  | 0 => io (sys .tryWait) fun e => "failed to wait for " ++ name ++ ": " ++ e.message
  | n + 1 => do
    io (sys .tryWait) fun e => "failed to wait for " ++ name ++ ": " ++ e.message
    ExceptT.lift running
    awaitTransform name running n

def checkExpectedOutputs : List String → ExceptT String Call Unit
  | [] => return ()
  | path :: rest => do
    let kind ← io (sys (.destinationKind path)) fun
      | .notFound => "expected output not found: " ++ path
      | e => "failed to inspect expected output '" ++ path ++ "': " ++ e.message
    if kind = .other then
      throw ("expected output is not a supported entry type: " ++ path)
    else checkExpectedOutputs rest

def applyTransformForTarget (config : ServerConfig) (k : RunKey) (name : String)
    (d : TransformDefinition) (workPath : String) (target : ResolvedDestinationPlan)
    (entryIndex entryTotal : Nat) (currentEntry : String) :
    ExceptT String Call (List String) := do
  let progress (state : String) : Call Unit :=
    writeProgressBestEffort config k state entryIndex entryTotal currentEntry name
  ExceptT.mk (pure ((validateTransformDefinition d).mapError fun e =>
    "transform '" ++ name ++ "' definition is invalid: " ++ e))
  let workParent ← match Path.parent workPath with
    | none => throw "work path has no parent directory"
    | some p => pure p
  let args := d.buildArgsForTarget workPath target
  ExceptT.lift (progress "transform_started")
  let polls ← io (sys (.spawn ⟨d.program, args, workParent, target⟩)) fun e =>
    "failed to spawn " ++ name ++ ": " ++ e.message
  awaitTransform name (progress "transform_running") polls
  let exit ← ask .reap
  if !exit.success then throw (exitFailure name exit)
  else
    ExceptT.lift (progress "transform_finished")
    let expected ← ExceptT.mk (pure ((d.resolveExpectedOutputsForTarget workPath target).mapError
      fun e => name ++ ": " ++ e))
    checkExpectedOutputs expected
    return expected.eraseDups

end Apply

def importEntry (host : Host) (config : ServerConfig) (k : RunKey) (entry : ManifestEntry)
    (entryIndex entryTotal : Nat) (destination : DestinationPath) :
    ExceptT String Call (List String) := do
  match entry.transform with
  | none =>
    throw ("server-side non-transform imports are not supported; " ++
      "entry must have a transform")
  | some name =>
    checkStaged host config k entry
    let target ← loadOrResolveDestinationPlan destination entry
    let workPath ← prepareWorkEntry config k entry
    match config.transforms name with
    | none => throw ("transform '" ++ name ++ "' not defined on server")
    | some d =>
      applyTransformForTarget config k name d workPath target entryIndex entryTotal
        entry.relativePath.asStr

def processManifestEntry (host : Host) (config : ServerConfig) (k : RunKey)
    (entry : ManifestEntry) (entryIndex entryTotal : Nat) (destination : DestinationPath) :
    Call EntryOutcome := do
  match ← (importEntry host config k entry entryIndex entryTotal destination).run with
  | .error e => return failedEntry entry e
  | .ok finalPaths =>
    return .success entry.kind entry.localPath entry.relativePath.asStr finalPaths entry.transform

end Purgery.Server
