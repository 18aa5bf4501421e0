import Purgery.Client.LocalFiles
import Purgery.Core.Records

namespace Purgery.Client

open Purgery.Path
open Purgery.Interleaving
open Purgery.Server (FileKind)

/-! The manifest that a client sends to the server. -/

def clientLocalPath (s : String) : Except String String :=
  if s.isEmpty then .error "client local path is empty" else .ok s

def SourceKind.manifestKind : SourceKind → ManifestEntryKind
  | .directory => .directory
  | .regularFile => .regularFile
  | .symlink => .symlink

/-- The time and the digest of a file that a transform is to take. -/
def fileIdentity (path : String) (metadata : LocalMeta) (transform : Option String) :
    ExceptT String FileCall (Int × Option String) := do
  if metadata.kind = .regularFile ∧ transform.isSome then
    let sha ← ExceptT.adapt (fun _ => "SHA-256 failed: " ++ path)
      (ExceptT.mk (file (.sha256 path)))
    return (mtimeNs metadata.modified, some sha)
  else return (0, none)

def fileTarget (path : String) (metadata : LocalMeta) :
    ExceptT String FileCall (Option String) := do
  if metadata.kind = .symlink then
    let target ← ExceptT.adapt (fun _ => "failed to read symlink: " ++ path)
      (ExceptT.mk (file (.readLink path)))
    return some target
  else return none

/-- A manifest with one logical source entry. -/
def buildManifest (spec : SourceSpec) (k : RunKey) (transform : Option String) :
    ExceptT String FileCall Manifest := do
  let path := spec.operationPath
  let metadata ← ExceptT.adapt (fun _ => "failed to read metadata: " ++ path)
    (ExceptT.mk (file (.symlinkMetadata path)))
  let relativePath ← ExceptT.mk (pure ((NormalizedRelativePath.new spec.sourceEntryName).mapError
    fun _ => "invalid source name: " ++ spec.sourceEntryName))
  let stagedPath ← ExceptT.mk (pure ((NormalizedRelativePath.new
    (join "files" spec.sourceEntryName)).mapError fun _ => "invalid staged path"))
  let localPath ← ExceptT.mk (pure ((clientLocalPath path).mapError fun _ =>
    "invalid local path: " ++ path))
  let (mtimeNs, sha256) ← fileIdentity path metadata transform
  let linkTarget ← fileTarget path metadata
  return {
    purgeryVersion := currentPurgeryVersion
    runId := k.runId
    nickname := k.nickname
    entries := [{
      localPath := localPath
      stagedPath := stagedPath
      relativePath := relativePath
      kind := spec.kind.manifestKind
      size := if metadata.kind = .regularFile then metadata.len else 0
      mtimeNs := mtimeNs
      sha256 := sha256
      linkTarget := linkTarget
      transform := transform }] }

end Purgery.Client
