import Purgery.Client.LocalFiles
import Purgery.Core.Document

namespace Purgery.Client

open Purgery.Path
open Purgery.Interleaving
open Purgery.Server (FileKind IoError)

/-- What a client remembers of an object that it may delete. -/
structure CleanupEntry where
  relativePath : String
  localPath : String
  kind : ManifestEntryKind
  size : Nat
  mtimeNs : Int
  sha256 : Option String
  linkTarget : Option String
  importConfirmed : Bool
  cleaned : Bool
deriving DecidableEq

structure DurableCleanupState where
  purgeryVersion : String
  nickname : String
  operationId : String
  entries : List CleanupEntry
deriving DecidableEq

instance : Document DurableCleanupState := ⟨fun s => some s.purgeryVersion⟩

section Capture

def directoryEntry (relativePath localPath : String) : CleanupEntry :=
  ⟨relativePath, localPath, .directory, 0, 0, none, none, false, false⟩

def symlinkEntry (relativePath localPath target : String) : CleanupEntry :=
  ⟨relativePath, localPath, .symlink, 0, 0, none, some target, false, false⟩

def fileEntryOf (relativePath localPath : String) (size : Nat) (modified : Int)
    (sha : String) : CleanupEntry :=
  ⟨relativePath, localPath, .regularFile, size, modified, some sha, none, false, false⟩

/-- What the walk has found so far: the entries that are no directories, and the
paths of the directories. -/
abbrev Found := List CleanupEntry × List (String × String)

/-- One object below the source. What cannot be looked at is left out. -/
def captureChild (spec : SourceSpec) (path : String) (found : Found) :
    ExceptT String FileCall Found := do
  match ← ExceptT.lift (file (.symlinkMetadata path)) with
  | .error _ => return found
  | .ok ft =>
    match stripPrefix path spec.operationPath with
    | none => return found
    | some relative =>
      let relativePath := spec.sourceEntryName ++ "/" ++ relative
      match ft.kind with
      | .directory => return (found.1, found.2 ++ [(relativePath, path)])
      | .regularFile =>
        let size ← ExceptT.lift (file (.metadata path))
        let modified ← ExceptT.lift (file (.metadata path))
        let sha ← ExceptT.adapt (fun _ => "SHA-256 failed for cleanup identity: " ++ path)
          (ExceptT.mk (file (.sha256 path)))
        let size := match size with
          | .ok m => m.len
          | .error _ => 0
        let modified := match modified with
          | .ok m => mtimeNs m.modified
          | .error _ => 0
        return (found.1 ++ [fileEntryOf relativePath path size modified sha], found.2)
      | .symlink =>
        let target ← ExceptT.adapt (fun _ => "failed to read symlink target: " ++ path)
          (ExceptT.mk (file (.readLink path)))
        return (found.1 ++ [symlinkEntry relativePath path target], found.2)
      | .other => return found

def captureChildren (spec : SourceSpec) : List String → Found → ExceptT String FileCall Found
  | [], found => return found
  | path :: rest, found => do
    let found ← captureChild spec path found
    captureChildren spec rest found

def CleanupEntry.depth (e : CleanupEntry) : Nat := e.localPath.toList.count '/'

/-- Deepest first; the sort is stable. -/
def sortByDepth (entries : List CleanupEntry) : List CleanupEntry :=
  entries.mergeSort fun a b => decide (b.depth ≤ a.depth)

def captureCleanupIdentity (spec : SourceSpec) : ExceptT String FileCall (List CleanupEntry) := do
  let path := spec.operationPath
  let ft ← ExceptT.adapt (fun _ => "failed to read metadata: " ++ path)
    (ExceptT.mk (file (.symlinkMetadata path)))
  match ft.kind with
  | .regularFile =>
    let sha ← ExceptT.adapt (fun _ => "SHA-256 failed: " ++ path) (ExceptT.mk (file (.sha256 path)))
    return [fileEntryOf spec.sourceEntryName path ft.len (mtimeNs ft.modified) sha]
  | .symlink =>
    let target ← ExceptT.adapt (fun _ => "failed to read symlink target: " ++ path)
      (ExceptT.mk (file (.readLink path)))
    return [symlinkEntry spec.sourceEntryName path target]
  | .directory | .other =>
    let paths ← ExceptT.lift (file (.walk path))
    let (entries, dirs) ← captureChildren spec paths ([], [(spec.sourceEntryName, path)])
    return sortByDepth (entries ++ dirs.reverse.map fun d => directoryEntry d.1 d.2)

end Capture

end Purgery.Client
