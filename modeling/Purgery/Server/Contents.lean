import Mathlib.Data.List.Sort
import Mathlib.Logic.Function.Basic
import Purgery.Core.Records

namespace Purgery.Server

/-- A failing system call: the file is not there, or any other error. -/
inductive IoError where
  | notFound
  | other (message : String)
deriving DecidableEq

def IoError.message : IoError → String
  | .notFound => "No such file or directory (os error 2)"
  | .other message => message

inductive FileKind where
  | directory
  | regularFile
  | symlink
  | other
deriving DecidableEq

inductive Node where
  | dir
  | file (bytes : List UInt8)
  | symlink (target : String)
  | other
deriving DecidableEq

def Node.kind : Node → FileKind
  | .dir => .directory
  | .file _ => .regularFile
  | .symlink _ => .symlink
  | .other => .other

/-- The objects below a directory, by their path from it. -/
abbrev Tree := List (String × Node)

def Tree.find (t : Tree) (path : String) : Option Node := (t.lookup path)

def Tree.insert (t : Tree) (path : String) (n : Node) : Tree :=
  t.filter (fun e => e.1 != path) ++ [(path, n)]

def Tree.below (t : Tree) (path : String) : List String :=
  (t.map Prod.fst).filter (fun p => (path ++ "/").toList.isPrefixOf p.toList)

def componentsLe : List String → List String → Bool
  | [], _ => true
  | _ :: _, [] => false
  | a :: as, b :: bs => if a = b then componentsLe as bs else decide (a < b)

/-- A proper prefix of the path is a symlink. -/
def leadsOutside (t : Tree) (path : String) : Bool :=
  t.any fun e => e.2.kind == .symlink && (e.1 ++ "/").toList.isPrefixOf path.toList

/-- Sorted by file name: a directory comes before what it holds. -/
def walkOrder (paths : List String) : List String :=
  paths.insertionSort fun p q => componentsLe (Path.components p) (Path.components q)

/-- A walk does not descend into symlinks. -/
def Tree.walk (t : Tree) (path : String) : List String :=
  walkOrder ((t.below path).filter fun p => !leadsOutside t p)

/-- What the server's machine has beside the work directory: the digest of a
content, and what symlinks out of the staged files lead to: the object at such a
path, the one it leads to when a symlink at its end is followed too, and the
paths below it. -/
structure Host where
  sha256 : List UInt8 → String
  outside : String → Option Node
  followed : String → Option Node
  within : String → List String

/-- The text files of a run directory. -/
inductive FileName where
  | lease
  | runConfig
  | manifest
  | status
  | progress
  | plan
deriving DecidableEq

def FileName.asStr : FileName → String
  | .lease => "lease.toml"
  | .runConfig => "run.toml"
  | .manifest => "manifest.toml"
  | .status => "status.toml"
  | .progress => "progress.toml"
  | .plan => "destination-plan.toml"

abbrev FileName.Content : FileName → Type
  | .lease => LeaseFile
  | .runConfig => RunConfig
  | .manifest => Manifest
  | .status => RunStatus
  | .progress => ProcessingProgress
  | .plan => ResolvedDestinationPlan

instance FileName.document : (f : FileName) → Document f.Content
  | .lease => inferInstanceAs (Document LeaseFile)
  | .runConfig => inferInstanceAs (Document RunConfig)
  | .manifest => inferInstanceAs (Document Manifest)
  | .status => inferInstanceAs (Document RunStatus)
  | .progress => inferInstanceAs (Document ProcessingProgress)
  | .plan => inferInstanceAs (Document ResolvedDestinationPlan)

inductive FileState (f : FileName) where
  | missing
  | unreadable (message : String)
  | text (d : Doc f.Content)

def FileState.read {f : FileName} : FileState f → Except IoError (Doc f.Content)
  | .missing => .error .notFound
  | .unreadable message => .error (.other message)
  | .text d => .ok d

def FileState.isMissing {f : FileName} : FileState f → Bool
  | .missing => true
  | _ => false

theorem FileState.isMissing_iff {f : FileName} {s : FileState f} :
    s.isMissing = true ↔ s = .missing := by
  cases s <;> simp [isMissing]

def FileState.ofTorn {f : FileName} : Except String (Doc f.Content) → FileState f
  | .ok d => .text d
  | .error message => .unreadable message

@[simp] theorem FileState.ofTorn_isMissing {f : FileName} (torn : Except String (Doc f.Content)) :
    (FileState.ofTorn torn : FileState f).isMissing = false := by
  cases torn <;> rfl

def statusText : (f : FileName) → FileState f → Option (Doc RunStatus)
  | .status, .text d => some d
  | _, _ => none

inductive Subtree where
  | files
  | work
deriving DecidableEq

/-- What the garbage collection does not change by removing things: the lease
last put in place, the last other change of the directory, the upload. -/
structure Shadow where
  lease : FileState .lease
  mtime : Nat
  runConfig : FileState .runConfig
  manifest : FileState .manifest
  files : Option Tree

/-- A run directory. `id` and `lock` are inode numbers. `touched` and `shadow`
only record the history: whether the garbage collection has removed something,
and what it would hold otherwise. -/
structure RunDir where
  id : Nat
  lock : Option Nat
  file : (f : FileName) → FileState f
  tmp : (f : FileName) → FileState f
  tree : Subtree → Option Tree
  mtime : Nat
  tmpMtime : Nat
  statusMtime : Nat
  touched : Bool
  shadow : Shadow

/-- What the garbage collection unlinks one at a time. -/
inductive RunEntry where
  | file (f : FileName)
  | tmp (f : FileName)
  | lock
  | inTree (t : Subtree) (path : String)
  | tree (t : Subtree)
deriving DecidableEq

def allFiles : List FileName := [.lease, .runConfig, .manifest, .status, .progress, .plan]

namespace RunDir

def has (d : RunDir) : RunEntry → Bool
  | .file f => !(d.file f).isMissing
  | .tmp f => !(d.tmp f).isMissing
  | .lock => d.lock.isSome
  | .inTree t p => (d.tree t).any fun xs => xs.any fun e => e.1 == p
  | .tree t => (d.tree t).isSome

def leaves (d : RunDir) : List RunEntry :=
  (allFiles.map RunEntry.file ++ allFiles.map RunEntry.tmp ++ [RunEntry.lock]).filter d.has ++
    ((d.tree .files).getD []).map (fun e => .inTree .files e.1) ++
    ((d.tree .work).getD []).map (fun e => .inTree .work e.1)

def subtrees (d : RunDir) : List RunEntry := [RunEntry.tree .files, .tree .work].filter d.has

def entries (d : RunDir) : List RunEntry := d.leaves ++ d.subtrees

/-- The entries in the order in which a removal visits them: any order of the
files, and every directory after what it holds. -/
def listing (d : RunDir) (order : List RunEntry) : List RunEntry :=
  order.filter (fun e => d.leaves.contains e) ++
    d.leaves.filter (fun e => !order.contains e) ++ d.subtrees

def setFile (d : RunDir) (f : FileName) (s : FileState f) : RunDir :=
  { d with file := Function.update d.file f s }

def setTmp (d : RunDir) (f : FileName) (s : FileState f) : RunDir :=
  { d with tmp := Function.update d.tmp f s }

def setTree (d : RunDir) (t : Subtree) (x : Option Tree) : RunDir :=
  { d with tree := Function.update d.tree t x }

def setLock (d : RunDir) (i : Option Nat) : RunDir := { d with lock := i }

def stamp (d : RunDir) (now : Nat) : RunDir :=
  { d with mtime := now, shadow := { d.shadow with mtime := now } }

def without (d : RunDir) : RunEntry → RunDir
  | .file f => d.setFile f .missing
  | .tmp f => d.setTmp f .missing
  | .lock => d.setLock none
  | .inTree t p => d.setTree t ((d.tree t).map fun xs => xs.filter fun e => e.1 != p)
  | .tree t => d.setTree t none

end RunDir

end Purgery.Server
