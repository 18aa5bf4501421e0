import Purgery.Server.Contents

namespace Purgery.Server

/-- A destination path as `lstat` and `stat` classify it. -/
abbrev Destination := String → Option (FileKind × Option FileKind)

/-- The process that a transform starts; `target` is the plan that its
arguments were made from. -/
structure TransformCall where
  program : String
  args : List String
  directory : String
  target : ResolvedDestinationPlan
deriving DecidableEq

structure TransformExit where
  success : Bool
  code : Option Int
  stdout : Except String String
  stderr : Except String String

/-- The system calls on one run. A phase names the run's directory there.
`sweep` and `dooms` only say, for the history, that the caller is a garbage
collection which deletes the run on this answer. -/
inductive RunOp where
  | unixNow
  | dirExists (ph : RunPhase)
  | probeDir (ph : RunPhase) (sweep : Bool)
  | fileExists (ph : RunPhase) (f : FileName)
  | lockExists (ph : RunPhase) (sweep : Bool)
  | treeExists (ph : RunPhase) (t : Subtree)
  | read (ph : RunPhase) (f : FileName)
  | readLease (dooms : Except IoError (Doc LeaseFile) → Bool)
  | modified (ph : RunPhase) (dooms : Nat → Bool)
  | statusModified (ph : RunPhase)
  | openTmp (ph : RunPhase) (f : FileName)
  | writeTmp (dir : Nat) (f : FileName) (d : Doc f.Content)
  | publish (ph : RunPhase) (f : FileName)
  | removeFile (ph : RunPhase) (f : FileName)
  | removeTmp (ph : RunPhase) (f : FileName)
  | removeLock (ph : RunPhase)
  | listTmp (ph : RunPhase)
  | createParent (ph : RunPhase)
  | move (src dst : RunPhase)
  | openLock (ph : RunPhase)
  | openLockReadonly (ph : RunPhase) (sweep : Bool)
  | flock (ph : RunPhase) (ino : Nat)
  | probeFlock (ph : RunPhase) (ino : Nat) (sweep : Bool)
  | close (ino : Nat)
  | breakTree (ph : RunPhase) (t : Subtree)
  | removeTree (ph : RunPhase) (t : Subtree)
  | createWork
  | createWorkParent (path : String)
  | createWorkDir (path : String)
  | openWorkFile (path : String)
  | copyToWork (source path : String)
  | linkInWork (path target : String)
  | stagedKind (path : String)
  | stagedLen (path : String)
  | stagedBytes (path : String)
  | stagedTarget (path : String)
  | stagedEmpty (path : String)
  | walkStaged (path : String)
  | walkNext
  | destinationKind (path : String)
  | destinationTarget (path : String)
  | spawn (c : TransformCall)
  | tryWait
  | reap
  | openDir (ph : RunPhase)
  | unlink (dir : Nat) (e : RunEntry)
  | rmdir (ph : RunPhase)

namespace RunOp

abbrev Res : RunOp → Type
  | unixNow => Nat
  | dirExists _ | probeDir _ _ | fileExists _ _ | lockExists _ _ | treeExists _ _ => Bool
  | read _ f => Except IoError (Doc f.Content)
  | readLease _ => Except IoError (Doc LeaseFile)
  | modified _ _ | statusModified _ | openTmp _ _ | openLock _ | openLockReadonly _ _
  | stagedLen _ | spawn _ => Except IoError Nat
  | flock _ _ | probeFlock _ _ _ | stagedEmpty _ => Except IoError Bool
  | listTmp _ => Except IoError (List FileName)
  | stagedKind _ | destinationKind _ | destinationTarget _ => Except IoError FileKind
  | stagedBytes _ => Except IoError (List UInt8)
  | stagedTarget _ => Except IoError String
  | walkStaged _ => Except IoError (List String)
  | reap => TransformExit
  | openDir _ => Except IoError (Nat × List RunEntry)
  | close _ => Unit
  | writeTmp _ _ _ | publish _ _ | removeFile _ _ | removeTmp _ _ | removeLock _ | createParent _
  | move _ _ | breakTree _ _ | removeTree _ _ | createWork | createWorkParent _
  | createWorkDir _ | openWorkFile _ | copyToWork _ _ | linkInWork _ _ | walkNext | tryWait
  | unlink _ _ | rmdir _ => Except IoError Unit

/-- What the environment settles, beside whether the call fails. -/
abbrev Extra : RunOp → Type
  | openTmp _ f => Except String (Doc f.Content)
  | breakTree _ _ => String → Bool
  | openWorkFile _ => List UInt8
  | spawn _ => Nat × Destination × Tree
  | reap => TransformExit × Destination × Tree
  | openDir _ => List RunEntry
  | _ => Unit

abbrev Choice (o : RunOp) : Type := Option String × o.Extra

def fallible : RunOp → Bool
  | unixNow | close _ | reap => false
  | _ => true

/-- The answer of a call that fails. -/
def failed (o : RunOp) (e : IoError) : o.Res :=
  match o with
  | unixNow => 0
  | dirExists _ | probeDir _ _ | fileExists _ _ | lockExists _ _ | treeExists _ _ => false
  | reap => ⟨false, none, .error e.message, .error e.message⟩
  | close _ => ()
  | read _ _ | readLease _ | modified _ _ | statusModified _ | openTmp _ _ | openLock _
  | openLockReadonly _ _ | stagedLen _ | spawn _ | flock _ _ | probeFlock _ _ _ | stagedEmpty _
  | listTmp _ | stagedKind _ | destinationKind _ | destinationTarget _ | stagedBytes _
  | stagedTarget _ | openDir _ | writeTmp _ _ _ | publish _ _ | removeFile _ _ | removeTmp _ _
  | removeLock _ | createParent _ | move _ _ | breakTree _ _ | removeTree _ _ | createWork
  | createWorkParent _ | createWorkDir _ | openWorkFile _ | copyToWork _ _ | linkInWork _ _
  | walkStaged _ | walkNext | tryWait | unlink _ _ | rmdir _ => .error e

end RunOp

end Purgery.Server
