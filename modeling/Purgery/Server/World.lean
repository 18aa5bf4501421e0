import Purgery.Server.Operation

namespace Purgery.Server

/-- A lock that a process holds: the inode, and (for the history only) the
phase through whose path it was opened and whether the run was still there. -/
structure Grip (Tid : Type) where
  ino : Nat
  tid : Tid
  via : RunPhase
  fresh : Bool

/-- A call that failed: which one, in which session, where the run was, and
whether a status had been published in its processing directory. -/
structure Fault (Tid : Type) where
  op : RunOp
  grip : Option (Grip Tid)
  location : Option RunPhase
  published : Bool

/-- One run of the server: its phase directories, the locks on `processor.lock`
inodes, the destination. `published`, `pass` and `faults` record the history. -/
structure RunWorld (Tid : Type) where
  dirs : RunPhase → Option RunDir
  locks : List (Grip Tid)
  nextIno : Nat
  nextDir : Nat
  destination : Destination
  published : List (RunPhase × Doc RunStatus)
  pass : Tid → Option RunPhase
  faults : List (Fault Tid)

def allPhases : List RunPhase := [.incoming, .ready, .processing, .done, .failed]

namespace RunWorld

variable {Tid : Type}

def location (w : RunWorld Tid) : Option RunPhase :=
  allPhases.find? fun ph => (w.dirs ph).isSome

def phaseOf (w : RunWorld Tid) (id : Nat) : Option RunPhase :=
  allPhases.find? fun ph => (w.dirs ph).any fun d => d.id == id

def publishedInProcessing (w : RunWorld Tid) : Bool :=
  w.published.any fun p => p.1 == .processing

def setDir (w : RunWorld Tid) (ph : RunPhase) (d : Option RunDir) : RunWorld Tid :=
  { w with dirs := Function.update w.dirs ph d }

def notePublished (w : RunWorld Tid) (ph : RunPhase) (d : Option (Doc RunStatus)) :
    RunWorld Tid :=
  { w with published := (d.map fun d => (ph, d)).toList ++ w.published }

variable [DecidableEq Tid]

def grip? (w : RunWorld Tid) (t : Tid) : Option (Grip Tid) :=
  w.locks.find? fun g => g.tid == t

def setPass (w : RunWorld Tid) (t : Tid) (ph : Option RunPhase) : RunWorld Tid :=
  { w with pass := Function.update w.pass t ph }

def noteFault (w : RunWorld Tid) (t : Tid) (o : RunOp) : RunWorld Tid :=
  { w with faults := ⟨o, w.grip? t, w.location, w.publishedInProcessing⟩ :: w.faults }

/-- The file descriptors of a process that ends are closed. -/
def leave (w : RunWorld Tid) (t : Tid) : RunWorld Tid :=
  { w with locks := w.locks.filter (fun g => g.tid != t), pass := Function.update w.pass t none }

end RunWorld

end Purgery.Server
