import Purgery.Core.Path

namespace Purgery

inductive RunPhase where
  | incoming
  | ready
  | processing
  | done
  | failed
deriving DecidableEq

def RunPhase.asStr : RunPhase → String
  | .incoming => "incoming"
  | .ready => "ready"
  | .processing => "processing"
  | .done => "done"
  | .failed => "failed"

/-- How far a run in this phase has come. -/
def RunPhase.rank : RunPhase → Nat
  | .incoming => 0
  | .ready => 1
  | .processing => 2
  | .done => 3
  | .failed => 3

def RunPhase.terminal (ph : RunPhase) : Bool := ph == .done || ph == .failed

/-- The run is accepted and not finished. -/
def RunPhase.queued (ph : RunPhase) : Bool := ph == .ready || ph == .processing

def nicknameChar (c : Char) : Bool := c.isAlphanum || c == '-' || c == '_'

def runIdChar (c : Char) : Bool := nicknameChar c || c == '.'

structure Nickname where
  asStr : String
  valid : asStr.toList ≠ [] ∧ asStr.toList.all nicknameChar = true
deriving DecidableEq

structure RunId where
  asStr : String
  valid : asStr.toList ≠ [] ∧ asStr.toList.all runIdChar = true
deriving DecidableEq

inductive NameError where
  | empty
  | invalidCharacter (c : Char)
deriving DecidableEq

def Nickname.new (s : String) : Except NameError Nickname :=
  if h : s.toList ≠ [] ∧ s.toList.all nicknameChar = true then .ok ⟨s, h⟩
  else
    match s.toList.find? (fun c => !nicknameChar c) with
    | some c => .error (.invalidCharacter c)
    | none => .error .empty

def RunId.new (s : String) : Except NameError RunId :=
  if h : s.toList ≠ [] ∧ s.toList.all runIdChar = true then .ok ⟨s, h⟩
  else
    match s.toList.find? (fun c => !runIdChar c) with
    | some c => .error (.invalidCharacter c)
    | none => .error .empty

/-- What names a run: the client's nickname and the run id. -/
structure RunKey where
  nickname : Nickname
  runId : RunId
deriving DecidableEq

structure ServerWorkDir where
  path : String
  absolute : Path.isAbsolute path = true
deriving DecidableEq

def ServerWorkDir.nicknameDir (w : ServerWorkDir) (nickname : Nickname) : String :=
  Path.join w.path nickname.asStr

def ServerWorkDir.runDir (w : ServerWorkDir) (k : RunKey) (phase : RunPhase) : String :=
  Path.join (Path.join (w.nicknameDir k.nickname) phase.asStr) k.runId.asStr

def workDir (w : ServerWorkDir) (k : RunKey) : String :=
  Path.join (w.runDir k .processing) "work"

end Purgery
