import Purgery.Server.Prepare
import Purgery.Server.System

namespace Purgery.Server

open Purgery.Interleaving

structure BeginRunResponse where
  protocolVersion : Nat
  purgeryVersion : String
  nickname : String
  runId : String
  incomingDir : String
  filesDir : String
  runConfigPath : String
  manifestPath : String
  heartbeatIntervalSecs : Nat
deriving DecidableEq

/-- What the commands that let a run in print. -/
inductive Reply where
  | beginRun (k : RunKey) (r : Except String BeginRunResponse)
  | prepareRun (k : RunKey) (r : Except String PrepareRunResponse)

def Reply.key : Reply → RunKey
  | .beginRun k _ => k
  | .prepareRun k _ => k

/-- A begin of the run that was granted. -/
def Reply.granted (k : RunKey) : Reply → Bool
  | .beginRun k' (.ok _) => k' == k
  | _ => false

/-- What a begin turns into TOML. -/
inductive Serialized where
  | lease (l : LeaseFile)
  | response (r : BeginRunResponse)

/-- The calls of a server process that lets runs in: those of the others, the
creation of an incoming directory, and the serializations that may fail. -/
inductive IntakeOp where
  | server (o : ServerOp)
  | serialize (v : Serialized)
  | createIncoming (k : RunKey)
  | createFiles (k : RunKey)
  | unlinkIncoming (k : RunKey) (dir : Nat) (e : RunEntry)
  | rmdirIncoming (k : RunKey)
  | reply (r : Reply)

namespace IntakeOp

abbrev Res : IntakeOp → Type
  | server o => o.Res
  | serialize _ => Except String Unit
  | createIncoming _ | createFiles _ | unlinkIncoming _ _ _ | rmdirIncoming _ =>
    Except IoError Unit
  | reply _ => Unit

abbrev Choice : IntakeOp → Type
  | server o => o.Choice
  | serialize _ | createIncoming _ | createFiles _ | unlinkIncoming _ _ _ | rmdirIncoming _ =>
    Option String
  | reply _ => Unit

end IntakeOp

abbrev Intake (α : Type) := Prog IntakeOp IntakeOp.Res α

def atServer : Embedding ServerOp ServerOp.Res ServerOp.Choice
    IntakeOp IntakeOp.Res IntakeOp.Choice where
  op := .server
  res _ r := r
  choice _ x := x

def onServer {α : Type} (p : Action α) : Intake α := atServer.embed p

/-- Code that works on one run. -/
def onIntake {ε α : Type} (k : RunKey) (c : ExceptT ε Call α) : ExceptT ε Intake α :=
  ExceptT.mk (onServer (onRun k c.run))

def take (o : IntakeOp) : Intake o.Res := Prog.perform o

section BeginRun

variable (config : ServerConfig) (k : RunKey)

/-- The first of the phases in which the run is. -/
def firstPhase : List RunPhase → Call (Option RunPhase)
  | [] => return none
  | ph :: rest => do
    if ← sys (.dirExists ph) then return some ph
    else firstPhase rest

def unlinkAll (dir : Nat) : List RunEntry → ExceptT IoError Intake Unit
  | [] => return ()
  | e :: rest => do
    ExceptT.mk (take (.unlinkIncoming k dir e))
    unlinkAll dir rest

/-- `remove_dir_all` of the incoming directory. -/
def removeIncoming : ExceptT IoError Intake Unit := do
  let (dir, entries) ← onIntake k (ExceptT.mk (sys (.openDir .incoming)))
  unlinkAll k dir entries
  ExceptT.mk (take (.rmdirIncoming k))

/-- The addition wraps around. -/
def newLease (now : Nat) : LeaseFile where
  protocolVersion := protocolVersion
  purgeryVersion := currentPurgeryVersion
  nickname := k.nickname.asStr
  runId := k.runId.asStr
  createdAtUnixSecs := now
  lastHeartbeatUnixSecs := now
  expiresAtUnixSecs := (now + config.gc.incomingLeaseSecs) % 2 ^ 64

def writeNewLease (now : Nat) : ExceptT IoError Call Unit := do
  io (writeFile .incoming .lease (Doc.ofValue (newLease config k now))) id
  io (sys (.publish .incoming .lease)) id

def beginRunResponse : BeginRunResponse :=
  let incoming := config.workDir.runDir k .incoming
  { protocolVersion := protocolVersion
    purgeryVersion := currentPurgeryVersion
    nickname := k.nickname.asStr
    runId := k.runId.asStr
    incomingDir := incoming
    filesDir := Path.join incoming "files"
    runConfigPath := Path.join incoming "run.toml"
    manifestPath := Path.join incoming "manifest.toml"
    heartbeatIntervalSecs := config.gc.heartbeatIntervalSecs }

/-- What follows when the incoming directory is there. A lease that cannot be
serialized leaves it behind. -/
def fillIncoming (now : Nat) : ExceptT String Intake BeginRunResponse := do
  match ← ExceptT.lift (take (.createFiles k)) with
  | .error _ =>
    let _ ← ExceptT.lift (removeIncoming k).run
    throw ("failed to create files dir: " ++ filePath config k .incoming "files")
  | .ok _ =>
    match ← ExceptT.lift (take (.serialize (.lease (newLease config k now)))) with
    | .error e => throw ("failed to serialize lease: " ++ e)
    | .ok _ =>
      match ← ExceptT.lift (onIntake k (writeNewLease config k now)).run with
      | .error _ =>
        let _ ← ExceptT.lift (removeIncoming k).run
        throw "failed to write lease file"
      | .ok _ =>
        match ← ExceptT.lift (take (.serialize (.response (beginRunResponse config k)))) with
        | .error e =>
          let _ ← ExceptT.lift (removeIncoming k).run
          throw ("failed to serialize begin-run response: " ++ e)
        | .ok _ => return beginRunResponse config k

def beginRun : ExceptT String Intake BeginRunResponse := do
  match ← ExceptT.lift (onServer (onRun k (firstPhase allPhases))) with
  | some ph =>
    throw ("run " ++ runTitle k ++ " already exists in '" ++ ph.asStr ++ "' phase at '" ++
      config.workDir.runDir k ph ++ "'")
  | none =>
    let now ← ExceptT.lift (onServer (act .unixNow))
    onIntake k (io (sys (.createParent .incoming)) fun _ =>
      "failed to create incoming parent: " ++
        Path.join (config.workDir.nicknameDir k.nickname) "incoming")
    ExceptT.adapt (fun _ => "failed to create incoming dir '" ++
        config.workDir.runDir k .incoming ++ "' (race: run may have been created concurrently)")
      (ExceptT.mk (take (.createIncoming k)))
    fillIncoming config k now

end BeginRun

section Subcommands

variable (host : Host) (config : ServerConfig)

/-- What a server process may be started to do, begin and prepare included. -/
inductive Subcommand : Intake Unit → Prop
  | server {p : Action Unit} (hp : Command host config p) : Subcommand (onServer p)
  | beginRun (k : RunKey) :
      Subcommand ((beginRun config k).run >>= fun r => take (.reply (.beginRun k r)))
  | prepareRun (k : RunKey) (cwd : WorkingDirectory) :
      Subcommand (onServer (onRun k (prepareRun config k cwd).run) >>= fun r =>
        take (.reply (.prepareRun k r)))

/-- The begins of one run, its finish, and the claims and recoveries that work
on it. -/
inductive RunStep (k : RunKey) : Intake Unit → Prop
  | beginRun : RunStep k ((beginRun config k).run >>= fun r => take (.reply (.beginRun k r)))
  | finish : RunStep k (onServer (discard (onRun k (finishRun config k).run)))
  | processRun : RunStep k (onServer (discard (processRunTarget host config k)))
  | processReady : RunStep k (onServer (onRun k (processReadyRun host config k)))
  | recover : RunStep k (onServer (onRun k (recoverFoundRun host config k)))

end Subcommands

/-- `beginner` only records, for the history, who created the incoming
directory of a run and has not answered yet. -/
structure IntakeWorld (Tid : Type) where
  server : World Tid
  beginner : RunKey → Option Tid
  replies : List Reply

/-- Beside the clock and the plain uploads, a client may put any file into an
incoming directory. -/
inductive IntakeEvent where
  | server (e : ServerEvent)
  | put (k : RunKey) (f : FileName) (d : Doc f.Content)

section

variable {Tid : Type} [DecidableEq Tid]

def IntakeWorld.setRun (w : IntakeWorld Tid) (k : RunKey) (r : RunWorld Tid) : IntakeWorld Tid :=
  { w with server := w.server.setRun k r }

namespace IntakeWorld

omit [DecidableEq Tid]

variable {k : RunKey} {W : IntakeWorld Tid} {r : RunWorld Tid}

@[simp] theorem setRun_runs : (W.setRun k r).server.runs k = r := by simp [setRun, World.setRun]

@[simp] theorem setRun_self : W.setRun k (W.server.runs k) = W := by simp [setRun, World.setRun]

@[simp] theorem setRun_clock : (W.setRun k r).server.clock = W.server.clock := rfl

@[simp] theorem setRun_beginner : (W.setRun k r).beginner = W.beginner := rfl

end IntakeWorld

def RunDir.unlinkEntry (d : RunDir) (e : RunEntry) (now : Nat) : Except IoError RunDir :=
  if !d.has e then .ok d
  else if d.holdsMore e then .error notEmpty
  else .ok ((d.without e).stamp now)

/-- What the calls on an incoming directory do to its run. -/
def IntakeOp.onRun (now : Nat) (r : RunWorld Tid) :
    IntakeOp → Except IoError Unit × RunWorld Tid
  | .createIncoming _ =>
    match r.dirs .incoming with
    | some _ => (.error fileExistsError, r)
    | none =>
      (.ok (), { r with nextDir := r.nextDir + 1 }.setDir .incoming (some (.empty r.nextDir now)))
  | .createFiles _ => r.change .incoming fun d =>
    if d.has (.tree .files) then .error fileExistsError
    else .ok ((d.setTree .files (some [])).stamp now)
  | .unlinkIncoming _ dir e =>
    match r.phaseOf dir with
    | none => (.ok (), r)
    | some ph => r.change ph fun d => d.unlinkEntry e now
  | .rmdirIncoming _ =>
    match r.dirs .incoming with
    | none => (.error .notFound, r)
    | some d => if d.entries.isEmpty then (.ok (), r.setDir .incoming none) else (.error notEmpty, r)
  | _ => (.ok (), r)

def intakeStep (host : Host) (t : Tid) (o : IntakeOp) (x : o.Choice) (w : IntakeWorld Tid) :
    o.Res × IntakeWorld Tid :=
  let attempt (k : RunKey) (failure : Option String) : Except IoError Unit × IntakeWorld Tid :=
    match failure with
    | some message => (.error (.other message), w)
    | none => (o.onRun w.server.clock (w.server.runs k)).map id (w.setRun k)
  match o, x with
  | .server o, x =>
    let r := serverStep host t o x w.server
    (r.1, { w with server := r.2 })
  | .serialize _, some message => (.error message, w)
  | .serialize _, none => (.ok (), w)
  | .createIncoming k, failure =>
    let r := attempt k failure
    (r.1, if r.1.isOk then { r.2 with beginner := Function.update w.beginner k (some t) } else r.2)
  | .createFiles k, failure => attempt k failure
  | .unlinkIncoming k _ _, failure => attempt k failure
  | .rmdirIncoming k, failure => attempt k failure
  | .reply r, _ =>
    ((), { w with
      beginner := Function.update w.beginner r.key
        ((w.beginner r.key).filter fun u => u != t)
      replies := r :: w.replies })

def intakeEvent (e : IntakeEvent) (w : IntakeWorld Tid) : IntakeWorld Tid :=
  match e with
  | .server e => { w with server := serverEvent e w.server }
  | .put k f d =>
    w.setRun k ((w.server.runs k).setDir .incoming
      (((w.server.runs k).dirs .incoming).map fun dir =>
        (dir.setFile f (.text d)).stamp w.server.clock))

def IntakeWorld.leave (w : IntakeWorld Tid) (t : Tid) : IntakeWorld Tid where
  server := { w.server with runs := fun k => (w.server.runs k).leave t }
  beginner k := (w.beginner k).filter fun u => u != t
  replies := w.replies

/-- The server before any run was begun. -/
structure RunWorld.Unbegun (w : RunWorld Tid) : Prop where
  dirs : ∀ ph, w.dirs ph = none
  locks : w.locks = []
  nextIno : w.nextIno = 0
  published : w.published = []
  pass : ∀ t, w.pass t = none
  faults : w.faults = []

structure IntakeWorld.Unbegun (w : IntakeWorld Tid) : Prop where
  runs : ∀ k, (w.server.runs k).Unbegun
  beginner : ∀ k, w.beginner k = none
  replies : w.replies = []

def intake (host : Host) (programs : Intake Unit → Prop) :
    System Tid IntakeOp IntakeOp.Res IntakeOp.Choice (IntakeWorld Tid) IntakeEvent where
  step := intakeStep host
  leave t w := w.leave t
  env := intakeEvent
  program := programs
  init w := w.Unbegun

end

end Purgery.Server
