import Purgery.Interleaving.System
import Purgery.Server.Gc
import Purgery.Server.RunState
import Purgery.Server.Step
import Purgery.Server.Upload

namespace Purgery.Server

open Purgery.Interleaving

/-- The system calls of a server process: those on one run, the clock, and the
directories that lead to the runs. -/
inductive ServerOp where
  | unixNow
  | rootExists
  | nicknames
  | runIds (nickname : Nickname) (ph : RunPhase)
  | run (k : RunKey) (o : RunOp)

namespace ServerOp

abbrev Res : ServerOp → Type
  | unixNow => Nat
  | rootExists => Bool
  | nicknames => Except IoError (List Nickname)
  | runIds _ _ => Except IoError (List RunId)
  | run _ o => o.Res

abbrev Choice : ServerOp → Type
  | unixNow => Unit
  | rootExists => Bool
  | nicknames => Option String × List Nickname
  | runIds _ _ => Option String × List RunId
  | run _ o => o.Choice

end ServerOp

structure World (Tid : Type) where
  clock : Nat
  runs : RunKey → RunWorld Tid

abbrev Action (α : Type) := Prog ServerOp ServerOp.Res α

def atRun (k : RunKey) : Embedding RunOp RunOp.Res RunOp.Choice
    ServerOp ServerOp.Res ServerOp.Choice where
  op := .run k
  res _ r := r
  choice _ x := x

def onRun {α : Type} (k : RunKey) (c : Call α) : Action α := (atRun k).embed c

section Scan

def act (o : ServerOp) : Action o.Res := Prog.perform o

def findRunsOf (ph : RunPhase) : List Nickname → ExceptT String Action (List RunKey)
  | [] => return []
  | n :: ns => do
    match ← ExceptT.lift (act (.runIds n ph)) with
    | .error _ => throw ("failed to read " ++ ph.asStr ++ " dir")
    | .ok ids =>
      let rest ← findRunsOf ph ns
      return ids.map (fun id => ⟨n, id⟩) ++ rest

def findRunsInPhase (ph : RunPhase) : ExceptT String Action (List RunKey) := do
  if !(← ExceptT.lift (act .rootExists)) then return []
  else
    match ← ExceptT.lift (act .nicknames) with
    | .error _ => throw "failed to read work directory"
    | .ok nicknames => findRunsOf ph nicknames

end Scan

section Collection

variable (config : ServerConfig) (now : Nat)

def collectRuns (n : Nickname) (ph : RunPhase) : List RunId → ExceptT String Action Unit
  | [] => return ()
  | id :: ids => do
    ExceptT.mk (onRun ⟨n, id⟩ (collectRun config ⟨n, id⟩ ph now).run)
    collectRuns n ph ids

def collectPhases (n : Nickname) : List RunPhase → ExceptT String Action Unit
  | [] => return ()
  | ph :: phs => do
    match ← ExceptT.lift (act (.runIds n ph)) with
    | .error _ => throw ("failed to read " ++ ph.asStr ++ " dir")
    | .ok ids =>
      collectRuns config now n ph ids
      collectPhases n phs

def collectNicknames : List Nickname → ExceptT String Action Unit
  | [] => return ()
  | n :: ns => do
    collectPhases config now n allPhases
    collectNicknames ns

def runGc : ExceptT String Action Unit := do
  if !(← ExceptT.lift (act .rootExists)) then return ()
  else
    let now ← ExceptT.lift (act .unixNow)
    match ← ExceptT.lift (act .nicknames) with
    | .error _ => throw "failed to read work directory"
    | .ok nicknames => collectNicknames config now nicknames

end Collection

section Commands

variable (host : Host) (config : ServerConfig)

def discard {α : Type} (p : Action α) : Action Unit := p >>= fun _ => pure ()

def processRunTarget (k : RunKey) : Action (Except String ProcessRunInnerResult) :=
  onRun k (processRunInner host config k).run

/-- Collect, recover what was found in `processing`, then process what was
found in `ready`. -/
def processOnceRaw : ExceptT String Action Unit := do
  let _ ← ExceptT.lift (runGc config).run
  let processingRuns ← findRunsInPhase .processing
  let readyRuns ← findRunsInPhase .ready
  ExceptT.lift (Prog.forEach processingRuns fun k => onRun k (recoverFoundRun host config k))
  ExceptT.lift (Prog.forEach readyRuns fun k => onRun k (processReadyRun host config k))

/-- What a server process may be started to do. -/
inductive Command : Action Unit → Prop
  | processRun (k : RunKey) : Command (discard (processRunTarget host config k))
  | processOnce : Command (discard (processOnceRaw host config).run)
  | runState (k : RunKey) : Command (discard (onRun k (Server.runState config k)))
  | gc : Command (discard (runGc config).run)
  | heartbeat (k : RunKey) : Command (discard (onRun k (heartbeatRun config k).run))
  | finish (k : RunKey) : Command (discard (onRun k (finishRun config k).run))

end Commands

/-- What the client puts into an incoming directory. -/
inductive Upload where
  | runConfig (d : Doc RunConfig)
  | manifest (d : Doc Manifest)
  | object (path : String) (n : Node)

def RunDir.upload (d : RunDir) (now : Nat) : Upload → RunDir
  | .runConfig doc =>
    let d' := (d.setFile .runConfig (.text doc)).stamp now
    { d' with shadow := { d'.shadow with runConfig := .text doc } }
  | .manifest doc =>
    let d' := (d.setFile .manifest (.text doc)).stamp now
    { d' with shadow := { d'.shadow with manifest := .text doc } }
  | .object path n =>
    { d.setTree .files (some (((d.tree .files).getD []).insert path n)) with
      shadow := { d.shadow with files := some ((d.shadow.files.getD []).insert path n) } }

inductive ServerEvent where
  | tick (now : Nat)
  | upload (k : RunKey) (u : Upload)

section

variable {Tid : Type} [DecidableEq Tid]

def World.setRun (w : World Tid) (k : RunKey) (r : RunWorld Tid) : World Tid :=
  { w with runs := Function.update w.runs k r }

def serverStep (host : Host) (t : Tid) (o : ServerOp) (x : o.Choice) (w : World Tid) :
    o.Res × World Tid :=
  match o, x with
  | .unixNow, _ => (w.clock, w)
  | .rootExists, found => (found, w)
  | .nicknames, (some message, _) => (.error (.other message), w)
  | .nicknames, (none, ns) => (.ok ns, w)
  | .runIds _ _, (some message, _) => (.error (.other message), w)
  | .runIds n ph, (none, ids) =>
    (.ok (ids.filter fun id => ((w.runs ⟨n, id⟩).dirs ph).isSome), w)
  | .run k o, x =>
    let r := o.step host t x w.clock (w.runs k)
    (r.1, w.setRun k r.2)

def serverEvent (e : ServerEvent) (w : World Tid) : World Tid :=
  match e with
  | .tick now => { w with clock := now }
  | .upload k u =>
    w.setRun k ((w.runs k).setDir .incoming
      (((w.runs k).dirs .incoming).map fun d => d.upload w.clock u))

/-- A run that was begun at most once and has not been processed. -/
structure RunWorld.Begun (w : RunWorld Tid) : Prop where
  early : ∀ ph, ph ≠ .incoming → ph ≠ .ready → w.dirs ph = none
  unique : w.dirs .incoming = none ∨ w.dirs .ready = none
  fresh : ∀ ph d, w.dirs ph = some d → d.lock = none ∧ d.touched = false ∧ d.id < w.nextDir ∧
    d.shadow = ⟨d.file .lease, d.mtime, d.file .runConfig, d.file .manifest, d.tree .files⟩
  locks : w.locks = []
  nextIno : w.nextIno = 0
  published : w.published = []
  pass : ∀ t, w.pass t = none
  faults : w.faults = []

def server (host : Host) (config : ServerConfig) :
    System Tid ServerOp ServerOp.Res ServerOp.Choice (World Tid) ServerEvent where
  step := serverStep host
  leave t w := { w with runs := fun k => (w.runs k).leave t }
  env := serverEvent
  program := Command host config
  init w := ∀ k, (w.runs k).Begun

end

end Purgery.Server
