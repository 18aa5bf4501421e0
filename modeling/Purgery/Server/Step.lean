import Purgery.Server.World

namespace Purgery.Server

def notEmpty : IoError := .other "Directory not empty (os error 39)"

def fileExistsError : IoError := .other "File exists (os error 17)"

def invalidArgument : IoError := .other "Invalid argument (os error 22)"

def isDirectory : IoError := .other "Is a directory (os error 21)"

def notDirectory : IoError := .other "Not a directory (os error 20)"

/-- A path below `files/`: an intermediate symlink leads out of it. -/
def stagedNode (host : Host) (d : RunDir) (path : String) : Except IoError Node :=
  let t := (d.tree .files).getD []
  let found := if leadsOutside t path then host.outside path else t.find path
  match found with
  | none => .error .notFound
  | some n => .ok n

/-- The path or a proper prefix of it is a symlink. -/
def throughSymlink (t : Tree) (path : String) : Bool :=
  leadsOutside t path || (t.find path).any fun n => n.kind == .symlink

/-- What a path below `files/` leads to, for the calls that follow a last symlink. -/
def followedNode (host : Host) (d : RunDir) (path : String) : Except IoError Node :=
  let t := (d.tree .files).getD []
  let found := if throughSymlink t path then host.followed path else t.find path
  match found with
  | none => .error .notFound
  | some n => .ok n

def followedLen (host : Host) (d : RunDir) (path : String) : Except IoError Nat :=
  match followedNode host d path with
  | .ok (.file bytes) => .ok bytes.length
  | .ok _ => .ok 0
  | .error e => .error e

def followedBytes (host : Host) (d : RunDir) (path : String) : Except IoError (List UInt8) :=
  match followedNode host d path with
  | .ok (.file bytes) => .ok bytes
  | .ok _ => .error invalidArgument
  | .error e => .error e

def stagedLink (host : Host) (d : RunDir) (path : String) : Except IoError String :=
  match stagedNode host d path with
  | .ok (.symlink target) => .ok target
  | .ok _ => .error invalidArgument
  | .error e => .error e

def followedEmpty (host : Host) (d : RunDir) (path : String) : Except IoError Bool :=
  let t := (d.tree .files).getD []
  match followedNode host d path with
  | .ok .dir => .ok (if throughSymlink t path then host.within path else t.below path).isEmpty
  | .ok _ => .error notDirectory
  | .error e => .error e

def followedWalk (host : Host) (d : RunDir) (path : String) : Except IoError (List String) :=
  let t := (d.tree .files).getD []
  match followedNode host d path with
  | .ok .dir => .ok (if throughSymlink t path then walkOrder (host.within path) else t.walk path)
  | .ok _ => .ok []
  | .error e => .error e

def ancestors (path : String) : List String :=
  let cs := (Path.components path).dropLast
  (List.range cs.length).map fun n => Path.joinSlash (cs.take (n + 1))

/-- The directory in which an object of the work area is created has to be there. A
symlink in its place is not followed here. -/
def Tree.parentOf (t : Tree) (path : String) : Except IoError Unit :=
  match (ancestors path).getLast? with
  | none => .ok ()
  | some parent =>
    match (t.find parent).map Node.kind with
    | none => .error .notFound
    | some .directory => .ok ()
    | some .symlink => .ok ()
    | some _ => .error notDirectory

/-- `path` becomes a new object of the work area. -/
def Tree.create (t : Tree) (path : String) (n : Node) : Except IoError Tree := do
  t.parentOf path
  if (t.find path).isSome then throw fileExistsError
  else return t.insert path n

/-- `path` becomes a file of the work area, a new one or with a new content. -/
def Tree.write (t : Tree) (path : String) (bytes : List UInt8) : Except IoError Tree := do
  t.parentOf path
  match t.find path with
  | some .dir => throw isDirectory
  | _ => return t.insert path (.file bytes)

def RunDir.empty (id now : Nat) : RunDir where
  id := id
  lock := none
  file _ := .missing
  tmp _ := .missing
  tree _ := none
  mtime := now
  tmpMtime := now
  statusMtime := now
  touched := false
  shadow := ⟨.missing, now, .missing, .missing, none⟩

namespace RunWorld

variable {Tid : Type}

/-- `create_dir_all` of a path in the work area, which creates the run
directory too when it is not there. -/
def createWorkDirs (w : RunWorld Tid) (now : Nat) (paths : List String) : RunWorld Tid :=
  let add (d : RunDir) : RunDir :=
    d.setTree .work (some (paths.foldl (fun t p =>
      if (t.find p).isSome then t else t.insert p .dir) ((d.tree .work).getD [])))
  match w.dirs .processing with
  | some d => w.setDir .processing (some (add d))
  | none =>
    { w with nextDir := w.nextDir + 1 }.setDir .processing (some (add (.empty w.nextDir now)))

/-- Change the work area, which has to be there. -/
def inWork (w : RunWorld Tid) (f : Tree → Except IoError Tree) :
    Except IoError Unit × RunWorld Tid :=
  match w.dirs .processing with
  | none => (.error .notFound, w)
  | some d =>
    match d.tree .work with
    | none => (.error .notFound, w)
    | some t =>
      match f t with
      | .error e => (.error e, w)
      | .ok t' => (.ok (), w.setDir .processing (some (d.setTree .work (some t'))))

/-- Answer from the run directory at a phase. -/
def look {α : Type} (w : RunWorld Tid) (ph : RunPhase) (f : RunDir → Except IoError α) :
    Except IoError α :=
  match w.dirs ph with
  | none => .error .notFound
  | some d => f d

/-- Change the run directory at a phase. -/
def change (w : RunWorld Tid) (ph : RunPhase) (f : RunDir → Except IoError RunDir) :
    Except IoError Unit × RunWorld Tid :=
  match w.dirs ph with
  | none => (.error .notFound, w)
  | some d =>
    match f d with
    | .error e => (.error e, w)
    | .ok d' => (.ok (), w.setDir ph (some d'))

end RunWorld

namespace RunDir

def removeEntry (d : RunDir) (e : RunEntry) (now : Nat) : Except IoError RunDir :=
  if d.has e then .ok ((d.without e).stamp now) else .error .notFound

/-- The temporary file is created or cut to nothing, and then holds some
beginning of what is written to it. -/
def openTmp (d : RunDir) (f : FileName) (torn : Except String (Doc f.Content)) (now : Nat) :
    RunDir :=
  let d' := if (d.tmp f).isMissing then d.stamp now else d
  { d'.setTmp f (FileState.ofTorn torn) with tmpMtime := now }

/-- `rename` of the temporary file over the file. -/
def publish (d : RunDir) (f : FileName) (now : Nat) : RunDir :=
  let d' := ((d.setFile f (d.tmp f)).setTmp f .missing).stamp now
  match f with
  | .lease => { d' with shadow := { d'.shadow with lease := d.tmp .lease } }
  | .status => { d' with statusMtime := d.tmpMtime }
  | _ => d'

/-- What the garbage collection does to an entry; the history keeps what the
others left. -/
def sweep (d : RunDir) (e : RunEntry) (now : Nat) : RunDir :=
  { d.without e with
    mtime := match e with
      | .inTree _ _ => d.mtime
      | _ => now
    touched := true }

/-- A directory that is not empty cannot be unlinked. -/
def holdsMore (d : RunDir) : RunEntry → Bool
  | .tree t => !(d.tree t).all List.isEmpty
  | _ => false

end RunDir

namespace RunOp

variable {Tid : Type} [DecidableEq Tid]

def tryFlock (t : Tid) (ph : RunPhase) (ino : Nat) (w : RunWorld Tid) : Bool × RunWorld Tid :=
  if w.locks.any fun g => g.ino == ino then (false, w)
  else
    let fresh := (w.dirs ph).any fun d => d.lock == some ino
    (true, { w with locks := ⟨ino, t, ph, fresh⟩ :: w.locks })

/-- The garbage collection of `t` goes on to delete the run. -/
def doom (t : Tid) (ph : RunPhase) (dooms : Bool) (w : RunWorld Tid) : RunWorld Tid :=
  if dooms && (w.dirs ph).isSome then w.setPass t (some ph) else w

/-- The call as it goes when it does not fail for reasons of its own. -/
def run (host : Host) (t : Tid) (o : RunOp) (x : o.Extra) (now : Nat) (w : RunWorld Tid) :
    o.Res × RunWorld Tid :=
  match o, x with
  | unixNow, _ => (now, w)
  | dirExists ph, _ => ((w.dirs ph).isSome, w)
  | probeDir ph _, _ => ((w.dirs ph).isSome, w)
  | fileExists ph f, _ => ((w.dirs ph).any fun d => d.has (.file f), w)
  | lockExists ph sweep, _ =>
    let found := (w.dirs ph).any fun d => d.has .lock
    (found, doom t ph (sweep && !found) w)
  | treeExists ph s, _ => ((w.dirs ph).any fun d => d.has (.tree s), w)
  | read ph f, _ => (w.look ph fun d => (d.file f).read, w)
  | readLease dooms, _ =>
    let r := w.look .incoming fun d => (d.file .lease).read
    (r, doom t .incoming (dooms r) w)
  | modified ph dooms, _ =>
    match w.dirs ph with
    | none => (.error .notFound, w)
    | some d => (.ok d.mtime, doom t ph (dooms d.mtime) w)
  | statusModified ph, _ =>
    (w.look ph fun d => if d.has (.file .status) then .ok d.statusMtime else .error .notFound, w)
  | openTmp ph f, torn =>
    match w.dirs ph with
    | none => (.error .notFound, w)
    | some d => (.ok d.id, w.setDir ph (some (d.openTmp f torn now)))
  | writeTmp dir f doc, _ =>
    match w.phaseOf dir with
    | none => (.ok (), w)
    | some ph =>
      (.ok (), w.setDir ph ((w.dirs ph).map fun d =>
        if d.has (.tmp f) then { d.setTmp f (.text doc) with tmpMtime := now } else d))
  | publish ph f, _ =>
    match w.dirs ph with
    | none => (.error .notFound, w)
    | some d =>
      if d.has (.tmp f) then
        (.ok (), (w.setDir ph (some (d.publish f now))).notePublished ph (statusText f (d.tmp f)))
      else (.error .notFound, w)
  | removeFile ph f, _ => w.change ph fun d => d.removeEntry (.file f) now
  | removeTmp ph f, _ => w.change ph fun d => d.removeEntry (.tmp f) now
  | removeLock ph, _ => w.change ph fun d => d.removeEntry .lock now
  | listTmp ph, _ => (w.look ph fun d => .ok (allFiles.filter fun f => d.has (.tmp f)), w)
  | createParent _, _ => (.ok (), w)
  | move src dst, _ =>
    match w.dirs src, w.dirs dst with
    | none, _ => (.error .notFound, w)
    | some _, some _ => (.error notEmpty, w)
    | some d, none => (.ok (), (w.setDir src none).setDir dst (some d))
  | openLock ph, _ =>
    match w.dirs ph with
    | none => (.error .notFound, w)
    | some d =>
      match d.lock with
      | some i => (.ok i, w)
      | none =>
        (.ok w.nextIno, { w with nextIno := w.nextIno + 1 }.setDir ph
          (some ((d.setLock (some w.nextIno)).stamp now)))
  | openLockReadonly ph sweep, _ =>
    match w.dirs ph with
    | none => (.error .notFound, w)
    | some d =>
      match d.lock with
      | some i => (.ok i, w)
      | none => (.error .notFound, doom t ph sweep w)
  | flock ph ino, _ => let (b, w') := tryFlock t ph ino w; (.ok b, w')
  | probeFlock ph ino sweep, _ =>
    let (b, w') := tryFlock t ph ino w; (.ok b, doom t ph (sweep && b) w')
  | close ino, _ => ((), { w with locks := w.locks.filter fun g => !(g.ino == ino && g.tid == t) })
  | breakTree ph s, keep => w.change ph fun d =>
    match d.tree s with
    | none => .error .notFound
    | some xs => .ok (d.setTree s (some (xs.filter fun e => keep e.1)))
  | removeTree ph s, _ => w.change ph fun d => d.removeEntry (.tree s) now
  | createWork, _ => (.ok (), w.createWorkDirs now [])
  | createWorkParent path, _ => (.ok (), w.createWorkDirs now (ancestors path))
  | createWorkDir path, _ => w.inWork fun xs => xs.create path .dir
  | openWorkFile path, torn => w.inWork fun xs => xs.write path torn
  | copyToWork source path, _ =>
    match w.look .processing (followedBytes host · source) with
    | .error e => (.error e, w)
    | .ok bytes => w.inWork fun xs => xs.write path bytes
  | linkInWork path target, _ => w.inWork fun xs => xs.create path (.symlink target)
  | stagedKind path, _ => (w.look .processing fun d => (stagedNode host d path).map Node.kind, w)
  | stagedLen path, _ => (w.look .processing (followedLen host · path), w)
  | stagedBytes path, _ => (w.look .processing (followedBytes host · path), w)
  | stagedTarget path, _ => (w.look .processing (stagedLink host · path), w)
  | stagedEmpty path, _ => (w.look .processing (followedEmpty host · path), w)
  | walkStaged path, _ => (w.look .processing (followedWalk host · path), w)
  | walkNext, _ => (.ok (), w)
  | destinationKind path, _ =>
    (match w.destination path with
      | none => .error .notFound
      | some n => .ok n.1, w)
  | destinationTarget path, _ =>
    (match (w.destination path).bind (·.2) with
      | none => .error .notFound
      | some k => .ok k, w)
  | spawn _, (polls, destination, work) =>
    match w.dirs .processing with
    | none => (.error .notFound, w)
    | some d => (.ok polls,
        { w.setDir .processing (some (d.setTree .work (some work))) with
          destination := destination })
  | tryWait, _ => (.ok (), w)
  | reap, (exit, destination, work) =>
    (exit, { w.setDir .processing ((w.dirs .processing).map fun d => d.setTree .work (some work))
        with destination := destination })
  | openDir ph, order =>
    match w.dirs ph with
    | none => (.error .notFound, w.setPass t none)
    | some d => (.ok (d.id, d.listing order), w)
  | unlink dir e, _ =>
    match w.phaseOf dir with
    | none => (.ok (), w)
    | some ph =>
      match w.dirs ph with
      | none => (.ok (), w)
      | some d =>
        if !d.has e then (.ok (), w)
        else if d.holdsMore e then (.error notEmpty, w)
        else (.ok (), w.setDir ph (some (d.sweep e now)))
  | rmdir ph, _ =>
    match w.dirs ph with
    | none => (.error .notFound, w.setPass t none)
    | some d =>
      if d.entries.isEmpty then (.ok (), (w.setDir ph none).setPass t none)
      else (.error notEmpty, w.setPass t none)

/-- One system call: it fails if the environment says so. -/
def step (host : Host) (t : Tid) (o : RunOp) (x : o.Choice) (now : Nat) (w : RunWorld Tid) :
    o.Res × RunWorld Tid :=
  match x.1, o.fallible with
  | some message, true => (o.failed (.other message), w.noteFault t o)
  | _, _ => o.run host t x.2 now w

end RunOp

end Purgery.Server
