import Purgery.Server.GcWalk

namespace Purgery.Server.Walk

/-! Which directories a collection is about, and what keeps it from them. -/

def OsName.nickname? (name : OsName) : Option Nickname :=
  name.toStr.bind fun s => (Nickname.new s).toOption

def OsName.runId? (name : OsName) : Option RunId :=
  name.toStr.bind fun s => (RunId.new s).toOption

section

variable (config : ServerConfig) (faults : GcFaults) (now : Nat)

/-- The retention of orphans. -/
def orphaned (modified : Nat) : Bool := pastRetention now config.gc.orphanRetentionSecs modified

variable (k : RunKey) (ph : RunPhase) (path : OsPath) (d : RunObject)

/-- Somebody holds the processor lock, and the file can be seen. -/
def lockHeld : Bool :=
  (d.find "processor.lock").any fun o =>
    readable faults (path ++ [.text "processor.lock"]) && o.kind != .directory &&
      (faults.lock (path ++ [.text "processor.lock"])).toOption == some true

def terminalExpired (retention : Nat) : Bool :=
  if classifyTerminalStatus k ph d.readStatus then
    (d.find "status.toml").any fun o => pastRetention now retention o.modified
  else orphaned config now d.modified

/-- The policy of the phase says that the run is to go. -/
def runExpired : Bool :=
  match ph with
  | .incoming =>
    match d.readLease.toOption.bind (trustedLease k) with
    | none => orphaned config now d.modified
    | some lease => decide (now ≥ lease.expiresAtUnixSecs)
  | .ready => pastRetention now config.gc.readyRetentionSecs d.modified
  | .processing =>
    pastRetention now config.gc.processingRetentionSecs d.modified && !lockHeld faults path d
  | .done => terminalExpired config now k .done d config.gc.doneRetentionSecs
  | .failed => terminalExpired config now k .failed d config.gc.failedRetentionSecs

/-- The directories that a collection has to decide on, and whether they are to go. -/
inductive Concerned (work : WorkTree) : OsPath → Bool → Prop where
  | invalid {name : OsName} {d : TopObject} : (name, some d) ∈ work.entries →
      name.nickname? = none → Concerned work [name] (orphaned config now d.modified)
  | unknown {name id : OsName} {d : TopObject} {n : Nickname} {ph : RunPhase}
      {content : Listing (Option RunObject)} {r : RunObject} : (name, some d) ∈ work.entries →
      name.nickname? = some n → d.phases ph = some (.dir content) →
      (id, some r) ∈ content.entries → id.runId? = none →
      Concerned work [name, phaseName ph, id] (orphaned config now r.modified)
  | run {name id : OsName} {d : TopObject} {n : Nickname} {ph : RunPhase}
      {content : Listing (Option RunObject)} {r : RunObject} {runId : RunId} :
      (name, some d) ∈ work.entries → name.nickname? = some n →
      d.phases ph = some (.dir content) → (id, some r) ∈ content.entries →
      id.runId? = some runId → Concerned work [name, phaseName ph, id]
        (runExpired config faults now ⟨n, runId⟩ ph [name, phaseName ph, id] r)

/-- The collection does not panic, decides on every directory, and deletes every one
that is to go and can be removed. -/
structure Total (work : WorkTree) (r : GcRound) : Prop where
  survives : r.stop ≠ some .panicked
  decides : ∀ path expired, Concerned config faults now work path expired →
    ∃ expired', .decided path expired' ∈ r.events
  deletes : ∀ path, Concerned config faults now work path true → faults.removal path = none →
    .removed path ∈ r.events

/-- The names on the path are text, and the directories on it can be looked at. -/
structure Seen (path : OsPath) : Prop where
  readable : ∀ q, q <+: path → readable faults q = true
  text : ∀ name ∈ path, name.toStr.isSome = true

def removable (p : OsPath) : Bool := (faults.removal p).isNone

/-- The lock file is there, and it cannot be told whether somebody holds the lock. -/
def lockUnclear : Bool :=
  (d.find "processor.lock").any fun o =>
    readable faults (path ++ [.text "processor.lock"]) &&
      (o.kind == .directory || !(faults.lock (path ++ [.text "processor.lock"])).isOk)

/-- The status is valid, but its age cannot be read. -/
def statusUnread : Bool :=
  classifyTerminalStatus k ph d.readStatus && !readable faults (path ++ [.text "status.toml"])

/-- The subtree is to be pruned, is there and cannot be removed. -/
def keepsTree (name : String) : Bool :=
  (d.find name).any fun o => readable faults (path ++ [.text name]) &&
    !((o.kind == .directory || o.kind == .symlink) && removable faults (path ++ [.text name]))

def keepsFile (name : String) : Bool :=
  (d.find name).any fun o => readable faults (path ++ [.text name]) &&
    !(o.kind != .directory && removable faults (path ++ [.text name]))

/-- The same for an entry with the suffix of temporary files, or with a name that is
no text. -/
def keepsTemporary (entry : OsName × FileObject) : Bool :=
  match entry.1.toStr with
  | none => true
  | some name => ".tmp".toList.isSuffixOf name.toList &&
      !(entry.2.kind != .directory && removable faults (path ++ [.text name]))

def pruneFails : Bool :=
  ["files", "work"].any (keepsTree faults path d) ||
    ["lease.toml", "progress.toml", "processor.lock"].any (keepsFile faults path d) ||
    d.content.entries.any (keepsTemporary faults path)

/-- The collection of the run ends before a decision. -/
def undecidable : Bool :=
  match ph with
  | .incoming | .ready => false
  | .processing => lockUnclear faults path d
  | .failed => statusUnread faults k .failed path d
  | .done => statusUnread faults k .done path d ||
      (!runExpired config faults now k .done path d && prunable k d.readStatus &&
        pruneFails faults path d)

end

/-- What the walk comes to: directories that it decides on, paths of phase directories
that are none, and entries of phase directories whose names are no text. -/
inductive Visit where
  | invalid (name : String) (d : TopObject)
  | unknown (n : Nickname) (ph : RunPhase) (id : String) (path : OsPath) (d : RunObject)
  | run (k : RunKey) (ph : RunPhase) (path : OsPath) (d : RunObject)
  | blocked (n : Nickname) (ph : RunPhase) (path : OsPath)
  | unnamed (path : OsPath)

namespace Visit

variable (config : ServerConfig) (faults : GcFaults) (now : Nat)

def path : Visit → OsPath
  | invalid name _ => [.text name]
  | unknown _ _ _ path _ | run _ _ path _ | blocked _ _ path | unnamed path => path

/-- Whether a directory is to go. -/
def expired? : Visit → Option Bool
  | invalid _ d => some (orphaned config now d.modified)
  | unknown _ _ _ _ d => some (orphaned config now d.modified)
  | run k ph path d => some (runExpired config faults now k ph path d)
  | blocked _ _ _ | unnamed _ => none

/-- The walk ends here, with a panic or without a decision. -/
def spoiled : Visit → Bool
  | invalid _ _ | unknown _ _ _ _ _ | blocked _ _ _ => false
  | run k ph path d => undecidable config faults now k ph path d
  | unnamed _ => true

def isBlocked : Visit → Bool
  | blocked _ _ _ => true
  | invalid _ _ | unknown _ _ _ _ _ | run _ _ _ _ | unnamed _ => false

/-- The walk ends here because the directory is to go and cannot be removed, or
because there is no directory to read. -/
def stuck (v : Visit) : Bool :=
  (v.expired? config faults now == some true && !removable faults v.path) || v.isBlocked

def round : Visit → GcRound
  | invalid name d => collectInvalidNicknameDir config faults now name d
  | unknown n ph id path d => collectUnknown config faults now n ph id path d
  | run k ph path d => collectRun config faults now k ph path d
  | blocked n ph _ => .halt (.failed ("failed to read " ++ ph.asStr ++ " dir: " ++
      Path.join (config.workDir.nicknameDir n) ph.asStr))
  | unnamed _ => .halt .panicked

end Visit

section Visits

variable (faults : GcFaults)

def entryVisits (n : Nickname) (ph : RunPhase) (top : OsName)
    (entry : OsName × Option RunObject) : List Visit :=
  match entry.1.toStr with
  | none => [.unnamed [top, phaseName ph, entry.1]]
  | some id =>
    match entry.2 with
    | none => []
    | some d =>
      if !readable faults [top, phaseName ph, entry.1] then []
      else
        match RunId.new id with
        | .error _ => [.unknown n ph id [top, phaseName ph, entry.1] d]
        | .ok runId => [.run ⟨n, runId⟩ ph [top, phaseName ph, entry.1] d]

def phaseVisits (n : Nickname) (top : OsName) (d : TopObject) (ph : RunPhase) : List Visit :=
  match d.phases ph with
  | none => []
  | some o =>
    if !readable faults [top, phaseName ph] then []
    else
      match o with
      | .file => [.blocked n ph [top, phaseName ph]]
      | .dir content => content.entries.flatMap (entryVisits faults n ph top)

def topVisits (entry : OsName × Option TopObject) : List Visit :=
  match entry.2 with
  | none => []
  | some d =>
    if !readable faults [entry.1] then []
    else
      match entry.1.toStr with
      | none => []
      | some name =>
        match Nickname.new name with
        | .error _ => [.invalid name d]
        | .ok n => allPhases.flatMap (phaseVisits faults n entry.1 d)

/-- What the walk comes to, in this order. -/
def visits (work : WorkTree) : List Visit :=
  if !readable faults [] then [] else work.entries.flatMap (topVisits faults)

end Visits

/-- Every directory that the collection has to decide on can be seen, and nothing ends
the walk before it has come to all of them, but the last one if it cannot be removed. -/
structure Manageable (config : ServerConfig) (faults : GcFaults) (now : Nat) (work : WorkTree) :
    Prop where
  seen : ∀ path expired, Concerned config faults now work path expired → Seen faults path
  order : ∀ before v after, visits faults work = before ++ v :: after →
    (∀ u ∈ before, u.spoiled config faults now = false ∧ u.stuck config faults now = false) →
    v.spoiled config faults now = false ∧ (v.stuck config faults now = true →
      ∀ u ∈ after, u.expired? config faults now = none)

end Purgery.Server.Walk
