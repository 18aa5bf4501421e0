import Purgery.Server.System

namespace Purgery.Server

/-- The part of a run directory that the lock protects. -/
structure CoreDir where
  id : Nat
  lock : Option Nat
  lease : FileState .lease
  runConfig : FileState .runConfig
  manifest : FileState .manifest
  status : FileState .status
  statusTmp : FileState .status
  touched : Bool

def RunDir.core (d : RunDir) : CoreDir where
  id := d.id
  lock := d.lock
  lease := d.file .lease
  runConfig := d.file .runConfig
  manifest := d.file .manifest
  status := d.file .status
  statusTmp := d.tmp .status
  touched := d.touched

def CoreDir.inputs (d : CoreDir) (config : ServerConfig) (k : RunKey) (ph : RunPhase) :
    Except ProcessingError (RunConfig × Manifest) := do
  checkLease config k ph d.lease.read
  let runConfig ← checkRunConfig config k ph d.runConfig.read
  let manifest ← checkManifest config k ph d.manifest.read
  checkEnvelope k runConfig manifest
  return (runConfig, manifest)

theorem RunDir.inputs_core (d : RunDir) (config : ServerConfig) (k : RunKey) (ph : RunPhase) :
    d.core.inputs config k ph = d.inputs config k ph := rfl

/-- A run as the processors see it. -/
structure View (Tid : Type) where
  dirs : RunPhase → Option CoreDir
  locks : List (Grip Tid)
  nextIno : Nat
  published : List (RunPhase × Doc RunStatus)
  pass : Tid → Option RunPhase
  faults : List (Fault Tid)

def RunWorld.view {Tid : Type} (w : RunWorld Tid) : View Tid where
  dirs ph := (w.dirs ph).map RunDir.core
  locks := w.locks
  nextIno := w.nextIno
  published := w.published
  pass := w.pass
  faults := w.faults

/-- A failing call after which a claimed run may be moved to `failed` without a
valid failure status. -/
def Fault.spoilsClaim {Tid : Type} (f : Fault Tid) : Bool :=
  f.location == some .processing && f.grip.any (fun g => g.via == .ready) &&
    match f.op with
    | .createWork => true
    | .openTmp .processing .status => true
    | .writeTmp _ .status _ => true
    | .publish .processing .status => true
    | .createParent .done => true
    | .move .processing .done => true
    | _ => false

/-- A failing call of a recovery that finds, or has just published, a status. -/
def Fault.spoilsRecovery {Tid : Type} (f : Fault Tid) : Bool :=
  f.published && f.grip.any (fun g => g.via == .processing) &&
    match f.op with
    | .read .processing .lease => true
    | .read .processing .status => true
    | .createParent .done => true
    | .createParent .failed => true
    | .move .processing .done => true
    | .move .processing .failed => true
    | _ => false

namespace View

variable {Tid : Type}

/-- No directory of the run is at this phase or an earlier one. -/
def Past (ph : RunPhase) (v : View Tid) : Prop := ∀ ph', ph'.rank ≤ ph.rank → v.dirs ph' = none

def ClaimSpoilt (v : View Tid) : Prop := ∃ f ∈ v.faults, f.spoilsClaim = true

def RecoverySpoilt (v : View Tid) : Prop := ∃ f ∈ v.faults, f.spoilsRecovery = true

/-- A status was published in the processing directory. -/
def PublishedInProcessing (v : View Tid) (d : Doc RunStatus) : Prop :=
  (RunPhase.processing, d) ∈ v.published

/-- What holds of a run at every instant. -/
structure Inv (config : ServerConfig) (k : RunKey) (v : View Tid) : Prop where
  unique : ∀ ph ph' d d', v.dirs ph = some d → v.dirs ph' = some d' → ph = ph'
  oneIno : v.nextIno ≤ 1
  lockIno : ∀ ph d i, v.dirs ph = some d → d.lock = some i → i = 0 ∧ v.nextIno = 1
  incoming : ∀ d, v.dirs .incoming = some d → v.nextIno = 0 ∧ v.published = []
  gripIno : ∀ g ∈ v.locks, g.ino = 0 ∧ v.nextIno = 1
  oneGrip : v.locks.length ≤ 1
  readyLock : ∀ d, v.dirs .ready = some d → v.nextIno = 1 → d.touched = true ∨ d.lock = some 0
  processingLock : ∀ d, v.dirs .processing = some d →
    v.nextIno = 1 ∧ (d.touched = true ∨ d.lock = some 0)
  inputs : ∀ d, v.dirs .processing = some d →
    d.touched = true ∨ ∃ x, d.inputs config k .processing = .ok x
  terminal : ∀ ph d, ph.terminal = true → v.dirs ph = some d →
    classifyTerminalStatus k ph d.status.read = true ∨ d.touched = true ∨ v.ClaimSpoilt
  publishedValid : ∀ doc, v.PublishedInProcessing doc →
    ∃ st : RunStatus, doc = Doc.ofValue st ∧ st.purgeryVersion = currentPurgeryVersion ∧
      st.nickname = k.nickname ∧ st.runId = k.runId
  final : ∀ doc ph d, v.PublishedInProcessing doc → v.dirs ph = some d →
    (2 ≤ ph.rank ∧ d.status = .text doc) ∨ d.touched = true ∨ v.RecoverySpoilt
  unstarted : v.faults = [] → v.published ≠ [] →
    (∀ d, v.dirs .ready = some d →
      d.touched = true ∨ ∃ e, d.inputs config k .ready = .error (.other e)) ∧
    ∀ d, v.dirs .processing = some d → d.touched = true ∨ d.status ≠ .missing
  pass : ∀ t ph, v.pass t = some ph → ph.terminal = false ∧
    ∀ ph' d, v.dirs ph' = some d → ph' = ph ∧ ∀ g ∈ v.locks, g.tid = t
  touched : ∀ ph d, v.dirs ph = some d → ph.terminal = false → d.touched = true →
    v.locks = [] ∧ ∃ t, v.pass t = some ph

/-- Process `t` holds the lock through the grip `g`. -/
structure Session (t : Tid) (g : Grip Tid) (v : View Tid) : Prop where
  locks : v.locks = [g]
  tid : g.tid = t
  idle : v.pass t = none

end View

namespace RunWorld

variable {Tid : Type}

/-- What process `t` may rely on while it waits. -/
structure Rely (t : Tid) (w w' : RunWorld Tid) : Prop where
  locks : ∀ g, w.locks = [g] → g.tid = t → w'.locks = [g] ∧ w'.published = w.published ∧
    ∀ ph, ph.queued = true → w'.view.dirs ph = w.view.dirs ph
  pass : w'.pass t = w.pass t
  shrink : ∀ ph d', w.pass t = some ph → w'.dirs ph = some d' →
    ∃ d, w.dirs ph = some d ∧ d'.id = d.id ∧ ∀ e, d'.has e = true → d.has e = true
  past : ∀ ph, w.view.Past ph → w'.view.Past ph
  nextIno : w.nextIno ≤ w'.nextIno
  faults : ∃ fs, w'.faults = fs ++ w.faults
  noGrip : (∀ g ∈ w.locks, g.tid ≠ t) → ∀ g ∈ w'.locks, g.tid ≠ t

theorem Rely.refl (t : Tid) (w : RunWorld Tid) : w.Rely t w where
  locks _ h _ := ⟨h, rfl, fun _ _ => rfl⟩
  pass := rfl
  shrink _ d' _ h := ⟨d', h, rfl, fun _ he => he⟩
  past _ h := h
  nextIno := le_refl _
  faults := ⟨[], rfl⟩
  noGrip h := h

theorem Rely.trans {t : Tid} {w₁ w₂ w₃ : RunWorld Tid} (h : w₁.Rely t w₂) (h' : w₂.Rely t w₃) :
    w₁.Rely t w₃ where
  locks g hl ht := by
    obtain ⟨hl₂, hp₂, hd₂⟩ := h.locks g hl ht
    obtain ⟨hl₃, hp₃, hd₃⟩ := h'.locks g hl₂ ht
    exact ⟨hl₃, hp₃.trans hp₂, fun ph hph => (hd₃ ph hph).trans (hd₂ ph hph)⟩
  pass := h'.pass.trans h.pass
  shrink ph d₃ hp hd := by
    obtain ⟨d₂, hd₂, hid₂, he₂⟩ := h'.shrink ph d₃ (h.pass.trans hp) hd
    obtain ⟨d₁, hd₁, hid₁, he₁⟩ := h.shrink ph d₂ hp hd₂
    exact ⟨d₁, hd₁, hid₂.trans hid₁, fun e he => he₁ e (he₂ e he)⟩
  past ph hp := h'.past ph (h.past ph hp)
  nextIno := h.nextIno.trans h'.nextIno
  faults := by
    obtain ⟨fs, hf⟩ := h.faults
    obtain ⟨fs', hf'⟩ := h'.faults
    exact ⟨fs' ++ fs, by rw [hf', hf, List.append_assoc]⟩
  noGrip hn := h'.noGrip (h.noGrip hn)

/-- What a run holds at a phase, apart from the lock file and the copy of the
lease that a heartbeat writes. -/
def contents (w : RunWorld Tid) (ph : RunPhase) :
    Option (((f : FileName) → FileState f) × ((f : FileName) → FileState f) ×
      (Subtree → Option Tree)) :=
  (w.dirs ph).map fun d => (d.file, Function.update d.tmp .lease .missing, d.tree)

/-- A step that changes the accepted run or the destination. -/
def Mutates (w w' : RunWorld Tid) : Prop :=
  (∃ ph, ph.queued = true ∧ w'.contents ph ≠ w.contents ph) ∨ w'.destination ≠ w.destination

/-- Process `t` holds the lock of the run, and the run was still at the path
through which it opened the lock. -/
def HeldBy (t : Tid) (w : RunWorld Tid) : Prop :=
  ∃ g, w.locks = [g] ∧ g.tid = t ∧ g.fresh = true ∧
    ∃ ph d, ph.queued = true ∧ w.dirs ph = some d ∧ d.lock = some g.ino ∧ d.touched = false

end RunWorld

/-- The calls by which the garbage collection removes. -/
def RunOp.removes : RunOp → Bool
  | .unlink _ _ => true
  | .rmdir _ => true
  | _ => false

/-- The calls that start the transform and wait for it. -/
def RunOp.transforms : RunOp → Bool
  | .spawn _ => true
  | .tryWait => true
  | .reap => true
  | _ => false

/-- What a step of process `t` has to guarantee: the others may rely on what
they rely on, and only the holder of the lock works on an accepted run. -/
structure Guar {Tid : Type} (t : Tid) (o : RunOp) (ok : Bool) (w w' : RunWorld Tid) : Prop where
  others : ∀ u, u ≠ t → w.Rely u w'
  mutates : w.Mutates w' → o = .move .incoming .ready ∨ o.removes = true ∨ w.HeldBy t
  spawns : o.transforms = true → ok = true →
    w.HeldBy t ∧ ∀ c, o = .spawn c → w.faults = [] → w.published = []
  publishes : ∀ ph, o = .publish ph .status → ok = true → (w.dirs ph).isSome = true → w.HeldBy t
  stale : ∀ g ∈ w.locks, g.tid = t → g.fresh = false →
    w'.dirs = w.dirs ∧ w'.destination = w.destination
  removal : o.removes = true → w'.dirs ≠ w.dirs →
    ∃ ph, (w.dirs ph).isSome = true ∧ (ph.terminal = true ∨ w.pass t = some ph)

end Purgery.Server
