import Purgery.Server.GcSafety
import Purgery.Server.Lease.Sound

namespace Purgery.Server

open Purgery.Interleaving

section Upload

variable {Tid : Type} [DecidableEq Tid] {host : Host} {config : ServerConfig}

/-- What a call owes to an upload: nothing is removed before the lease is over,
and what is accepted is all that was uploaded. -/
structure KeepsUpload (host : Host) (config : ServerConfig) (k : RunKey) (t : Tid) (o : RunOp)
    (x : o.Choice) (now : Nat) (w : RunWorld Tid) : Prop where
  removes : o.removes = true → ∀ d, w.dirs .incoming = some d →
    (o.step host t x now w).2.dirs .incoming ≠ some d →
    leaseOver config k now d.shadow.lease d.shadow.mtime = true
  accepts : o = .move .incoming .ready → (o.step host t x now w).2.dirs ≠ w.dirs →
    ∀ d, w.dirs .incoming = some d → (o.step host t x now w).2.dirs .ready = some d ∧
      d.tree .files = d.shadow.files ∧ d.file .runConfig = d.shadow.runConfig ∧
      d.file .manifest = d.shadow.manifest

theorem watched_of_calm {k : RunKey} {t : Tid} {o : RunOp} {failure : Option String}
    {w : RunWorld Tid} (hw : w.view.Inv config k) (h : Calm t o failure w) : Watched t o w where
  alone := h.alone
  swept d hd ht := by
    have hd' : w.view.dirs .incoming = some d.core := by simp [RunWorld.view, hd]
    obtain ⟨_, u, hu⟩ := hw.touched .incoming d.core hd' rfl ht
    obtain ⟨_, hph⟩ := hw.pass u _ hu
    exact ⟨u, by rw [(hph .incoming d.core hd').1]; exact hu⟩

theorem reachable_watched {c : Config Tid ServerOp ServerOp.Res (World Tid)}
    (h : Reachable (server host config) leasePolicy c) (k : RunKey) :
    Reachable (server host config) (watchedPolicy k) c := by
  have hstep : ∀ (c : Config Tid ServerOp ServerOp.Res (World Tid)) t o f x,
      Reachable (server host config) leasePolicy c → c.threads t = some (.call o f) →
      leasePolicy.step t o x c.world → (watchedPolicy k).step t o x c.world := by
    intro c t o f x hr _ hx
    refine ⟨hx, ?_⟩
    rintro o rfl
    have hcalm := hr.mono leasePolicy_le_calm
    exact watched_of_calm (hcalm.inv (lockContract_sound host config k)) hx.1
  exact h.transfer hstep (fun _ _ _ he => he) (fun _ _ _ hc => hc)

end Upload

section Sample

def sampleLease (expires : Nat) : LeaseFile where
  protocolVersion := protocolVersion
  purgeryVersion := currentPurgeryVersion
  nickname := sampleKey.nickname.asStr
  runId := sampleKey.runId.asStr
  createdAtUnixSecs := 0
  lastHeartbeatUnixSecs := 0
  expiresAtUnixSecs := expires

/-- The sample run, with a lease. -/
def leasedRun (expires : Nat) : RunDir :=
  { sampleRun.setFile .lease (.text (Doc.ofValue (sampleLease expires))) with
    shadow := { sampleRun.shadow with lease := .text (Doc.ofValue (sampleLease expires)) } }

/-- The removal starts with the uploaded file. -/
def filesFirst : (o : ServerOp) → o.Choice
  | .run _ (.openDir _) => (none, [.inTree .files "files/a"])
  | o => outcome (fun _ => false) o

/-- The calm runs that keep a trusted lease, in which nobody crashes. -/
def leaseLife : Policy Bool ServerOp ServerOp.Choice (World Bool) ServerEvent :=
  { leasePolicy with crash := fun _ _ => False }

instance : leaseLife.Checkable where
  step t o x w :=
    match o, x with
    | .run k o, x => inferInstanceAs (Decidable
        (Calm t o x.1 (w.runs k) ∧ (x.1 = none → o.ousts k (w.runs k) = false)))
    | .unixNow, _ | .rootExists, _ | .nicknames, _ | .runIds _ _, _ => .isTrue trivial
  env e w :=
    match e with
    | .tick now => (inferInstance : Decidable (w.clock ≤ now))
    | .upload k _ => (inferInstance : Decidable (∀ u, (w.runs k).pass u = none))
  crash _ _ := .isFalse nofun

/-- The next call accepts the run. -/
def acceptsNext (c : Config Bool ServerOp ServerOp.Res (World Bool)) : Bool :=
  match c.threads false with
  | some (.call (.run k (.move .incoming .ready)) _) => k == sampleKey
  | _ => false

theorem acceptsNext_spec {c : Config Bool ServerOp ServerOp.Res (World Bool)}
    (h : acceptsNext c = true) :
    ∃ f, c.threads false = some (.call (.run sampleKey (.move .incoming .ready)) f) := by
  unfold acceptsNext at h
  split at h
  · rename_i k f ht
    obtain rfl := beq_iff_eq.1 h
    exact ⟨f, ht⟩
  · exact nomatch h

theorem accepts_dirs {t : Bool} {now : Nat} {w : RunWorld Bool} {d : RunDir}
    (hd : w.dirs .incoming = some d) (hr : w.dirs .ready = none) :
    ((RunOp.move .incoming .ready).step sampleHost t (none, ()) now w).2.dirs ≠ w.dirs := by
  intro he
  have hready := congrFun he .ready
  simp [RunOp.step, RunOp.run, RunWorld.setDir, hd, hr] at hready

end Sample

end Purgery.Server
