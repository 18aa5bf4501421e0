import Purgery.Client.Sync
import Purgery.Client.Warrant
import Purgery.Core.Lookup

namespace Purgery.Client

open Purgery.Path
open Purgery.Interleaving
open Purgery.Server (IoError)

/-! All histories of the clients of one state directory, one process at a time. -/

section System

variable (sha : List UInt8 → String) (stateDir : String)

/-- Between any two calls the process may crash and the local files may change. -/
def clientSystem : System Unit SyncOp SyncOp.Res SyncOp.Choice ClientWorld LocalTree where
  step _ o x w := o.step sha x w
  leave _ w := w
  env t w := w.withTree t
  program p := ∃ dbg fuel id args, resolveStateDir args.stateDir id = stateDir ∧
    p = clientMain dbg stateDir fuel id args
  init w := (∀ path, (w.files.ledger path).accepted = none) ∧
    (∀ name, (w.runState name).accepted = none) ∧ w.history = [] ∧ ∀ name, w.log name = []

/-- A file that exists is seen, and an id is given out once. -/
def SyncOp.Truthful : (o : SyncOp) → o.Choice → ClientWorld → Prop
  | ledgerExists _, fault, _ | runExists _, fault, _ => fault = false
  | generate, u, w => u.text ∉ w.issued
  | _, _, _ => True

def syncPolicy (orderly : Prop) : Policy Unit SyncOp SyncOp.Choice ClientWorld LocalTree :=
  ⟨fun _ o x w => orderly → o.Truthful x w, fun _ _ => True, fun _ _ => True⟩

end System

section Progress

/-- The way of a run. -/
def milestones : List Milestone :=
  [.reached .uploadCompleteFinishPending, .reached .waitingForTerminalState,
    .reached .terminalStatusSeen, .reached .cleanupComplete, .removed]

/-- The phase that a run is in after so much of its way. -/
def phaseAfter (log : List Milestone) : Option ClientRunPhase :=
  match log.getLast? with
  | some (.reached phase) => some phase
  | some .removed | none => none

/-- A ledger in its place, with reasons. -/
structure Backed (stateDir : String) (h : List SyncEvent) (path : String)
    (first s : DurableCleanupState) : Prop where
  path_eq : path = ledgerPath stateDir s.nickname s.operationId
  proper : ProperId s.operationId
  warranted : Warranted h first s

def Stocked (w : ClientWorld) (path : String) : Prop :=
  (w.files.ledger path).accepted.isSome = true

/-- What the program can rely on in a state that it has persisted. -/
structure Sane (h : List SyncEvent) (name : String) (r : RemoteRun) (ts : Option RunStatus)
    (phase : ClientRunPhase) : Prop where
  name_eq : name = RunKey.runName r.key
  proper : ProperId r.key.runId.asStr
  manifest : r.manifest.purgeryVersion = currentPurgeryVersion
  runConfig : r.runConfig.purgeryVersion = currentPurgeryVersion
  known : phase ∈ [ClientRunPhase.uploadCompleteFinishPending, .waitingForTerminalState,
    .terminalStatusSeen, .cleanupComplete]
  seen : phase = .terminalStatusSeen → ∃ status, ts = some status ∧ .reported status ∈ h ∧
    status.key = r.key ∧ Compatible status.purgeryVersion

def SyncError.wedged : SyncError → Bool
  | .missingLedger _ => true
  | .blocked (some first) => first.wedged
  | .message _ | .blocked none => false

/-- Every ledger has its reasons and every run state makes sense. In an orderly history
the runs also keep to their way, a run that is not cleaned up has its ledger, a name is
that of an id given out, and no sync fails for want of a ledger. -/
structure Inv (orderly : Prop) (stateDir : String) (w : ClientWorld) : Prop where
  ledgers : ∀ path s, (w.files.ledger path).accepted = some s →
    ∃ first, Backed stateDir w.history path first s
  runs : ∀ name st, (w.runState name).accepted = some st →
    ∃ r ts phase, st = r.state ts phase ∧ Sane w.history name r ts phase
  logs : orderly → ∀ name, w.log name <+: milestones ∧
    (w.runState name).accepted.map (·.phase) = phaseAfter (w.log name)
  stocked : orderly → ∀ name st, (w.runState name).accepted = some st →
    st.phase ≠ .cleanupComplete → Stocked w (ledgerPath stateDir st.nickname st.runId)
  used : orderly → ∀ name, w.log name ≠ [] →
    ∃ nickname id, name = runName nickname id ∧ ProperId id ∧ id ∈ w.issued
  ended : orderly → ∀ e, .ended (.error e) ∈ w.history → e.wedged = false

/-- A step leaves each object alone, or deletes one that it may delete. -/
def Allowed (sha : List UInt8 → String) (h : List SyncEvent) (t t' : LocalTree) : Prop :=
  ∀ l, t'.lookup l = t.lookup l ∨ t'.lookup l = none ∧ ∀ n, t.lookup l = some n →
    ∃ e, locate e.localPath = l ∧ e.Describes sha n ∧ Deletable h e

theorem Allowed.refl {sha : List UInt8 → String} {h : List SyncEvent} (t : LocalTree) :
    Allowed sha h t t := fun _ => .inl rfl

end Progress

section Frames

variable {orderly : Prop} {stateDir : String} {w w' w'' : ClientWorld}

/-- Nothing happens to the state directory. -/
def Still (w w' : ClientWorld) : Prop :=
  ∃ t es, (∀ r, .ended r ∉ es) ∧ w' = { w.withTree t with history := w.history ++ es }

/-- No ledger is lost and nothing happens to the runs. -/
structure Onward (w w' : ClientWorld) : Prop where
  history : w.history <+: w'.history
  stocked : ∀ path, Stocked w path → Stocked w' path
  runs : ∀ name, (w'.runState name).accepted = (w.runState name).accepted
  log : w'.log = w.log
  issued : w'.issued = w.issued

/-- Runs that have not begun do not begin. -/
structure Resumed (orderly : Prop) (w w' : ClientWorld) : Prop where
  history : w.history <+: w'.history
  issued : w'.issued = w.issued
  unbegun : orderly → ∀ name, w.log name = [] → w'.log name = []

theorem Still.refl (w : ClientWorld) : Still w w :=
  ⟨w.tree, [], fun _ => List.not_mem_nil, by rw [List.append_nil]; rfl⟩

theorem still_withTree (w : ClientWorld) (t : LocalTree) : Still w (w.withTree t) :=
  ⟨t, [], fun _ => List.not_mem_nil, by rw [List.append_nil]; rfl⟩

theorem Still.onward (h : Still w w') : Onward w w' := by
  obtain ⟨t, es, -, rfl⟩ := h
  exact ⟨List.prefix_append _ _, fun _ => id, fun _ => rfl, rfl, rfl⟩

theorem Onward.resumed (h : Onward w w') : Resumed orderly w w' :=
  ⟨h.history, h.issued, fun _ name hname => by rw [h.log, hname]⟩

theorem Onward.trans (h : Onward w w') (h' : Onward w' w'') : Onward w w'' :=
  ⟨h.history.trans h'.history, fun path hp => h'.stocked path (h.stocked path hp),
    fun name => (h'.runs name).trans (h.runs name), h'.log.trans h.log, h'.issued.trans h.issued⟩

theorem Sane.mono {h h' : List SyncEvent} {name : String} {r : RemoteRun}
    {ts : Option RunStatus} {phase : ClientRunPhase} (hpre : h <+: h')
    (hs : Sane h name r ts phase) : Sane h' name r ts phase := by
  refine ⟨hs.name_eq, hs.proper, hs.manifest, hs.runConfig, hs.known, fun hseen => ?_⟩
  obtain ⟨status, hts, hmem, hrest⟩ := hs.seen hseen
  exact ⟨status, hts, hpre.subset hmem, hrest⟩

theorem Backed.mono {h h' : List SyncEvent} {path : String} {first s : DurableCleanupState}
    (hpre : h <+: h') (hb : Backed stateDir h path first s) :
    Backed stateDir h' path first s :=
  ⟨hb.path_eq, hb.proper, hb.warranted.mono hpre⟩

/-- What becomes of the invariant when nothing happens to the runs. -/
theorem Inv.onward (hi : Inv orderly stateDir w) (h : Onward w w')
    (hledgers : ∀ path s, (w'.files.ledger path).accepted = some s →
      ∃ first, Backed stateDir w'.history path first s)
    (hended : ∀ r, .ended r ∈ w'.history → .ended r ∈ w.history) : Inv orderly stateDir w' where
  ledgers := hledgers
  runs name st hst := by
    rw [h.runs] at hst
    obtain ⟨r, ts, phase, heq, hsane⟩ := hi.runs name st hst
    exact ⟨r, ts, phase, heq, hsane.mono h.history⟩
  logs ho name := by
    rw [h.log, h.runs]
    exact hi.logs ho name
  stocked ho name st hst hphase := by
    rw [h.runs] at hst
    exact h.stocked _ (hi.stocked ho name st hst hphase)
  used ho name hname := by
    rw [h.log] at hname
    rw [h.issued]
    exact hi.used ho name hname
  ended ho e he := hi.ended ho e (hended _ he)

theorem Inv.still (hi : Inv orderly stateDir w) (h : Still w w') : Inv orderly stateDir w' := by
  have honward := h.onward
  obtain ⟨t, es, hes, rfl⟩ := h
  refine hi.onward honward (fun path s hs => ?_) fun r hr => ?_
  · obtain ⟨first, hbacked⟩ := hi.ledgers path s hs
    exact ⟨first, hbacked.mono (List.prefix_append _ _)⟩
  · exact (List.mem_append.1 hr).resolve_right (hes r)

end Frames

end Purgery.Client
