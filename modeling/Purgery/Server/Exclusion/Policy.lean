import Purgery.Interleaving.Triple
import Purgery.Server.Exclusion.View

namespace Purgery.Server

open Purgery.Interleaving

/-- The calls that a garbage collection which is about to delete a run must not
meet: those that open or take its lock, or change its incoming directory. -/
def RunOp.intrudes : RunOp → Bool
  | .openLock _ => true
  | .flock _ _ => true
  | .probeFlock _ _ _ => true
  | .openTmp .incoming _ => true
  | .publish .incoming _ => true
  | .move .incoming _ => true
  | _ => false

/-- The calls of a removal. -/
def RunOp.sweeps : RunOp → Bool
  | .openDir _ => true
  | .unlink _ _ => true
  | .rmdir _ => true
  | _ => false

/-- The lookups after which a collection deletes a run that it does not find
locked. -/
def RunOp.looksToSweep : RunOp → Bool
  | .probeDir _ sweep => sweep
  | .lockExists _ sweep => sweep
  | _ => false

/-- The age is read of a ready run that a collection then deletes. -/
def RunOp.condemnsReady {Tid : Type} (w : RunWorld Tid) : RunOp → Bool
  | .modified .ready dooms => (w.dirs .ready).any fun d => dooms d.mtime
  | _ => false

variable {Tid : Type} [DecidableEq Tid]

/-- A call on a run that keeps clear of the garbage collection: while a
collection that has decided to delete the run is at work, nobody else opens or
takes the lock or changes the incoming directory, and the removal itself does
not fail; a ready run is not condemned while a processor holds its lock, nor a
run whose directory or lock file could not be looked up. -/
structure Calm (t : Tid) (o : RunOp) (failure : Option String) (w : RunWorld Tid) : Prop where
  apart : (∃ u, w.pass u ≠ none) → o.intrudes = false
  ready : o.condemnsReady w = true → failure = none → w.locks = []
  lookup : o.looksToSweep = true → failure = none
  whole : w.pass t ≠ none → o.sweeps = true → failure = none

/-- Nothing meets a garbage collection that deletes a run. -/
def calmPolicy : Policy Tid ServerOp ServerOp.Choice (World Tid) ServerEvent where
  step t o x w :=
    match o, x with
    | .run k o, x => Calm t o x.1 (w.runs k)
    | _, _ => True
  env e w :=
    match e with
    | .tick _ => True
    | .upload k _ => ∀ u, (w.runs k).pass u = none
  crash t w := ∀ k, (w.runs k).pass t = none

variable (host : Host) (config : ServerConfig) (k : RunKey)

/-- Whether the call goes through. -/
def RunOp.succeeds (o : RunOp) (failure : Option String) : Bool :=
  failure.isNone || !o.fallible

theorem Calm.success {t : Tid} {o : RunOp} {failure : Option String} {w : RunWorld Tid}
    (h : Calm t o failure w) (hs : o.succeeds failure = true) : Calm t o none w where
  apart := h.apart
  ready ho _ := by
    refine h.ready ho ?_
    cases o with
    | modified => simpa [RunOp.succeeds, RunOp.fallible] using hs
    | _ => exact nomatch ho
  lookup _ := rfl
  whole _ _ := rfl

/-- The contract of the processor lock of one run. -/
def lockContract :
    Contract (server host config : System Tid _ _ _ _ _) calmPolicy where
  inv w := (w.runs k).view.Inv config k
  rely t w w' := (w.runs k).Rely t (w'.runs k)
  guar t o x w w' :=
    match o, x with
    | .run k' o, x =>
      if k' = k then Guar t o (o.succeeds x.1) (w.runs k) (w'.runs k) else w'.runs k = w.runs k
    | _, _ => w'.runs k = w.runs k
  start t w := (w.runs k).pass t = none ∧ ∀ g ∈ (w.runs k).locks, g.tid ≠ t
  post t w := (w.runs k).pass t = none

theorem lockContract_closed :
    (lockContract host config k : Contract (server host config : System Tid _ _ _ _ _) _).Closed where
  rely_refl t w := RunWorld.Rely.refl t (w.runs k)
  rely_trans _ _ _ _ h h' := h.trans h'

end Purgery.Server
