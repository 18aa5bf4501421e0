import Purgery.Client.Removal

namespace Purgery.Client

open Purgery.Path
open Purgery.Interleaving
open Purgery.Server (IoError)

/-! How the contract of a client is proved for its code. -/

/-- What the contract of a client is about; what else is kept endures all that is
resumed. -/
structure Site where
  sha : List UInt8 → String
  orderly : Prop
  stateDir : String
  kept : ClientWorld → Prop
  endures : ∀ w w', Resumed orderly w w' → kept w → kept w'

/-- The invariant, and what else is kept. -/
structure Site.Keeps (S : Site) (w : ClientWorld) : Prop extends Inv S.orderly S.stateDir w where
  kept : S.kept w

namespace Site

variable (S : Site) {α β : Type}

/-- Others change the local files only, and a client deletes only what it may. -/
def contract : Contract (clientSystem S.sha S.stateDir) (syncPolicy S.orderly) where
  inv := S.Keeps
  rely _ w w' := ∃ t, w' = w.withTree t
  guar _ _ _ w w' := Allowed S.sha w.history w.tree w'.tree
  start _ _ := True
  post _ _ := True

theorem closed : S.contract.Closed where
  rely_refl _ w := ⟨w.tree, rfl⟩
  rely_trans := by
    rintro _ w _ _ ⟨t, rfl⟩ ⟨t', rfl⟩
    exact ⟨t', rfl⟩

abbrev Ensures (pre : ClientWorld → Prop) (p : Sync α) (post : α → ClientWorld → Prop) : Prop :=
  Triple S.contract () pre p post

/-- The code ends with `post`, or fails, but not for want of a ledger. -/
def Yields (pre : ClientWorld → Prop) (x : SyncM α) (post : α → ClientWorld → Prop) : Prop :=
  S.Ensures pre x.run fun r w =>
    match r with
    | .ok a => post a w
    | .error e => S.orderly → e.wedged = false

variable {S} {w w' : ClientWorld}

theorem Keeps.onward (hw : S.Keeps w) (h : Onward w w')
    (hledgers : ∀ path s, (w'.files.ledger path).accepted = some s →
      ∃ first, Backed S.stateDir w'.history path first s)
    (hended : ∀ r, .ended r ∈ w'.history → .ended r ∈ w.history) : S.Keeps w' :=
  ⟨hw.toInv.onward h hledgers hended, S.endures w w' h.resumed hw.kept⟩

theorem Keeps.still (hw : S.Keeps w) (h : Still w w') : S.Keeps w' :=
  ⟨hw.toInv.still h, S.endures w w' h.onward.resumed hw.kept⟩

end Site

/-- Local edits do not matter. -/
def Settled (J : ClientWorld → Prop) : Prop := ∀ w t, J w → J (w.withTree t)

def StillKept (J : ClientWorld → Prop) : Prop := ∀ w w', Still w w' → J w → J w'

def Lasting (J : ClientWorld → Prop) : Prop := ∀ w w', Onward w w' → J w → J w'

section Kept

variable {J K : ClientWorld → Prop}

theorem StillKept.settled (h : StillKept J) : Settled J :=
  fun w t => h w _ (still_withTree w t)

theorem Lasting.stillKept (h : Lasting J) : StillKept J := fun w w' hs => h w w' hs.onward

theorem Lasting.settled (h : Lasting J) : Settled J := h.stillKept.settled

theorem Settled.and (h : Settled J) (h' : Settled K) : Settled fun w => J w ∧ K w :=
  fun w t hw => ⟨h w t hw.1, h' w t hw.2⟩

theorem StillKept.and (h : StillKept J) (h' : StillKept K) : StillKept fun w => J w ∧ K w :=
  fun w w' hs hw => ⟨h w w' hs hw.1, h' w w' hs hw.2⟩

theorem Lasting.and (h : Lasting J) (h' : Lasting K) : Lasting fun w => J w ∧ K w :=
  fun w w' hs hw => ⟨h w w' hs hw.1, h' w w' hs hw.2⟩

theorem lasting_const (φ : Prop) : Lasting fun _ => φ := fun _ _ _ => id

end Kept

section Rules

variable {S : Site} {α β ε : Type} {pre pre' : ClientWorld → Prop} {J : ClientWorld → Prop}

theorem ensures_ret {a : α} {post : α → ClientWorld → Prop}
    (h : ∀ w t, pre w → post a (w.withTree t)) : S.Ensures pre (.ret a) post := by
  refine Triple.ret ?_
  rintro w _ - - ⟨t, rfl⟩ hw
  exact h w t hw

theorem ensures_bind {p : Sync α} {f : α → Sync β} {M : α → ClientWorld → Prop}
    {post : β → ClientWorld → Prop} (hp : S.Ensures pre p M)
    (hf : ∀ a, S.Ensures (M a) (f a) post) : S.Ensures pre (p >>= f) post :=
  Triple.bind S.closed hp hf

theorem ensures_ask {o : SyncOp} {post : o.Res → ClientWorld → Prop} (hpre : Settled pre)
    (hpost : ∀ r, Settled (post r))
    (h : ∀ x w, (S.orderly → o.Truthful x w) → S.Keeps w → pre w →
      Allowed S.sha w.history w.tree (o.step S.sha x w).2.tree ∧
        S.Keeps (o.step S.sha x w).2 ∧ post (o.step S.sha x w).1 (o.step S.sha x w).2) :
    S.Ensures pre (ask o) post := by
  refine Triple.perform ?_ ?_ fun w x hw hpre hx => h x w hx hw hpre
  · rintro w _ - - ⟨t, rfl⟩
    exact hpre w t
  · rintro r w _ - - ⟨t, rfl⟩
    exact hpost r w t

namespace Site.Yields

variable {x : SyncM α} {g : α → SyncM β} {M M' : α → ClientWorld → Prop}
variable {N : β → ClientWorld → Prop}

theorem bind (hx : S.Yields pre x M) (hg : ∀ a, S.Yields (M a) (g a) N) :
    S.Yields pre (x >>= g) N := by
  refine Triple.runBind S.closed (M := M) (Triple.weaken hx fun r w _ hr => ?_) hg
    fun _ _ _ _ _ _ h => h
  cases r with
  | ok a => exact hr
  | error e => exact hr

theorem lift_bind {p : Sync α} (hp : S.Ensures pre p M) (hg : ∀ a, S.Yields (M a) (g a) N) :
    S.Yields pre (ExceptT.lift p >>= g) N :=
  Triple.liftBind S.closed hp hg

theorem pure {a : α} (h : ∀ w t, pre w → M a (w.withTree t)) :
    S.Yields pre (Pure.pure a : SyncM α) M :=
  ensures_ret h

theorem conseq (h : S.Yields pre x M) (hpre : ∀ w, S.Keeps w → pre' w → pre w)
    (hM : ∀ a w, S.Keeps w → M a w → M' a w) : S.Yields pre' x M' := by
  refine Triple.conseq h hpre fun r w hw hr => ?_
  cases r with
  | ok a => exact hM a w hw hr
  | error e => exact hr

theorem weaken (h : S.Yields pre x M) (hM : ∀ a w, S.Keeps w → M a w → M' a w) :
    S.Yields pre x M' :=
  h.conseq (fun _ _ => id) hM

theorem strengthen (h : S.Yields pre x M) (hpre : ∀ w, S.Keeps w → pre' w → pre w) :
    S.Yields pre' x M :=
  h.conseq hpre fun _ _ _ => id

theorem fail {e : SyncError} (h : ∀ w, pre w → S.orderly → e.wedged = false) :
    S.Yields pre (throw e : SyncM α) M :=
  ensures_ret fun w _ => h w

theorem abort (text : String) : S.Yields pre (Client.abort text : SyncM α) M :=
  fail fun _ _ _ => rfl

theorem attempt {c : Sync (Except ε α)} {text : String}
    (h : S.Ensures pre c fun r w => ∀ a, r = .ok a → M a w) :
    S.Yields pre (attemptTo c text) M := by
  refine Triple.map (Triple.weaken h fun r w _ hr => ?_)
  cases r with
  | ok a => exact hr a rfl
  | error e => exact fun _ => rfl

theorem answered {c : Sync (Except String α)}
    (h : S.Ensures pre c fun r w => ∀ a, r = .ok a → M a w) :
    S.Yields pre (Client.answered c) M := by
  refine Triple.map (Triple.weaken h fun r w _ hr => ?_)
  cases r with
  | ok a => exact hr a rfl
  | error e => exact fun _ => rfl

theorem checked {y : Except String α} (h : ∀ a, y = .ok a → ∀ w t, pre w → M a (w.withTree t)) :
    S.Yields pre (Client.checked y) M :=
  answered (ensures_ret fun w t hw a ha => h a ha w t hw)

theorem lift {p : Sync α} (h : S.Ensures pre p M) :
    S.Yields pre (ExceptT.lift p : SyncM α) M :=
  Triple.map h

theorem ite {c : Bool} {y : SyncM α} (ht : c = true → S.Yields pre x M)
    (hf : c = false → S.Yields pre y M) : S.Yields pre (if c then x else y) M := by
  cases c with
  | true => exact ht rfl
  | false => exact hf rfl

end Site.Yields

end Rules

section Quiet

variable {S : Site} {α ε : Type} {J : ClientWorld → Prop} {o : SyncOp} {w : ClientWorld}

/-- Calls that change nothing in the state directory and no local file. -/
def SyncOp.quiet : SyncOp → Bool
  | file o => o.reads
  | cleanup (.read _) | cleanup (.readDir _) => true
  | cleanup _ => false
  | remote _ | lookAround | walkSource _ | createStateDir | stateDirExists | listStateDir
  | ledgerExists _ | runsIsDir | listRuns | runExists _ | readRun _ | createRunDir _ => true
  | generate | publishLedger _ | retire _ | openRunTmp _ | writeRunTmp _ _ | publishRun _
  | setAside _ | removeRunDir _ | exit _ => false

theorem event_not_ended {t : LocalTree} {o : RemoteOp} {answer : o.Res}
    {r : Except SyncError Unit} : .ended r ∉ (o.event t answer).toList := by
  intro hmem
  have hevent : o.event t answer = some (.ended r) := by simpa using hmem
  unfold RemoteOp.event at hevent
  split at hevent
  · exact nomatch hevent
  · obtain ⟨status, -, heq⟩ := Option.map_eq_some_iff.1 hevent
    exact nomatch heq
  · exact nomatch hevent

theorem quiet_step (h : o.quiet = true) (x : o.Choice) :
    Still w (o.step S.sha x w).2 ∧ (o.step S.sha x w).2.tree = w.tree := by
  have hsame : ∀ {w' : ClientWorld}, w' = w → Still w w' ∧ w'.tree = w.tree := by
    rintro _ rfl
    exact ⟨Still.refl _, rfl⟩
  cases o with
  | file o =>
    refine hsame ?_
    change w.withTree (o.step S.sha x w.tree).2 = w
    rw [FileOp.step_reads h]
    rfl
  | cleanup o =>
    cases o with
    | read path =>
      refine hsame ?_
      cases x <;> rfl
    | readDir path =>
      refine hsame ?_
      change w.withTree ((FileOp.readDir path).step S.sha x w.tree).2 = w
      rw [FileOp.step_reads rfl]
      rfl
    | openTmp path => exact nomatch h
    | write path d => exact nomatch h
    | publish path => exact nomatch h
    | clean e => exact nomatch h
    | removeDir path => exact nomatch h
  | remote o =>
    exact ⟨⟨w.tree, (o.event w.tree x).toList, fun r => event_not_ended, rfl⟩, rfl⟩
  | readRun name => exact hsame (by cases x <;> rfl)
  | createStateDir => exact hsame (by cases x <;> rfl)
  | createRunDir name => exact hsame (by cases x <;> rfl)
  | lookAround => exact hsame rfl
  | walkSource source => exact hsame rfl
  | stateDirExists => exact hsame rfl
  | listStateDir => exact hsame rfl
  | ledgerExists path => exact hsame rfl
  | runsIsDir => exact hsame rfl
  | listRuns => exact hsame rfl
  | runExists name => exact hsame rfl
  | generate => exact nomatch h
  | publishLedger path => exact nomatch h
  | retire path => exact nomatch h
  | openRunTmp name => exact nomatch h
  | writeRunTmp name d => exact nomatch h
  | publishRun name => exact nomatch h
  | setAside name => exact nomatch h
  | removeRunDir name => exact nomatch h
  | exit result => exact nomatch h

theorem quiet_keeps (h : o.quiet = true) (x : o.Choice) (hw : S.Keeps w) :
    Allowed S.sha w.history w.tree (o.step S.sha x w).2.tree ∧ S.Keeps (o.step S.sha x w).2 := by
  obtain ⟨hstill, htree⟩ := quiet_step (S := S) h x
  rw [htree]
  exact ⟨.refl _, hw.still hstill⟩

/-- What a quiet call answers. -/
theorem ensures_answer {A : o.Res → ClientWorld → Prop} (h : o.quiet = true) (hJ : StillKept J)
    (hA : ∀ r, Settled (A r))
    (hx : ∀ x w, (S.orderly → o.Truthful x w) → S.Keeps w → J w →
      A (o.step S.sha x w).1 (o.step S.sha x w).2) :
    S.Ensures J (ask o) fun r w => J w ∧ A r w := by
  refine ensures_ask hJ.settled (fun r => hJ.settled.and (hA r)) fun x w htruth hw hpre => ?_
  obtain ⟨hallowed, hkeeps⟩ := quiet_keeps (S := S) h x hw
  exact ⟨hallowed, hkeeps, hJ w _ (quiet_step (S := S) h x).1 hpre, hx x w htruth hw hpre⟩

theorem ensures_quiet (h : o.quiet = true) (hJ : StillKept J) :
    S.Ensures J (ask o) fun _ => J :=
  (ensures_answer h hJ (A := fun _ _ => True) (fun _ _ _ => id) fun _ _ _ _ _ => trivial).weaken
    fun _ _ _ hw => hw.1

theorem ensures_only {p : Sync α} (hp : p.Only fun o => o.quiet = true) (hJ : StillKept J) :
    S.Ensures J p fun _ => J := by
  refine Triple.of_only hp ?_ fun o w x h hw hpre _ => ?_
  · rintro w _ - - ⟨t, rfl⟩
    exact hJ.settled w t
  · obtain ⟨hallowed, hkeeps⟩ := quiet_keeps (S := S) h x hw
    exact ⟨hallowed, hkeeps, hJ w _ (quiet_step (S := S) h x).1 hpre⟩

end Quiet

end Purgery.Client
