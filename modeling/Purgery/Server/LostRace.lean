import Purgery.Server.Contention
import Purgery.Server.Holding

namespace Purgery.Server

open Purgery.Interleaving

section Races

/-- The inputs have a version that processing leaves alone. -/
def incompatible {α : Type} : Except ProcessingError α → Bool
  | .error (.incompatible _ _) => true
  | _ => false

/-- A process that takes the lock through this phase can go on: a ready run is
there, and the run is not one to leave in place. -/
def suits (config : ServerConfig) (k : RunKey) : RunPhase → Option CoreDir → Bool
  | .ready, none => false
  | .ready, some D => !incompatible (D.inputs config k .ready)
  | .processing, some D => !barred config k D.status
  | _, _ => true

/-- The lock file is opened where the run is, and the lock is taken where the
process can go on, or not at all. -/
def reaches {Tid : Type} (config : ServerConfig) (k : RunKey) (w : RunWorld Tid) : RunOp → Bool
  | .openLock ph => (w.dirs ph).isSome
  | .flock ph ino => (w.locks.any fun g => g.ino == ino) || suits config k ph (w.view.dirs ph)
  | _ => true

variable {Tid : Type} [DecidableEq Tid] {host : Host} {config : ServerConfig} {k : RunKey}
variable {t : Tid} {ph : RunPhase} {w w' : RunWorld Tid}
variable {L L' : Log RunOp (fun o => o.Choice × Nat) (RunWorld Tid)}

/-- All the lock calls of the process reach the run. -/
def Reaching (config : ServerConfig) (k : RunKey)
    (L : Log RunOp (fun o => o.Choice × Nat) (RunWorld Tid)) : Prop :=
  ∀ m ∈ L, reaches config k m.1 m.2.1 = true

omit [DecidableEq Tid] in
theorem Reaching.append : Reaching config k (L ++ L') ↔ Reaching config k L ∧ Reaching config k L' :=
  List.forall_mem_append

omit [DecidableEq Tid] in
theorem Reaching.cons {m : RunWorld Tid × (o : RunOp) × (o.Choice × Nat)} :
    Reaching config k (m :: L) ↔ reaches config k m.1 m.2.1 = true ∧ Reaching config k L :=
  List.forall_mem_cons

omit [DecidableEq Tid] in
@[simp] theorem Reaching.nil :
    Reaching config k ([] : Log RunOp (fun o => o.Choice × Nat) (RunWorld Tid)) := by
  simp [Reaching]

/-- An attempt to take the lock through `ph`, and whether its calls reach the run. -/
inductive Attempted (config : ServerConfig) (k : RunKey) (t : Tid) (ph : RunPhase) (w : RunWorld Tid)
    (L : Log RunOp (fun o => o.Choice × Nat) (RunWorld Tid)) (w' : RunWorld Tid) :
    Except String ProcessorLockAttempt → Prop
  | missing (hl : Reaching config k L) (hidle : Idle t w') {w₁ : RunWorld Tid} (hr : Advance w w₁)
      (hd : w₁.dirs ph = none) (hr' : Advance w₁ w') : Attempted config k t ph w L w' (.ok .missing)
  | busy (hl : Reaching config k L) : Attempted config k t ph w L w' (.ok .busy)
  | lost (e : String) (hl : ¬ Reaching config k L) : Attempted config k t ph w L w' (.error e)
  | held {g : Grip Tid} {D : CoreDir} {pl : List (RunPhase × Doc RunStatus)} (hvia : g.via = ph)
      (hat : At t g ph D pl w') (hl : Reaching config k L ↔ suits config k ph (some D) = true) :
      Attempted config k t ph w L w' (.ok (.acquired g.ino))
  | stale {g : Grip Tid} (hvia : g.via = ph) (hgone : Gone t g ph w')
      (hl : Reaching config k L ↔ suits config k ph none = true) :
      Attempted config k t ph w L w' (.ok (.acquired g.ino))

theorem tryLockExistingDir_attempted {r : Except String ProcessorLockAttempt}
    (h : Overtaken (holdScene host config k t) (tryLockExistingDir config k ph).run w L r w')
    (hph : ph.queued = true) (hi : w.view.Inv config k) (hidle : Idle t w) :
    Attempted config k t ph w L w' r := by
  obtain ⟨hend, -⟩ := Overtaken.meets h (tryLockExistingDir_spec hph) hi hidle
  rw [tryLockExistingDir, ask_run_bind] at h
  obtain ⟨w₁, x₁, now₁, L₁, rfl, hr₁, hi₁, -, -, h⟩ := Overtaken.own h
  simp only [RunOp.run] at h
  cases hd₁ : w₁.dirs ph with
  | none =>
    simp only [hd₁] at h
    obtain ⟨rfl, rfl, hr⟩ := h.ret_inv
    obtain ⟨_, hg, -⟩ | ⟨-, hidle'⟩ := hend
    · cases hg
    · exact .missing (by simp [Reaching, reaches]) hidle' hr₁.1 hd₁ hr.1
  | some d₁ =>
  simp only [hd₁, Option.isSome_some, Bool.not_true, Bool.false_eq_true, if_false, io_run_bind] at h
  have hidle₁ : Idle t w₁ := hidle.rely hr₁.2.1
  obtain ⟨r₂, s₂, L₂, L₃, rfl, hopen, h⟩ := h.bind_inv holdScene_refl
  obtain ⟨⟨hidle₂, hopened⟩, his₂⟩ := Overtaken.meets hopen (RunTriple.sys_openLock hph) hi₁ hidle₁
  obtain ⟨w₂, x₂, now₂, L₂, rfl, hr₂, hi₂, -, -, hopen⟩ := Overtaken.own (f := .ret) hopen
  obtain ⟨hr₂', rfl, -⟩ := hopen.ret_inv
  cases hd₂ : w₂.dirs ph with
  | none =>
    simp only [RunOp.run, hd₂] at hr₂'
    subst hr₂'
    obtain ⟨rfl, rfl, -⟩ := h.ret_inv
    exact .lost _ (by simp [Reaching, reaches, hd₂])
  | some d₂ =>
  have hok : ∃ ino, r₂ = .ok ino := by
    rw [hr₂']
    simp only [RunOp.run, hd₂]
    cases d₂.lock with
    | none => exact ⟨_, rfl⟩
    | some i => exact ⟨_, rfl⟩
  obtain ⟨e, rfl⟩ | ⟨rfl, hreached⟩ := hopened
  · obtain ⟨_, hok⟩ := hok
    cases hok
  simp only [Except.mapError, checked_run] at h
  rw [ask_run_bind] at h
  obtain ⟨w₃, x₃, now₃, L₄, rfl, hr₃, hi₃, hcalm₃, -, h⟩ := Overtaken.own h
  have hidle₃ : Idle t w₃ := hidle₂.rely hr₃.2.1
  have hreached₃ := (inferInstance : Stable config k t (Reached ph)).stable _ _ his₂ hi₃ hr₃.2.1
    hreached
  have hdirs : (RunOp.tryFlock t ph 0 w₃).2.view.dirs = w₃.view.dirs := by
    unfold RunOp.tryFlock
    split <;> rfl
  have hfree : (w₃.locks.any fun g => g.ino == 0) = !(RunOp.tryFlock t ph 0 w₃).1 := by
    unfold RunOp.tryFlock
    split <;> simp_all
  obtain ⟨-, his₃, ⟨htrue, g, hino, hvia, howns⟩ | ⟨hfalse, -⟩⟩ := RunTriple.tryFlock
    (o := .flock ph 0) hi₃ (hcalm₃.alone rfl) hph hidle₃ hreached₃ (by rintro ⟨⟩) (by rintro _ ⟨⟩) rfl
  · simp only [RunOp.run, htrue] at h
    obtain ⟨rfl, rfl, -, hr₄, hi₄, -⟩ := h.ret_inv
    have hreaching : Reaching config k [(w₁, ⟨.dirExists ph, x₁, now₁⟩),
        (w₂, ⟨.openLock ph, x₂, now₂⟩), (w₃, ⟨.flock ph 0, x₃, now₃⟩)] ↔
          suits config k ph (w₃.view.dirs ph) = true := by
      rw [htrue] at hfree
      simp [Reaching, reaches, hd₂, hfree]
    rw [← hdirs] at hreaching
    have hacquired : (.ok (.acquired 0) : Except String ProcessorLockAttempt) =
        .ok (.acquired g.ino) := by rw [hino]
    rw [hacquired]
    obtain ⟨D, pl, hat⟩ | hgone := howns
    · rw [hat.dir] at hreaching
      have hstable : Stable config k t (At t g ph D pl) := inferInstance
      exact .held hvia (hstable.stable _ _ his₃ (hi₄ his₃) hr₄ hat) hreaching
    · rw [hgone.past ph (le_refl _)] at hreaching
      have hstable : Stable config k t (Gone t g ph) := inferInstance
      exact .stale hvia (hstable.stable _ _ his₃ (hi₄ his₃) hr₄ hgone) hreaching
  · simp only [RunOp.run, hfalse] at h
    obtain ⟨w₄, x₄, now₄, L₅, rfl, -, -, -, -, h⟩ := Overtaken.own h
    obtain ⟨rfl, rfl, -⟩ := h.ret_inv
    rw [hfalse] at hfree
    exact .busy (by simp [Reaching, reaches, hd₂, hfree])

theorem Reaching.of_unlocking {α : Type} {p : Call α} {a : α} (hp : Unlocking p)
    (h : Overtaken (holdScene host config k t) p w L a w') : Reaching config k L := by
  intro m hm
  have ho := Overtaken.only hp h m hm
  generalize m.2.1 = o at ho
  cases o <;> first | rfl | exact nomatch ho

/-- What the attempt to claim a run comes to. -/
inductive ClaimEnd (config : ServerConfig) (k : RunKey) (t : Tid)
    (L : Log RunOp (fun o => o.Choice × Nat) (RunWorld Tid)) (w' : RunWorld Tid) :
    ReadyClaimOutcome → Prop
  | claimed {g : Grip Tid} {D : CoreDir} {pl : List (RunPhase × Doc RunStatus)}
      (hl : Reaching config k L) (hw : Working t g D pl w') (hfirst : First pl w') :
      ClaimEnd config k t L w' (.claimed g.ino)
  | activeClaimer (hl : Reaching config k L) : ClaimEnd config k t L w' .activeClaimer
  | alreadyProcessing (hl : Reaching config k L) (hidle : Idle t w') (hp : w'.view.Past .ready) :
      ClaimEnd config k t L w' .alreadyProcessing
  | alreadyTerminal (hl : Reaching config k L) (hp : w'.view.Past .processing) :
      ClaimEnd config k t L w' .alreadyTerminal
  | malformed (e : String) (hl : Reaching config k L) (hp : w'.view.Past .processing) :
      ClaimEnd config k t L w' (.malformedReadyMovedToFailed e)
  | incompatible (m : String) (hl : ¬ Reaching config k L) :
      ClaimEnd config k t L w' (.incompatibleReady m)
  | moveFailed (e e' : String) (hl : ¬ Reaching config k L) :
      ClaimEnd config k t L w' (.malformedReadyMoveFailed e e')
  | failed (e : String) (hl : ¬ Reaching config k L) : ClaimEnd config k t L w' (.claimFailed e)

/-- The holder of a ready run with good inputs claims it. -/
theorem renameClaimed_claims {g : Grip Tid} {D : CoreDir} {pl : List (RunPhase × Doc RunStatus)}
    {r : ReadyClaimOutcome}
    (h : Overtaken (holdScene host config k t) (renameClaimed k g.ino) w L r w')
    (hat : At t g .ready D pl w) (hi : w.view.Inv config k) : r = .claimed g.ino := by
  have hstable : Stable config k t (At t g .ready D pl) := inferInstance
  obtain ⟨w₁, x₁, now₁, L₁, rfl, hr₁, hi₁, -, -, h⟩ := Overtaken.own h
  have hat₁ := hstable.stable _ _ hi hi₁ hr₁.2.1 hat
  obtain ⟨w₂, x₂, now₂, L₂, rfl, hr₂, hi₂, -, -, h⟩ := Overtaken.own h
  have hat₂ := hstable.stable _ _ hi₁ hi₂ hr₂.2.1 hat₁
  obtain ⟨d, -, -, hrun⟩ := hat₂.move_run host hi₂ (nofun : RunPhase.processing ≠ .ready) x₂.2 now₂
  rw [hrun] at h
  exact h.ret_inv.1

/-- Whoever holds the lock of a ready run claims it, fails it or leaves it in
place, as its inputs are. -/
theorem claimLocked_ends {g : Grip Tid} {D : CoreDir} {pl : List (RunPhase × Doc RunStatus)}
    {r : ReadyClaimOutcome}
    (h : Overtaken (holdScene host config k t) (do
      match ← (readCompatibleRunInputs config k .ready).run with
      | .error (.incompatible _ message) =>
        let _ ← sys (.close g.ino)
        return .incompatibleReady message
      | .error (.other e) =>
        let outcome ← handleMalformedReady config k e
        let _ ← sys (.close g.ino)
        return outcome
      | .ok _ => renameClaimed k g.ino) w L r w')
    (hat : At t g .ready D pl w) (hvia : g.via = .ready) (hi : w.view.Inv config k)
    (hw : w.faults = []) (hl : Reaching config k L' ↔ suits config k .ready (some D) = true) :
    ClaimEnd config k t (L' ++ L) w' r := by
  obtain ⟨inputs, w₁, L₁, L₂, rfl, hread, h⟩ := h.bind_inv holdScene_refl
  obtain ⟨⟨hat₁, hinputs⟩, hi₁⟩ := Overtaken.meets hread (readCompatibleRunInputs_spec
    (I := At t g .ready D pl) (D := D) (Shows.of_dir fun w _ h => h.dir)) hi hat
  have hw₁ := Overtaken.faultless hread hw
  have hl₁ := Reaching.of_unlocking (readCompatibleRunInputs_unlocking .ready) hread
  have hr : inputs = D.inputs config k .ready := hinputs.resolve_right fun h => h.2 hw₁
  simp only [suits, ← hr] at hl
  split at h
  · obtain ⟨w₂, x₂, now₂, L₃, rfl, -, -, -, -, h⟩ := Overtaken.own h
    obtain ⟨rfl, rfl, -⟩ := h.ret_inv
    refine .incompatible _ fun hall => ?_
    exact nomatch hl.1 (Reaching.append.1 hall).1
  · rename_i e
    obtain ⟨outcome, w₂, L₃, L₄, rfl, hmalformed, h⟩ := h.bind_inv holdScene_refl
    have hl₂ := Reaching.of_unlocking (handleMalformedReady_unlocking e) hmalformed
    obtain ⟨⟨-, -, hdiscarded⟩, -⟩ := Overtaken.meets hmalformed (handleMalformedReady_spec e) hi₁
      ⟨hat₁, .inr ⟨e, hr.symm⟩⟩
    obtain ⟨rfl, hgone⟩ := hdiscarded.resolve_left
      fun hf => hf (Overtaken.faultless hmalformed hw₁)
    obtain ⟨w₃, x₃, now₃, L₅, rfl, hr₃, -, -, ha₃, h⟩ := Overtaken.own h
    obtain ⟨rfl, rfl, hend⟩ := h.ret_inv
    refine .malformed e ?_ (hend.1.past _ (ha₃.past _ (hr₃.1.past _ hgone.past)))
    simp only [Reaching.append, Reaching.cons, Reaching.nil, hl₁, hl₂, true_and, and_true]
    exact ⟨hl.2 rfl, rfl⟩
  · rename_i x
    have hl₂ := Reaching.of_unlocking (renameClaimed_unlocking g.ino) h
    obtain rfl := renameClaimed_claims h hat₁ hi₁
    obtain ⟨hclaimed, -⟩ := Overtaken.meets h (renameClaimed_spec hvia hr.symm) hi₁
      ⟨hat₁, hat₁.first_ready hi₁⟩
    obtain ⟨g', D', pl', hg, -, hworking, hfirst⟩ | ⟨hno, -⟩ := hclaimed
    · rw [hg]
      refine .claimed ?_ hworking hfirst
      exact Reaching.append.2 ⟨hl.2 rfl, Reaching.append.2 ⟨hl₁, hl₂⟩⟩
    · exact absurd rfl (hno _)

/-- Whoever has taken the lock of a run that has left `ready` finds no inputs
there, and cannot fail the run either. -/
theorem claimStale_ends {g : Grip Tid} {r : ReadyClaimOutcome}
    (h : Overtaken (holdScene host config k t) (do
      match ← (readCompatibleRunInputs config k .ready).run with
      | .error (.incompatible _ message) =>
        let _ ← sys (.close g.ino)
        return .incompatibleReady message
      | .error (.other e) =>
        let outcome ← handleMalformedReady config k e
        let _ ← sys (.close g.ino)
        return outcome
      | .ok _ => renameClaimed k g.ino) w L r w')
    (hgone : Gone t g .ready w) (hi : w.view.Inv config k) (hw : w.faults = []) :
    ∃ e e', r = .malformedReadyMoveFailed e e' := by
  obtain ⟨inputs, w₁, L₁, L₂, rfl, hread, h⟩ := h.bind_inv holdScene_refl
  obtain ⟨⟨hgone₁, hinputs⟩, hi₁⟩ := Overtaken.meets hread (readCompatibleRunInputs_spec
    (I := Gone t g .ready) (Shows.of_none fun w _ h => h.dirs_none (le_refl _))) hi hgone
  obtain ⟨e₀, he₀⟩ := CoreDir.absent_inputs config k .ready
  have hr := hinputs.resolve_right fun h => h.2 (Overtaken.faultless hread hw)
  rw [he₀] at hr
  subst hr
  obtain ⟨outcome, w₂, L₃, L₄, rfl, hmalformed, h⟩ := h.bind_inv holdScene_refl
  obtain ⟨⟨⟨e, e', rfl⟩, -⟩, -⟩ := Overtaken.meets hmalformed (handleMalformedReady_gone e₀) hi₁
    hgone₁
  obtain ⟨w₃, x₃, now₃, L₅, rfl, -, -, -, -, h⟩ := Overtaken.own h
  exact ⟨e, e', h.ret_inv.1⟩

/-- The claim of a run that is in `ready` or later goes wrong only where one of
its lock calls does not reach the run. -/
theorem claimReadyRun_ends {r : ReadyClaimOutcome}
    (h : Overtaken (holdScene host config k t) (claimReadyRun config k) w L r w')
    (hi : w.view.Inv config k) (hw : w.faults = []) (hidle : Idle t w)
    (hpast : w.view.Past .incoming) (hp : w.Present) : ClaimEnd config k t L w' r := by
  obtain ⟨hclaimed, -⟩ := Overtaken.meets h claimReadyRun_spec hi hidle
  have hrecheck : ∀ {w₁ L₂} L₁, Overtaken (holdScene host config k t) (recheckState k) w₁ L₂ r w' →
      w₁.view.Past .ready → w₁.Present → Reaching config k L₁ →
      ClaimEnd config k t (L₁ ++ L₂) w' r := by
    intro w₁ L₂ L₁ h hpast hp hl
    have hl' := Reaching.append.2 ⟨hl, Reaching.of_unlocking recheckState_unlocking h⟩
    obtain rfl | ⟨rfl, hpast'⟩ := recheckState_later (Overtaken.watched h) hpast hp
    · obtain ⟨_, _, _, hno, -⟩ | ⟨-, hidle'⟩ := hclaimed
      · cases hno
      · have hend : Advance w₁ w' := (Overtaken.watched h).rely (watchScene_steady ..)
        exact .alreadyProcessing hl' hidle' (hend.past _ hpast)
    · exact .alreadyTerminal hl' hpast'
  obtain ⟨w₁, x₁, now₁, L₁, rfl, hr₁, hi₁, -, -, h⟩ := Overtaken.own h
  have hl₁ : Reaching config k [(w₁, ⟨.dirExists .ready, (x₁, now₁)⟩)] := by
    simp [Reaching, reaches]
  have hl₂ : ∀ {L₂}, Reaching config k L₂ →
      Reaching config k ((w₁, ⟨.dirExists .ready, (x₁, now₁)⟩) :: L₂) :=
    fun hl => Reaching.cons.2 ⟨rfl, hl⟩
  have hp₁ := hr₁.1.present hp
  simp only [RunOp.run] at h
  cases hd₁ : w₁.dirs .ready with
  | none =>
    simp only [hd₁] at h
    exact hrecheck [_] h (RunWorld.past_ready (hr₁.1.past _ hpast) hd₁) hp₁ hl₁
  | some d₁ =>
  simp only [hd₁, Option.isSome_some, Bool.not_true, Bool.false_eq_true, if_false] at h
  obtain ⟨attempt, w₂, L₂, L₃, rfl, hlock, h⟩ := h.bind_inv holdScene_refl
  have hadvance₂ : Advance w₁ w₂ := (Overtaken.watched hlock).rely (watchScene_steady ..)
  have hi₂ := (Overtaken.meets hlock (tryLockExistingDir_spec rfl) hi₁ (hidle.rely hr₁.2.1)).2
  have hw₂ := Overtaken.faultless hlock (hr₁.2.2.2 hw)
  rw [← List.cons_append]
  cases tryLockExistingDir_attempted hlock rfl hi₁ (hidle.rely hr₁.2.1) with
  | missing hl _ hr hd hr' =>
    refine hrecheck _ h ?_ (hadvance₂.present hp₁) (hl₂ hl)
    exact hr'.past _ (RunWorld.past_ready (hr.past _ (hr₁.1.past _ hpast)) hd)
  | busy hl =>
    obtain ⟨rfl, rfl, -⟩ := h.ret_inv
    exact .activeClaimer (by simpa using hl₂ hl)
  | lost e hl =>
    obtain ⟨rfl, rfl, -⟩ := h.ret_inv
    exact .failed _ fun hall => hl (Reaching.cons.1 (Reaching.append.1 hall).1).2
  | @held g D pl hvia hat hl =>
    have hl' : Reaching config k ((w₁, ⟨.dirExists .ready, (x₁, now₁)⟩) :: L₂) ↔
        suits config k .ready (some D) = true := by simpa [Reaching.cons, reaches] using hl
    exact claimLocked_ends h hat hvia hi₂ hw₂ hl'
  | @stale g hvia hgone hl =>
    obtain ⟨e, e', rfl⟩ := claimStale_ends h hgone hi₂ hw₂
    exact .moveFailed e e' fun hall => by cases hl.1 (Reaching.cons.1 (Reaching.append.1 hall).1).2

/-- What the attempt to recover a run comes to. -/
inductive RecoverEnd (config : ServerConfig) (k : RunKey)
    (L : Log RunOp (fun o => o.Choice × Nat) (RunWorld Tid)) (w' : RunWorld Tid) :
    Except String ProcessingTargetOutcome → Prop
  | active (hl : Reaching config k L) : RecoverEnd config k L w' (.ok .activeProcessor)
  | ended {r : ProcessingTargetOutcome}
      (hr : r = .notFound ∨ r = .recovered ∨ ∃ e, r = .failedPublished e)
      (hl : Reaching config k L) (hp : w'.view.Past .processing) : RecoverEnd config k L w' (.ok r)
  | incompatible (m : String) (hl : ¬ Reaching config k L) :
      RecoverEnd config k L w' (.ok (.incompatible m))
  | failed (e : String) (hl : ¬ Reaching config k L) : RecoverEnd config k L w' (.error e)

/-- Whoever holds the lock of a processing run moves it on, unless its status
says to leave it in place. -/
theorem recoverLocked_ends {g : Grip Tid} {s : FileState .status} {I : RunWorld Tid → Prop}
    {r : Except String ProcessingTargetOutcome}
    (h : Overtaken (holdScene host config k t) (do
      let outcome ← ExceptT.lift (recoverLocked host config k)
      ask (.close g.ino)
      return outcome : ExceptT String Call ProcessingTargetOutcome).run w L r w')
    (hspec : RunTriple host config k t I (recoverLocked host config k)
      (fun r w => w.view.Session t g ∧ Resolved config k t g s r w)) (hI : I w)
    (hi : w.view.Inv config k) (hw : w.faults = [])
    (hl : Reaching config k L' ↔ barred config k s = false) :
    RecoverEnd config k (L' ++ L) w' r := by
  obtain ⟨outcome, w₁, L₁, L₂, rfl, hrecover, h⟩ := h.lift_inv holdScene_refl
  obtain ⟨⟨-, hresolved⟩, -⟩ := Overtaken.meets hrecover hspec hi hI
  have hl₁ := Reaching.of_unlocking recoverLocked_unlocking hrecover
  have hw₁ := Overtaken.faultless hrecover hw
  rw [ask_run_bind] at h
  obtain ⟨w₂, x₂, now₂, L₃, rfl, hr₂, -, -, ha₂, h⟩ := Overtaken.own h
  obtain ⟨rfl, rfl, hend⟩ := h.ret_inv
  have hreaching : Reaching config k (L' ++ (L₁ ++ [(w₂, ⟨.close g.ino, (x₂, now₂)⟩)])) ↔
      barred config k s = false := by
    simp only [Reaching.append, Reaching.cons, Reaching.nil, hl₁, hl, reaches, and_true]
  obtain hne | ⟨⟨m, rfl⟩, hs⟩ | ⟨hr, hs, hgone⟩ := hresolved
  · exact absurd hw₁ hne
  · exact .incompatible m fun hall => nomatch hs.symm.trans (hreaching.1 hall)
  · exact .ended (.inr hr) (hreaching.2 hs)
      (hend.1.past _ (ha₂.past _ (hr₂.1.past _ hgone.past)))

/-- The recovery of a run that has left `ready` goes wrong only where one of its
lock calls does not reach the run. -/
theorem recoverProcessingRunIfUnlocked_ends {r : Except String ProcessingTargetOutcome}
    (h : Overtaken (holdScene host config k t) (recoverProcessingRunIfUnlocked host config k).run
      w L r w') (hi : w.view.Inv config k) (hw : w.faults = []) (hidle : Idle t w)
    (hpast : w.view.Past .ready) : RecoverEnd config k L w' r := by
  rw [recoverProcessingRunIfUnlocked, ask_run_bind] at h
  obtain ⟨w₁, x₁, now₁, L₁, rfl, hr₁, hi₁, -, -, h⟩ := Overtaken.own h
  have hl₁ : ∀ {L₂}, Reaching config k L₂ →
      Reaching config k ((w₁, ⟨.dirExists .processing, (x₁, now₁)⟩) :: L₂) :=
    fun hl => Reaching.cons.2 ⟨rfl, hl⟩
  simp only [RunOp.run] at h
  cases hd₁ : w₁.dirs .processing with
  | none =>
    simp only [hd₁] at h
    obtain ⟨rfl, rfl, hend⟩ := h.ret_inv
    refine .ended (.inl rfl) (hl₁ .nil) (hend.1.past _ ?_)
    exact RunWorld.past_processing (hr₁.1.past _ hpast) hd₁
  | some d₁ =>
  simp only [hd₁, Option.isSome_some, Bool.not_true, Bool.false_eq_true, if_false] at h
  have hidle₁ : Idle t w₁ := hidle.rely hr₁.2.1
  obtain ⟨attempt, w₂, L₂, L₃, rfl, hlock, h⟩ := h.lift_inv holdScene_refl
  have hi₂ := (Overtaken.meets hlock (tryLockExistingDir_spec rfl) hi₁ hidle₁).2
  have hw₂ := Overtaken.faultless hlock (hr₁.2.2.2 hw)
  cases tryLockExistingDir_attempted hlock rfl hi₁ hidle₁ with
  | missing hl _ hr hd hr' =>
    obtain ⟨rfl, rfl, hend⟩ := h.ret_inv
    refine .ended (.inl rfl) (by simpa using hl₁ hl) (hend.1.past _ (hr'.past _ ?_))
    exact RunWorld.past_processing (hr.past _ (hr₁.1.past _ hpast)) hd
  | busy hl =>
    obtain ⟨rfl, rfl, -⟩ := h.ret_inv
    exact .active (by simpa using hl₁ hl)
  | lost e hl =>
    obtain ⟨rfl, rfl, -⟩ := h.ret_inv
    exact .failed _ fun hall => hl (Reaching.append.1 (Reaching.cons.1 hall).2).1
  | @held g D pl hvia hat hl =>
    rw [← List.cons_append]
    refine recoverLocked_ends h (recoverLocked_at hvia) hat hi₂ hw₂ ?_
    simpa [Reaching.cons, reaches, suits] using hl
  | @stale g hvia hgone hl =>
    rw [← List.cons_append]
    refine recoverLocked_ends h recoverLocked_gone hgone hi₂ hw₂ ?_
    simpa [Reaching.cons, reaches, suits, barred] using hl

/-- A terminal directory that is there is found with a status that is accepted. -/
theorem verifiedStatusIn_found {otherwise : ExceptT String Call (Option (String × String))}
    {r : Except String (Option (String × String))} (ht : ph.terminal = true)
    (h : Overtaken (watchScene host config k (fun _ => true) t Clear)
      (verifiedStatusIn k ph otherwise).run w L r w') :
    (∃ p, r = .ok (some p)) ∨ ∃ w₁ L₁, Advance w w₁ ∧ w₁.dirs ph = none ∧
      Overtaken (watchScene host config k (fun _ => true) t Clear) otherwise.run w₁ L₁ r w' := by
  rw [verifiedStatusIn, ask_run_bind] at h
  obtain ⟨w₁, L₁, h₁, -, ⟨d, hd, h⟩ | ⟨hd, h⟩⟩ := Overtaken.dirExists h
  · rw [if_pos rfl, ask_run_bind] at h
    obtain ⟨w₂, x₂, now₂, L₂, -, -, h₂, h⟩ := Overtaken.look rfl h
    obtain ⟨d₂, hd₂, -⟩ := h₂.advance.settled ph d ht hd
    obtain ⟨st, hst⟩ := tryReadStatus_valid (h₂.valid ht hd₂)
    simp only [RunOp.run, RunWorld.look, hd₂] at h
    rw [verifyStatus_trusted hst, checked_run] at h
    exact .inl ⟨_, h.ret_inv.1⟩
  · exact .inr ⟨w₁, L₁, h₁.advance, hd, h⟩

theorem verifiedTerminalStatus_found {r : Except String (Option (String × String))}
    (h : Overtaken (watchScene host config k (fun _ => true) t Clear)
      (verifiedTerminalStatus k).run w L r w')
    (hpast : w.view.Past .processing) (hp : w.Present) : ∃ p, r = .ok (some p) := by
  obtain hr | ⟨w₁, L₁, hr₁, hdone, h⟩ := verifiedStatusIn_found rfl h
  · exact hr
  obtain ⟨d, hd⟩ | ⟨d, hd⟩ := RunWorld.terminal_of_past (hr₁.past _ hpast) (hr₁.present hp)
  · exact nomatch hdone.symm.trans hd
  obtain hr | ⟨w₂, L₂, hr₂, hfailed, -⟩ := verifiedStatusIn_found rfl h
  · exact hr
  · obtain ⟨d', hd', -⟩ := hr₂.settled .failed d rfl hd
    exact nomatch hfailed.symm.trans hd'

/-- An answer made of the status of a run that is over. -/
theorem verified_found {f : Option (String × String) → ExceptT String Call ProcessRunInnerResult}
    {r : Except String ProcessRunInnerResult} (hf : ∀ p, ∃ a, f (some p) = pure a)
    (h : Overtaken (holdScene host config k t) (verifiedTerminalStatus k >>= f).run w L r w')
    (hpast : w.view.Past .processing) (hp : w.Present) : ∃ a, r = .ok a := by
  obtain ⟨e, -, w₁, hverified, -⟩ | ⟨p, w₁, L₁, L₂, -, hverified, h⟩ :=
    h.runBind_inv holdScene_refl
  · obtain ⟨p, hr⟩ := verifiedTerminalStatus_found (Overtaken.watched hverified) hpast hp
    exact nomatch hr
  · obtain ⟨p, hr⟩ := verifiedTerminalStatus_found (Overtaken.watched hverified) hpast hp
    cases hr
    obtain ⟨a, ha⟩ := hf p
    rw [ha] at h
    exact ⟨a, h.ret_inv.1⟩

theorem terminalResponse_found {outcome : ProcessRunOutcome} {message : String}
    {r : Except String ProcessRunInnerResult}
    (h : Overtaken (holdScene host config k t) (terminalResponse k outcome message).run w L r w')
    (hpast : w.view.Past .processing) (hp : w.Present) : ∃ a, r = .ok a :=
  verified_found (fun _ => ⟨_, rfl⟩) h hpast hp

theorem alreadyTerminalResponse_found {message absent : String}
    {r : Except String ProcessRunInnerResult}
    (h : Overtaken (holdScene host config k t) (alreadyTerminalResponse k message absent).run
      w L r w') (hpast : w.view.Past .processing) (hp : w.Present) : ∃ a, r = .ok a :=
  verified_found (fun _ => ⟨_, rfl⟩) h hpast hp

/-- A claimed run is processed, or fails, and the answer says so. -/
theorem processClaimed_found {g : Grip Tid} {D : CoreDir} {pl : List (RunPhase × Doc RunStatus)}
    {r : Except String ProcessRunInnerResult}
    (h : Overtaken (holdScene host config k t) (processClaimed host config k).run w L r w')
    (hwork : Working t g D pl w) (hfirst : First pl w) (hi : w.view.Inv config k)
    (hw : w.faults = []) (hp : w.Present) : ∃ a, r = .ok a := by
  obtain ⟨processed, w₁, L₁, L₂, -, hprocess, h⟩ := h.lift_inv holdScene_refl
  have hp₁ := ((Overtaken.watched hprocess).rely (watchScene_steady ..)).present hp
  obtain ⟨hprocessed, hi₁⟩ := Overtaken.meets hprocess processProcessingRun_spec hi ⟨hwork, hfirst⟩
  obtain ⟨rfl, hgone⟩ | ⟨⟨e, rfl⟩, hmoved⟩ := hprocessed
  · exact terminalResponse_found h hgone.past hp₁
  · have hgone := hmoved.resolve_right fun h => h.faults (Overtaken.faultless hprocess hw)
    obtain ⟨moved, w₂, L₃, L₄, -, hmove, h⟩ := h.lift_inv holdScene_refl
    have hp₂ := ((Overtaken.watched hmove).rely (watchScene_steady ..)).present hp₁
    obtain ⟨⟨rfl, hgone₂⟩, -⟩ := Overtaken.meets hmove moveToFailed_gone hi₁ hgone
    exact terminalResponse_found h hgone₂.past hp₂

/-- The answer is an error exactly if some lock call did not reach the run. -/
theorem handleProcessRunProcessingOutcome_reaches {r : Except String ProcessRunInnerResult}
    (h : Overtaken (holdScene host config k t) (handleProcessRunProcessingOutcome host config k).run
      w L r w') (hi : w.view.Inv config k) (hw : w.faults = []) (hidle : Idle t w)
    (hpast : w.view.Past .ready) (hp : w.Present) : (∃ a, r = .ok a) ↔ Reaching config k L := by
  obtain ⟨e, rfl, w₁, hrecover, -⟩ | ⟨outcome, w₁, L₁, L₂, rfl, hrecover, h⟩ :=
    h.runBind_inv holdScene_refl
  · cases recoverProcessingRunIfUnlocked_ends hrecover hi hw hidle hpast with
    | failed _ hl => exact iff_of_false nofun hl
  have hp₁ := ((Overtaken.watched hrecover).rely (watchScene_steady ..)).present hp
  have hanswer : ∀ {p : ExceptT String Call ProcessRunInnerResult}, Idly p.run →
      Overtaken (holdScene host config k t) p.run w₁ L₂ r w' → (∃ a, r = .ok a) →
      Reaching config k L₁ → ((∃ a, r = .ok a) ↔ Reaching config k (L₁ ++ L₂)) :=
    fun hidly h hr hl => iff_of_true hr
      (Reaching.append.2 ⟨hl, Reaching.of_unlocking (Unlocking.of_idle hidly) h⟩)
  cases recoverProcessingRunIfUnlocked_ends hrecover hi hw hidle hpast with
  | active hl => exact hanswer (p := pure _) trivial h ⟨_, h.ret_inv.1⟩ hl
  | ended hr hl hpast₁ =>
    obtain rfl | rfl | ⟨e, rfl⟩ := hr
    · exact hanswer (alreadyTerminalResponse_idle _ _) h
        (alreadyTerminalResponse_found h hpast₁ hp₁) hl
    · exact hanswer (terminalResponse_idle _ _) h (terminalResponse_found h hpast₁ hp₁) hl
    · exact hanswer (terminalResponse_idle _ _) h (terminalResponse_found h hpast₁ hp₁) hl
  | incompatible m hl =>
    obtain ⟨rfl, -⟩ := h.ret_inv
    exact iff_of_false nofun fun hall => hl (Reaching.append.1 hall).1

theorem processRunInner_reaches {r : Except String ProcessRunInnerResult}
    (h : Overtaken (holdScene host config k t) (processRunInner host config k).run w L r w')
    (hi : w.view.Inv config k) (hw : w.faults = []) (hidle : Idle t w)
    (hpast : w.view.Past .incoming) (hp : w.Present) :
    (∃ a, r = .ok a) ↔ Reaching config k L := by
  obtain ⟨outcome, w₁, L₁, L₂, rfl, hclaim, h⟩ := h.lift_inv holdScene_refl
  have hp₁ := ((Overtaken.watched hclaim).rely (watchScene_steady ..)).present hp
  have hi₁ := (Overtaken.meets hclaim claimReadyRun_spec hi hidle).2
  have hw₁ := Overtaken.faultless hclaim hw
  have hlost : ¬ Reaching config k L₁ → (∀ a, r ≠ .ok a) →
      ((∃ a, r = .ok a) ↔ Reaching config k (L₁ ++ L₂)) := fun hl hr =>
    iff_of_false (fun ⟨a, ha⟩ => hr a ha) fun hall => hl (Reaching.append.1 hall).1
  have hanswer : ∀ {p : ExceptT String Call ProcessRunInnerResult}, Unlocking p.run →
      Overtaken (holdScene host config k t) p.run w₁ L₂ r w' → (∃ a, r = .ok a) →
      Reaching config k L₁ → ((∃ a, r = .ok a) ↔ Reaching config k (L₁ ++ L₂)) :=
    fun hp h hr hl => iff_of_true hr (Reaching.append.2 ⟨hl, Reaching.of_unlocking hp h⟩)
  cases claimReadyRun_ends hclaim hi hw hidle hpast hp with
  | @claimed g D pl hl hwork hfirst =>
    obtain ⟨inner, w₂, L₃, L₄, rfl, hinner, h⟩ := h.lift_inv holdScene_refl
    have hl₃ := Reaching.of_unlocking processClaimed_unlocking hinner
    obtain ⟨a, rfl⟩ := processClaimed_found hinner hwork hfirst hi₁ hw₁ hp₁
    rw [ask_run_bind] at h
    obtain ⟨w₃, x₃, now₃, L₅, rfl, -, -, -, -, h⟩ := Overtaken.own h
    obtain ⟨rfl, rfl, -⟩ := h.ret_inv
    refine iff_of_true ⟨a, rfl⟩ (Reaching.append.2 ⟨hl, Reaching.append.2 ⟨hl₃, ?_⟩⟩)
    exact Reaching.cons.2 ⟨rfl, .nil⟩
  | activeClaimer hl => exact hanswer (p := pure _) trivial h ⟨_, h.ret_inv.1⟩ hl
  | alreadyProcessing hl hidle₁ hpast₁ =>
    rw [Reaching.append, handleProcessRunProcessingOutcome_reaches h hi₁ hw₁ hidle₁ hpast₁ hp₁]
    exact (and_iff_right hl).symm
  | alreadyTerminal hl hpast₁ =>
    exact hanswer (Unlocking.of_idle (alreadyTerminalResponse_idle _ _)) h
      (alreadyTerminalResponse_found h hpast₁ hp₁) hl
  | malformed e hl hpast₁ =>
    exact hanswer (Unlocking.of_idle (terminalResponse_idle _ _)) h
      (terminalResponse_found h hpast₁ hp₁) hl
  | incompatible m hl =>
    obtain ⟨rfl, -⟩ := h.ret_inv
    exact hlost hl nofun
  | moveFailed e e' hl =>
    obtain ⟨rfl, -⟩ := h.ret_inv
    exact hlost hl nofun
  | failed e hl =>
    obtain ⟨rfl, -⟩ := h.ret_inv
    exact hlost hl nofun

/-- A lock attempt goes as documented if the directory is there at each of its
calls, or at none of them. -/
theorem tryLockExistingDir_times {bad : Fault Tid → Bool} {r : Except String ProcessorLockAttempt}
    (h : Overtaken (watchScene host config k bad t Clear) (tryLockExistingDir config k ph).run w L r
      w') :
    ((∃ a, r = .ok a) ∧ ((¬ ∀ m ∈ L, m.1.dirs ph ≠ none) → r = .ok .missing)) ↔
      (∀ m ∈ L, m.1.dirs ph ≠ none) ∨ ∀ m ∈ L, m.1.dirs ph = none := by
  rw [tryLockExistingDir, ask_run_bind] at h
  obtain ⟨w₁, x₁, now₁, L₁, rfl, -, -, h⟩ := Overtaken.first h
  simp only [RunOp.run] at h
  cases hd₁ : w₁.dirs ph with
  | none =>
    simp only [hd₁] at h
    obtain ⟨rfl, rfl, -⟩ := h.ret_inv
    simp [hd₁]
  | some d₁ =>
  simp only [hd₁, Option.isSome_some, Bool.not_true, Bool.false_eq_true, if_false,
    io_run_bind] at h
  obtain ⟨w₂, x₂, now₂, L₂, rfl, -, -, h⟩ := Overtaken.first h
  have hsome : ∀ {L' : Log RunOp (fun o => o.Choice × Nat) (RunWorld Tid)} {a},
      r = .ok a → a ≠ .missing → (((∃ a, r = .ok a) ∧
        ((¬ ∀ m ∈ (w₁, ⟨.dirExists ph, x₁, now₁⟩) :: L', m.1.dirs ph ≠ none) →
          r = .ok .missing)) ↔
      (∀ m ∈ (w₁, ⟨.dirExists ph, x₁, now₁⟩) :: L', m.1.dirs ph ≠ none) ∨
      ∀ m ∈ (w₁, ⟨.dirExists ph, x₁, now₁⟩) :: L', m.1.dirs ph = none) := by
    rintro L' a rfl ha
    constructor
    · rintro ⟨-, hall⟩
      exact .inl (not_not.1 fun hmissed => ha (Except.ok.inj (hall hmissed)))
    · rintro (hall | hall)
      · exact ⟨⟨a, rfl⟩, fun hmissed => absurd hall hmissed⟩
      · cases hd₁.symm.trans (hall _ List.mem_cons_self)
  cases hd₂ : w₂.dirs ph with
  | none =>
    simp only [RunOp.run, hd₂] at h
    obtain ⟨rfl, rfl, -⟩ := h.ret_inv
    simp [hd₁, hd₂]
  | some d₂ =>
  have hok : ∃ ino, ((RunOp.openLock ph).run host t x₂.2 now₂ w₂).1 = .ok ino := by
    simp only [RunOp.run, hd₂]
    cases d₂.lock with
    | none => exact ⟨_, rfl⟩
    | some i => exact ⟨_, rfl⟩
  obtain ⟨ino, hino⟩ := hok
  rw [hino, Except.mapError, checked_run, ask_run_bind] at h
  obtain ⟨w₃, x₃, now₃, L₃, rfl, -, -, h⟩ := Overtaken.first h
  cases hlock : (RunOp.tryFlock t ph ino w₃).1 with
  | true =>
    simp only [RunOp.run, hlock] at h
    obtain ⟨rfl, rfl, -⟩ := h.ret_inv
    exact hsome rfl (by rintro ⟨⟩)
  | false =>
    simp only [RunOp.run, hlock] at h
    obtain ⟨w₄, x₄, now₄, L₄, rfl, -, -, h⟩ := Overtaken.first h
    obtain ⟨rfl, rfl, -⟩ := h.ret_inv
    exact hsome rfl (by rintro ⟨⟩)

end Races

section Lost

variable {Tid : Type} [DecidableEq Tid] {host : Host} {config : ServerConfig} {k : RunKey} {t : Tid}
variable {L : List (Step Tid)}

/-- Every call of process `t` on the run meets it as `p` says. -/
def Along (k : RunKey) (t : Tid) (p : RunWorld Tid → RunOp → Prop) (L : List (Step Tid)) : Prop :=
  ∀ m ∈ L, ∀ o x, m.2 = .call t (.run k o) x → p (m.1.runs k) o

omit [DecidableEq Tid] in
theorem Records.along {L' : Log RunOp (fun o => o.Choice × Nat) (RunWorld Tid)}
    (h : Records t (atRun k) (fun W => W.runs k) (fun _ x W => (x, W.clock)) L L')
    (p : RunWorld Tid → RunOp → Prop) : Along k t p L ↔ ∀ m ∈ L', p m.1 m.2.1 := by
  constructor
  · rintro hall ⟨w, o, y⟩ hm
    obtain ⟨W, x, hW, rfl, -⟩ := h.made w o y hm
    exact hall _ hW o x rfl
  · rintro hall ⟨W, d⟩ hm o x rfl
    obtain ⟨o', y, ho, hm'⟩ := h.kept W (.run k o) x hm
    cases ho
    exact hall _ hm'

/-- A lost race is no error as long as the lock is looked for where the run is. -/
theorem lost_race_answers {c : Config Tid ServerOp ServerOp.Res (World Tid)}
    (h : Reachable (server host config) (smoothPolicy host) c) (k : RunKey) (t : Tid) :
    (∀ ph f L r c', Performs (server host config) (smoothPolicy host) t f
      (onRun k (tryLockExistingDir config k ph).run) c L r c' →
        (((∃ a, r = .ok a) ∧ (¬ Along k t (fun w _ => w.dirs ph ≠ none) L → r = .ok .missing)) ↔
          Along k t (fun w _ => w.dirs ph ≠ none) L ∨ Along k t (fun w _ => w.dirs ph = none) L)) ∧
      ∀ L r c', c.threads t = none → (c.world.runs k).dirs .incoming = none →
        (c.world.runs k).Present →
        Performs (server host config) (smoothPolicy host) t (fun _ => pure ())
          (processRunTarget host config k)
          (c.put t (some (discard (processRunTarget host config k))) c.world) L r c' →
        ((∃ a, r = .ok a) ↔ Along k t (fun w o => reaches config k w o = true) L) := by
  refine ⟨fun ph f L r c' hperf => ?_, fun L r c' ht hd hp hperf => ?_⟩
  · obtain ⟨L', hL', hlog⟩ := Performs.watched Clear h hperf fun _ _ _ _ hx => smoothPolicy_clear hx
    rw [Records.along hlog, Records.along hlog]
    exact tryLockExistingDir_times hL'
  · obtain ⟨hinv, hmeets⟩ := (reachable_calm h).sound (lockContract_sound host config k)
    have hidle := hmeets t
    rw [ht] at hidle
    obtain ⟨L', hL', hlog⟩ := Performs.held (h.spawn ht (.processRun k)) hperf
    rw [Records.along hlog]
    exact processRunInner_reaches hL' hinv (reachable_spared h k).faultless hidle
      (RunWorld.past_incoming hd) hp

end Lost

section Sample

/-- The sample run in `ready`, and nobody works on it. -/
def waiting : Config Bool ServerOp ServerOp.Res (World Bool) :=
  ⟨sampleWorld Bool 0 .ready, fun _ => none⟩

theorem waiting_reachable :
    Reachable (server sampleHost sampleConfig) (smoothPolicy sampleHost) waiting :=
  .init (sampleWorld_init Bool (.inr rfl) _ _)

/-- Process `false` starts to work on the sample run. -/
def joined : Config Bool ServerOp ServerOp.Res (World Bool) :=
  waiting.put false (some (discard (processRunTarget sampleHost sampleConfig sampleKey)))
    waiting.world

/-- By this schedule the run is done when process `false` has its answer. -/
def races (schedule : List (Entry Bool)) (ok : Bool) : Bool :=
  (follow (smoothPolicy sampleHost) false (fun _ => pure ()) schedule
    (processRunTarget sampleHost sampleConfig sampleKey) joined).any fun (_, r, c') =>
      (r.toOption.isSome == ok) && ((c'.world.runs sampleKey).dirs .done).isSome

theorem exists_race (schedule : List (Entry Bool)) (ok : Bool) (h : races schedule ok = true) :
    ∃ L r c', Performs (server sampleHost sampleConfig) (smoothPolicy sampleHost) false
      (fun _ => pure ()) (processRunTarget sampleHost sampleConfig sampleKey) joined L r c' ∧
        r.toOption.isSome = ok ∧ ((c'.world.runs sampleKey).dirs .done).isSome = true := by
  obtain ⟨⟨L, r, c'⟩, hfollow, htest⟩ := (Option.any_eq_true _ _).1 h
  simp only [Bool.and_eq_true, beq_iff_eq] at htest
  exact ⟨L, r, c', .of_follow hfollow (by simp [joined, Config.put, discard]), htest⟩

/-- Process `true` is done with the run before process `false` looks for it. -/
theorem lost_race_answers_late :
    ∃ L r c', Performs (server sampleHost sampleConfig) (smoothPolicy sampleHost) false
      (fun _ => pure ()) (processRunTarget sampleHost sampleConfig sampleKey) joined L r c' ∧
        ((∃ a, r = .ok a) ↔
          Along sampleKey false (fun w o => reaches sampleConfig sampleKey w o = true) L) ∧
        r.toOption.isSome = true := by
  obtain ⟨L, r, c', hperf, hr, -⟩ := exists_race
    ([startProcessRun true] ++ steps true 72 (fun _ => false) ++ steps false 5 fun _ => false) true
    (by decide +kernel)
  refine ⟨L, r, c', hperf, ?_, hr⟩
  exact (lost_race_answers waiting_reachable sampleKey false).2 L r c' rfl rfl
    ⟨.ready, sampleRun, rfl⟩ hperf

/-- Process `false` has found the run in `ready` when process `true` moves it:
the lock file cannot be opened there, and the answer is an error although the
run is done. -/
theorem lost_race_error :
    Reachable (server sampleHost sampleConfig) (smoothPolicy sampleHost) waiting ∧
      ∃ L r c', Performs (server sampleHost sampleConfig) (smoothPolicy sampleHost) false
        (fun _ => pure ()) (processRunTarget sampleHost sampleConfig sampleKey) joined L r c' ∧
          ((c'.world.runs sampleKey).dirs .done).isSome = true ∧ ¬ ∃ a, r = .ok a := by
  obtain ⟨L, r, c', hperf, hr, hdone⟩ := exists_race
    (steps false 2 (fun _ => false) ++ [startProcessRun true] ++ steps true 72 (fun _ => false) ++
      steps false 1 fun _ => false) false (by decide +kernel)
  refine ⟨waiting_reachable, L, r, c', hperf, hdone, ?_⟩
  rintro ⟨a, rfl⟩
  exact nomatch hr

end Sample

end Purgery.Server
