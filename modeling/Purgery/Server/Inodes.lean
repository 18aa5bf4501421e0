import Purgery.Server.Intake

namespace Purgery.Server

open Purgery.Interleaving

/-- The directories of a run are different ones. -/
def Inodes (D : RunPhase → Option RunDir) : Prop :=
  ∀ ph ph' d d', D ph = some d → D ph' = some d' → d.id = d'.id → ph = ph'

namespace Inodes

variable {D : RunPhase → Option RunDir} {ph : RunPhase} {d d' : RunDir}

theorem update (h : Inodes D) (hd : D ph = some d) (hid : d'.id = d.id) :
    Inodes (Function.update D ph (some d')) := by
  have hold : ∀ p e, Function.update D ph (some d') p = some e →
      ∃ e', D p = some e' ∧ e'.id = e.id := by
    intro p e he
    by_cases hp : p = ph
    · subst hp
      rw [Function.update_self] at he
      cases he
      exact ⟨d, hd, hid.symm⟩
    · rw [Function.update_of_ne hp] at he
      exact ⟨e, he, rfl⟩
  intro p p' e e' he he' heq
  obtain ⟨e₁, hp, hid₁⟩ := hold p e he
  obtain ⟨e₂, hp', hid₂⟩ := hold p' e' he'
  exact h p p' e₁ e₂ hp hp' (by rw [hid₁, hid₂, heq])

theorem remove (h : Inodes D) : Inodes (Function.update D ph none) := by
  have hold : ∀ p e, Function.update D ph none p = some e → D p = some e := by
    intro p e he
    by_cases hp : p = ph
    · subst hp
      rw [Function.update_self] at he
      exact nomatch he
    · rwa [Function.update_of_ne hp] at he
  exact fun p p' e e' he he' => h p p' e e' (hold p e he) (hold p' e' he')

end Inodes

/-- The directories of a run have different numbers, and a new one gets a new
number. -/
structure RunWorld.Numbered {Tid : Type} (w : RunWorld Tid) : Prop where
  inodes : Inodes w.dirs
  below : ∀ ph d, w.dirs ph = some d → d.id < w.nextDir

namespace RunWorld.Numbered

variable {Tid : Type} {w w' : RunWorld Tid} {ph : RunPhase} {d d' : RunDir}

theorem of_same (h : w.Numbered) (hdirs : w'.dirs = w.dirs) (hnext : w'.nextDir = w.nextDir) :
    w'.Numbered :=
  ⟨hdirs ▸ h.inodes, by rw [hdirs, hnext]; exact h.below⟩

theorem setDir (h : w.Numbered) (hd : w.dirs ph = some d) (hid : d'.id = d.id) :
    (w.setDir ph (some d')).Numbered := by
  refine ⟨h.inodes.update hd hid, fun p e he => ?_⟩
  by_cases hp : p = ph
  · subst hp
    cases (Function.update_self ..).symm.trans he
    exact hid ▸ h.below p d hd
  · exact h.below p e ((Function.update_of_ne hp ..).symm.trans he)

theorem clear (h : w.Numbered) : (w.setDir ph none).Numbered := by
  refine ⟨h.inodes.remove, fun p e he => ?_⟩
  by_cases hp : p = ph
  · subst hp
    exact nomatch (Function.update_self ..).symm.trans he
  · exact h.below p e ((Function.update_of_ne hp ..).symm.trans he)

/-- A directory with a number that none of the others has. -/
theorem insert (h : w.Numbered) (hnew : ∀ p e, w.dirs p = some e → e.id ≠ d.id)
    (hd : d.id < w.nextDir) : (w.setDir ph (some d)).Numbered := by
  have hold : ∀ p e, (w.setDir ph (some d)).dirs p = some e →
      p = ph ∧ e = d ∨ p ≠ ph ∧ w.dirs p = some e := by
    intro p e he
    by_cases hp : p = ph
    · subst hp
      cases (Function.update_self ..).symm.trans he
      exact .inl ⟨rfl, rfl⟩
    · exact .inr ⟨hp, (Function.update_of_ne hp ..).symm.trans he⟩
  refine ⟨fun p p' e e' he he' heq => ?_, fun p e he => ?_⟩
  · obtain ⟨rfl, rfl⟩ | ⟨-, hp⟩ := hold p e he
    · obtain ⟨rfl, -⟩ | ⟨-, hp'⟩ := hold p' e' he'
      · rfl
      · exact absurd heq.symm (hnew p' e' hp')
    · obtain ⟨rfl, rfl⟩ | ⟨-, hp'⟩ := hold p' e' he'
      · exact absurd heq (hnew p e hp)
      · exact h.inodes p p' e e' hp hp' heq
  · obtain ⟨-, rfl⟩ | ⟨-, hp⟩ := hold p e he
    · exact hd
    · exact h.below p e hp

theorem create (h : w.Numbered) (hd : d.id = w.nextDir) :
    ({ w with nextDir := w.nextDir + 1 }.setDir ph (some d)).Numbered := by
  have hnext : RunWorld.Numbered { w with nextDir := w.nextDir + 1 } :=
    ⟨h.inodes, fun p e he => Nat.lt_succ_of_lt (h.below p e he)⟩
  refine hnext.insert (fun p e he => ?_) (hd ▸ Nat.lt_succ_self _)
  rw [hd]
  exact Nat.ne_of_lt (h.below p e he)

theorem move {src dst : RunPhase} (h : w.Numbered) (hd : w.dirs src = some d) :
    ((w.setDir src none).setDir dst (some d)).Numbered := by
  refine h.clear.insert (fun p e he heq => ?_) (h.below src d hd)
  by_cases hp : p = src
  · subst hp
    exact nomatch (Function.update_self ..).symm.trans he
  · exact hp (h.inodes p src e d ((Function.update_of_ne hp ..).symm.trans he) hd heq)

theorem map {f : RunDir → RunDir} (h : w.Numbered) (hf : ∀ d, (f d).id = d.id) :
    (w.setDir ph ((w.dirs ph).map f)).Numbered := by
  cases hd : w.dirs ph with
  | none => exact h.clear
  | some d => exact h.setDir hd (hf d)

theorem change {f : RunDir → Except IoError RunDir} (h : w.Numbered)
    (hf : ∀ d d', f d = .ok d' → d'.id = d.id) : (w.change ph f).2.Numbered := by
  unfold RunWorld.change
  split
  · exact h
  · split
    · exact h
    · exact h.setDir ‹_› (hf _ _ ‹_›)

theorem inWork {f : Tree → Except IoError Tree} (h : w.Numbered) : (w.inWork f).2.Numbered := by
  unfold RunWorld.inWork
  split
  · exact h
  · split
    · exact h
    · split
      · exact h
      · refine h.setDir ‹_› ?_
        rfl

theorem createWorkDirs {now : Nat} {paths : List String} (h : w.Numbered) :
    (w.createWorkDirs now paths).Numbered := by
  unfold RunWorld.createWorkDirs
  split
  · refine h.setDir ‹_› ?_
    rfl
  · refine h.create ?_
    rfl

variable [DecidableEq Tid] {t : Tid}

theorem doom {b : Bool} (h : w.Numbered) : (RunOp.doom t ph b w).Numbered := by
  unfold RunOp.doom
  split
  · exact h.of_same rfl rfl
  · exact h

omit [DecidableEq Tid] in
theorem tryFlock {ino : Nat} (h : w.Numbered) : (RunOp.tryFlock t ph ino w).2.Numbered := by
  unfold RunOp.tryFlock
  split
  · exact h
  · exact h.of_same rfl rfl

end RunWorld.Numbered

section Run

variable {Tid : Type} [DecidableEq Tid] {w : RunWorld Tid} {d d' : RunDir}

theorem removeEntry_id {e : RunEntry} {now : Nat} (h : d.removeEntry e now = .ok d') :
    d'.id = d.id := by
  unfold RunDir.removeEntry at h
  split at h
  · cases h
    cases e <;> rfl
  · exact nomatch h

theorem RunOp.run_numbered (host : Host) (t : Tid) (o : RunOp) (x : o.Extra) (now : Nat)
    (h : w.Numbered) : (o.run host t x now w).2.Numbered := by
  cases o with
  | lockExists ph sweep | readLease dooms => exact h.doom
  | modified ph dooms =>
    simp only [RunOp.run]
    split
    · exact h
    · exact h.doom
  | openTmp ph f =>
    simp only [RunOp.run]
    split
    · exact h
    · refine h.setDir ‹_› ?_
      unfold RunDir.openTmp
      split <;> rfl
  | writeTmp dir f doc =>
    simp only [RunOp.run]
    split
    · exact h
    · refine h.map fun d => ?_
      split <;> rfl
  | publish ph f =>
    simp only [RunOp.run]
    split
    · exact h
    · split
      · refine (h.setDir ‹_› ?_).of_same rfl rfl
        cases f <;> rfl
      · exact h
  | removeFile ph f | removeTmp ph f | removeLock ph | removeTree ph s =>
    exact h.change fun _ _ => removeEntry_id
  | breakTree ph s =>
    refine h.change fun d d' hd => ?_
    split at hd
    · exact nomatch hd
    · cases hd
      rfl
  | move src dst =>
    simp only [RunOp.run]
    split
    · exact h
    · exact h
    · exact h.move ‹_›
  | openLock ph =>
    simp only [RunOp.run]
    split
    · exact h
    · rename_i d hd
      split
      · exact h
      · have hlocked : (w.setDir ph (some ((d.setLock (some w.nextIno)).stamp now))).Numbered :=
          h.setDir hd rfl
        exact hlocked.of_same rfl rfl
  | openLockReadonly ph sweep =>
    simp only [RunOp.run]
    split
    · exact h
    · split
      · exact h
      · exact h.doom
  | flock ph ino => exact h.tryFlock
  | probeFlock ph ino sweep => exact h.tryFlock.doom
  | close ino => exact h.of_same rfl rfl
  | createWork | createWorkParent path => exact h.createWorkDirs
  | createWorkDir path | openWorkFile path | linkInWork path target => exact h.inWork
  | copyToWork source path =>
    simp only [RunOp.run]
    split
    · exact h
    · exact h.inWork
  | spawn c =>
    simp only [RunOp.run]
    split
    · exact h
    · rename_i d hd
      have hwork : (w.setDir .processing (some (d.setTree .work (some x.2.2)))).Numbered :=
        h.setDir hd rfl
      exact hwork.of_same rfl rfl
  | reap =>
    have hwork : (w.setDir .processing
        ((w.dirs .processing).map fun d => d.setTree .work (some x.2.2))).Numbered :=
      h.map fun _ => rfl
    exact hwork.of_same rfl rfl
  | openDir ph =>
    simp only [RunOp.run]
    split
    · exact h.of_same rfl rfl
    · exact h
  | unlink dir e =>
    simp only [RunOp.run]
    split
    · exact h
    · split
      · exact h
      · split
        · exact h
        · split
          · exact h
          · refine h.setDir ‹_› ?_
            cases e <;> rfl
  | rmdir ph =>
    simp only [RunOp.run]
    split
    · exact h.of_same rfl rfl
    · split
      · exact h.clear.of_same rfl rfl
      · exact h.of_same rfl rfl
  | _ => exact h

theorem RunOp.step_numbered (host : Host) (t : Tid) (o : RunOp) (x : o.Choice) (now : Nat)
    (h : w.Numbered) : (o.step host t x now w).2.Numbered := by
  unfold RunOp.step
  split
  · exact h.of_same rfl rfl
  · exact RunOp.run_numbered host t o x.2 now h

theorem unlinkEntry_id {e : RunEntry} {now : Nat} (h : d.unlinkEntry e now = .ok d') :
    d'.id = d.id := by
  unfold RunDir.unlinkEntry at h
  split at h
  · cases h
    rfl
  · split at h
    · exact nomatch h
    · cases h
      cases e <;> rfl

theorem IntakeOp.onRun_numbered (o : IntakeOp) (now : Nat) (h : w.Numbered) :
    (o.onRun now w).2.Numbered := by
  cases o with
  | createIncoming k =>
    simp only [IntakeOp.onRun]
    split
    · exact h
    · exact h.create rfl
  | createFiles k =>
    refine h.change fun d d' hd => ?_
    split at hd
    · exact nomatch hd
    · cases hd
      rfl
  | unlinkIncoming k dir e =>
    simp only [IntakeOp.onRun]
    split
    · exact h
    · exact h.change fun _ _ => unlinkEntry_id
  | rmdirIncoming k =>
    simp only [IntakeOp.onRun]
    split
    · exact h
    · split
      · exact h.clear
      · exact h
  | _ => exact h

end Run

section Reachable

variable {Tid : Type} [DecidableEq Tid]

theorem World.setRun_all {P : RunWorld Tid → Prop} {W : World Tid} {k : RunKey}
    {r : RunWorld Tid} (h : ∀ k, P (W.runs k)) (hr : P r) : ∀ k', P ((W.setRun k r).runs k') := by
  intro k'
  by_cases hk : k' = k
  · subst hk
    simpa [World.setRun] using hr
  · simpa [World.setRun, hk] using h k'

theorem intakeStep_numbered (host : Host) (t : Tid) (o : IntakeOp) (x : o.Choice)
    {W : IntakeWorld Tid} (h : ∀ k, (W.server.runs k).Numbered) :
    ∀ k, ((intakeStep host t o x W).2.server.runs k).Numbered := by
  cases o with
  | server o =>
    cases o with
    | run k o => exact World.setRun_all h (RunOp.step_numbered host t o x _ (h k))
    | unixNow | rootExists => exact h
    | nicknames | runIds n ph =>
      obtain ⟨failure, found⟩ := x
      cases failure <;> exact h
  | serialize v =>
    cases x <;> exact h
  | createIncoming k =>
    cases x with
    | some m => exact h
    | none =>
      have hrun := World.setRun_all h
        (IntakeOp.onRun_numbered (.createIncoming k) W.server.clock (h k)) (k := k)
      simp only [intakeStep]
      split <;> exact hrun
  | createFiles k =>
    cases x with
    | some m => exact h
    | none => exact World.setRun_all h (IntakeOp.onRun_numbered (.createFiles k) _ (h k))
  | unlinkIncoming k dir e =>
    cases x with
    | some m => exact h
    | none => exact World.setRun_all h (IntakeOp.onRun_numbered (.unlinkIncoming k dir e) _ (h k))
  | rmdirIncoming k =>
    cases x with
    | some m => exact h
    | none => exact World.setRun_all h (IntakeOp.onRun_numbered (.rmdirIncoming k) W.server.clock (h k))
  | reply r => exact h

theorem intakeEvent_numbered (e : IntakeEvent) {W : IntakeWorld Tid}
    (h : ∀ k, (W.server.runs k).Numbered) :
    ∀ k, ((intakeEvent e W).server.runs k).Numbered := by
  cases e with
  | server e =>
    cases e with
    | tick now => exact h
    | upload k u =>
      refine World.setRun_all h ((h k).map fun d => ?_)
      cases u <;> rfl
  | put k f doc => exact World.setRun_all h ((h k).map fun d => rfl)

/-- Whatever the server has done, its directories are different ones. -/
theorem reachable_numbered {host : Host} {programs : Intake Unit → Prop}
    {P : Policy Tid IntakeOp IntakeOp.Choice (IntakeWorld Tid) IntakeEvent}
    {c : Config Tid IntakeOp IntakeOp.Res (IntakeWorld Tid)}
    (hc : Reachable (intake host programs) P c) (k : RunKey) :
    (c.world.server.runs k).Numbered := by
  refine Reachable.invariant (fun W => ∀ k, (W.server.runs k).Numbered) ?_ ?_ ?_ ?_ hc k
  · intro W hW k
    have hnone : ∀ ph d, (W.server.runs k).dirs ph ≠ some d := by simp [(hW.runs k).dirs]
    exact ⟨fun p _ d _ hp _ => absurd hp (hnone p d), fun p d hp => absurd hp (hnone p d)⟩
  · exact fun t o x W _ h => intakeStep_numbered host t o x h
  · exact fun t W h k => (h k).of_same rfl rfl
  · exact fun e W _ h => intakeEvent_numbered e h

end Reachable

end Purgery.Server
