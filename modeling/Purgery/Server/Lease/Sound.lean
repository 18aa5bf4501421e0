import Purgery.Server.Lease.Kept

namespace Purgery.Server

open Purgery.Interleaving

variable {Tid : Type} [DecidableEq Tid] {host : Host} {config : ServerConfig} {k : RunKey}
variable {t : Tid} {clock now : Nat} {w : RunWorld Tid} {o : RunOp}

/-- The age of an incoming run condemns it although it has a lease to trust. -/
def RunOp.ousts (k : RunKey) (w : RunWorld Tid) : RunOp → Bool
  | .modified .incoming dooms => (w.dirs .incoming).any fun d =>
    dooms d.mtime && (currentLease k (d.file .lease)).isSome
  | _ => false

section Step

theorem RunDir.sweep_touched (d : RunDir) (e : RunEntry) (now : Nat) :
    (d.sweep e now).touched = true := rfl

theorem RunDir.sweep_shadow (d : RunDir) (e : RunEntry) (now : Nat) :
    (d.sweep e now).shadow = d.shadow := by
  cases e <;> rfl

/-- What a call may find of an incoming run, as the processor lock has it. -/
structure Watched (t : Tid) (o : RunOp) (w : RunWorld Tid) : Prop where
  alone : o.intrudes = true → ∀ u, w.pass u = none
  swept : ∀ d, w.dirs .incoming = some d → d.touched = true → ∃ u, w.pass u = some .incoming

theorem Kept.readLease (h : Kept config k clock w) (hw : Watched t o w) (hnow : now ≤ clock)
    {d : RunDir} (hd : w.dirs .incoming = some d)
    (hover : leaseOver config k now (d.file .lease) d.mtime = true) :
    leaseOver config k clock d.shadow.lease d.shadow.mtime = true := by
  by_cases ht : d.touched = true
  · obtain ⟨u, hu⟩ := hw.swept d hd ht
    exact h.ended u d hu hd
  · have hs := h.synced d hd (by simpa using ht)
    rw [hs]
    exact leaseOver_mono hnow hover

theorem Kept.run (host : Host) (ho : o.Timely config k now) (hnow : now ≤ clock)
    (hw : Watched t o w) (hkeeps : o.ousts k w = false) (x : o.Extra) (h : Kept config k clock w) :
    Kept config k clock (o.run host t x clock w).2 := by
  cases o with
  | lockExists ph sweep =>
    refine h.doom fun hph => ?_
    simp [show sweep = false from ho hph]
  | readLease dooms =>
    obtain rfl : dooms = leaseExpired k now := ho
    refine h.condemn fun hb d hd => h.readLease hw hnow hd (leaseOver_of_expired ?_)
    simpa [RunWorld.look, hd] using hb
  | modified ph dooms =>
    cases ph with
    | incoming =>
      simp only [RunOp.run]
      split
      · exact h
      · rename_i d hd
        refine h.condemn fun hb d' hd' => ?_
        obtain rfl : d = d' := by simpa using hd.symm.trans hd'
        obtain rfl | hnever := ho
        · refine h.readLease hw hnow hd (leaseOver_of_orphan ?_ hb)
          simpa [RunOp.ousts, hd, hb] using hkeeps
        · exact absurd (hb.symm.trans (hnever _)) (by simp)
    | _ =>
      simp only [RunOp.run]
      split
      · exact h
      · exact h.doom (by rintro ⟨⟩)
  | openTmp ph f =>
    simp only [RunOp.run]
    split
    · exact h
    · rename_i d hd
      by_cases hph : ph = .incoming
      · subst hph
        exact h.replace hd ((h.synced d hd).openTmp f x clock) (.inr (hw.alone rfl))
      · exact h.setDir hph
  | writeTmp dir f doc =>
    simp only [RunOp.run]
    split
    · exact h
    · rename_i ph _
      by_cases hph : ph = .incoming
      · subst hph
        cases hd : w.dirs .incoming with
        | none => exact .gone (by simp [RunWorld.setDir])
        | some d =>
          by_cases hhas : d.has (.tmp f) = true
          · simp only [Option.map_some, hhas, if_true]
            exact h.replace hd (h.synced d hd) (.inl rfl)
          · simp only [Option.map_some, hhas]
            exact h.replace hd (h.synced d hd) (.inl rfl)
      · exact h.setDir hph
  | publish ph f =>
    simp only [RunOp.run]
    split
    · exact h
    · rename_i d hd
      split
      · by_cases hph : ph = .incoming
        · subst hph
          obtain rfl := ho rfl
          have hk := h.replace hd ((h.synced d hd).publish_lease clock) (.inr (hw.alone rfl))
          exact ⟨hk.synced, hk.ended⟩
        · have hk := h.setDir (d := some (d.publish f clock)) hph
          exact ⟨hk.synced, hk.ended⟩
      · exact h
  | removeFile ph f => exact h.change ho
  | removeTmp ph f => exact h.change ho
  | removeLock ph => exact h.change ho
  | breakTree ph s => exact h.change ho
  | removeTree ph s => exact h.change ho
  | move src dst =>
    simp only [RunOp.run]
    split
    · exact h
    · exact h
    · by_cases hsrc : src = .incoming
      · subst hsrc
        obtain rfl := ho.2 rfl
        exact .gone (by simp [RunWorld.setDir])
      · exact (h.setDir hsrc).setDir ho.1
  | openLock ph =>
    simp only [RunOp.run]
    split
    · exact h
    · split
      · exact h
      · exact h.same (by simp [RunWorld.setDir, show RunPhase.incoming ≠ ph from fun e => ho e.symm])
          fun _ hp => hp
  | openLockReadonly ph sweep =>
    simp only [RunOp.run]
    split
    · exact h
    · split
      · exact h
      · exact h.doom ho
  | flock ph ino => exact h.tryFlock
  | probeFlock ph ino sweep =>
    refine h.tryFlock.doom fun hph => ?_
    simp [show sweep = false from ho hph]
  | close ino => exact h.same rfl fun _ hp => hp
  | createWork => exact h.createWorkDirs
  | createWorkParent path => exact h.createWorkDirs
  | createWorkDir path => exact h.inWork
  | openWorkFile path => exact h.inWork
  | linkInWork path target => exact h.inWork
  | copyToWork source path =>
    simp only [RunOp.run]
    split
    · exact h
    · exact h.inWork
  | spawn c =>
    simp only [RunOp.run]
    split
    · exact h
    · exact h.same (by simp [RunWorld.setDir]) fun _ hp => hp
  | reap => exact h.same (by simp [RunOp.run, RunWorld.setDir]) fun _ hp => hp
  | openDir ph =>
    simp only [RunOp.run]
    split
    · exact h.release
    · exact h
  | unlink dir e =>
    simp only [RunOp.run]
    split
    · exact h
    · rename_i ph _
      split
      · exact h
      · rename_i d hd
        split
        · exact h
        · split
          · exact h
          · by_cases hph : ph = .incoming
            · subst hph
              refine h.replace hd (fun ht => ?_) (.inl (RunDir.sweep_shadow d e clock))
              cases ht.symm.trans (RunDir.sweep_touched d e clock)
            · exact h.setDir hph
  | rmdir ph =>
    simp only [RunOp.run]
    split
    · exact h.release
    · split
      · by_cases hph : ph = .incoming
        · subst hph
          exact .gone (by simp [RunWorld.setDir, RunWorld.setPass])
        · exact (h.setDir hph).release
      · exact h.release
  | _ => exact h

theorem Kept.step (host : Host) {x : o.Choice} (ho : o.Timely config k now) (hnow : now ≤ clock)
    (hw : Watched t o w) (hkeeps : x.1 = none → o.ousts k w = false) (h : Kept config k clock w) :
    Kept config k clock (o.step host t x clock w).2 := by
  by_cases hs : o.succeeds x.1 = true
  · rw [RunOp.step_run host x clock hs]
    refine h.run host ho hnow hw ?_ x.2
    cases o with
    | modified ph dooms => exact hkeeps (by simpa [RunOp.succeeds, RunOp.fallible] using hs)
    | _ => rfl
  · obtain ⟨failure, x⟩ := x
    cases failure with
    | none => simp [RunOp.succeeds] at hs
    | some m =>
      have hf : o.fallible = true := by simpa [RunOp.succeeds] using hs
      rw [RunOp.step_fault host hf m x clock]
      exact h.same rfl fun _ hp => hp

omit [DecidableEq Tid] in
theorem Kept.mono {clock' : Nat} (hle : clock ≤ clock') (h : Kept config k clock w) :
    Kept config k clock' w :=
  ⟨h.synced, fun t d ht hd => leaseOver_mono hle (h.ended t d ht hd)⟩

theorem Kept.leave (h : Kept config k clock w) : Kept config k clock (w.leave t) :=
  h.same rfl fun u hu => by
    by_cases hut : u = t
    · simp [RunWorld.leave, hut] at hu
    · simpa [RunWorld.leave, hut] using hu

omit [DecidableEq Tid] in
theorem Kept.upload (h : Kept config k clock w) (hpass : ∀ u, w.pass u = none) (u : Upload) :
    Kept config k clock
      (w.setDir .incoming ((w.dirs .incoming).map fun d => d.upload clock u)) := by
  cases hd : w.dirs .incoming with
  | none => exact .gone (by simp [RunWorld.setDir])
  | some d => exact h.replace hd ((h.synced d hd).upload clock u) (.inr hpass)

end Step

section Contract

/-- Nothing meets a collection that deletes a run, the clock does not step back,
and no incoming run that has a lease to trust is condemned by its age. -/
def leasePolicy : Policy Tid ServerOp ServerOp.Choice (World Tid) ServerEvent where
  step t o x w :=
    match o, x with
    | .run k o, x => Calm t o x.1 (w.runs k) ∧ (x.1 = none → o.ousts k (w.runs k) = false)
    | _, _ => True
  env e w :=
    match e with
    | .tick now => w.clock ≤ now
    | .upload k _ => ∀ u, (w.runs k).pass u = none
  crash t w := ∀ k, (w.runs k).pass t = none

/-- The same, with what the processor lock of the run lends to it. -/
def watchedPolicy (k : RunKey) : Policy Tid ServerOp ServerOp.Choice (World Tid) ServerEvent where
  step t o x w := leasePolicy.step t o x w ∧ ∀ o', o = .run k o' → Watched t o' (w.runs k)
  env := leasePolicy.env
  crash := leasePolicy.crash

theorem leasePolicy_le_calm :
    (leasePolicy : Policy Tid ServerOp ServerOp.Choice (World Tid) ServerEvent).le calmPolicy := by
  refine ⟨fun t o x w h => ?_, fun e w h => ?_, fun t w h => h⟩
  · cases o with
    | run k o => exact h.1
    | _ => trivial
  · cases e with
    | tick now => trivial
    | upload k u => exact h

variable (host config k)

/-- The contract of an incoming run: the clock goes on, and a collection that
deletes the run has a reason to. -/
def leaseContract : Contract (server host config : System Tid _ _ _ _ _) (watchedPolicy k) where
  inv w := Kept config k w.clock (w.runs k)
  rely _ w w' := w.clock ≤ w'.clock
  guar _ _ _ w w' := w.clock ≤ w'.clock
  start _ _ := True
  post _ _ := True

theorem leaseContract_closed :
    (leaseContract host config k : Contract (server host config : System Tid _ _ _ _ _) _).Closed where
  rely_refl _ _ := le_refl _
  rely_trans _ _ _ _ := le_trans

end Contract

section Programs

variable {α : Type}

def ServerOp.Timely (config : ServerConfig) (now : Nat) : ServerOp → Prop
  | .run k o => o.Timely config k now
  | _ => True

theorem ServerOp.Issued.timely {o : ServerOp} (h : o.Issued .all config now) :
    o.Timely config now := by
  cases o with
  | run k o => exact RunOp.Issued.timely h.1
  | _ => trivial

/-- Code that keeps the contract of the incoming run. -/
def Leases (host : Host) (config : ServerConfig) (k : RunKey) (t : Tid) (now : Nat)
    (p : Action α) : Prop :=
  Triple (leaseContract host config k) t (fun w => now ≤ w.clock) p (fun _ _ => True)

theorem Leases.of_issued {p : Action α} (hp : p.Only (ServerOp.Issued .all config now)) :
    Leases host config k t now p := by
  have hkeep := Triple.of_only (C := leaseContract host config k) (t := t)
    (I := fun w => now ≤ w.clock) hp (fun s s' _ _ hr hn => le_trans hn hr)
    fun o s x ho hs hn hx => ?_
  · exact hkeep.weaken fun _ _ _ _ => trivial
  cases o with
  | run k' o =>
    by_cases hk : k' = k
    · subst hk
      have hstep := Kept.step (w := s.runs k') host (x := x) (RunOp.Issued.timely ho.1) hn (hx.2 o rfl) hx.1.2 hs
      refine ⟨le_refl _, ?_, hn⟩
      simpa [leaseContract, server, serverStep, World.setRun] using hstep
    · refine ⟨le_refl _, ?_, hn⟩
      have hne : k ≠ k' := fun h => hk h.symm
      simpa [leaseContract, server, serverStep, World.setRun, hne] using hs
  | nicknames => rcases x with ⟨_ | _, _⟩ <;> exact ⟨le_refl _, hs, hn⟩
  | runIds n ph => rcases x with ⟨_ | _, _⟩ <;> exact ⟨le_refl _, hs, hn⟩
  | _ => exact ⟨le_refl _, hs, hn⟩

theorem Leases.bind {β : Type} {p : Action α} {f : α → Action β} (hp : Leases host config k t now p)
    (hf : ∀ a, Leases host config k t 0 (f a)) : Leases host config k t now (p >>= f) :=
  Triple.bind (leaseContract_closed host config k) hp fun a =>
    (hf a).strengthen fun _ _ _ => Nat.zero_le _

theorem Leases.runBind {ε β : Type} {x : ExceptT ε Action α} {f : α → ExceptT ε Action β}
    (hx : Leases host config k t now x.run) (hf : ∀ a, Leases host config k t 0 (f a).run) :
    Leases host config k t now (x >>= f).run := by
  refine Leases.bind hx fun r => ?_
  cases r with
  | ok a => exact hf a
  | error e => exact Leases.of_issued trivial

/-- A collection judges the leases by the time at which it started. -/
theorem runGc_leases : Leases host config k t 0 (runGc config).run := by
  refine Leases.runBind (Leases.of_issued (Prog.Only.runLift (act_issued trivial))) fun found => ?_
  split
  · exact Leases.of_issued trivial
  have hnow : Triple (leaseContract host config k) t (fun w => 0 ≤ w.clock) (act .unixNow)
      (fun (now : Nat) w => now ≤ w.clock) :=
    Triple.perform (fun _ _ _ _ _ _ => Nat.zero_le _) (fun _ _ _ _ _ hr hn => le_trans hn hr)
      fun w _ hw _ _ => ⟨le_refl _, hw, le_refl _⟩
  have hlift : Triple (leaseContract host config k) t (fun w => 0 ≤ w.clock)
      (ExceptT.lift (act .unixNow) : ExceptT String Action Nat).run
      (fun r w => ∃ now : Nat, r = .ok now ∧ now ≤ w.clock) :=
    Triple.bind (leaseContract_closed host config k) hnow fun now =>
      Triple.ret fun w w' _ _ hr hn => ⟨now, rfl, le_trans hn hr⟩
  refine Triple.bind (leaseContract_closed host config k) hlift fun r => ?_
  refine Triple.exists_pre fun now => Triple.pure_pre ?_
  rintro rfl
  refine Leases.of_issued (Prog.Only.runBind (Prog.Only.runLift (act_issued trivial)) fun r => ?_)
  split
  · trivial
  · exact collectNicknames_issued trivial trivial _

theorem Command.leases {p : Action Unit} (h : Command host config p) :
    Leases host config k t 0 p := by
  have hret : ∀ {β : Type} (_ : β), Leases host config k t 0 (.ret () : Action Unit) :=
    fun _ => Leases.of_issued trivial
  cases h with
  | processRun k' => exact (Leases.of_issued (onRun_issued processRunInner_issued)).bind hret
  | processOnce =>
    refine Leases.bind (Leases.runBind (runGc_leases.bind fun _ => Leases.of_issued trivial)
      fun _ => Leases.of_issued processFound_issued) hret
  | runState k' => exact (Leases.of_issued (onRun_issued (runState_issued trivial))).bind hret
  | gc => exact runGc_leases.bind hret
  | heartbeat k' => exact (Leases.of_issued (onRun_issued heartbeatRun_issued)).bind hret
  | finish k' => exact (Leases.of_issued (onRun_issued finishRun_issued)).bind hret

end Programs

theorem RunWorld.Begun.kept (h : w.Begun) : Kept config k clock w where
  synced d hd _ := (h.fresh _ d hd).2.2.2
  ended t d ht _ := absurd ((h.pass t).symm.trans ht) (by simp)

/-- An incoming run is kept, whatever processes are started. -/
theorem leaseContract_sound (host : Host) (config : ServerConfig) (k : RunKey) :
    (leaseContract host config k :
      Contract (server host config : System Tid _ _ _ _ _) (watchedPolicy k)).Sound where
  toClosed := leaseContract_closed host config k
  guar_rely _ _ _ _ _ _ _ _ _ hg := hg
  leave_inv _ _ h _ := h.leave
  leave_rely _ _ _ _ _ _ := le_refl _
  leave_start _ _ _ := trivial
  env_inv e s he h := by
    cases e with
    | tick now => exact h.mono he
    | upload k' u =>
      by_cases hk : k = k'
      · subst hk
        simpa [leaseContract, server, serverEvent, World.setRun] using Kept.upload h he u
      · simpa [leaseContract, server, serverEvent, World.setRun, hk] using h
  env_rely t e s he _ := by
    cases e with
    | tick now => exact he
    | upload k' u => exact le_refl _
  init_inv s h := (h k).kept
  init_start _ _ _ := trivial
  start_rely _ _ _ _ _ := trivial
  program_wp t p s hp hs _ := hp.leases s hs (Nat.zero_le _)

end Purgery.Server
