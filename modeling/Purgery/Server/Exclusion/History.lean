import Mathlib.Data.Fintype.Pi
import Purgery.Server.Exclusion.Sound

namespace Purgery.Server

open Purgery.Interleaving

section Onward

variable {Tid : Type} {w w' : RunWorld Tid} {ph : RunPhase}

/-- No removal: what is there was there, or is new, and a run that is there
stays somewhere. -/
structure Onward (w w' : RunWorld Tid) : Prop where
  untouched : (∀ ph d, w.dirs ph = some d → d.touched = false) →
    ∀ ph d, w'.dirs ph = some d → d.touched = false
  stays : (∃ ph, (w.dirs ph).isSome) → ∃ ph, (w'.dirs ph).isSome
  published : w'.published = w.published ∨ ∃ ph, (w'.dirs ph).isSome

theorem Onward.of_dirs (hd : w'.dirs = w.dirs) (hp : w'.published = w.published) :
    Onward w w' :=
  ⟨fun h => hd ▸ h, fun h => hd ▸ h, .inl hp⟩

theorem Onward.refl (w : RunWorld Tid) : Onward w w := .of_dirs rfl rfl

theorem Onward.same {v v' : RunWorld Tid} (h : Onward v v') (hd : w.dirs = v.dirs)
    (hp : w.published = v.published) (hd' : w'.dirs = v'.dirs)
    (hp' : w'.published = v'.published) : Onward w w' where
  untouched := by
    rw [hd, hd']
    exact h.untouched
  stays := by
    rw [hd, hd']
    exact h.stays
  published := by
    rw [hd', hp', hp]
    exact h.published

theorem Onward.setDir {d' : RunDir} (h : d'.touched = false ∨
    ∃ d, w.dirs ph = some d ∧ d'.touched = d.touched) :
    Onward w (w.setDir ph (some d')) where
  untouched hw p d hd := by
    by_cases hp : p = ph
    · subst hp
      obtain rfl : d' = d := by simpa [RunWorld.setDir] using hd
      obtain h | ⟨d₀, hd₀, h⟩ := h
      · exact h
      · exact h.trans (hw _ _ hd₀)
    · exact hw p d (by simpa [RunWorld.setDir, hp] using hd)
  stays _ := ⟨ph, by simp [RunWorld.setDir]⟩
  published := .inl rfl

theorem Onward.note {doc : Option (Doc RunStatus)} (h : Onward w w')
    (hd : ∃ ph, (w'.dirs ph).isSome) : Onward w (w'.notePublished ph doc) :=
  ⟨h.untouched, h.stays, .inr hd⟩

theorem Onward.move {src dst : RunPhase} {d : RunDir} (hd : w.dirs src = some d) :
    Onward w ((w.setDir src none).setDir dst (some d)) where
  untouched hw p d' hd' := by
    by_cases hp : p = dst
    · subst hp
      obtain rfl : d = d' := by simpa [RunWorld.setDir] using hd'
      exact hw src d hd
    · by_cases hs : p = src
      · subst hs
        simp [RunWorld.setDir, hp] at hd'
      · exact hw p d' (by simpa [RunWorld.setDir, hp, hs] using hd')
  stays _ := ⟨dst, by simp [RunWorld.setDir]⟩
  published := .inl rfl

theorem Onward.map {f : RunDir → RunDir} (hf : ∀ d, (f d).touched = d.touched) :
    Onward w (w.setDir ph ((w.dirs ph).map f)) := by
  cases hd : w.dirs ph with
  | none =>
    have h : Function.update w.dirs ph none = w.dirs := Function.update_eq_self_iff.2 hd.symm
    exact Onward.of_dirs (by simp [RunWorld.setDir, h]) rfl
  | some d => exact Onward.setDir (.inr ⟨d, hd, hf d⟩)

theorem Onward.change {f : RunDir → Except IoError RunDir}
    (hf : ∀ d d', f d = .ok d' → d'.touched = d.touched) : Onward w (w.change ph f).2 := by
  unfold RunWorld.change
  split
  · exact Onward.refl w
  · rename_i d hd
    split
    · exact Onward.refl w
    · exact Onward.setDir (.inr ⟨d, hd, hf _ _ ‹_›⟩)

theorem Onward.inWork {f : Tree → Except IoError Tree} : Onward w (w.inWork f).2 := by
  unfold RunWorld.inWork
  split
  · exact Onward.refl w
  · rename_i d hd
    split
    · exact Onward.refl w
    · split
      · exact Onward.refl w
      · exact Onward.setDir (.inr ⟨d, hd, rfl⟩)

theorem Onward.createWorkDirs {now : Nat} {paths : List String} :
    Onward w (w.createWorkDirs now paths) := by
  unfold RunWorld.createWorkDirs
  split
  · rename_i d hd
    exact Onward.setDir (.inr ⟨d, hd, rfl⟩)
  · refine Onward.same (Onward.setDir (w := w) ?_) rfl rfl rfl rfl
    exact .inl rfl

theorem RunDir.removeEntry_touched {d d' : RunDir} {e : RunEntry} {now : Nat}
    (h : d.removeEntry e now = .ok d') : d'.touched = d.touched := by
  unfold RunDir.removeEntry at h
  split at h
  · cases h
    cases e <;> rfl
  · exact nomatch h

theorem RunDir.openTmp_touched (d : RunDir) (f : FileName) (torn : Except String (Doc f.Content))
    (now : Nat) : (d.openTmp f torn now).touched = d.touched := by
  unfold RunDir.openTmp
  split <;> rfl

theorem RunDir.publish_touched (d : RunDir) (f : FileName) (now : Nat) :
    (d.publish f now).touched = d.touched := by
  cases f <;> rfl

variable [DecidableEq Tid] {t : Tid}

theorem Onward.doom {b : Bool} (h : Onward w w') : Onward w (RunOp.doom t ph b w') := by
  unfold RunOp.doom
  split
  · exact ⟨h.untouched, h.stays, h.published⟩
  · exact h

omit [DecidableEq Tid] in
theorem Onward.tryFlock {ino : Nat} : Onward w (RunOp.tryFlock t ph ino w).2 := by
  unfold RunOp.tryFlock
  split <;> exact Onward.of_dirs rfl rfl

theorem RunOp.run_onward (host : Host) {o : RunOp} (ho : o.sweeps = false) (x : o.Extra)
    (now : Nat) : Onward w (o.run host t x now w).2 := by
  cases o with
  | lockExists ph sweep => exact Onward.doom (Onward.refl w)
  | readLease dooms => exact Onward.doom (Onward.refl w)
  | modified ph dooms =>
    simp only [RunOp.run]
    split
    · exact Onward.refl w
    · exact Onward.doom (Onward.refl w)
  | openTmp ph f =>
    simp only [RunOp.run]
    split
    · exact Onward.refl w
    · exact Onward.setDir (.inr ⟨_, ‹_›, RunDir.openTmp_touched _ f x now⟩)
  | writeTmp dir f doc =>
    simp only [RunOp.run]
    split
    · exact Onward.refl w
    · exact Onward.map fun d => by split <;> rfl
  | publish ph f =>
    simp only [RunOp.run]
    split
    · exact Onward.refl w
    · split
      · exact (Onward.setDir (.inr ⟨_, ‹_›, RunDir.publish_touched _ f now⟩)).note
          ⟨ph, by simp [RunWorld.setDir]⟩
      · exact Onward.refl w
  | removeFile ph f => exact Onward.change fun _ _ => RunDir.removeEntry_touched
  | removeTmp ph f => exact Onward.change fun _ _ => RunDir.removeEntry_touched
  | removeLock ph => exact Onward.change fun _ _ => RunDir.removeEntry_touched
  | removeTree ph s => exact Onward.change fun _ _ => RunDir.removeEntry_touched
  | breakTree ph s =>
    refine Onward.change fun d d' h => ?_
    split at h
    · cases h
    · cases h
      rfl
  | move src dst =>
    simp only [RunOp.run]
    split
    · exact Onward.refl w
    · exact Onward.refl w
    · exact Onward.move ‹_›
  | openLock ph =>
    simp only [RunOp.run]
    split
    · exact Onward.refl w
    · rename_i d hd
      split
      · exact Onward.refl w
      · refine Onward.same (Onward.setDir (w := w) ?_) rfl rfl rfl rfl
        exact .inr ⟨d, hd, rfl⟩
  | openLockReadonly ph sweep =>
    simp only [RunOp.run]
    split
    · exact Onward.refl w
    · split
      · exact Onward.refl w
      · exact Onward.doom (Onward.refl w)
  | flock ph ino => exact Onward.tryFlock
  | probeFlock ph ino sweep => exact Onward.doom Onward.tryFlock
  | close ino => exact Onward.of_dirs rfl rfl
  | createWork => exact Onward.createWorkDirs
  | createWorkParent path => exact Onward.createWorkDirs
  | createWorkDir path => exact Onward.inWork
  | openWorkFile path => exact Onward.inWork
  | linkInWork path target => exact Onward.inWork
  | copyToWork source path =>
    simp only [RunOp.run]
    split
    · exact Onward.refl w
    · exact Onward.inWork
  | spawn c =>
    simp only [RunOp.run]
    split
    · exact Onward.refl w
    · rename_i d hd
      refine Onward.same (Onward.setDir (w := w) ?_) rfl rfl rfl rfl
      exact .inr ⟨d, hd, rfl⟩
  | reap =>
    have h : Onward w (w.setDir .processing
        ((w.dirs .processing).map fun d => d.setTree .work (some x.2.2))) :=
      Onward.map fun d => rfl
    exact ⟨h.untouched, h.stays, h.published⟩
  | openDir ph => cases ho
  | unlink dir e => cases ho
  | rmdir ph => cases ho
  | _ => exact Onward.refl w

theorem RunOp.step_onward (host : Host) {o : RunOp} (ho : o.sweeps = false) (x : o.Choice)
    (now : Nat) : Onward w (o.step host t x now w).2 := by
  unfold RunOp.step
  split
  · exact Onward.of_dirs rfl rfl
  · exact RunOp.run_onward host ho x.2 now

end Onward

section Policy

variable {Tid : Type} [DecidableEq Tid]

/-- A call by which no garbage collection deletes the run or decides to. -/
structure Unswept (host : Host) (t : Tid) (o : RunOp) (x : o.Choice) (now : Nat)
    (w : RunWorld Tid) : Prop where
  sweeps : o.sweeps = false
  lookup : o.looksToSweep = true → x.1 = none
  pass : (o.step host t x now w).2.pass = w.pass

instance [Fintype Tid] (host : Host) (t : Tid) (o : RunOp) (x : o.Choice) (now : Nat)
    (w : RunWorld Tid) : Decidable (Unswept host t o x now w) :=
  decidable_of_iff (o.sweeps = false ∧ (o.looksToSweep = true → x.1 = none) ∧
      (o.step host t x now w).2.pass = w.pass)
    ⟨fun h => ⟨h.1, h.2.1, h.2.2⟩, fun h => ⟨h.sweeps, h.lookup, h.pass⟩⟩

/-- What is put on record when the call fails. -/
def RunWorld.fault (w : RunWorld Tid) (t : Tid) (o : RunOp) : Fault Tid :=
  ⟨o, w.grip? t, w.location, w.publishedInProcessing⟩

/-- Processes may be started and may crash at any step, and any call may fail
with an error that is not `bad`; no garbage collection deletes a run. -/
def sparingPolicy (host : Host) (bad : Fault Tid → Bool) :
    Policy Tid ServerOp ServerOp.Choice (World Tid) ServerEvent where
  step t o x w :=
    match o, x with
    | .run k o, x => Unswept host t o x w.clock (w.runs k) ∧
        (x.1.isSome = true → o.fallible = true → bad ((w.runs k).fault t o) = false)
    | _, _ => True
  env _ _ := True
  crash _ _ := True

instance [Fintype Tid] (host : Host) (bad : Fault Tid → Bool) :
    (sparingPolicy host bad).Checkable where
  step t o x w :=
    match o, x with
    | .run k o, x => inferInstanceAs (Decidable (Unswept host t o x w.clock (w.runs k) ∧
        (x.1.isSome = true → o.fallible = true → bad ((w.runs k).fault t o) = false)))
    | .unixNow, _ | .rootExists, _ | .nicknames, _ | .runIds _ _, _ => .isTrue trivial
  env _ _ := .isTrue trivial
  crash _ _ := .isTrue trivial

variable {host : Host} {config : ServerConfig} {bad : Fault Tid → Bool}

/-- What holds of a run that no garbage collection touches. -/
structure Spared (bad : Fault Tid → Bool) (w : RunWorld Tid) : Prop where
  pass : ∀ t, w.pass t = none
  faults : ∀ f ∈ w.faults, bad f = false
  untouched : ∀ ph d, w.dirs ph = some d → d.touched = false
  stays : w.published ≠ [] → ∃ ph, (w.dirs ph).isSome

theorem RunWorld.Begun.spared {w : RunWorld Tid} (h : w.Begun) : Spared bad w where
  pass := h.pass
  faults f hf := by simp [h.faults] at hf
  untouched ph d hd := (h.fresh ph d hd).2.1
  stays hp := absurd h.published hp

theorem Spared.onward {w w' : RunWorld Tid} (h : Spared bad w) (ho : Onward w w')
    (hpass : w'.pass = w.pass) (hfaults : ∀ f ∈ w'.faults, bad f = false) : Spared bad w' where
  pass t := (congrFun hpass t).trans (h.pass t)
  faults := hfaults
  untouched := ho.untouched h.untouched
  stays hp := by
    obtain he | he := ho.published
    · exact ho.stays (h.stays (he ▸ hp))
    · exact he

theorem Spared.step {t : Tid} {o : RunOp} {x : o.Choice} {now : Nat} {w : RunWorld Tid}
    (hx : Unswept host t o x now w)
    (hbad : x.1.isSome = true → o.fallible = true → bad (w.fault t o) = false)
    (h : Spared bad w) : Spared bad (o.step host t x now w).2 := by
  refine h.onward (RunOp.step_onward host hx.sweeps x now) hx.pass ?_
  by_cases hs : o.succeeds x.1 = true
  · rw [RunOp.step_run host x now hs, RunOp.run_faults]
    exact h.faults
  · obtain ⟨failure, x⟩ := x
    cases failure with
    | none => simp [RunOp.succeeds] at hs
    | some m =>
      have hf : o.fallible = true := by simpa [RunOp.succeeds] using hs
      rw [RunOp.step_fault host hf m x now]
      exact List.forall_mem_cons.2 ⟨hbad rfl hf, h.faults⟩

theorem Spared.leave {w : RunWorld Tid} (h : Spared bad w) (t : Tid) : Spared bad (w.leave t) where
  pass u := by
    by_cases hu : u = t
    · simp [RunWorld.leave, hu]
    · simpa [RunWorld.leave, hu] using h.pass u
  faults := h.faults
  untouched := h.untouched
  stays := h.stays

theorem Spared.upload {w : RunWorld Tid} (h : Spared bad w) (now : Nat) (u : Upload) :
    Spared bad (w.setDir .incoming ((w.dirs .incoming).map fun d => d.upload now u)) := by
  have ho : Onward w (w.setDir .incoming ((w.dirs .incoming).map fun d => d.upload now u)) :=
    Onward.map fun d => (RunDir.upload_core d now u).2
  exact h.onward ho rfl h.faults

/-- Every step of a run that the policy admits spares every run of the server. -/
theorem reachable_spared {c : Config Tid ServerOp ServerOp.Res (World Tid)}
    (h : Reachable (server host config) (sparingPolicy host bad) c) (k : RunKey) :
    Spared bad (c.world.runs k) := by
  refine Reachable.invariant (fun w => ∀ k, Spared bad (w.runs k)) (fun s hs k => (hs k).spared)
    (fun t o x s hx hs k => ?_) (fun t s hs k => (hs k).leave t) (fun e s _ hs k => ?_) h k
  · cases o with
    | run k' o =>
      by_cases hk : k = k'
      · subst hk
        simpa [server, serverStep, World.setRun] using (hs k).step hx.1 hx.2
      · simpa [server, serverStep, World.setRun, hk] using hs k
    | nicknames => rcases x with ⟨_ | _, _⟩ <;> exact hs k
    | runIds n ph => rcases x with ⟨_ | _, _⟩ <;> exact hs k
    | _ => exact hs k
  · cases e with
    | tick now => exact hs k
    | upload k' u =>
      by_cases hk : k = k'
      · subst hk
        simpa [server, serverEvent, World.setRun] using (hs k).upload s.clock u
      · simpa [server, serverEvent, World.setRun, hk] using hs k

theorem Unswept.calm {t : Tid} {o : RunOp} {x : o.Choice} {now : Nat} {w : RunWorld Tid}
    (hx : Unswept host t o x now w) (hpass : ∀ u, w.pass u = none) : Calm t o x.1 w where
  apart h := by
    obtain ⟨u, hu⟩ := h
    exact absurd (hpass u) hu
  ready ho hfail := by
    unfold RunOp.condemnsReady at ho
    split at ho
    · obtain ⟨d, hd, hm⟩ := (Option.any_eq_true _ _).1 ho
      have hp := congrFun hx.pass t
      obtain ⟨failure, x⟩ := x
      obtain rfl : failure = none := hfail
      simp [RunOp.step, RunOp.run, RunOp.doom, hd, hm, RunWorld.setPass, hpass] at hp
    · cases ho
  lookup := hx.lookup
  whole ht := absurd (hpass t) ht

variable {c : Config Tid ServerOp ServerOp.Res (World Tid)}

theorem sparingPolicy_calm (h : Reachable (server host config) (sparingPolicy host bad) c) {t : Tid}
    {o : ServerOp} {x : o.Choice} (hx : (sparingPolicy host bad).step t o x c.world) :
    calmPolicy.step t o x c.world := by
  cases o with
  | run k o => exact hx.1.calm (reachable_spared h k).pass
  | _ => trivial

theorem calmPolicy_env (h : Reachable (server host config) (sparingPolicy host bad) c)
    (e : ServerEvent) : calmPolicy.env e c.world := by
  cases e with
  | tick now => trivial
  | upload k u => exact fun t => (reachable_spared h k).pass t

/-- Where no collection deletes a run, nothing meets one that does. -/
theorem reachable_calm (h : Reachable (server host config) (sparingPolicy host bad) c) :
    Reachable (server host config) calmPolicy c :=
  Reachable.transfer (fun _ _ _ _ _ hr _ hx => sparingPolicy_calm hr hx)
    (fun _ e hr _ => calmPolicy_env hr e) (fun _ t hr _ k => (reachable_spared hr k).pass t) h

end Policy

end Purgery.Server
