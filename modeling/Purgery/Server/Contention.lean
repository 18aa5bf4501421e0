import Purgery.Interleaving.Schedule
import Purgery.Server.MutualExclusion
import Purgery.Server.Scene

namespace Purgery.Server

open Purgery.Interleaving

/-- What a process takes the processor lock for. -/
inductive Role where
  | processor
  | observer
deriving DecidableEq

/-- The calls that take a lock: the inode, and what for. -/
def RunOp.taking : RunOp → Option (Nat × Role)
  | .flock _ ino => some (ino, .processor)
  | .probeFlock _ ino _ => some (ino, .observer)
  | _ => none

section Locks

variable {Tid : Type} {w w' : RunWorld Tid}

theorem RunWorld.change_locks {ph : RunPhase} {f : RunDir → Except IoError RunDir} :
    (w.change ph f).2.locks = w.locks := by
  unfold RunWorld.change
  split
  · rfl
  · split <;> rfl

theorem RunWorld.inWork_locks {f : Tree → Except IoError Tree} :
    (w.inWork f).2.locks = w.locks := by
  unfold RunWorld.inWork
  split
  · rfl
  · split
    · rfl
    · split <;> rfl

theorem RunWorld.createWorkDirs_locks {now : Nat} {paths : List String} :
    (w.createWorkDirs now paths).locks = w.locks := by
  unfold RunWorld.createWorkDirs
  split <;> rfl

variable [DecidableEq Tid] {t : Tid}

theorem RunOp.doom_locks {ph : RunPhase} {b : Bool} : (RunOp.doom t ph b w).locks = w.locks := by
  unfold RunOp.doom
  split <;> rfl

omit [DecidableEq Tid] in
theorem RunOp.tryFlock_locks {ph : RunPhase} {ino : Nat} {g : Grip Tid}
    (hg : g ∈ (RunOp.tryFlock t ph ino w).2.locks) :
    g ∈ w.locks ∨ g.tid = t ∧ g.ino = ino ∧ (w.locks.all fun g => g.ino != ino) = true := by
  unfold RunOp.tryFlock at hg
  split at hg
  · exact .inl hg
  · rename_i hfree
    obtain rfl | hg := List.mem_cons.1 hg
    · refine .inr ⟨rfl, rfl, List.all_eq_true.2 fun g' hg' => ?_⟩
      simp only [List.any_eq_true, not_exists, not_and] at hfree
      simpa using hfree g' hg'
    · exact .inl hg

/-- What a call that takes no lock does to the locks of a run. -/
theorem RunOp.run_locks_eq (host : Host) {o : RunOp} (ho : o.taking = none) (x : o.Extra)
    (now : Nat) : (o.run host t x now w).2.locks = w.locks ∨
      ∃ ino, o = .close ino ∧ (o.run host t x now w).2.locks =
        w.locks.filter fun g => !(g.ino == ino && g.tid == t) := by
  cases o with
  | flock ph ino | probeFlock ph ino sweep => exact nomatch ho
  | close ino => exact .inr ⟨ino, rfl, rfl⟩
  | _ =>
    left
    simp only [RunOp.run, RunWorld.change_locks, RunWorld.inWork_locks,
      RunWorld.createWorkDirs_locks, RunOp.doom_locks]
    repeat' split
    all_goals first
      | rfl
      | exact RunOp.doom_locks
      | exact RunWorld.inWork_locks

/-- A call that takes no lock leaves no other locks than before. -/
theorem RunOp.run_locks (host : Host) {o : RunOp} (ho : o.taking = none) (x : o.Extra) (now : Nat)
    {g : Grip Tid} (hg : g ∈ (o.run host t x now w).2.locks) : g ∈ w.locks := by
  obtain hsame | ⟨ino, -, hsame⟩ := RunOp.run_locks_eq host ho x now (w := w) (t := t)
  · rwa [hsame] at hg
  · rw [hsame] at hg
    exact (List.mem_filter.1 hg).1

/-- Where the locks of a run come from. -/
theorem RunOp.step_locks (host : Host) (o : RunOp) (x : o.Choice) (now : Nat) {g : Grip Tid}
    (hg : g ∈ (o.step host t x now w).2.locks) :
    g ∈ w.locks ∨ x.1 = none ∧ g.tid = t ∧ (w.locks.all fun g' => g'.ino != g.ino) = true ∧
      ∃ role, o.taking = some (g.ino, role) := by
  by_cases hs : o.succeeds x.1 = true
  · rw [RunOp.step_run host x now hs] at hg
    cases o with
    | flock ph ino =>
      obtain hg | ⟨ht, rfl, hfree⟩ := RunOp.tryFlock_locks hg
      · exact .inl hg
      · have hx : x.1 = none := by simpa [RunOp.succeeds, RunOp.fallible] using hs
        exact .inr ⟨hx, ht, hfree, .processor, rfl⟩
    | probeFlock ph ino sweep =>
      simp only [RunOp.run, RunOp.doom_locks] at hg
      obtain hg | ⟨ht, rfl, hfree⟩ := RunOp.tryFlock_locks hg
      · exact .inl hg
      · have hx : x.1 = none := by simpa [RunOp.succeeds, RunOp.fallible] using hs
        exact .inr ⟨hx, ht, hfree, .observer, rfl⟩
    | _ => exact .inl (RunOp.run_locks host rfl x.2 now hg)
  · obtain ⟨failure, x⟩ := x
    cases failure with
    | none => simp [RunOp.succeeds] at hs
    | some m =>
      have hf : o.fallible = true := by simpa [RunOp.succeeds] using hs
      rw [RunOp.step_fault host hf m x] at hg
      exact .inl hg

end Locks

section History

variable {Tid : Type} [DecidableEq Tid] {host : Host} {config : ServerConfig} {k : RunKey}

/-- The steps of the server. -/
abbrev Step (Tid : Type) : Type := Moment Tid ServerOp ServerOp.Choice (World Tid) ServerEvent

/-- The lock of the run that a step takes: which process, which inode, and what
for. -/
def taken (k : RunKey) (m : Step Tid) : Option (Tid × Nat × Role) :=
  match m with
  | (W, .call t (.run k' o) x) =>
    match o.taking with
    | some (ino, role) =>
      if k' = k ∧ x.1 = none ∧ ((W.runs k).locks.all fun g => g.ino != ino) = true then
        some (t, ino, role)
      else none
    | none => none
  | _ => none

/-- What the lock was last taken for. -/
def roleOf (k : RunKey) (H : List (Step Tid)) (g : Grip Tid) : Option Role :=
  H.reverse.findSome? fun m => (taken k m).bind fun r =>
    if r.1 = g.tid ∧ r.2.1 = g.ino then some r.2.2 else none

variable {P : Policy Tid ServerOp ServerOp.Choice (World Tid) ServerEvent}
variable {c c' : Config Tid ServerOp ServerOp.Res (World Tid)} {g : Grip Tid}

/-- A lock that is held after a step was held before, or the step takes it. -/
theorem Next.locks {d : Deed Tid ServerOp ServerOp.Choice ServerEvent}
    (h : Next (server host config) P c d c') (hg : g ∈ (c'.world.runs k).locks) :
    g ∈ (c.world.runs k).locks ∨
      d.actor = some g.tid ∧ ∃ role, taken k (c.world, d) = some (g.tid, g.ino, role) := by
  cases h with
  | @call t o f x ht hx =>
    change g ∈ ((serverStep host t o x c.world).2.runs k).locks at hg
    cases o with
    | run k' o =>
      by_cases hk : k' = k
      · subst hk
        simp only [serverStep, World.setRun, Function.update_self] at hg
        obtain hg | ⟨hnone, rfl, hfree, role, ho⟩ := RunOp.step_locks host o x c.world.clock hg
        · exact .inl hg
        · exact .inr ⟨rfl, role, by simp [taken, ho, hfree, show x.1 = none from hnone]⟩
      · simp only [serverStep, World.setRun, Function.update_of_ne (Ne.symm hk)] at hg
        exact .inl hg
    | nicknames => rcases x with ⟨_ | _, _⟩ <;> exact .inl hg
    | runIds n ph => rcases x with ⟨_ | _, _⟩ <;> exact .inl hg
    | _ => exact .inl hg
  | leave ht hl => exact .inl (List.mem_filter.1 hg).1
  | spawn ht hp => exact .inl hg
  | env e he =>
    cases e with
    | tick now => exact .inl hg
    | upload k' u =>
      change g ∈ ((serverEvent (.upload k' u) c.world).runs k).locks at hg
      by_cases hk : k = k'
      · subst hk
        simp only [serverEvent, World.setRun, Function.update_self] at hg
        exact .inl hg
      · simp only [serverEvent, World.setRun, Function.update_of_ne hk] at hg
        exact .inl hg

theorem roleOf_append_ne_none {H L : List (Step Tid)} (h : roleOf k H g ≠ none) :
    roleOf k (H ++ L) g ≠ none := by
  unfold roleOf at h ⊢
  rw [List.reverse_append, List.findSome?_append]
  cases hL : L.reverse.findSome? fun m => (taken k m).bind fun r =>
    if r.1 = g.tid ∧ r.2.1 = g.ino then some r.2.2 else none with
  | none => simpa using h
  | some role => simp

/-- Every lock that is held was taken at some time. -/
theorem Course.roleOf_ne_none {H L : List (Step Tid)} (hc : Course (server host config) P c L c')
    (h : ∀ g ∈ (c.world.runs k).locks, roleOf k H g ≠ none) :
    ∀ g ∈ (c'.world.runs k).locks, roleOf k (H ++ L) g ≠ none := by
  induction hc generalizing H with
  | refl c => simpa using h
  | @cons c c₁ c' d L hn _ ih =>
    have hstep : ∀ g ∈ (c₁.world.runs k).locks, roleOf k (H ++ [(c.world, d)]) g ≠ none := by
      intro g hg
      obtain hg | ⟨-, role, htaken⟩ := Next.locks hn hg
      · exact roleOf_append_ne_none (h g hg)
      · simp [roleOf, htaken]
    simpa using ih hstep

/-- A lock that was taken, and not to look at it, was taken by a processor. -/
theorem roleOf_processor {H : List (Step Tid)} (h : roleOf k ([] ++ H) g ≠ none)
    (hobserver : roleOf k H g ≠ some .observer) : roleOf k H g = some .processor := by
  rw [List.nil_append] at h
  cases hrole : roleOf k H g with
  | none => exact absurd hrole h
  | some role =>
    cases role with
    | processor => rfl
    | observer => exact absurd hrole hobserver

/-- Process `t` holds no lock of the run. -/
def Unheld (t : Tid) (w : RunWorld Tid) : Prop := ∀ g ∈ w.locks, g.tid ≠ t

/-- A step of another process does not give this one a lock. -/
theorem Next.unheld {t : Tid} {d : Deed Tid ServerOp ServerOp.Choice ServerEvent}
    (hn : Next (server host config) P c d c') (hne : d.actor ≠ some t)
    (hu : Unheld t (c.world.runs k)) : Unheld t (c'.world.runs k) := by
  intro g hg
  obtain hg | ⟨ha, -⟩ := Next.locks hn hg
  · exact hu g hg
  · rintro rfl
    exact hne ha

/-- A process that does not run holds no lock. -/
theorem Course.unheld {t : Tid} {L : List (Step Tid)} (hc : Course (server host config) P c L c')
    (h : c.threads t = none → Unheld t (c.world.runs k)) (ht : c'.threads t = none) :
    Unheld t (c'.world.runs k) := by
  induction hc with
  | refl c => exact h ht
  | @cons c c₁ c' d L hn _ ih =>
    refine ih (fun ht₁ => ?_) ht
    by_cases ha : d.actor = some t
    · cases hn with
      | call x hc hx => simp [Config.put, Option.some.inj ha] at ht₁
      | leave hc hl =>
        obtain rfl := Option.some.inj ha
        intro g hg
        simpa using (List.mem_filter.1 hg).2
      | spawn hc hp => simp [Config.put, Option.some.inj ha] at ht₁
      | env e he => cases ha
    · exact Next.unheld hn ha (h ((hn.threads_other ha).symm.trans ht₁))

end History

section Grips

variable {Tid : Type} [DecidableEq Tid] {host : Host} {config : ServerConfig} {k : RunKey}
variable {t : Tid} {w w' : RunWorld Tid} {α : Type}
variable {L : Log RunOp (fun o => o.Choice × Nat) (RunWorld Tid)}

/-- The calls of process `t` on a run, as far as its own locks go: the others
do not give it any. -/
def gripScene (host : Host) (t : Tid) :
    Scene RunOp RunOp.Res (fun o => o.Choice × Nat) (RunWorld Tid) where
  step o x w := o.step host t x.1 x.2 w
  admits _ _ _ := True
  inv _ := True
  rely w w' := ∀ g ∈ w'.locks, g.tid = t → g ∈ w.locks

theorem gripScene_part (P : Policy Tid ServerOp ServerOp.Choice (World Tid) ServerEvent) :
    (gripScene host t).Part (server host config) P t (atRun k) (fun W => W.runs k)
      (fun _ x W => (x, W.clock)) where
  step o x w := by simp [gripScene, server, serverStep, World.setRun, atRun]
  refl _ _ hg _ := hg
  trans _ _ _ h h' g hg ht := h g (h' g hg ht) ht
  inv _ _ := trivial
  rely c d c' hr hn hne g hg ht := by
    obtain hg | ⟨ha, -⟩ := Next.locks hn hg
    · exact hg
    · exact absurd (ht ▸ ha) hne

theorem gripScene_refl (w : RunWorld Tid) : (gripScene host t).rely w w := fun _ hg _ => hg

/-- The locks of process `t` are on this inode. -/
def OnlyIno (t : Tid) (ino : Nat) (w : RunWorld Tid) : Prop := ∀ g ∈ w.locks, g.tid = t → g.ino = ino

theorem Unheld.rely (h : Unheld t w) (hr : (gripScene host t).rely w w') : Unheld t w' :=
  fun g hg ht => h g (hr g hg ht) ht

theorem OnlyIno.rely {ino : Nat} (h : OnlyIno t ino w) (hr : (gripScene host t).rely w w') :
    OnlyIno t ino w' := fun g hg ht => h g (hr g hg ht) ht

/-- Code that takes no lock. -/
abbrev Lockless (p : Call α) : Prop := p.Only fun o => o.taking = none

theorem lockless_sys {o : RunOp} (ho : o.taking = none) : Lockless (sys o) := only_sys ho

/-- Code that takes no lock adds none. -/
theorem Overtaken.untaken {p : Call α} {a : α} (hp : Lockless p)
    (h : Overtaken (gripScene host t) p w L a w') : (gripScene host t).rely w w' := by
  refine h.keeps (I := fun w' => (gripScene host t).rely w w') hp ?_ ?_ (gripScene_refl w)
  · exact fun w₁ w₂ hr h g hg ht => h g (hr g hg ht) ht
  · intro o x w₁ ho _ _ h g hg ht
    obtain hg | ⟨-, -, -, role, hrole⟩ := RunOp.step_locks host o x.1 x.2 hg
    · exact h g hg ht
    · exact nomatch ho.symm.trans hrole

theorem Overtaken.close {ino : Nat} {f : Unit → Call α} {a : α} (hw : OnlyIno t ino w)
    (h : Overtaken (gripScene host t) (sys (.close ino) >>= f) w L a w') :
    ∃ w₁ L₁, L₁ ⊆ L ∧ Unheld t w₁ ∧ Overtaken (gripScene host t) (f ()) w₁ L₁ a w' := by
  obtain ⟨w₁, x, L₁, rfl, hr, -, -, h⟩ := h.call_inv
  refine ⟨_, L₁, List.subset_cons_self _ _, fun g hg ht => ?_, h⟩
  have hs : (RunOp.close ino).succeeds x.1.1 = true := by simp [RunOp.succeeds, RunOp.fallible]
  simp only [gripScene, RunOp.step_run host x.1 x.2 hs, RunOp.run] at hg
  obtain ⟨hmem, hne⟩ := List.mem_filter.1 hg
  simp [hw.rely hr g hmem ht, ht] at hne

/-- Code that takes no lock, and what comes after it. -/
theorem Overtaken.past {β : Type} {p : Call β} {f : β → Call α} {a : α}
    (hp : Lockless p) (h : Overtaken (gripScene host t) (p >>= f) w L a w') :
    ∃ b w₁ L₁, L₁ ⊆ L ∧ (gripScene host t).rely w w₁ ∧
      Overtaken (gripScene host t) (f b) w₁ L₁ a w' := by
  obtain ⟨b, w₁, L₁, L₂, rfl, hrun, h⟩ := h.bind_inv gripScene_refl
  exact ⟨b, w₁, L₂, List.subset_append_right _ _, Overtaken.untaken hp hrun, h⟩

/-- Process `t` came to the lock when it had none itself, and somebody held it. -/
def Contended (t : Tid) (L : Log RunOp (fun o => o.Choice × Nat) (RunWorld Tid)) : Prop :=
  ∃ w₁ ph ino x, (w₁, ⟨.flock ph ino, x⟩) ∈ L ∧ Unheld t w₁ ∧ ∃ g ∈ w₁.locks, g.ino = ino

omit [DecidableEq Tid] in
theorem Contended.mono {L L' : Log RunOp (fun o => o.Choice × Nat) (RunWorld Tid)}
    (h : Contended t L) (hL : L ⊆ L') : Contended t L' := by
  obtain ⟨w₁, ph, ino, x, hm, hu, hg⟩ := h
  exact ⟨w₁, ph, ino, x, hL hm, hu, hg⟩

theorem flock_busy {ph : RunPhase} {ino : Nat} {x : (RunOp.flock ph ino).Choice} {now : Nat}
    (h : (RunOp.step host t (.flock ph ino) x now w).1 = .ok false) : ∃ g ∈ w.locks, g.ino = ino := by
  obtain ⟨failure, x⟩ := x
  cases failure with
  | some message => exact nomatch h
  | none =>
    have hfalse : (RunOp.tryFlock t ph ino w).1 = false := Except.ok.inj h
    unfold RunOp.tryFlock at hfalse
    split at hfalse
    · rename_i hany
      simpa using hany
    · exact nomatch hfalse

theorem tryLockExistingDir_grips {ph : RunPhase} {r : Except String ProcessorLockAttempt}
    (h : Overtaken (gripScene host t) (tryLockExistingDir config k ph).run w L r w')
    (hw : Unheld t w) :
    (∃ ino, r = .ok (.acquired ino) ∧ OnlyIno t ino w') ∨
      (∀ ino, r ≠ .ok (.acquired ino)) ∧ Unheld t w' ∧ (r = .ok .busy → Contended t L) := by
  rw [tryLockExistingDir, ask_run_bind] at h
  obtain ⟨found, w₁, L₁, hL₁, hr₁, h⟩ := Overtaken.past (lockless_sys rfl) h
  have hw₁ := hw.rely hr₁
  split at h
  · obtain ⟨rfl, -, hr⟩ := h.ret_inv
    exact .inr ⟨nofun, hw₁.rely hr, nofun⟩
  obtain ⟨e, rfl, w₂, hopen, hr⟩ | ⟨ino, w₂, L₂, L₃, rfl, hopen, h⟩ :=
    h.runBind_inv gripScene_refl
  · have hr₂ := Overtaken.untaken (only_io (lockless_sys rfl)) hopen
    exact .inr ⟨nofun, (hw₁.rely hr₂).rely hr, nofun⟩
  have hw₂ := hw₁.rely (Overtaken.untaken (only_io (lockless_sys rfl)) hopen)
  rw [ask_run_bind] at h
  obtain ⟨w₃, x, L₄, rfl, hr₃, -, -, h⟩ := h.perform_inv
  have hw₃ := hw₂.rely hr₃
  have honly : OnlyIno t ino ((gripScene host t).step (.flock ph ino) x w₃).2 := by
    intro g hg ht
    obtain hg | ⟨-, -, -, role, hrole⟩ := RunOp.step_locks host _ x.1 x.2 hg
    · exact absurd ht (hw₃ g hg)
    · exact (congrArg Prod.fst (Option.some.inj hrole)).symm
  have hbusy : ((gripScene host t).step (.flock ph ino) x w₃).1 = .ok false → Contended t L :=
    fun hres => ⟨w₃, ph, ino, x, hL₁ (by simp), hw₃, flock_busy hres⟩
  generalize ((gripScene host t).step (.flock ph ino) x w₃).1 = res at h hbusy
  split at h
  · obtain ⟨rfl, -, hr⟩ := h.ret_inv
    exact .inl ⟨ino, rfl, honly.rely hr⟩
  · obtain ⟨w₄, L₅, -, hw₄, h⟩ := Overtaken.close honly h
    obtain ⟨rfl, -, hr⟩ := h.ret_inv
    exact .inr ⟨nofun, hw₄.rely hr, fun _ => hbusy rfl⟩
  · obtain ⟨w₄, L₅, -, hw₄, h⟩ := Overtaken.close honly h
    obtain ⟨rfl, -, hr⟩ := h.ret_inv
    exact .inr ⟨nofun, hw₄.rely hr, nofun⟩

theorem Lockless.of_unlocking {p : Call α} (h : Unlocking p) : Lockless p :=
  h.mono fun o ho => by cases o <;> first | rfl | exact nomatch ho

/-- Whoever does not claim the run gives the lock back. -/
theorem renameClaimed_grips {lock : Nat} {r : ReadyClaimOutcome}
    (h : Overtaken (gripScene host t) (renameClaimed k lock) w L r w') (hw : OnlyIno t lock w) :
    r = .claimed lock ∨ r ≠ .activeClaimer ∧ Unheld t w' := by
  obtain ⟨parent, w₁, L₁, -, hr₁, h⟩ := Overtaken.past (lockless_sys rfl) h
  split at h
  · obtain ⟨w₂, L₂, -, hw₂, h⟩ := Overtaken.close (hw.rely hr₁) h
    obtain ⟨rfl, -, hr⟩ := h.ret_inv
    exact .inr ⟨nofun, hw₂.rely hr⟩
  obtain ⟨moved, w₂, L₂, -, hr₂, h⟩ := Overtaken.past (lockless_sys rfl) h
  split at h
  · exact .inl h.ret_inv.1
  · obtain ⟨w₃, L₃, -, hw₃, h⟩ := Overtaken.close ((hw.rely hr₁).rely hr₂) h
    refine .inr ⟨?_, hw₃.rely (Overtaken.untaken (Lockless.of_unlocking recheckState_unlocking) h)⟩
    exact Overtaken.answers (Q := fun r => r ≠ .activeClaimer) (recheckState_answers nofun nofun nofun nofun) h

theorem claimReadyRun_grips {r : ReadyClaimOutcome}
    (h : Overtaken (gripScene host t) (claimReadyRun config k) w L r w') (hw : Unheld t w) :
    (∃ lock, r = .claimed lock) ∨ Unheld t w' ∧ (r = .activeClaimer → Contended t L) := by
  obtain ⟨found, w₁, L₁, hL₁, hr₁, h⟩ := Overtaken.past (lockless_sys rfl) h
  have hw₁ := hw.rely hr₁
  have hrecheck : ∀ {w₁ L₁}, Unheld t w₁ →
      Overtaken (gripScene host t) (recheckState k) w₁ L₁ r w' →
      Unheld t w' ∧ (r = .activeClaimer → Contended t L) := by
    intro w₁ L₁ hw₁ h
    refine ⟨hw₁.rely (Overtaken.untaken (Lockless.of_unlocking recheckState_unlocking) h), fun hr => absurd hr ?_⟩
    exact Overtaken.answers (Q := fun r => r ≠ .activeClaimer) (recheckState_answers nofun nofun nofun nofun) h
  split at h
  · exact .inr (hrecheck hw₁ h)
  obtain ⟨attempt, w₂, L₂, L₃, rfl, hlock, h⟩ := h.bind_inv gripScene_refl
  have hattempt := tryLockExistingDir_grips hlock hw₁
  split at h
  · obtain ⟨lock, hno, -⟩ | ⟨-, hu, hbusy⟩ := hattempt
    · exact nomatch hno
    obtain ⟨rfl, -, hr⟩ := h.ret_inv
    refine .inr ⟨hu.rely hr, fun _ => (hbusy rfl).mono fun m hm => hL₁ ?_⟩
    exact List.mem_append_left _ hm
  · obtain ⟨lock, hno, -⟩ | ⟨-, hu, -⟩ := hattempt
    · exact nomatch hno
    exact .inr (hrecheck hu h)
  · obtain ⟨lock, hno, -⟩ | ⟨-, hu, -⟩ := hattempt
    · exact nomatch hno
    obtain ⟨rfl, -, hr⟩ := h.ret_inv
    exact .inr ⟨hu.rely hr, nofun⟩
  · rename_i lock
    obtain ⟨_, ⟨⟩, honly⟩ | ⟨hno, -⟩ := hattempt
    · obtain ⟨inputs, w₃, L₄, -, hr₃, h⟩ :=
        Overtaken.past (Lockless.of_unlocking (readCompatibleRunInputs_unlocking .ready)) h
      have honly := honly.rely hr₃
      split at h
      · obtain ⟨w₄, L₅, -, hw₄, h⟩ := Overtaken.close honly h
        obtain ⟨rfl, -, hr⟩ := h.ret_inv
        exact .inr ⟨hw₄.rely hr, nofun⟩
      · obtain ⟨outcome, w₄, L₅, L₆, -, hmalformed, h⟩ := h.bind_inv gripScene_refl
        have hr₄ := Overtaken.untaken (Lockless.of_unlocking (handleMalformedReady_unlocking _)) hmalformed
        obtain ⟨w₅, L₇, -, hw₅, h⟩ := Overtaken.close (honly.rely hr₄) h
        obtain ⟨rfl, -, hr⟩ := h.ret_inv
        refine .inr ⟨hw₅.rely hr, fun hr => absurd hr ?_⟩
        exact Overtaken.answers (Q := fun r => r ≠ .activeClaimer)
          (handleMalformedReady_answers nofun nofun) hmalformed
      · obtain hclaimed | ⟨hne, hu⟩ := renameClaimed_grips h honly
        · exact .inl ⟨lock, hclaimed⟩
        · exact .inr ⟨hu, fun hr => absurd hr hne⟩
    · exact absurd rfl (hno lock)

/-- The process-run answers that somebody else is at work on the run. -/
def Waits (r : Except String ProcessRunInnerResult) : Prop :=
  ∃ inner, r = .ok inner ∧ (inner.outcome = .alreadyActive ∨ inner.outcome = .claimInProgress)

theorem Waits.not_error (e : String) : ¬ Waits (.error e) := fun ⟨_, h, _⟩ => nomatch h

theorem Waits.not_over {inner : ProcessRunInnerResult}
    (h : inner.outcome = .processed ∨ inner.outcome = .alreadyTerminal) : ¬ Waits (.ok inner) := by
  rintro ⟨_, ⟨⟩, hw⟩
  obtain h | h := h <;> simp [h] at hw

theorem verified_waits {g : Option (String × String) → ExceptT String Call ProcessRunInnerResult}
    {f : String × String → ProcessRunInnerResult} {absent : String} (hnone : g none = throw absent)
    (hsome : ∀ p, g (some p) = return f p)
    (hf : ∀ p, (f p).outcome = .processed ∨ (f p).outcome = .alreadyTerminal) :
    (verifiedTerminalStatus k >>= g).run.Answers fun r => ¬ Waits r := by
  refine Prog.Answers.runBind (A := fun _ => True) (.any fun _ => trivial) (fun a _ => ?_)
    fun e _ => Waits.not_error e
  cases a with
  | none =>
    rw [hnone]
    exact Waits.not_error absent
  | some p =>
    rw [hsome]
    exact Waits.not_over (hf p)

theorem terminalResponse_waits (message : String) :
    (terminalResponse k .processed message).run.Answers fun r => ¬ Waits r :=
  verified_waits (f := fun p => ⟨.processed, some p.1, some p.2, some message⟩) rfl (fun _ => rfl)
    fun _ => .inl rfl

theorem alreadyTerminalResponse_waits (message absent : String) :
    (alreadyTerminalResponse k message absent).run.Answers fun r => ¬ Waits r :=
  verified_waits (f := fun p => ⟨.alreadyTerminal, some p.1, some p.2, some message⟩) rfl
    (fun _ => rfl) fun _ => .inr rfl

theorem processClaimed_waits :
    (processClaimed host config k).run.Answers fun r => ¬ Waits r := by
  refine Prog.Answers.liftBind (.any (Q := fun _ => True) fun _ => trivial) fun r _ => ?_
  split
  · exact terminalResponse_waits _
  · exact Waits.not_error _
  · refine Prog.Answers.liftBind (.any (Q := fun _ => True) fun _ => trivial) fun moved _ => ?_
    split
    · exact terminalResponse_waits _
    · exact Waits.not_error _

theorem recoverLocked_active :
    (recoverLocked host config k).Answers fun r => r ≠ .activeProcessor := by
  refine Prog.Answers.after fun r => ?_
  split
  · exact nofun
  · exact nofun
  · refine Prog.Answers.after fun found => ?_
    split
    · refine Prog.Answers.after fun published => ?_
      split <;> exact nofun
    · exact nofun

theorem recoverProcessingRunIfUnlocked_grips
    (h : Overtaken (gripScene host t) (recoverProcessingRunIfUnlocked host config k).run w L
      (.ok .activeProcessor) w') (hw : Unheld t w) : Contended t L := by
  rw [recoverProcessingRunIfUnlocked, ask_run_bind] at h
  obtain ⟨found, w₁, L₁, hL₁, hr₁, h⟩ := Overtaken.past (lockless_sys rfl) h
  split at h
  · exact nomatch h.ret_inv.1
  obtain ⟨attempt, w₂, L₂, L₃, rfl, hlock, h⟩ := h.lift_inv gripScene_refl
  have hattempt := tryLockExistingDir_grips hlock (hw.rely hr₁)
  split at h
  · obtain ⟨lock, hno, -⟩ | ⟨-, -, hbusy⟩ := hattempt
    · exact nomatch hno
    · exact (hbusy rfl).mono fun m hm => hL₁ (List.mem_append_left _ hm)
  · exact nomatch h.ret_inv.1
  · exact nomatch h.ret_inv.1
  · exfalso
    obtain ⟨outcome, w₃, L₄, L₅, rfl, hlocked, h⟩ := h.lift_inv gripScene_refl
    rw [ask_run_bind] at h
    obtain ⟨_, w₄, L₆, -, -, h⟩ := Overtaken.past (lockless_sys rfl) h
    have hne := hlocked.answers recoverLocked_active
    exact hne (Except.ok.inj h.ret_inv.1).symm

theorem handleProcessRunProcessingOutcome_grips {r : Except String ProcessRunInnerResult}
    (h : Overtaken (gripScene host t) (handleProcessRunProcessingOutcome host config k).run w L r
      w') (hw : Unheld t w) (hr : Waits r) : Contended t L := by
  obtain ⟨e, rfl, -⟩ | ⟨outcome, w₁, L₁, L₂, rfl, hrecover, h⟩ := h.runBind_inv gripScene_refl
  · exact absurd hr (Waits.not_error e)
  by_cases ho : outcome = .activeProcessor
  · subst ho
    have hc := recoverProcessingRunIfUnlocked_grips hrecover hw
    exact hc.mono fun m hm => List.mem_append_left _ hm
  · refine absurd hr (Overtaken.answers (Q := fun r => ¬ Waits r) ?_ h)
    cases outcome with
    | activeProcessor => exact absurd rfl ho
    | recovered => exact terminalResponse_waits _
    | failedPublished error => exact terminalResponse_waits _
    | notFound => exact alreadyTerminalResponse_waits _ _
    | incompatible message => exact Waits.not_error _
    | failurePublishFailed recoveryError publishError => exact Waits.not_error _

/-- A process-run waits only where it met somebody at the lock. -/
theorem processRunInner_grips {r : Except String ProcessRunInnerResult}
    (h : Overtaken (gripScene host t) (processRunInner host config k).run w L r w')
    (hw : Unheld t w) (hr : Waits r) : Contended t L := by
  obtain ⟨outcome, w₁, L₁, L₂, rfl, hclaim, h⟩ := h.lift_inv gripScene_refl
  have hright : ∀ {L' : Log RunOp (fun o => o.Choice × Nat) (RunWorld Tid)}, L' ⊆ L₂ →
      Contended t L' → Contended t (L₁ ++ L₂) :=
    fun hL hc => hc.mono fun m hm => List.mem_append_right _ (hL hm)
  obtain ⟨lock, rfl⟩ | ⟨hu, hbusy⟩ := claimReadyRun_grips hclaim hw
  · refine absurd hr (Overtaken.answers (Q := fun r => ¬ Waits r) ?_ h)
    exact Prog.Answers.liftBind processClaimed_waits fun inner hinner => fun _ => hinner
  cases outcome with
  | activeClaimer => exact (hbusy rfl).mono (List.subset_append_left _ _)
  | alreadyProcessing =>
    exact hright (List.Subset.refl _) (handleProcessRunProcessingOutcome_grips h hu hr)
  | notFound =>
    have h : Overtaken _ (processNotReady host config k).run w₁ L₂ r w' := h
    rw [processNotReady, ask_run_bind] at h
    obtain ⟨found, w₂, L₃, hL₃, hr₂, h⟩ := Overtaken.past (lockless_sys rfl) h
    split at h
    · exact hright hL₃ (handleProcessRunProcessingOutcome_grips h (hu.rely hr₂) hr)
    · exact absurd hr (Overtaken.answers (Q := fun r => ¬ Waits r)
        (alreadyTerminalResponse_waits _ _) h)
  | _ =>
    refine absurd hr (Overtaken.answers (Q := fun r => ¬ Waits r) ?_ h)
    first
      | exact Waits.not_error _
      | exact terminalResponse_waits _
      | exact alreadyTerminalResponse_waits _ _
      | exact Prog.Answers.liftBind processClaimed_waits fun inner hinner => fun _ => hinner

end Grips

section Waiting

variable {Tid : Type} [DecidableEq Tid] {host : Host} {config : ServerConfig} {k : RunKey}
variable {t : Tid}

/-- Process `t` goes for the lock, which another process holds that took it
for `role`. -/
def Meets (role : Role) (k : RunKey) (t : Tid) (H : List (Step Tid)) (m : Step Tid) : Prop :=
  ∃ W ph ino x, m = (W, .call t (.run k (.flock ph ino)) x) ∧
    ∃ g ∈ (W.runs k).locks, g.ino = ino ∧ g.tid ≠ t ∧ roleOf k H g = some role

def meetsTest (role : Role) (k : RunKey) (t : Tid) (H : List (Step Tid)) (m : Step Tid) : Bool :=
  match m with
  | (W, .call u (.run k' (.flock _ ino)) _) =>
    u = t ∧ k' = k ∧ (W.runs k).locks.any fun g =>
      g.ino = ino ∧ g.tid ≠ t ∧ roleOf k H g = some role
  | _ => false

theorem meets_iff {role : Role} {H : List (Step Tid)} {m : Step Tid} :
    Meets role k t H m ↔ meetsTest role k t H m = true := by
  constructor
  · rintro ⟨W, ph, ino, x, rfl, g, hg, hholds⟩
    simp only [meetsTest, decide_eq_true_eq, List.any_eq_true]
    exact ⟨trivial, trivial, g, hg, hholds⟩
  · intro h
    unfold meetsTest at h
    split at h
    · rename_i W u k' ph ino x
      simp only [decide_eq_true_eq, List.any_eq_true] at h
      obtain ⟨rfl, rfl, g, hg, hholds⟩ := h
      exact ⟨W, ph, ino, x, rfl, g, hg, hholds⟩
    · exact nomatch h

instance {role : Role} {H : List (Step Tid)} {m : Step Tid} : Decidable (Meets role k t H m) :=
  decidable_of_iff _ meets_iff.symm

/-- At some attempt of `t` the lock is held for `role`. -/
abbrev Met (role : Role) (k : RunKey) (t : Tid) (H L : List (Step Tid)) : Prop :=
  Sometime (Meets role k t) H L

/-- A process-run that never comes to the lock while an observer holds it
leaves the run to somebody else only if a processor holds the lock. -/
theorem waits_for_processor {s : World Tid} {H L : List (Step Tid)}
    {c c' : Config Tid ServerOp ServerOp.Res (World Tid)} {r : ProcessRunInnerResult}
    (hs : (server host config).init s)
    (hH : Course (server host config) .any ⟨s, fun _ => none⟩ H c) (ht : c.threads t = none)
    (h : Performs (server host config) .any t (fun _ => pure ()) (processRunTarget host config k)
      (c.put t (some (discard (processRunTarget host config k))) c.world) L (.ok r) c')
    (hr : r.outcome = .alreadyActive ∨ r.outcome = .claimInProgress)
    (hobserver : ¬ Met .observer k t (H ++ [(c.world, .spawn t)]) L) :
    Met .processor k t (H ++ [(c.world, .spawn t)]) L := by
  have hstart : Next (server host config) .any c (.spawn t)
      (c.put t (some (discard (processRunTarget host config k))) c.world) :=
    .spawn ht (.processRun k)
  have hH' := hH.snoc hstart
  have hr₁ := (Reachable.init hs).course hH'
  have hfree : ∀ g ∈ (s.runs k).locks, False := fun g hg => by simp [(hs k).locks] at hg
  have hunheld : Unheld t (c.world.runs k) :=
    Course.unheld hH (fun _ g hg => (hfree g hg).elim) ht
  obtain ⟨L', hL', hlog⟩ := Performs.overtaken (gripScene_part .any) hr₁ h
    fun _ _ _ _ _ _ _ => trivial
  obtain ⟨w₁, ph, ino, x, hm, hu, g, hg, hino⟩ := processRunInner_grips hL' hunheld ⟨r, rfl, hr⟩
  obtain ⟨W, y, hW, rfl, -⟩ := hlog.made w₁ _ x hm
  obtain ⟨L₁, L₂, rfl⟩ := List.append_of_mem hW
  refine ⟨L₁, _, L₂, rfl, W, ph, ino, y, rfl, g, hg, hino, hu g hg, ?_⟩
  obtain ⟨c₁, c₂, hc₁, rfl, -, -⟩ := h.course.split
  have hrole := Course.roleOf_ne_none (H := []) (hH'.trans hc₁)
    (fun g hg => (hfree g hg).elim) g hg
  refine roleOf_processor hrole fun hwatched => hobserver ?_
  exact ⟨L₁, _, L₂, rfl, c₁.world, ph, ino, y, rfl, g, hg, hino, hu g hg, hwatched⟩

end Waiting

section Sample

variable {α : Type} {p : Action α}

/-- Process `false` runs `p` on the sample run: what happens before it, and the
schedule meanwhile. -/
def sampleCall (P : Policy Bool ServerOp ServerOp.Choice (World Bool) ServerEvent) [P.Checkable]
    (p : Action α) (before during : List (Entry Bool)) :
    Option (List (Step Bool) × List (Step Bool) × Config Bool ServerOp ServerOp.Res (World Bool) ×
      α × Config Bool ServerOp ServerOp.Res (World Bool)) :=
  (record P before ⟨sampleWorld Bool 0 .ready, fun _ => none⟩).bind fun (H, c) =>
    match c.threads false with
    | some _ => none
    | none => (follow P false (fun _ => pure ()) during p
        (c.put false (some (discard p)) c.world)).map fun (L, a, c') => (H, L, c, a, c')

theorem sampleCall_performs
    {P : Policy Bool ServerOp ServerOp.Choice (World Bool) ServerEvent} [P.Checkable]
    {before during : List (Entry Bool)} {H L : List (Step Bool)}
    {c c' : Config Bool ServerOp ServerOp.Res (World Bool)} {a : α}
    (h : sampleCall P p before during = some (H, L, c, a, c')) :
    Course (server sampleHost sampleConfig) P ⟨sampleWorld Bool 0 .ready, fun _ => none⟩ H c ∧
      c.threads false = none ∧
      Performs (server sampleHost sampleConfig) P false (fun _ => pure ()) p
        (c.put false (some (discard p)) c.world) L a c' := by
  obtain ⟨⟨H₁, c₁⟩, hrecord, h⟩ := Option.bind_eq_some_iff.1 h
  simp only at h
  split at h
  · cases h
  · rename_i ht
    obtain ⟨⟨L₁, a₁, c₂⟩, hfollow, heq⟩ := Option.map_eq_some_iff.1 h
    cases heq
    exact ⟨.of_record hrecord, ht, .of_follow hfollow (by simp [Config.put, discard])⟩

/-- The process-run waits, and it met the one at the lock and not the other. -/
def waitsWith (role other : Role) (before : List (Entry Bool)) : Bool :=
  (sampleCall .any (processRunTarget sampleHost sampleConfig sampleKey) before
    (steps false 20 fun _ => false)).any fun (H, L, c, a, _) =>
      a.toOption.any (fun r => r.outcome = .alreadyActive ∨ r.outcome = .claimInProgress) &&
        decide (Met role sampleKey false (H ++ [(c.world, .spawn false)]) L) &&
        !decide (Met other sampleKey false (H ++ [(c.world, .spawn false)]) L)

theorem exists_waiting (role other : Role) (before : List (Entry Bool))
    (h : waitsWith role other before = true) :
    ∃ (H L : List (Step Bool)) (c c' : Config Bool ServerOp ServerOp.Res (World Bool))
      (r : ProcessRunInnerResult),
      Course (server sampleHost sampleConfig) .any ⟨sampleWorld Bool 0 .ready, fun _ => none⟩ H c ∧
      c.threads false = none ∧
      Performs (server sampleHost sampleConfig) .any false (fun _ => pure ())
        (processRunTarget sampleHost sampleConfig sampleKey)
        (c.put false (some (discard (processRunTarget sampleHost sampleConfig sampleKey))) c.world)
        L (.ok r) c' ∧
      (r.outcome = .alreadyActive ∨ r.outcome = .claimInProgress) ∧
      Met role sampleKey false (H ++ [(c.world, .spawn false)]) L ∧
      ¬ Met other sampleKey false (H ++ [(c.world, .spawn false)]) L := by
  obtain ⟨⟨H, L, c, a, c'⟩, hcall, htest⟩ := (Option.any_eq_true _ _).1 h
  simp only [Bool.and_eq_true, decide_eq_true_eq, Bool.not_eq_true', decide_eq_false_iff_not]
    at htest
  obtain ⟨⟨ha, hmet⟩, hother⟩ := htest
  obtain ⟨hH, ht, hL⟩ := sampleCall_performs hcall
  cases a with
  | error e => exact nomatch ha
  | ok r =>
    have hr : r.outcome = .alreadyActive ∨ r.outcome = .claimInProgress := by
      simpa [Except.toOption] using ha
    exact ⟨H, L, c, c', r, hH, ht, hL, hr, hmet, hother⟩

/-- A process has taken the lock of the ready run, and another one comes. -/
theorem waits_for_processor_claim :
    ∃ (H L : List (Step Bool)) (c : Config Bool ServerOp ServerOp.Res (World Bool)),
      Met .processor sampleKey false (H ++ [(c.world, .spawn false)]) L := by
  obtain ⟨H, L, c, c', r, hH, ht, hL, hr, -, hobserver⟩ := exists_waiting
    .processor .observer ([startProcessRun true] ++ steps true 4 fun _ => false) (by decide +kernel)
  exact ⟨H, L, c, waits_for_processor (sampleWorld_init Bool (.inr rfl) _ _) hH ht hL hr hobserver⟩

/-- The processor has crashed, a poller probes the lock of the abandoned run, and
a process-run that comes meanwhile leaves the run alone. -/
theorem waits_for_observer :
    (server sampleHost sampleConfig).init (sampleWorld Bool 0 .ready) ∧ ∃ (H L : List (Step Bool)) (c c' : Config Bool ServerOp ServerOp.Res (World Bool))
      (r : ProcessRunInnerResult),
      Course (server sampleHost sampleConfig) .any ⟨sampleWorld Bool 0 .ready, fun _ => none⟩ H c ∧
      c.threads false = none ∧
      Performs (server sampleHost sampleConfig) .any false (fun _ => pure ())
        (processRunTarget sampleHost sampleConfig sampleKey)
        (c.put false (some (discard (processRunTarget sampleHost sampleConfig sampleKey))) c.world)
        L (.ok r) c' ∧
      (r.outcome = .alreadyActive ∨ r.outcome = .claimInProgress) ∧
      Met .observer sampleKey false (H ++ [(c.world, .spawn false)]) L ∧
      ¬ Met .processor sampleKey false (H ++ [(c.world, .spawn false)]) L :=
  ⟨sampleWorld_init Bool (.inr rfl) _ _, exists_waiting .observer .processor
    ([startProcessRun true] ++ steps true 9 (fun _ => false) ++
      [.leave true, .spawn true ⟨_, .runState sampleKey⟩] ++ steps true 10 fun _ => false)
    (by decide +kernel)⟩

end Sample

end Purgery.Server
