import Purgery.Server.Exclusion.Incoming

namespace Purgery.Server

open Purgery.Interleaving

variable {Tid : Type} [DecidableEq Tid]
variable {host : Host} {config : ServerConfig} {k : RunKey} {t : Tid}
variable {w : RunWorld Tid} {α β : Type}

/-- The code leaves no lock and no removal behind on the run. -/
def Settles (host : Host) (config : ServerConfig) (k : RunKey) (t : Tid) (p : Action α) : Prop :=
  Triple (lockContract host config k) t (fun w => Idle t (w.runs k)) p
    (fun _ w => Idle t (w.runs k))

/-- A call that is not one on the run. -/
def ServerOp.elsewhere (k : RunKey) : ServerOp → Prop
  | .run k' _ => k' ≠ k
  | _ => True

namespace Settles

theorem ret {a : α} : Settles host config k t (.ret a) :=
  Triple.ret fun _ _ _ _ hr h => Idle.rely h hr

theorem bind {p : Action α} {f : α → Action β} (hp : Settles host config k t p)
    (hf : ∀ a, Settles host config k t (f a)) : Settles host config k t (p >>= f) :=
  Triple.bind (lockContract_closed host config k) hp hf

theorem discard {p : Action α} (hp : Settles host config k t p) :
    Settles host config k t (Server.discard p) :=
  hp.bind fun _ => ret

theorem of_elsewhere {p : Action α} (hp : p.Only (ServerOp.elsewhere k)) :
    Settles host config k t p := by
  refine Triple.of_only hp (fun s s' _ _ hr h => Idle.rely h hr) fun o s x ho hs hI _ => ?_
  have hsame : ((server host config).step t o x s).2.runs k = s.runs k := by
    change (serverStep host t o x s).2.runs k = s.runs k
    cases o with
    | run k' o =>
      have hne : k ≠ k' := fun h => ho h.symm
      simp [serverStep, World.setRun, hne]
    | nicknames => rcases x with ⟨_ | _, _⟩ <;> rfl
    | runIds n ph => rcases x with ⟨_ | _, _⟩ <;> rfl
    | _ => rfl
  refine ⟨?_, (congrArg (fun w => w.view.Inv config k) hsame).mpr hs,
    (congrArg (Idle t) hsame).mpr hI⟩
  cases o with
  | run k' o =>
    simp only [lockContract, show ¬k' = k from ho, if_false]
    exact hsame
  | _ => exact hsame

theorem act {o : ServerOp} (ho : o.elsewhere k) : Settles host config k t (Server.act o) :=
  of_elsewhere ⟨ho, fun _ => trivial⟩

theorem only_onRun {k' : RunKey} (hne : k' ≠ k) (c : Call α) :
    (onRun k' c).Only (ServerOp.elsewhere k) := by
  induction c with
  | ret a => trivial
  | call o f ih => exact ⟨hne, fun r => ih r⟩

/-- Code that works on one run of many. -/
theorem onRun {k' : RunKey} {c : Call α}
    (hc : RunTriple host config k' t (Idle t) c (fun _ => Idle t)) :
    Settles host config k t (Server.onRun k' c) := by
  by_cases hk : k' = k
  · subst hk
    exact hc
  · exact of_elsewhere (only_onRun hk c)

theorem forEach {ks : List RunKey} {f : RunKey → Action Unit}
    (hf : ∀ k', Settles host config k t (f k')) :
    Settles host config k t (Prog.forEach ks f) := by
  induction ks with
  | nil => exact ret
  | cons k' ks ih => exact (hf k').bind fun _ => ih

theorem runBind {ε : Type} {x : ExceptT ε Action α} {f : α → ExceptT ε Action β}
    (hx : Settles host config k t x.run) (hf : ∀ a, Settles host config k t (f a).run) :
    Settles host config k t (x >>= f).run := by
  refine bind hx fun r => ?_
  cases r with
  | ok a => exact hf a
  | error e => exact ret

theorem runLift {ε : Type} {p : Action α} (hp : Settles host config k t p) :
    Settles host config k t (ExceptT.lift p : ExceptT ε Action α).run :=
  hp.bind fun _ => ret

end Settles

section Scan

theorem findRunsOf_settles (ph : RunPhase) (ns : List Nickname) :
    Settles host config k t (findRunsOf ph ns).run := by
  induction ns with
  | nil => exact Settles.ret
  | cons n ns ih =>
    refine Settles.runBind (Settles.runLift (Settles.act trivial)) fun r => ?_
    split
    · exact Settles.ret
    · exact Settles.runBind ih fun _ => Settles.ret

theorem findRunsInPhase_settles (ph : RunPhase) :
    Settles host config k t (findRunsInPhase ph).run := by
  refine Settles.runBind (Settles.runLift (Settles.act trivial)) fun found => ?_
  split
  · exact Settles.ret
  · refine Settles.runBind (Settles.runLift (Settles.act trivial)) fun r => ?_
    split
    · exact Settles.ret
    · exact findRunsOf_settles ph _

theorem collectRuns_settles (now : Nat) (n : Nickname) (ph : RunPhase) (ids : List RunId) :
    Settles host config k t (collectRuns config now n ph ids).run := by
  induction ids with
  | nil => exact Settles.ret
  | cons id ids ih => exact Settles.runBind (Settles.onRun (collectRun_spec ph now)) fun _ => ih

theorem collectPhases_settles (now : Nat) (n : Nickname) (phs : List RunPhase) :
    Settles host config k t (collectPhases config now n phs).run := by
  induction phs with
  | nil => exact Settles.ret
  | cons ph phs ih =>
    refine Settles.runBind (Settles.runLift (Settles.act trivial)) fun r => ?_
    split
    · exact Settles.ret
    · exact Settles.runBind (collectRuns_settles now n ph _) fun _ => ih

theorem collectNicknames_settles (now : Nat) (ns : List Nickname) :
    Settles host config k t (collectNicknames config now ns).run := by
  induction ns with
  | nil => exact Settles.ret
  | cons n ns ih => exact Settles.runBind (collectPhases_settles now n allPhases) fun _ => ih

theorem runGc_settles : Settles host config k t (runGc config).run := by
  refine Settles.runBind (Settles.runLift (Settles.act trivial)) fun found => ?_
  split
  · exact Settles.ret
  refine Settles.runBind (Settles.runLift (Settles.act trivial)) fun now => ?_
  refine Settles.runBind (Settles.runLift (Settles.act trivial)) fun r => ?_
  split
  · exact Settles.ret
  · exact collectNicknames_settles now _

theorem processOnceRaw_settles : Settles host config k t (processOnceRaw host config).run := by
  refine Settles.runBind (Settles.runLift runGc_settles) fun _ => ?_
  refine Settles.runBind (findRunsInPhase_settles .processing) fun processing => ?_
  refine Settles.runBind (findRunsInPhase_settles .ready) fun ready => ?_
  refine Settles.runBind (Settles.runLift (Settles.forEach fun k' => ?_)) fun _ => ?_
  · exact Settles.onRun recoverFoundRun_spec
  · exact Settles.runLift (Settles.forEach fun k' => Settles.onRun processReadyRun_spec)

/-- Whatever a server process is started to do, it leaves no lock behind. -/
theorem Command.settles {p : Action Unit} (h : Command host config p) :
    Settles host config k t p := by
  cases h with
  | processRun k' => exact (Settles.onRun processRunInner_spec).discard
  | processOnce => exact processOnceRaw_settles.discard
  | runState k' => exact (Settles.onRun runState_spec).discard
  | gc => exact runGc_settles.discard
  | heartbeat k' => exact (Settles.onRun heartbeatRun_spec).discard
  | finish k' => exact (Settles.onRun finishRun_spec).discard

end Scan

section Environment

theorem RunWorld.leave_view (h : w.pass t = none) :
    (w.leave t).view = { w.view with locks := w.view.locks.filter fun g => g.tid != t } := by
  simp only [RunWorld.leave, RunWorld.view, View.mk.injEq, true_and, and_true]
  exact funext fun u => by
    by_cases hu : u = t
    · simp [hu, h]
    · simp [hu]

theorem RunWorld.leave_inv (hw : w.view.Inv config k) (h : w.pass t = none) :
    (w.leave t).view.Inv config k := by
  rw [RunWorld.leave_view h]
  exact hw.unlock _

theorem RunWorld.leave_rely {u : Tid} (hu : u ≠ t) : w.Rely u (w.leave t) where
  locks g hl ht := by
    have hg : g.tid ≠ t := fun h => hu (ht.symm.trans h)
    exact ⟨by simp [RunWorld.leave, hl, hg], rfl, fun _ _ => rfl⟩
  pass := by simp [RunWorld.leave, hu]
  shrink _ d _ h := ⟨d, h, rfl, fun _ he => he⟩
  past _ h := h
  nextIno := le_refl _
  faults := ⟨[], rfl⟩
  noGrip h g hg := h g (List.mem_filter.1 hg).1

theorem RunWorld.leave_idle : Idle t (w.leave t) := by
  refine ⟨by simp [RunWorld.leave], fun g hg => ?_⟩
  simpa using (List.mem_filter.1 hg).2

theorem RunDir.upload_core (d : RunDir) (now : Nat) (u : Upload) :
    (d.upload now u).core.lock = d.core.lock ∧ (d.upload now u).core.touched = d.core.touched := by
  cases u <;> exact ⟨rfl, rfl⟩

theorem World.upload_run {w : World Tid} (hpass : ∀ u, (w.runs k).pass u = none)
    (hw : (w.runs k).view.Inv config k) (k' : RunKey) (up : Upload) :
    ((serverEvent (.upload k' up) w).runs k).view.Inv config k ∧
      ∀ u, (w.runs k).Rely u ((serverEvent (.upload k' up) w).runs k) := by
  by_cases hk : k' = k
  · subst hk
    cases hd : (w.runs k').dirs .incoming with
    | none =>
      have hsame : (serverEvent (.upload k' up) w).runs k' = w.runs k' := by
        have h : Function.update (w.runs k').dirs .incoming none = (w.runs k').dirs :=
          Function.update_eq_self_iff.2 hd.symm
        simp [serverEvent, World.setRun, RunWorld.setDir, hd, h]
      rw [hsame]
      exact ⟨hw, fun u => RunWorld.Rely.refl u _⟩
    | some d =>
      have hrun : (serverEvent (.upload k' up) w).runs k' =
          (w.runs k').setDir .incoming (some (d.upload w.clock up)) := by
        simp [serverEvent, World.setRun, hd]
      rw [hrun]
      refine ⟨?_, fun u => RunWorld.incoming_rely hpass hd u⟩
      rw [RunWorld.setDir_view]
      obtain ⟨hlock, htouched⟩ := RunDir.upload_core d w.clock up
      exact hw.update (D := d.core) (by simp [RunWorld.view, hd]) (.inl hlock) htouched (by rintro ⟨⟩)
        (fun hr => absurd hr (by decide))
  · have hsame : (serverEvent (.upload k' up) w).runs k = w.runs k := by
      simp [serverEvent, World.setRun, show k ≠ k' from fun h => hk h.symm]
    rw [hsame]
    exact ⟨hw, fun u => RunWorld.Rely.refl u _⟩

theorem serverEvent_run {w : World Tid} {e : ServerEvent} (he : calmPolicy.env e w)
    (hw : (w.runs k).view.Inv config k) :
    ((serverEvent e w).runs k).view.Inv config k ∧
      ∀ u, (w.runs k).Rely u ((serverEvent e w).runs k) := by
  cases e with
  | tick now => exact ⟨hw, fun u => RunWorld.Rely.refl u _⟩
  | upload k' up =>
    by_cases hk : k' = k
    · subst hk
      exact World.upload_run he hw k' up
    · have hsame : (serverEvent (.upload k' up) w).runs k = w.runs k := by
        simp [serverEvent, World.setRun, show k ≠ k' from fun h => hk h.symm]
      rw [hsame]
      exact ⟨hw, fun u => RunWorld.Rely.refl u _⟩

theorem RunWorld.Begun.noDir (h : w.Begun) {ph : RunPhase} {D : CoreDir}
    (hd : w.view.dirs ph = some D) : ph = .incoming ∨ ph = .ready := by
  by_contra hne
  rw [not_or] at hne
  simp [RunWorld.view, h.early ph hne.1 hne.2] at hd

theorem RunWorld.Begun.core (h : w.Begun) {ph : RunPhase} {D : CoreDir}
    (hd : w.view.dirs ph = some D) : D.lock = none ∧ D.touched = false := by
  obtain ⟨d, hd', rfl⟩ := Option.map_eq_some_iff.1 hd
  exact ⟨(h.fresh ph d hd').1, (h.fresh ph d hd').2.1⟩

theorem RunWorld.Begun.alone (h : w.Begun) {ph ph' : RunPhase} {D D' : CoreDir}
    (hd : w.view.dirs ph = some D) (hd' : w.view.dirs ph' = some D') : ph = ph' := by
  obtain hu | hu := h.unique
  · have hnone : w.view.dirs .incoming = none := by simp [RunWorld.view, hu]
    obtain rfl | rfl := h.noDir hd
    · cases hnone.symm.trans hd
    · obtain rfl | rfl := h.noDir hd'
      · cases hnone.symm.trans hd'
      · rfl
  · have hnone : w.view.dirs .ready = none := by simp [RunWorld.view, hu]
    obtain rfl | rfl := h.noDir hd
    · obtain rfl | rfl := h.noDir hd'
      · rfl
      · cases hnone.symm.trans hd'
    · cases hnone.symm.trans hd

/-- A run that was begun once starts out right. -/
theorem RunWorld.Begun.inv (h : w.Begun) : w.view.Inv config k where
  unique _ _ _ _ hd hd' := h.alone hd hd'
  oneIno := by simp [RunWorld.view, h.nextIno]
  lockIno _ _ _ hd hi := by cases (h.core hd).1.symm.trans hi
  incoming _ _ := ⟨h.nextIno, h.published⟩
  gripIno g hg := by
    rw [RunWorld.view, h.locks] at hg
    cases hg
  oneGrip := by simp [RunWorld.view, h.locks]
  readyLock _ _ hn := by cases h.nextIno.symm.trans hn
  processingLock _ hd := by
    obtain h | h := h.noDir hd
    · cases h
    · cases h
  inputs _ hd := by
    obtain h | h := h.noDir hd
    · cases h
    · cases h
  terminal ph d ht hd := by
    obtain rfl | rfl := h.noDir hd
    · cases ht
    · cases ht
  publishedValid doc hdoc := by
    rw [View.PublishedInProcessing, RunWorld.view, h.published] at hdoc
    cases hdoc
  final doc _ _ hdoc _ := by
    rw [View.PublishedInProcessing, RunWorld.view, h.published] at hdoc
    cases hdoc
  unstarted _ hp := absurd h.published hp
  pass t ph hp := by cases (h.pass t).symm.trans hp
  touched _ _ hd _ ht := by cases (h.core hd).2.symm.trans ht

end Environment

/-- The processor lock does what it is for, whatever processes are started and
wherever they crash. -/
theorem lockContract_sound (host : Host) (config : ServerConfig) (k : RunKey) :
    (lockContract host config k :
      Contract (server host config : System Tid _ _ _ _ _) calmPolicy).Sound where
  toClosed := lockContract_closed host config k
  guar_rely t u o x s s' hne _ _ hg := by
    have hsame : s'.runs k = s.runs k → (s.runs k).Rely t (s'.runs k) := fun h => by
      rw [h]
      exact RunWorld.Rely.refl t _
    cases o with
    | run k' o =>
      by_cases hk : k' = k
      · subst hk
        exact Guar.others (o := o) (by simpa [lockContract] using hg) t hne
      · exact hsame (by simpa [lockContract, hk] using hg)
    | _ => exact hsame hg
  leave_inv t s hs h := RunWorld.leave_inv hs (h.elim (fun h => h k) id)
  leave_rely t u s hne _ _ := RunWorld.leave_rely hne
  leave_start t s _ := RunWorld.leave_idle
  env_inv e s he hs := (serverEvent_run he hs).1
  env_rely t e s he hs := (serverEvent_run he hs).2 t
  init_inv s h := (h k).inv
  init_start t s h := ⟨(h k).pass t, by simp [(h k).locks]⟩
  start_rely t s s' hr h := Idle.rely h hr
  program_wp t p s hp hs h :=
    wp_mono (hp.settles s hs h) fun _ s' _ h => h.1

end Purgery.Server
