import Purgery.Server.Exclusion.Rules

namespace Purgery.Server

open Purgery.Interleaving

variable {Tid : Type} [DecidableEq Tid]
variable {config : ServerConfig} {k : RunKey} {t : Tid} {g : Grip Tid}

/-- Process `t` holds the lock of the run, which is at `ph` and holds `D`; `pl`
are the statuses published so far. -/
structure At (t : Tid) (g : Grip Tid) (ph : RunPhase) (D : CoreDir)
    (pl : List (RunPhase × Doc RunStatus)) (w : RunWorld Tid) : Prop where
  session : w.view.Session t g
  fresh : g.fresh = true
  queued : ph.queued = true
  dir : w.view.dirs ph = some D
  published : w.published = pl

/-- Process `t` holds the lock of a run that has left `ph`. -/
structure Gone (t : Tid) (g : Grip Tid) (ph : RunPhase) (w : RunWorld Tid) : Prop where
  session : w.view.Session t g
  past : w.view.Past ph

/-- A call of the session failed while the run was at `ph`. -/
def Failed (g : Grip Tid) (ph : RunPhase) (pl : List (RunPhase × Doc RunStatus)) (o : RunOp)
    (w : RunWorld Tid) : Prop :=
  ∃ f ∈ w.faults, f.op = o ∧ f.grip = some g ∧ f.location = some ph ∧
    f.published = pl.any fun p => p.1 == .processing

theorem Failed.faults {ph : RunPhase} {pl : List (RunPhase × Doc RunStatus)} {o : RunOp}
    {w : RunWorld Tid} (h : Failed g ph pl o w) : w.faults ≠ [] := by
  obtain ⟨f, hf, -⟩ := h
  exact List.ne_nil_of_mem hf

theorem View.Session.rely {w w' : RunWorld Tid} (h : w.view.Session t g) (hr : w.Rely t w') :
    w'.view.Session t g where
  locks := (hr.locks g h.locks h.tid).1
  tid := h.tid
  idle := hr.pass.trans h.idle

instance : Stable config k t (fun w => w.view.Session t g) :=
  ⟨fun _ _ _ _ hr h => h.rely hr⟩

instance {ph : RunPhase} : Stable config k t (fun w => w.view.Past ph) :=
  ⟨fun _ _ _ _ hr h => hr.past ph h⟩

instance {ph : RunPhase} {D : CoreDir} {pl : List (RunPhase × Doc RunStatus)} :
    Stable config k t (At t g ph D pl) :=
  ⟨fun _ _ _ _ hr h => by
    obtain ⟨_, hp, hd⟩ := hr.locks g h.session.locks h.session.tid
    exact ⟨h.session.rely hr, h.fresh, h.queued, (hd ph h.queued).trans h.dir,
      hp.trans h.published⟩⟩

instance {ph : RunPhase} : Stable config k t (Gone t g ph) :=
  ⟨fun _ _ _ _ hr h => ⟨h.session.rely hr, hr.past ph h.past⟩⟩

instance {p : Fault Tid → Prop} : Stable config k t (fun w => ∃ f ∈ w.faults, p f) :=
  ⟨fun _ _ _ _ hr ⟨f, hf, hp⟩ => by
    obtain ⟨fs, hfs⟩ := hr.faults
    exact ⟨f, by rw [hfs]; exact List.mem_append_right _ hf, hp⟩⟩

instance {ph : RunPhase} {pl : List (RunPhase × Doc RunStatus)} {o : RunOp} :
    Stable config k t (Failed g ph pl o) :=
  inferInstanceAs (Stable config k t fun w => ∃ f ∈ w.faults, _)

instance : Stable config k t (fun w => w.view.ClaimSpoilt) :=
  inferInstanceAs (Stable config k t fun w => ∃ f ∈ w.faults, _)

instance : Stable config k t (fun w => w.view.RecoverySpoilt) :=
  inferInstanceAs (Stable config k t fun w => ∃ f ∈ w.faults, _)

instance : Stable config k t (fun w => w.faults ≠ []) :=
  ⟨fun _ _ _ _ hr h => by
    obtain ⟨fs, hfs⟩ := hr.faults
    rw [hfs]
    exact fun h' => h (List.append_eq_nil_iff.1 h').2⟩

/-- No status was published, unless some call has failed. -/
def Clean (pl : List (RunPhase × Doc RunStatus)) (w : RunWorld Tid) : Prop :=
  w.faults ≠ [] ∨ pl = []

instance {pl : List (RunPhase × Doc RunStatus)} : Stable config k t (Clean pl) :=
  inferInstanceAs (Stable config k t fun w => w.faults ≠ [] ∨ pl = [])

instance {p : Option RunPhase} : Stable config k t (fun w => w.pass t = p) :=
  ⟨fun _ _ _ _ hr h => hr.pass.trans h⟩

instance : Stable config k t (fun w => ∀ g ∈ w.locks, g.tid ≠ t) :=
  ⟨fun _ _ _ _ hr h => hr.noGrip h⟩

theorem RunPhase.queued_cases {ph : RunPhase} (h : ph.queued = true) :
    ph = .ready ∨ ph = .processing := by
  cases ph <;> simp_all [RunPhase.queued]

theorem RunPhase.queued_not_terminal {ph : RunPhase} (h : ph.queued = true) :
    ph.terminal = false := by
  obtain rfl | rfl := RunPhase.queued_cases h <;> rfl

namespace At

variable {ph : RunPhase} {D : CoreDir} {pl : List (RunPhase × Doc RunStatus)} {w w' : RunWorld Tid}

theorem noPass (h : At t g ph D pl w) (hw : w.view.Inv config k) (u : Tid) : w.pass u = none := by
  cases hp : w.pass u with
  | none => rfl
  | some ph' =>
    have hl := (hw.pass u ph' hp).2 ph D h.dir
    have hg : g.tid = u := hl.2 g (by simp [h.session.locks])
    have hidle := h.session.idle
    rw [show t = u from h.session.tid.symm.trans hg] at hidle
    exact absurd (hidle.symm.trans hp) (by simp)

theorem untouched (h : At t g ph D pl w) (hw : w.view.Inv config k) : D.touched = false := by
  by_contra htouched
  obtain ⟨_, u, hu⟩ := hw.touched ph D h.dir (RunPhase.queued_not_terminal h.queued)
    (by simpa using htouched)
  exact absurd ((h.noPass hw u).symm.trans hu) (by simp)

theorem ino (h : At t g ph D pl w) (hw : w.view.Inv config k) :
    g.ino = 0 ∧ w.view.nextIno = 1 :=
  hw.gripIno g (by simp [h.session.locks])

theorem lock (h : At t g ph D pl w) (hw : w.view.Inv config k) : D.lock = some g.ino := by
  obtain ⟨hino, hnext⟩ := h.ino hw
  have hu := h.untouched hw
  have hd := h.dir
  rw [hino]
  obtain rfl | rfl := RunPhase.queued_cases h.queued
  · exact (hw.readyLock D hd hnext).resolve_left (by simp [hu])
  · exact (hw.processingLock D hd).2.resolve_left (by simp [hu])

theorem exists_dir (h : At t g ph D pl w) : ∃ d, w.dirs ph = some d ∧ d.core = D := by
  have hd := h.dir
  simpa [RunWorld.view] using hd

theorem heldBy (h : At t g ph D pl w) (hw : w.view.Inv config k) : w.HeldBy t := by
  obtain ⟨d, hd, hcore⟩ := h.exists_dir
  refine ⟨g, h.session.locks, h.session.tid, h.fresh, ph, d, h.queued, hd, ?_, ?_⟩
  · have := h.lock hw
    rw [← hcore] at this
    exact this
  · have := h.untouched hw
    rw [← hcore] at this
    exact this

theorem dirs_none (h : At t g ph D pl w) (hw : w.view.Inv config k) {ph' : RunPhase}
    (hne : ph' ≠ ph) : w.dirs ph' = none := by
  cases hd : w.dirs ph' with
  | none => rfl
  | some d =>
    exact absurd (hw.unique ph' ph d.core D (by simp [RunWorld.view, hd]) h.dir) hne

theorem location (h : At t g ph D pl w) (hw : w.view.Inv config k) : w.location = some ph := by
  obtain ⟨d, hd, _⟩ := h.exists_dir
  have hn : ∀ ph', ph' ≠ ph → w.dirs ph' = none := fun ph' hne => h.dirs_none hw hne
  obtain rfl | rfl := RunPhase.queued_cases h.queued
  · simp [RunWorld.location, allPhases, hd, hn .incoming (by decide)]
  · simp [RunWorld.location, allPhases, hd, hn .incoming (by decide), hn .ready (by decide)]

theorem grip (h : At t g ph D pl w) : w.grip? t = some g := by
  have hl : w.locks = [g] := h.session.locks
  simp [RunWorld.grip?, hl, h.session.tid]

theorem noteFault (h : At t g ph D pl w) (hw : w.view.Inv config k) (o : RunOp) :
    At t g ph D pl (w.noteFault t o) ∧ Failed g ph pl o (w.noteFault t o) := by
  refine ⟨⟨⟨h.session.locks, h.session.tid, h.session.idle⟩, h.fresh, h.queued, h.dir,
    h.published⟩, _, List.mem_cons_self, rfl, h.grip, h.location hw, ?_⟩
  simp [RunWorld.publishedInProcessing, h.published]

/-- The others do not notice what the holder does to the run. -/
theorem others (h : At t g ph D pl w) (hw : w.view.Inv config k) (hl : w'.locks = w.locks)
    (hp : w'.pass = w.pass) (hf : w'.faults = w.faults) (hi : w'.nextIno = w.nextIno)
    (hpast : ∀ ph', w.view.Past ph' → w'.view.Past ph') (u : Tid) (hu : u ≠ t) :
    w.Rely u w' where
  locks g' hg' ht' := by
    have hgg : [g'] = [g] := hg'.symm.trans h.session.locks
    cases hgg
    exact absurd (ht'.symm.trans h.session.tid) hu
  pass := by rw [hp]
  shrink ph' d' hpu _ := by
    rw [h.noPass hw u] at hpu
    exact nomatch hpu
  past := hpast
  nextIno := le_of_eq hi.symm
  faults := ⟨[], by simp [hf]⟩
  noGrip hn := by rwa [hl]

theorem guar {o : RunOp} {ok : Bool} (h : At t g ph D pl w) (hw : w.view.Inv config k)
    (hothers : ∀ u, u ≠ t → w.Rely u w') (hremoves : o.removes = false)
    (hspawn : ∀ c, o = .spawn c → w.faults = [] → pl = []) : Guar t o ok w w' where
  others := hothers
  mutates _ := .inr (.inr (h.heldBy hw))
  spawns _ _ := ⟨h.heldBy hw, fun c ho hf => h.published.trans (hspawn c ho hf)⟩
  publishes _ _ _ _ := h.heldBy hw
  stale g' hg' _ hf := by
    obtain rfl : g' = g := by simpa [show w.locks = [g] from h.session.locks] using hg'
    exact absurd (h.fresh.symm.trans hf) (by simp)
  removal ho := by
    rw [hremoves] at ho
    exact nomatch ho

/-- A step of the holder that does not touch what the lock protects. -/
theorem quiet {o : RunOp} (h : At t g ph D pl w) (hw : w.view.Inv config k)
    (hview : w'.view = w.view) (hremoves : o.removes = false)
    (hspawn : ∀ c, o = .spawn c → w.faults = [] → pl = []) :
    Guar t o true w w' ∧ w'.view.Inv config k ∧ At t g ph D pl w' := by
  have hl : w'.locks = w.locks := congrArg View.locks hview
  have hp : w'.pass = w.pass := congrArg View.pass hview
  have hf : w'.faults = w.faults := congrArg View.faults hview
  have hi : w'.nextIno = w.nextIno := congrArg View.nextIno hview
  have hpub : w'.published = w.published := congrArg View.published hview
  refine ⟨h.guar hw (h.others hw hl hp hf hi fun ph' hpast => ?_) hremoves hspawn, ?_, ?_⟩
  · rw [hview]
    exact hpast
  · rw [hview]
    exact hw
  · refine ⟨?_, h.fresh, h.queued, ?_, hpub.trans h.published⟩
    · rw [hview]
      exact h.session
    · rw [hview]
      exact h.dir

end At

end Purgery.Server
