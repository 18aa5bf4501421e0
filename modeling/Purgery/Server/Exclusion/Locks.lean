import Purgery.Server.Exclusion.Moves

namespace Purgery.Server

open Purgery.Interleaving

variable {Tid : Type} [DecidableEq Tid]
variable {host : Host} {config : ServerConfig} {k : RunKey} {t : Tid} {g : Grip Tid}
variable {ph : RunPhase} {w w' : RunWorld Tid} {o : RunOp} {ino : Nat}

/-- The lock file of the run exists, and the run has reached `ph`. -/
def Reached (ph : RunPhase) (w : RunWorld Tid) : Prop :=
  w.nextIno = 1 ∧ ∀ ph', ph'.rank < ph.rank → w.view.dirs ph' = none

instance : Stable config k t (Reached ph) :=
  ⟨fun w w' _ hw' hr ⟨hi, hd⟩ => by
    refine ⟨?_, fun ph' hlt => ?_⟩
    · have h := hr.nextIno
      have h' : w'.nextIno ≤ 1 := hw'.oneIno
      omega
    · exact hr.past ph' (fun ph'' hle => hd ph'' (by omega)) ph' (le_refl _)⟩

/-- Process `t` has taken the lock through `ph`: the run is still there, or it
has moved on. -/
def Owns (t : Tid) (g : Grip Tid) (ph : RunPhase) (w : RunWorld Tid) : Prop :=
  (∃ D pl, At t g ph D pl w) ∨ Gone t g ph w

instance : Stable config k t (Owns t g ph) :=
  inferInstanceAs (Stable config k t fun w => (∃ D pl, At t g ph D pl w) ∨ Gone t g ph w)

omit [DecidableEq Tid] in
theorem Owns.session (h : Owns t g ph w) : w.view.Session t g := by
  obtain ⟨_, _, h⟩ | h := h
  · exact h.session
  · exact h.session

theorem Calm.alone {failure : Option String} (h : Calm t o failure w) (ho : o.intrudes = true)
    (u : Tid) : w.pass u = none := by
  by_contra hp
  have := h.apart ⟨u, hp⟩
  rw [ho] at this
  exact nomatch this

omit [DecidableEq Tid] in
theorem RunWorld.untouched (hw : w.view.Inv config k) (hidle : ∀ u, w.pass u = none)
    {D : CoreDir} (hd : w.view.dirs ph = some D) (hnt : ph.terminal = false) :
    D.touched = false := by
  by_contra ht
  obtain ⟨_, u, hp⟩ := hw.touched ph D hd hnt (by simpa using ht)
  exact absurd ((hidle u).symm.trans hp) (by simp)

/-- What changes a directory alone, or the locks alone, changes no contents. -/
theorem Guar.spare (hothers : ∀ u, u ≠ t → w.Rely u w')
    (hcontents : ∀ ph, ph.queued = true → w'.contents ph = w.contents ph) (hdest : w'.destination = w.destination)
    (hspawn : o.transforms ≠ true) (hpublish : ∀ ph, o ≠ .publish ph .status)
    (hremoves : o.removes = false) (hidle : Idle t w) : Guar t o true w w' where
  others := hothers
  mutates h := by
    obtain ⟨ph, hq, h⟩ | h := h
    · exact absurd (hcontents ph hq) h
    · exact absurd hdest h
  spawns h := absurd h hspawn
  publishes ph hp := absurd hp (hpublish ph)
  stale g hg ht := absurd ht (hidle.2 g hg)
  removal ho := by
    rw [hremoves] at ho
    exact nomatch ho

omit [DecidableEq Tid] in
/-- The lock is taken through `ph` with the run there, or with the run past it. -/
theorem Owns.of_locks (hw : w.view.Inv config k) (hpass : ∀ u, w.pass u = none)
    (hph : ph.queued = true) (hr : Reached ph w) :
    Owns t ⟨0, t, ph, (w.dirs ph).any fun d => d.lock == some 0⟩ ph { w with
      locks := [⟨0, t, ph, (w.dirs ph).any fun d => d.lock == some 0⟩] } := by
  obtain ⟨hnext, hbefore⟩ := hr
  cases hd : w.dirs ph with
  | none =>
    refine .inr ⟨⟨rfl, rfl, hpass t⟩, fun ph' hle => ?_⟩
    by_cases hne : ph' = ph
    · subst hne
      simp [RunWorld.view, hd]
    · refine hbefore ph' (lt_of_le_of_ne hle fun h => hne ?_)
      obtain rfl | rfl := RunPhase.queued_cases hph <;> cases ph' <;> simp_all [RunPhase.rank]
  | some d =>
    have hd' : w.view.dirs ph = some d.core := by simp [RunWorld.view, hd]
    have hut := RunWorld.untouched hw hpass hd' (RunPhase.queued_not_terminal hph)
    have hl : d.lock = some 0 := by
      obtain rfl | rfl := RunPhase.queued_cases hph
      · exact (hw.readyLock d.core hd' hnext).resolve_left (by simp [hut])
      · exact (hw.processingLock d.core hd').2.resolve_left (by simp [hut])
    exact .inl ⟨d.core, w.published, ⟨rfl, rfl, hpass t⟩, by simp [hl], hph, hd', rfl⟩

namespace RunTriple

/-- The lock file is opened, and created if it is not there. -/
theorem sys_openLock (hph : ph.queued = true) :
    RunTriple host config k t (Idle t) (Server.sys (.openLock ph)) (fun r w => Idle t w ∧
      ((∃ e, r = .error e) ∨ r = .ok 0 ∧ Reached ph w)) := by
  refine RunTriple.sys (fun _ w m hw hidle _ => ⟨?_, .inl ⟨_, rfl⟩⟩) fun w now x hw hidle hc => ?_
  · exact hidle.rely (RunWorld.noteFault_rely t)
  have hnt := RunPhase.queued_not_terminal hph
  have hpass := hc.alone rfl
  cases hd : w.dirs ph with
  | none =>
    simp only [RunOp.run, hd]
    exact ⟨Guar.same (by rintro ⟨⟩) (by rintro _ ⟨⟩), hw, hidle, .inl ⟨_, rfl⟩⟩
  | some d =>
    have hd' : w.view.dirs ph = some d.core := by simp [RunWorld.view, hd]
    have hsole : ∀ ph', ph'.rank < ph.rank → w.view.dirs ph' = none := fun ph' hlt => by
      by_contra hsome
      obtain ⟨d', h'⟩ := Option.ne_none_iff_exists'.1 hsome
      rw [hw.unique _ _ _ _ h' hd'] at hlt
      exact absurd hlt (lt_irrefl _)
    cases hl : d.lock with
    | some i =>
      simp only [RunOp.run, hd, hl]
      obtain ⟨rfl, hi⟩ := hw.lockIno ph d.core i hd' hl
      exact ⟨Guar.same (by rintro ⟨⟩) (by rintro _ ⟨⟩), hw, hidle, .inr ⟨rfl, hi, hsole⟩⟩
    | none =>
      have hut := RunWorld.untouched hw hpass hd' hnt
      obtain rfl : ph = .ready := by
        obtain rfl | rfl := RunPhase.queued_cases hph
        · rfl
        · have h := (hw.processingLock d.core hd').2
          rw [hut, show d.core.lock = none from hl] at h
          simp at h
      have hzero : w.nextIno = 0 := hw.unopened hd' hl hut
      have hi := hw.create hd' hl hpass
        (rfl : ((d.setLock (some w.nextIno)).stamp now).core.lock = _) rfl fun _ => rfl
      have hview := RunWorld.setDir_view { w with nextIno := w.nextIno + 1 } .ready
        (some ((d.setLock (some w.nextIno)).stamp now))
      simp only [RunOp.run, hd, hl]
      refine ⟨Guar.spare (fun u hu => ⟨fun g hg _ => ?_, rfl, fun ph' d' hp _ => ?_,
        fun ph' hpast => ?_, Nat.le_succ _, ⟨[], rfl⟩, fun h => h⟩) (fun ph' _ => ?_) rfl (by rintro ⟨⟩) (by rintro _ ⟨⟩)
        rfl hidle, ?_, hidle, .inr ⟨by rw [hzero], by simp [hzero, RunWorld.setDir], ?_⟩⟩
      · exact absurd (hw.gripIno g (by simp [RunWorld.view, hg])).2 (by simp [RunWorld.view, hzero])
      · exact absurd ((hpass u).symm.trans hp) (by simp)
      · rw [hview]
        exact hpast.setDir hd'
      · by_cases hne : ph' = .ready
        · subst hne
          simp [RunWorld.contents, RunWorld.setDir, hd, RunDir.stamp, RunDir.setLock]
        · simp [RunWorld.contents, RunWorld.setDir, hne]
      · rw [hview]
        exact hi
      · rw [hview]
        intro ph' hlt
        have hne : ph' ≠ .ready := by
          rintro rfl
          exact absurd hlt (lt_irrefl _)
        simpa [View.setDir, RunWorld.view, hne] using hsole ph' hlt

/-- The lock is taken, if nobody holds it; whoever takes it through a path that
the run has left finds nothing there. -/
theorem tryFlock (hw : w.view.Inv config k) (hpass : ∀ u, w.pass u = none)
    (hph : ph.queued = true) (hidle : Idle t w) (hr : Reached ph w) (hspawn : o.transforms ≠ true)
    (hpublish : ∀ ph, o ≠ .publish ph .status) (hremoves : o.removes = false) :
    Guar t o true w (RunOp.tryFlock t ph 0 w).2 ∧
      (RunOp.tryFlock t ph 0 w).2.view.Inv config k ∧
      (((RunOp.tryFlock t ph 0 w).1 = true ∧ ∃ g, g.ino = 0 ∧ g.via = ph ∧
        Owns t g ph (RunOp.tryFlock t ph 0 w).2) ∨
      (RunOp.tryFlock t ph 0 w).1 = false ∧ Idle t (RunOp.tryFlock t ph 0 w).2) := by
  by_cases hany : (w.locks.any fun g => g.ino == 0) = true
  · simp only [RunOp.tryFlock, hany, if_true]
    exact ⟨Guar.same hspawn fun ph hp => absurd hp (hpublish ph), hw, .inr ⟨trivial, hidle⟩⟩
  · have hnone : w.locks = [] := by
      cases hl : w.locks with
      | nil => rfl
      | cons g gs =>
        have h := (hw.gripIno g (by simp [RunWorld.view, hl])).1
        simp [hl, h] at hany
    have hrun : RunOp.tryFlock t ph 0 w = (true, { w with
        locks := [⟨0, t, ph, (w.dirs ph).any fun d => d.lock == some 0⟩] }) := by
      simp [RunOp.tryFlock, hnone]
    rw [hrun]
    refine ⟨Guar.spare (fun u hu => ⟨fun g hg _ => ?_, rfl, fun ph' d' _ hd' => ?_,
      fun _ h => h, le_refl _, ⟨[], rfl⟩, fun _ g hg => ?_⟩) (fun _ _ => rfl) rfl hspawn hpublish
      hremoves hidle, ?_,
      .inl ⟨rfl, ⟨0, t, ph, (w.dirs ph).any fun d => d.lock == some 0⟩, rfl, rfl, ?_⟩⟩
    · rw [hnone] at hg
      cases hg
    · exact ⟨d', hd', rfl, fun _ he => he⟩
    · obtain rfl := List.mem_singleton.1 hg
      exact Ne.symm hu
    · refine hw.relock hpass (fun g hg => ?_) (le_refl _)
      obtain rfl := List.mem_singleton.1 hg
      exact ⟨rfl, hr.1⟩
    · exact Owns.of_locks hw hpass hph hr

theorem sys_flock (hph : ph.queued = true) :
    RunTriple host config k t (fun w => Idle t w ∧ Reached ph w) (Server.sys (.flock ph 0))
      (fun r w => (r = .ok true ∧ ∃ g, g.ino = 0 ∧ g.via = ph ∧ Owns t g ph w) ∨
        r ≠ .ok true ∧ Idle t w) := by
  refine RunTriple.sys (fun _ w m hw h _ => .inr ⟨nofun, ?_⟩) fun w now x hw h hc => ?_
  · exact h.1.rely (RunWorld.noteFault_rely t)
  obtain ⟨hg, hi, hq⟩ := tryFlock (o := .flock ph 0) hw (hc.alone rfl) hph h.1 h.2 nofun nofun rfl
  refine ⟨hg, hi, hq.imp (fun ⟨hb, hown⟩ => ⟨?_, hown⟩) fun ⟨hb, hidle⟩ => ⟨?_, hidle⟩⟩
  · simp [RunOp.run, hb]
  · simp [RunOp.run, hb]

/-- A process that holds no lock closes the lock file. -/
theorem close_idle {ino : Nat} :
    RunTriple host config k t (Idle t) (Server.sys (.close ino)) (fun _ => Idle t) := by
  refine RunTriple.sys (by rintro ⟨⟩) fun w now x hw hidle _ => ?_
  have hlocks : w.locks.filter (fun g => !(g.ino == ino && g.tid == t)) = w.locks := by
    refine List.filter_eq_self.2 fun g hg => ?_
    simp [hidle.2 g hg]
  simp only [RunOp.run, hlocks]
  exact ⟨Guar.same (by rintro ⟨⟩) (by rintro _ ⟨⟩), hw, hidle⟩

end RunTriple

/-- The lock is acquired, or the process is left without a lock. -/
theorem tryLockExistingDir_spec (hph : ph.queued = true) :
    RunTriple host config k t (Idle t) (tryLockExistingDir config k ph).run (fun r w =>
      (∃ g, r = .ok (.acquired g.ino) ∧ g.via = ph ∧ Owns t g ph w) ∨
      (∀ ino, r ≠ .ok (.acquired ino)) ∧ Idle t w) := by
  refine RunTriple.askBind (M := fun _ => Idle t)
    ((RunTriple.sys_idle rfl).weaken fun _ _ _ h => h.1) fun found => ?_
  split
  · exact RunTriple.ret fun w _ h => .inr ⟨by rintro _ ⟨⟩, h⟩
  refine RunTriple.ioBind (M := fun ino w => Idle t w ∧ Reached ph w ∧ ino = 0)
    ((RunTriple.sys_openLock hph).weaken fun r w _ h => ?_) fun ino => ?_
  · obtain ⟨hidle, ⟨e, rfl⟩ | ⟨rfl, hr⟩⟩ := h
    · exact .inr ⟨by rintro _ ⟨⟩, hidle⟩
    · exact ⟨hidle, hr, rfl⟩
  refine RunTriple.strengthen (I := fun w => ino = 0 ∧ Idle t w ∧ Reached ph w)
    (RunTriple.pure_pre ?_) fun w _ h => ⟨h.2.2, h.1, h.2.1⟩
  rintro rfl
  refine RunTriple.askBind (RunTriple.sys_flock hph) fun r => RunTriple.or_pre ?_ ?_
  · refine RunTriple.pure_pre ?_
    rintro rfl
    refine RunTriple.exists_pre fun g => RunTriple.pure_pre fun hino => RunTriple.pure_pre fun hvia => ?_
    exact RunTriple.ret fun w _ h => .inl ⟨g, by rw [hino], hvia, h⟩
  · refine RunTriple.pure_pre fun hne => ?_
    split
    · exact absurd rfl hne
    · exact RunTriple.askBind RunTriple.close_idle fun _ =>
        RunTriple.ret fun w _ h => .inr ⟨by rintro _ ⟨⟩, h⟩
    · exact RunTriple.askBind RunTriple.close_idle fun _ =>
        RunTriple.ret fun w _ h => .inr ⟨by rintro _ ⟨⟩, h⟩

end Purgery.Server
