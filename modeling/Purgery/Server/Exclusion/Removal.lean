import Purgery.Server.Exclusion.Listing
import Purgery.Server.Exclusion.Probe

namespace Purgery.Server

open Purgery.Interleaving

variable {Tid : Type} [DecidableEq Tid]
variable {host : Host} {config : ServerConfig} {k : RunKey} {t : Tid}
variable {ph : RunPhase} {w w' : RunWorld Tid} {o : RunOp} {id : Nat} {rest : List RunEntry}

/-- The garbage collection of `t` deletes the run, of which at most `rest` is
left. -/
def Removing (t : Tid) (ph : RunPhase) (id : Nat) (rest : List RunEntry) (w : RunWorld Tid) :
    Prop :=
  Condemned t ph w ∧ ∀ d, w.dirs ph = some d → d.id = id ∧ ∀ e, d.has e = true → e ∈ rest

instance : Stable config k t (Removing t ph id rest) :=
  ⟨fun w w' hw hw' hr h => by
    have hc : Condemned t ph w' :=
      (inferInstance : Stable config k t (Condemned t ph)).stable w w' hw hw' hr h.1
    refine ⟨hc, fun d' hd' => ?_⟩
    obtain ⟨d, hd, hid, hhas⟩ := hr.shrink ph d' h.1.1 hd'
    obtain ⟨hid', hrest⟩ := h.2 d hd
    exact ⟨hid.trans hid', fun e he => hrest e (hhas e he)⟩⟩

/-- A removal is at work, in a run that is condemned or in a terminal one. -/
def Sweeping (t : Tid) (ph : RunPhase) (id : Nat) (rest : List RunEntry) (w : RunWorld Tid) :
    Prop :=
  Removing t ph id rest w ∨ Idle t w ∧ ph.terminal = true ∧ w.view.Past .processing

instance : Stable config k t (Sweeping t ph id rest) :=
  inferInstanceAs (Stable config k t fun w => Removing t ph id rest w ∨
    Idle t w ∧ ph.terminal = true ∧ w.view.Past .processing)

theorem Calm.unfailing {failure : Option String} (h : Calm t o failure w) (ho : o.sweeps = true)
    {p : RunPhase} (hp : w.pass t = some p) : failure = none :=
  h.whole (by simp [hp]) ho

theorem RunPhase.terminal_of_past {v : View Tid} {D : CoreDir} (h : v.Past .processing)
    (hd : v.dirs ph = some D) : ph.terminal = true := by
  cases ht : ph.terminal with
  | true => rfl
  | false =>
    have hn := h ph (by cases ph <;> simp_all [RunPhase.terminal, RunPhase.rank])
    exact absurd (hn.symm.trans hd) (by simp)

theorem View.Inv.past_of_terminal (hw : w.view.Inv config k) {D : CoreDir}
    (hd : w.view.dirs ph = some D) (ht : ph.terminal = true) : w.view.Past .processing := by
  intro ph' hle
  by_contra hsome
  obtain ⟨d', h'⟩ := Option.ne_none_iff_exists'.1 hsome
  rw [hw.unique _ _ _ _ h' hd, RunPhase.rank_terminal ht] at hle
  exact absurd hle (by decide)

theorem RunWorld.phaseOf_some {p : RunPhase} (h : w.phaseOf id = some p) :
    ∃ d, w.dirs p = some d ∧ d.id = id := by
  have h' := List.find?_some h
  cases hd : w.dirs p with
  | none => simp [hd] at h'
  | some d => exact ⟨d, rfl, by simpa [hd] using h'⟩

theorem RunWorld.release_view (w : RunWorld Tid) :
    (w.setPass t none).view = { w.view with pass := Function.update w.view.pass t none } := rfl

/-- The end of a removal that finds nothing to remove. -/
theorem Sweepable.release (h : Sweepable t ph w) (hw : w.view.Inv config k)
    (hd : w.dirs ph = none) (hspawn : o.transforms ≠ true)
    (hpublish : ∀ ph, o ≠ .publish ph .status) :
    Guar t o true w (w.setPass t none) ∧ (w.setPass t none).view.Inv config k ∧
      Idle t (w.setPass t none) := by
  refine ⟨(Guar.same hspawn fun ph hp => absurd hp (hpublish ph)).setPass _, ?_, ?_, ?_⟩
  · rw [RunWorld.release_view]
    refine hw.release ?_
    obtain h | h := h
    · refine .inr fun ph' => ?_
      by_contra hsome
      obtain ⟨D, hD⟩ := Option.ne_none_iff_exists'.1 hsome
      obtain ⟨rfl, _⟩ := h.locks hw hD
      simp [RunWorld.view, hd] at hD
    · exact .inl h.1.1
  · simp [RunWorld.setPass]
  · obtain h | h := h
    · exact h.2
    · exact h.1.2

namespace RunTriple

theorem sys_openDir :
    RunTriple host config k t (Sweepable t ph) (Server.sys (.openDir ph)) (fun r w =>
      (∃ e, r = .error e) ∧ Idle t w ∨ ∃ id es, r = .ok (id, es) ∧
        es.Pairwise (fun a b => a.isTree = true → b.isTree = true) ∧ Sweeping t ph id es w) := by
  refine RunTriple.sys (fun _ w m hw h hc => .inl ⟨⟨_, rfl⟩, ?_⟩) fun w now x hw h hc => ?_
  · obtain h | h := h
    · cases hc.unfailing rfl h.1
    · exact h.1.rely (RunWorld.noteFault_rely t)
  cases hd : w.dirs ph with
  | none =>
    simp only [RunOp.run, hd]
    obtain ⟨hg, hi, hidle⟩ := h.release (o := .openDir ph) hw hd (by rintro ⟨⟩) (by rintro _ ⟨⟩)
    exact ⟨hg, hi, .inl ⟨⟨_, rfl⟩, hidle⟩⟩
  | some d =>
    simp only [RunOp.run, hd]
    refine ⟨Guar.same (by rintro ⟨⟩) (by rintro _ ⟨⟩), hw, .inr ⟨d.id, d.listing x, rfl, RunDir.listing_ordered x, ?_⟩⟩
    obtain h | ⟨hidle, h⟩ := h
    · refine .inl ⟨h, fun d' hd' => ?_⟩
      obtain rfl : d = d' := by simpa using hd.symm.trans hd'
      exact ⟨rfl, fun e he => RunDir.mem_listing he x⟩
    · have hd' : w.view.dirs ph = some d.core := by simp [RunWorld.view, hd]
      obtain h | h := h
      · exact .inr ⟨hidle, h, hw.past_of_terminal hd' h⟩
      · exact absurd (h ph (le_refl _)) (by simp [hd'])

end RunTriple

/-- What is removed is in a terminal directory, or nobody holds the lock. -/
theorem RunWorld.swept (id : Nat) (hw : w.view.Inv config k) {d : RunDir} (hd : w.dirs ph = some d)
    (h : ph.terminal = true ∨ w.locks = [] ∧ w.pass t = some ph)
    (hgrips : ∀ g ∈ w.locks, g.tid ≠ t) (e : RunEntry) (now : Nat) :
    Guar t (.unlink id e) true w (w.setDir ph (some (d.sweep e now))) ∧
      (w.setDir ph (some (d.sweep e now))).view.Inv config k := by
  have hd' : w.view.dirs ph = some d.core := by simp [RunWorld.view, hd]
  have hview := RunWorld.setDir_view w ph (some (d.sweep e now))
  refine ⟨⟨fun u hu => ⟨fun g hl ht => ⟨hl, rfl, fun ph' hq => ?_⟩, rfl, fun ph' d' _ h' => ?_,
    fun ph' hpast => ?_, le_refl _, ⟨[], rfl⟩, fun hn => hn⟩, fun _ => .inr (.inl rfl), by rintro ⟨⟩, by rintro _ ⟨⟩,
    fun g hg ht => absurd ht (hgrips g hg), fun _ _ => ?_⟩, ?_⟩
  · have hne : ph' ≠ ph := by
      rintro rfl
      obtain h | ⟨h, _⟩ := h
      · rw [RunPhase.queued_not_terminal hq] at h
        cases h
      · rw [h] at hl
        cases hl
    simp [RunWorld.view, RunWorld.setDir, hne]
  · by_cases hne : ph' = ph
    · subst hne
      obtain rfl : d.sweep e now = d' := by simpa [RunWorld.setDir] using h'
      exact ⟨d, hd, RunDir.sweep_id e now, fun e' he' => (RunDir.has_sweep he').1⟩
    · exact ⟨d', by simpa [RunWorld.setDir, hne] using h', rfl, fun _ he => he⟩
  · rw [hview]
    exact hpast.setDir hd'
  · exact ⟨ph, by simp [hd], h.imp_right fun h => h.2⟩
  · rw [hview]
    refine hw.sweep hd' (h.imp_right fun h => ⟨h.1, t, h.2⟩) ?_ rfl
    cases e <;> first | exact .inl rfl | exact .inr rfl

namespace RunTriple

theorem sys_unlink {e : RunEntry} (hord : e.isTree = true → ∀ b ∈ rest, b.isTree = true) :
    RunTriple host config k t (Sweeping t ph id (e :: rest)) (Server.sys (.unlink id e))
      (fun r w => (r = .ok () ∧ Sweeping t ph id rest w) ∨ (∃ x, r = .error x) ∧ Idle t w) := by
  refine RunTriple.sys (fun _ w m hw h hc => .inr ⟨⟨_, rfl⟩, ?_⟩) fun w now x hw h hc => ?_
  · obtain h | h := h
    · cases hc.unfailing rfl h.1.1
    · exact h.1.rely (RunWorld.noteFault_rely t)
  cases hp : w.phaseOf id with
  | none =>
    simp only [RunOp.run, hp]
    refine ⟨Guar.same (by rintro ⟨⟩) (by rintro _ ⟨⟩), hw, .inl ⟨trivial, h.imp_left fun h => ⟨h.1, fun d hd => ?_⟩⟩⟩
    have hnone := List.find?_eq_none.1 hp ph (by cases ph <;> decide)
    simp [hd, (h.2 d hd).1] at hnone
  | some p =>
    obtain ⟨d, hd, hid⟩ := RunWorld.phaseOf_some hp
    have hd' : w.view.dirs p = some d.core := by simp [RunWorld.view, hd]
    simp only [RunOp.run, hp, hd]
    obtain h | ⟨hidle, ht, hpast⟩ := h
    · obtain ⟨rfl, hlocks⟩ := h.1.locks hw hd'
      by_cases hhas : d.has e = true
      · have hmore : d.holdsMore e = false := by
          by_contra hmore
          obtain ⟨s, path, rfl, hin⟩ := RunDir.has_of_holdsMore (by simpa using hmore)
          obtain h' | h' := List.mem_cons.1 ((h.2 d hd).2 _ hin)
          · cases h'
          · cases hord rfl _ h'
        obtain ⟨hg, hi⟩ := RunWorld.swept id hw hd (.inr ⟨hlocks, h.1.1⟩) h.1.2 e now
        simp only [hhas, hmore, Bool.not_true]
        refine ⟨hg, hi, .inl ⟨rfl, .inl ⟨⟨h.1.1, h.1.2⟩, fun d' hd'' => ?_⟩⟩⟩
        obtain rfl : d.sweep e now = d' := by simpa [RunWorld.setDir] using hd''
        refine ⟨(RunDir.sweep_id e now).trans hid, fun e' he' => ?_⟩
        obtain ⟨he', hne⟩ := RunDir.has_sweep he'
        exact (List.mem_cons.1 ((h.2 d hd).2 e' he')).resolve_left hne
      · simp only [hhas, Bool.not_false]
        refine ⟨Guar.same (by rintro ⟨⟩) (by rintro _ ⟨⟩), hw, .inl ⟨rfl, .inl ⟨h.1, fun d' hd'' => ?_⟩⟩⟩
        refine ⟨(h.2 d' hd'').1, fun e' he' => ?_⟩
        obtain rfl : d = d' := by simpa using hd.symm.trans hd''
        obtain rfl | hrest := List.mem_cons.1 ((h.2 d hd).2 e' he')
        · exact absurd he' hhas
        · exact hrest
    · have ht' := RunPhase.terminal_of_past hpast hd'
      by_cases hhas : d.has e = true
      · by_cases hmore : d.holdsMore e = true
        · simp only [hhas, hmore, Bool.not_true, if_true]
          exact ⟨Guar.same (by rintro ⟨⟩) (by rintro _ ⟨⟩), hw, .inr ⟨⟨_, rfl⟩, hidle⟩⟩
        · obtain ⟨hg, hi⟩ := RunWorld.swept id hw hd (.inl ht') hidle.2 e now
          simp only [hhas, hmore, Bool.not_true]
          refine ⟨hg, hi, .inl ⟨rfl, .inr ⟨hidle, ht, ?_⟩⟩⟩
          have hview := RunWorld.setDir_view w p (some (d.sweep e now))
          simp only [Bool.false_eq_true, if_false]
          rw [hview]
          exact hpast.setDir hd'
      · simp only [hhas, Bool.not_false]
        exact ⟨Guar.same (by rintro ⟨⟩) (by rintro _ ⟨⟩), hw, .inl ⟨rfl, .inr ⟨hidle, ht, hpast⟩⟩⟩

end RunTriple

/-- The directory that was emptied is removed, and the removal is over. -/
theorem RunWorld.removed (hw : w.view.Inv config k) {d : RunDir} (hd : w.dirs ph = some d)
    (h : ph.terminal = true ∨ w.locks = [] ∧ w.pass t = some ph)
    (hgrips : ∀ g ∈ w.locks, g.tid ≠ t) :
    Guar t (.rmdir ph) true w ((w.setDir ph none).setPass t none) ∧
      ((w.setDir ph none).setPass t none).view.Inv config k ∧
      Idle t ((w.setDir ph none).setPass t none) := by
  have hd' : w.view.dirs ph = some d.core := by simp [RunWorld.view, hd]
  have hnone : ∀ ph', (w.setDir ph none).dirs ph' = none := fun ph' => by
    by_cases hne : ph' = ph
    · simp [RunWorld.setDir, hne]
    · by_contra hsome
      obtain ⟨d', h'⟩ := Option.ne_none_iff_exists'.1 hsome
      have h'' : w.dirs ph' = some d' := by simpa [RunWorld.setDir, hne] using h'
      exact hne (hw.unique ph' ph d'.core _ (by simp [RunWorld.view, h'']) hd')
  have hg : Guar t (.rmdir ph) true w (w.setDir ph none) := by
    refine ⟨fun u hu => ⟨fun g hl ht => ⟨hl, rfl, fun ph' hq => ?_⟩, rfl,
      fun ph' d' _ h' => ?_, fun ph' _ ph'' _ => ?_, le_refl _, ⟨[], rfl⟩, fun hn => hn⟩,
      fun _ => .inr (.inl rfl), by rintro ⟨⟩, by rintro _ ⟨⟩, fun g hg ht => absurd ht (hgrips g hg), fun _ _ => ?_⟩
    · have hne : ph' ≠ ph := by
        rintro rfl
        obtain h | ⟨h, _⟩ := h
        · rw [RunPhase.queued_not_terminal hq] at h
          cases h
        · rw [h] at hl
          cases hl
      simp [RunWorld.view, RunWorld.setDir, hne]
    · exact absurd ((hnone ph').symm.trans h') (by simp)
    · simp [RunWorld.view, hnone ph'']
    · exact ⟨ph, by simp [hd], h.imp_right fun h => h.2⟩
  refine ⟨hg.setPass none, ?_, by simp [RunWorld.setPass], hgrips⟩
  · have hview : (w.setDir ph none).view = { w.view with dirs := fun _ => none } := by
      have hdirs : (w.setDir ph none).view.dirs = fun _ => none := by
        funext ph'
        simp [RunWorld.view, hnone ph']
      rw [← hdirs]
      rfl
    rw [RunWorld.release_view, hview]
    exact hw.remove.release (.inr fun _ => rfl)

namespace RunTriple

theorem sys_rmdir :
    RunTriple host config k t (Sweeping t ph id []) (Server.sys (.rmdir ph))
      (fun _ => Idle t) := by
  refine RunTriple.sys (fun _ w m hw h hc => ?_) fun w now x hw h hc => ?_
  · obtain h | h := h
    · cases hc.unfailing rfl h.1.1
    · exact h.1.rely (RunWorld.noteFault_rely t)
  cases hd : w.dirs ph with
  | none =>
    simp only [RunOp.run, hd]
    have hs : Sweepable t ph w := h.imp (fun h => h.1) fun h => ⟨h.1, .inl h.2.1⟩
    exact hs.release hw hd (by rintro ⟨⟩) (by rintro _ ⟨⟩)
  | some d =>
    have hd' : w.view.dirs ph = some d.core := by simp [RunWorld.view, hd]
    by_cases hempty : d.entries.isEmpty = true
    · simp only [RunOp.run, hd, hempty, if_true]
      obtain h | ⟨hidle, ht, _⟩ := h
      · exact RunWorld.removed hw hd (.inr ⟨(h.1.locks hw hd').2, h.1.1⟩) h.1.2
      · exact RunWorld.removed hw hd (.inl ht) hidle.2
    · simp only [RunOp.run, hd, hempty]
      obtain h | ⟨hidle, ht, _⟩ := h
      · refine absurd ?_ hempty
        have hnone := RunDir.entries_empty (d := d) fun e => by
          cases he : d.has e with
          | false => rfl
          | true => cases (h.2 d hd).2 e he
        simp [hnone]
      · refine ⟨(Guar.same (o := .rmdir ph) (by rintro ⟨⟩) (by rintro _ ⟨⟩)).setPass _, ?_, by simp [RunWorld.setPass], hidle.2⟩
        exact hw.release (.inl hidle.1)

end RunTriple

/-- A removal that has begun is carried through, unless a terminal directory
resists. -/
theorem unlinkEntries_spec (id : Nat) (es : List RunEntry)
    (hord : es.Pairwise fun a b => a.isTree = true → b.isTree = true) :
    RunTriple host config k t (Sweeping t ph id es) (unlinkEntries id es).run
      (fun r w => (r = .ok () ∧ Sweeping t ph id [] w) ∨ (∃ x, r = .error x) ∧ Idle t w) := by
  induction es with
  | nil => exact RunTriple.ret fun w _ h => .inl ⟨rfl, h⟩
  | cons e es ih =>
    obtain ⟨he, hes⟩ := List.pairwise_cons.1 hord
    refine RunTriple.ioBind (M := fun _ => Sweeping t ph id es)
      ((RunTriple.sys_unlink fun ht b hb => he b hb ht).weaken fun r w _ h => ?_) fun _ => ih hes
    obtain ⟨rfl, h⟩ | ⟨⟨x, rfl⟩, h⟩ := h
    · exact h
    · exact .inr ⟨⟨_, rfl⟩, h⟩

/-- After a removal the collection holds nothing and deletes nothing. -/
theorem removeRun_spec :
    RunTriple host config k t (Sweepable t ph) (removeRun config k ph).run (fun _ => Idle t) := by
  refine RunTriple.runAdapt (RunTriple.ioBind (M := fun r w =>
    r.2.Pairwise (fun a b => a.isTree = true → b.isTree = true) ∧ Sweeping t ph r.1 r.2 w)
    (RunTriple.sys_openDir.weaken fun r w _ h => ?_) fun r => RunTriple.pure_pre fun hord => ?_)
  · obtain ⟨⟨e, rfl⟩, h⟩ | ⟨id, es, rfl, hord, h⟩ := h
    · exact h
    · exact ⟨hord, h⟩
  · refine RunTriple.runBind (M := fun _ => Sweeping t ph r.1 [])
      ((unlinkEntries_spec r.1 r.2 hord).weaken fun r' w _ h => ?_) fun _ =>
        RunTriple.io RunTriple.sys_rmdir
    obtain ⟨rfl, h⟩ | ⟨⟨x, rfl⟩, h⟩ := h
    · exact h
    · exact h

end Purgery.Server
