import Purgery.Server.Exclusion.Locks

namespace Purgery.Server

open Purgery.Interleaving

variable {Tid : Type} [DecidableEq Tid]
variable {host : Host} {config : ServerConfig} {k : RunKey} {t : Tid} {g : Grip Tid}
variable {ph : RunPhase} {w w' : RunWorld Tid} {o : RunOp}

theorem RunWorld.Rely.setPass {u : Tid} (hu : u ≠ t) (h : w.Rely u w') (p : Option RunPhase) :
    w.Rely u (w'.setPass t p) where
  locks := h.locks
  pass := by simp [RunWorld.setPass, hu, h.pass]
  shrink := h.shrink
  past := h.past
  nextIno := h.nextIno
  faults := h.faults
  noGrip := h.noGrip

/-- The others do not see what a garbage collection decides. -/
theorem Guar.setPass {ok : Bool} (h : Guar t o ok w w') (p : Option RunPhase) :
    Guar t o ok w (w'.setPass t p) where
  others u hu := (h.others u hu).setPass hu p
  mutates := h.mutates
  spawns := h.spawns
  publishes := h.publishes
  stale := h.stale
  removal := h.removal

/-- The garbage collection of `t` is to delete the run, which it holds no lock
of. -/
def Condemned (t : Tid) (ph : RunPhase) (w : RunWorld Tid) : Prop :=
  w.pass t = some ph ∧ ∀ g ∈ w.locks, g.tid ≠ t

instance : Stable config k t (Condemned t ph) :=
  ⟨fun _ _ _ _ hr h => ⟨hr.pass.trans h.1, hr.noGrip h.2⟩⟩

theorem Condemned.locks (h : Condemned t ph w) (hw : w.view.Inv config k) {ph' : RunPhase}
    {D : CoreDir} (hd : w.view.dirs ph' = some D) : ph' = ph ∧ w.locks = [] := by
  obtain ⟨rfl, hg⟩ := (hw.pass t ph h.1).2 ph' D hd
  refine ⟨rfl, ?_⟩
  cases hl : w.locks with
  | nil => rfl
  | cons g gs => exact absurd (hg g (by simp [RunWorld.view, hl])) (h.2 g (by simp [hl]))

/-- The run may be removed from this phase. -/
def Sweepable (t : Tid) (ph : RunPhase) (w : RunWorld Tid) : Prop :=
  Condemned t ph w ∨ Idle t w ∧ (ph.terminal = true ∨ w.view.Past ph)

instance : Stable config k t (Sweepable t ph) :=
  inferInstanceAs (Stable config k t fun w =>
    Condemned t ph w ∨ Idle t w ∧ (ph.terminal = true ∨ w.view.Past ph))

/-- A decision on a run that is there and that nobody works on. -/
theorem Idle.condemn (hidle : Idle t w) (hw : w.view.Inv config k) {d : RunDir}
    (hd : w.dirs ph = some d) (hnt : ph.terminal = false) (hlocks : w.locks = [])
    (hspawn : o.transforms ≠ true) (hpublish : ∀ ph, o ≠ .publish ph .status) :
    Guar t o true w (w.setPass t (some ph)) ∧ (w.setPass t (some ph)).view.Inv config k ∧
      Condemned t ph (w.setPass t (some ph)) := by
  refine ⟨(Guar.same hspawn fun ph hp => absurd hp (hpublish ph)).setPass _, ?_, ?_, hidle.2⟩
  · refine hw.condemn (D := d.core) (by simp [RunWorld.view, hd]) hnt fun g hg => ?_
    rw [show w.view.locks = [] from hlocks] at hg
    cases hg
  · simp [RunWorld.setPass]

theorem View.Inv.incoming_locks (hw : w.view.Inv config k) {d : RunDir}
    (hd : w.dirs .incoming = some d) : w.locks = [] := by
  have h := (hw.incoming d.core (by simp [RunWorld.view, hd])).1
  cases hl : w.locks with
  | nil => rfl
  | cons g gs =>
    have h' := (hw.gripIno g (by simp [RunWorld.view, hl])).2
    exact absurd (h.symm.trans h') (by decide)

omit [DecidableEq Tid] in
theorem Reached.past (h : Reached ph w) (hph : ph.queued = true) (hd : w.dirs ph = none) :
    w.view.Past ph := by
  intro ph' hle
  by_cases hne : ph' = ph
  · subst hne
    simp [RunWorld.view, hd]
  · refine h.2 ph' (lt_of_le_of_ne hle fun he => hne ?_)
    obtain rfl | rfl := RunPhase.queued_cases hph <;> cases ph' <;> simp_all [RunPhase.rank]

/-- A processing run without a lock file is one that is being deleted. -/
theorem View.Inv.unlocked (hw : w.view.Inv config k) {d : RunDir}
    (hd : w.dirs .processing = some d) (hl : d.lock = none) : w.locks = [] := by
  have hd' : w.view.dirs .processing = some d.core := by simp [RunWorld.view, hd]
  have ht := (hw.processingLock d.core hd').2.resolve_right (by simp [RunDir.core, hl])
  exact (hw.touched _ d.core hd' rfl ht).1

namespace RunTriple

/-- The age of a directory is read; it may decide that the run is deleted. -/
theorem sys_modified {dooms : Nat → Bool}
    (hdooms : ph = .incoming ∨ ph = .ready ∨ ∀ m, dooms m = false) :
    RunTriple host config k t (Idle t) (Server.sys (.modified ph dooms)) (fun r w =>
      (∃ e, r = .error e) ∧ Idle t w ∨ ∃ m, r = .ok m ∧
        ((dooms m = true ∧ Condemned t ph w) ∨ dooms m = false ∧ Idle t w)) := by
  refine RunTriple.sys (fun _ w m hw hidle _ => .inl ⟨⟨_, rfl⟩, ?_⟩) fun w now x hw hidle hc => ?_
  · exact hidle.rely (RunWorld.noteFault_rely t)
  cases hd : w.dirs ph with
  | none =>
    simp only [RunOp.run, hd]
    exact ⟨Guar.same (by rintro ⟨⟩) (by rintro _ ⟨⟩), hw, .inl ⟨⟨_, rfl⟩, hidle⟩⟩
  | some d =>
    cases hm : dooms d.mtime with
    | false =>
      simp only [RunOp.run, hd, hm, RunOp.doom, Bool.false_and]
      exact ⟨Guar.same (by rintro ⟨⟩) (by rintro _ ⟨⟩), hw, .inr ⟨_, rfl, .inr ⟨hm, hidle⟩⟩⟩
    | true =>
      have hlocks : ph.terminal = false ∧ w.locks = [] := by
        obtain rfl | rfl | h := hdooms
        · exact ⟨rfl, hw.incoming_locks hd⟩
        · exact ⟨rfl, hc.ready (by simp [RunOp.condemnsReady, hd, hm]) rfl⟩
        · exact absurd (hm.symm.trans (h _)) (by simp)
      simp only [RunOp.run, hd, hm, RunOp.doom, Option.isSome_some, Bool.and_self, if_true]
      obtain ⟨hg, hi, hcon⟩ := hidle.condemn (o := .modified ph dooms) hw hd hlocks.1 hlocks.2
        (by rintro ⟨⟩) (by rintro _ ⟨⟩)
      exact ⟨hg, hi, .inr ⟨_, rfl, .inl ⟨hm, hcon⟩⟩⟩

theorem sys_readLease {dooms : Except IoError (Doc LeaseFile) → Bool}
    (hdooms : ∀ e, dooms (.error e) = false) :
    RunTriple host config k t (Idle t) (Server.sys (.readLease dooms)) (fun r w =>
      (dooms r = true ∧ Condemned t .incoming w) ∨ dooms r = false ∧ Idle t w) := by
  refine RunTriple.sys (fun _ w m hw hidle _ => .inr ⟨hdooms _, ?_⟩) fun w now x hw hidle hc => ?_
  · exact hidle.rely (RunWorld.noteFault_rely t)
  cases hm : dooms (w.look .incoming fun d => (d.file .lease).read) with
  | false =>
    simp only [RunOp.run, hm, RunOp.doom, Bool.false_and]
    exact ⟨Guar.same (by rintro ⟨⟩) (by rintro _ ⟨⟩), hw, .inr ⟨trivial, hidle⟩⟩
  | true =>
    cases hd : w.dirs .incoming with
    | none =>
      rw [RunWorld.look_none hd, hdooms] at hm
      cases hm
    | some d =>
      simp only [RunOp.run, hm, RunOp.doom, hd, Option.isSome_some, Bool.and_self, if_true]
      obtain ⟨hg, hi, hcon⟩ := hidle.condemn (o := .readLease dooms) hw hd rfl
        (hw.incoming_locks hd) (by rintro ⟨⟩) (by rintro _ ⟨⟩)
      exact ⟨hg, hi, .inl ⟨trivial, hcon⟩⟩

/-- The processing directory was there when the processing run was to be
collected. -/
theorem sys_modified_processing :
    RunTriple host config k t (Idle t) (Server.sys (.modified .processing fun _ => false))
      (fun r w => Idle t w ∧ ((∃ e, r = .error e) ∨ Reached .processing w)) := by
  refine RunTriple.sys (fun _ w m hw hidle _ => ⟨?_, .inl ⟨_, rfl⟩⟩) fun w now x hw hidle hc => ?_
  · exact hidle.rely (RunWorld.noteFault_rely t)
  cases hd : w.dirs .processing with
  | none =>
    simp only [RunOp.run, hd]
    exact ⟨Guar.same (by rintro ⟨⟩) (by rintro _ ⟨⟩), hw, hidle, .inl ⟨_, rfl⟩⟩
  | some d =>
    have hd' : w.view.dirs .processing = some d.core := by simp [RunWorld.view, hd]
    simp only [RunOp.run, hd, RunOp.doom, Bool.false_and]
    refine ⟨Guar.same (by rintro ⟨⟩) (by rintro _ ⟨⟩), hw, hidle, .inr ⟨(hw.processingLock _ hd').1, fun ph' hlt => ?_⟩⟩
    by_contra hsome
    obtain ⟨d', h'⟩ := Option.ne_none_iff_exists'.1 hsome
    rw [hw.unique _ _ _ _ h' hd'] at hlt
    exact absurd hlt (lt_irrefl _)

end RunTriple

/-- What a probe of the processing run starts from; a collection knows that the
run has come so far. -/
def Probing (t : Tid) (sweep : Bool) (w : RunWorld Tid) : Prop :=
  Idle t w ∧ (sweep = true → Reached .processing w)

instance {sweep : Bool} : Stable config k t (Probing t sweep) :=
  inferInstanceAs (Stable config k t fun w => Idle t w ∧ (sweep = true → Reached .processing w))

namespace RunTriple

variable {sweep : Bool}

theorem sys_probeDir :
    RunTriple host config k t (Probing t sweep) (Server.sys (.probeDir .processing sweep))
      (fun r w => Probing t sweep w ∧ (sweep = true → r = false → w.view.Past .processing)) := by
  refine RunTriple.sys (fun _ w m hw h hc => ⟨?_, fun hs => ?_⟩) fun w now x hw h _ => ?_
  · exact ⟨h.1.rely (RunWorld.noteFault_rely t), h.2⟩
  · subst hs
    exact nomatch hc.lookup rfl
  · exact ⟨Guar.same nofun nofun, hw, h, fun hs hr => (h.2 hs).past rfl (by simpa [RunOp.run] using hr)⟩

theorem sys_lockExists :
    RunTriple host config k t (Probing t sweep) (Server.sys (.lockExists .processing sweep))
      (fun r w => (Probing t sweep w ∧ (sweep = true → r = false → w.view.Past .processing)) ∨
        (sweep = true ∧ r = false) ∧ Condemned t .processing w) := by
  refine RunTriple.sys (fun _ w m hw h hc => .inl ⟨?_, fun hs => ?_⟩) fun w now x hw h _ => ?_
  · exact ⟨h.1.rely (RunWorld.noteFault_rely t), h.2⟩
  · subst hs
    cases hc.lookup rfl
  cases sweep with
  | false =>
    exact ⟨Guar.same (by rintro ⟨⟩) (by rintro _ ⟨⟩), hw, .inl ⟨h, by rintro ⟨⟩⟩⟩
  | true =>
    cases hd : w.dirs .processing with
    | none =>
      simp only [RunOp.run, RunOp.doom, hd, Option.isSome_none, Bool.and_false]
      exact ⟨Guar.same (by rintro ⟨⟩) (by rintro _ ⟨⟩), hw, .inl ⟨h, fun _ _ => (h.2 rfl).past rfl hd⟩⟩
    | some d =>
      cases hl : d.lock with
      | some i =>
        simp only [RunOp.run, RunOp.doom, hd, Option.any_some, RunDir.has, hl]
        exact ⟨Guar.same (by rintro ⟨⟩) (by rintro _ ⟨⟩), hw, .inl ⟨h, by rintro _ ⟨⟩⟩⟩
      | none =>
        simp only [RunOp.run, RunOp.doom, hd, Option.any_some, RunDir.has, hl, Option.isSome_some]
        obtain ⟨hg, hi, hcon⟩ := h.1.condemn (o := .lockExists .processing true) hw hd rfl
          (hw.unlocked hd hl) (by rintro ⟨⟩) (by rintro _ ⟨⟩)
        exact ⟨hg, hi, .inr ⟨by simp, hcon⟩⟩

theorem sys_openLockReadonly :
    RunTriple host config k t (Probing t sweep) (Server.sys (.openLockReadonly .processing sweep))
      (fun r w => (Probing t sweep w ∧ ((r = .ok 0 ∧ Reached .processing w) ∨
          (∃ m, r = .error (.other m)) ∨
          r = .error .notFound ∧ (sweep = true → w.view.Past .processing))) ∨
        (sweep = true ∧ r = .error .notFound) ∧ Condemned t .processing w) := by
  refine RunTriple.sys (fun _ w m hw h hc => .inl ⟨?_, .inr (.inl ⟨m, rfl⟩)⟩) fun w now x hw h _ => ?_
  · exact ⟨h.1.rely (RunWorld.noteFault_rely t), h.2⟩
  cases hd : w.dirs .processing with
  | none =>
    simp only [RunOp.run, hd]
    exact ⟨Guar.same (by rintro ⟨⟩) (by rintro _ ⟨⟩), hw,
      .inl ⟨h, .inr (.inr ⟨trivial, fun hs => (h.2 hs).past rfl hd⟩)⟩⟩
  | some d =>
    have hd' : w.view.dirs .processing = some d.core := by simp [RunWorld.view, hd]
    cases hl : d.lock with
    | some i =>
      simp only [RunOp.run, hd, hl]
      obtain ⟨rfl, hi⟩ := hw.lockIno _ d.core i hd' hl
      refine ⟨Guar.same (by rintro ⟨⟩) (by rintro _ ⟨⟩), hw, .inl ⟨h, .inl ⟨rfl, hi, fun ph' hlt => ?_⟩⟩⟩
      by_contra hsome
      obtain ⟨d', h'⟩ := Option.ne_none_iff_exists'.1 hsome
      rw [hw.unique _ _ _ _ h' hd'] at hlt
      exact absurd hlt (lt_irrefl _)
    | none =>
      cases sweep with
      | false =>
        simp only [RunOp.run, hd, hl, RunOp.doom, Bool.false_and]
        exact ⟨Guar.same (by rintro ⟨⟩) (by rintro _ ⟨⟩), hw, .inl ⟨h, .inr (.inr ⟨trivial, by rintro ⟨⟩⟩)⟩⟩
      | true =>
        simp only [RunOp.run, hd, hl, RunOp.doom, Option.isSome_some, Bool.and_self, if_true]
        obtain ⟨hg, hi, hcon⟩ := h.1.condemn (o := .openLockReadonly .processing true) hw hd rfl
          (hw.unlocked hd hl) (by rintro ⟨⟩) (by rintro _ ⟨⟩)
        exact ⟨hg, hi, .inr ⟨by simp, hcon⟩⟩

end RunTriple

end Purgery.Server
