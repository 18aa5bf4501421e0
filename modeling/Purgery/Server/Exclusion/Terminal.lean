import Purgery.Server.Exclusion.Holder

namespace Purgery.Server

open Purgery.Interleaving

variable {Tid : Type} [DecidableEq Tid]
variable {host : Host} {config : ServerConfig} {k : RunKey} {t : Tid} {g : Grip Tid}
variable {ph : RunPhase} {D : CoreDir} {pl : List (RunPhase × Doc RunStatus)}
variable {w w' : RunWorld Tid} {o : RunOp} {I : RunWorld Tid → Prop}

/-- Process `t` holds no lock and deletes nothing. -/
def Idle (t : Tid) (w : RunWorld Tid) : Prop := w.pass t = none ∧ ∀ g ∈ w.locks, g.tid ≠ t

omit [DecidableEq Tid] in
theorem Idle.rely (h : Idle t w) (hr : w.Rely t w') : Idle t w' :=
  ⟨hr.pass.trans h.1, hr.noGrip h.2⟩

instance : Stable config k t (Idle t) := ⟨fun _ _ _ _ hr h => h.rely hr⟩

/-- The calls that clean up a terminal directory and leave its status. -/
def RunOp.prunes : RunOp → Bool
  | .removeLock ph => ph.terminal
  | .removeFile ph f => ph.terminal && f != .status
  | .removeTmp ph _ => ph.terminal
  | .breakTree ph _ => ph.terminal
  | .removeTree ph _ => ph.terminal
  | _ => false

/-- What a change inside a terminal directory amounts to. -/
def Prunes (d d' : RunDir) : Prop :=
  (d'.lock = d.lock ∨ d'.lock = none) ∧ d'.touched = d.touched ∧
    d'.file .status = d.file .status

theorem Prunes.view_inv (hw : w.view.Inv config k) {d d' : RunDir} (hd : w.dirs ph = some d)
    (ht : ph.terminal = true) (h : Prunes d d') : (w.setDir ph (some d')).view.Inv config k := by
  obtain ⟨hlock, htouched, hstatus⟩ := h
  rw [RunWorld.setDir_view]
  refine hw.update (D := d.core) (by simp [RunWorld.view, hd]) (hlock.imp_right fun h => ⟨ht, h⟩)
    htouched (fun hq => ?_) fun _ => hstatus
  rw [RunPhase.queued_not_terminal hq] at ht
  cases ht

omit [DecidableEq Tid] in
theorem RunWorld.terminal_rely (hw : w.view.Inv config k) {d : RunDir}
    (hd : w.dirs ph = some d) (ht : ph.terminal = true) (d' : RunDir) (u : Tid) :
    w.Rely u (w.setDir ph (some d')) where
  locks g' hl hg' := by
    refine ⟨hl, rfl, fun ph' hq => ?_⟩
    have hne : ph' ≠ ph := by
      rintro rfl
      rw [RunPhase.queued_not_terminal hq] at ht
      cases ht
    simp [RunWorld.view, RunWorld.setDir, hne]
  pass := rfl
  shrink ph' d'' hp hd' := by
    obtain ⟨hnt, hall⟩ := hw.pass u ph' hp
    have := (hall ph d.core (by simp [RunWorld.view, hd])).1
    rw [← this, ht] at hnt
    cases hnt
  past ph' hpast := by
    rw [RunWorld.setDir_view]
    exact hpast.setDir (D := d.core) (by simp [RunWorld.view, hd])
  nextIno := le_refl _
  faults := ⟨[], rfl⟩
  noGrip h := h

theorem Guar.terminal (hw : w.view.Inv config k) {d d' : RunDir} (hd : w.dirs ph = some d)
    (ht : ph.terminal = true) (hspawn : o.transforms ≠ true)
    (hpublish : ∀ ph, o ≠ .publish ph .status)
    (hfresh : ∀ g ∈ w.locks, g.tid = t → g.fresh = true) :
    Guar t o true w (w.setDir ph (some d')) where
  others u _ := RunWorld.terminal_rely hw hd ht d' u
  mutates h := by
    obtain ⟨ph', hq, hne⟩ | h := h
    · refine absurd ?_ hne
      have hne : ph' ≠ ph := by
        rintro rfl
        rw [RunPhase.queued_not_terminal hq] at ht
        exact nomatch ht
      simp [RunWorld.contents, RunWorld.setDir, hne]
    · exact absurd rfl h
  spawns h := absurd h hspawn
  publishes ph hp := absurd hp (hpublish ph)
  stale g hg htid hf := absurd ((hfresh g hg htid).symm.trans hf) (by simp)
  removal _ _ := ⟨ph, by simp [hd], .inl ht⟩

/-- A clean-up call either changes nothing or prunes a terminal directory. -/
theorem RunOp.prunes_run (host : Host) (ho : o.prunes = true) (x : o.Extra) (now : Nat) :
    (o.run host t x now w).2 = w ∨ ∃ ph d d', ph.terminal = true ∧ w.dirs ph = some d ∧
      Prunes d d' ∧ (o.run host t x now w).2 = w.setDir ph (some d') := by
  have hchange : ∀ (ph : RunPhase) (f : RunDir → Except IoError RunDir), ph.terminal = true →
      (∀ d d', f d = .ok d' → Prunes d d') → (w.change ph f).2 = w ∨ ∃ ph' d d',
        ph'.terminal = true ∧ w.dirs ph' = some d ∧ Prunes d d' ∧
          (w.change ph f).2 = w.setDir ph' (some d') := by
    intro ph f ht hf
    cases hd : w.dirs ph with
    | none => exact .inl (by simp [RunWorld.change, hd])
    | some d =>
      cases hd' : f d with
      | error e => exact .inl (by simp [RunWorld.change, hd, hd'])
      | ok d' => exact .inr ⟨ph, d, d', ht, hd, hf d d' hd', by simp [RunWorld.change, hd, hd']⟩
  have hentry : ∀ (e : RunEntry) (d d' : RunDir), e ≠ .file .status →
      d.removeEntry e now = .ok d' → Prunes d d' := by
    intro e d d' he h
    unfold RunDir.removeEntry at h
    split at h
    · cases h
      refine ⟨?_, ?_, ?_⟩
      · cases e <;> first | exact .inl rfl | exact .inr rfl
      · cases e <;> rfl
      · cases e with
        | file f =>
          have hf : FileName.status ≠ f := by
            rintro rfl
            exact he rfl
          simp [RunDir.without, RunDir.stamp, RunDir.setFile, hf]
        | _ => rfl
    · exact nomatch h
  cases o with
  | removeLock ph => exact hchange ph _ ho fun d d' h => hentry .lock d d' nofun h
  | removeFile ph f =>
    simp only [RunOp.prunes, Bool.and_eq_true, bne_iff_ne] at ho
    exact hchange ph _ ho.1 fun d d' h => hentry (.file f) d d' (by simpa using ho.2) h
  | removeTmp ph f => exact hchange ph _ ho fun d d' h => hentry (.tmp f) d d' nofun h
  | breakTree ph s =>
    refine hchange ph _ ho fun d d' h => ?_
    split at h
    · exact nomatch h
    · cases h
      exact ⟨.inl rfl, rfl, rfl⟩
  | removeTree ph s => exact hchange ph _ ho fun d d' h => hentry (.tree s) d d' nofun h
  | _ => simp [RunOp.prunes] at ho

theorem RunTriple.sys_prune [hI : Stable config k t I] (ho : o.prunes = true)
    (hfresh : ∀ w, w.view.Inv config k → I w → ∀ g ∈ w.locks, g.tid = t → g.fresh = true) :
    RunTriple host config k t I (Server.sys o) (fun _ => I) := by
  refine (RunTriple.sys_keep fun w now x hw hI' _ => ?_).weaken fun _ _ _ h => h.1
  have hspawn : o.transforms ≠ true := by
    cases o <;> simp_all [RunOp.prunes, RunOp.transforms]
  have hpublish : ∀ ph, o ≠ .publish ph .status := by
    rintro ph rfl
    simp [RunOp.prunes] at ho
  obtain h | ⟨ph, d, d', ht, hd, hp, h⟩ := RunOp.prunes_run (t := t) (w := w) host ho x now
  · rw [h]
    exact ⟨Guar.same hspawn fun ph hp => absurd hp (hpublish ph), hw, hI'⟩
  · rw [h]
    have hr := RunWorld.terminal_rely hw hd ht d' t
    have hi := hp.view_inv hw hd ht
    exact ⟨Guar.terminal hw hd ht hspawn hpublish (hfresh w hw hI'), hi,
      hI.stable _ _ hw hi hr hI'⟩

/-- Code that looks and cleans up keeps every assertion. -/
theorem RunTriple.of_prune {α : Type} {c : Call α} [hI : Stable config k t I]
    (hc : c.Only fun o => o.idle = true ∨ o.prunes = true)
    (hfresh : ∀ w, w.view.Inv config k → I w → ∀ g ∈ w.locks, g.tid = t → g.fresh = true) :
    RunTriple host config k t I c (fun _ => I) := by
  induction c with
  | ret a => exact RunTriple.ret fun w _ h => h
  | call o f ih =>
    refine RunTriple.bind (c := Server.sys o) (f := f) (M := fun _ => I) ?_ fun r => ih r (hc.2 r)
    obtain h | h := hc.1
    · exact (RunTriple.sys_idle h).weaken fun _ _ _ h => h.1
    · exact RunTriple.sys_prune h hfresh

end Purgery.Server
