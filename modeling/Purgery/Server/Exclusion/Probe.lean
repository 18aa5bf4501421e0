import Purgery.Server.Exclusion.Condemn
import Purgery.Server.Exclusion.Recovery

namespace Purgery.Server

open Purgery.Interleaving

variable {Tid : Type} [DecidableEq Tid]
variable {host : Host} {config : ServerConfig} {k : RunKey} {t : Tid} {g : Grip Tid}
variable {ph : RunPhase} {w w' : RunWorld Tid} {o : RunOp} {sweep : Bool}

namespace RunTriple

theorem sys_probeFlock :
    RunTriple host config k t (fun w => Idle t w ∧ Reached .processing w)
      (Server.sys (.probeFlock .processing 0 sweep)) (fun r w =>
        ((sweep = true ∧ r = .ok true) ∧ w.pass t = some .processing) ∨
        w.pass t = none ∧ (sweep = true → r = .ok true → w.view.Past .processing)) := by
  refine RunTriple.sys (fun _ w m hw h _ => .inr ⟨h.1.1, by rintro _ ⟨⟩⟩) fun w now x hw h hc => ?_
  have hpass := hc.alone rfl
  obtain ⟨hg, hi, hq⟩ := tryFlock (o := .probeFlock .processing 0 sweep) hw hpass
    rfl h.1 h.2 (by rintro ⟨⟩) (by rintro _ ⟨⟩) rfl
  have hrun : RunOp.run host t (.probeFlock .processing 0 sweep) x now w =
      (.ok (RunOp.tryFlock t .processing 0 w).1, RunOp.doom t .processing
        (sweep && (RunOp.tryFlock t .processing 0 w).1) (RunOp.tryFlock t .processing 0 w).2) := rfl
  rw [hrun]
  generalize RunOp.tryFlock t .processing 0 w = r at hg hi hq ⊢
  obtain ⟨b, w'⟩ := r
  obtain ⟨hb, g, _, _, hown⟩ | ⟨hb, hidle⟩ := hq
  · obtain rfl : b = true := hb
    have hs := hown.session
    cases sweep with
    | false =>
      simp only [RunOp.doom, Bool.false_and]
      exact ⟨hg, hi, .inr ⟨hs.idle, by rintro ⟨⟩⟩⟩
    | true =>
      cases hd : w'.dirs .processing with
      | none =>
        simp only [RunOp.doom, hd, Option.isSome_none, Bool.and_false]
        refine ⟨hg, hi, .inr ⟨hs.idle, fun _ _ => ?_⟩⟩
        obtain ⟨D, pl, hat⟩ | hgone := hown
        · exact absurd hat.dir (by simp [RunWorld.view, hd])
        · exact hgone.past
      | some d =>
        simp only [RunOp.doom, hd, Option.isSome_some, Bool.and_self, if_true]
        refine ⟨hg.setPass _, ?_, .inl ⟨by simp, by simp [RunWorld.setPass]⟩⟩
        refine hi.condemn (D := d.core) (by simp [RunWorld.view, hd]) rfl fun g' hg' => ?_
        obtain rfl : g' = g := by simpa [show w'.view.locks = [g] from hs.locks] using hg'
        exact hs.tid
  · obtain rfl : b = false := hb
    simp only [RunOp.doom, Bool.and_false, Bool.false_and]
    exact ⟨hg, hi, .inr ⟨hidle.1, by rintro _ ⟨⟩⟩⟩

/-- The lock file is closed, whatever the process held of it. -/
theorem close_probe {p : Option RunPhase} {φ : Prop} :
    RunTriple host config k t (fun w => w.pass t = p ∧ (φ → w.view.Past .processing))
      (Server.sys (.close 0)) (fun _ w => (w.pass t = p ∧ ∀ g ∈ w.locks, g.tid ≠ t) ∧
        (φ → w.view.Past .processing)) := by
  refine RunTriple.sys (fun hf => nomatch hf) fun w now x hw h _ => ?_
  have hkeep : ∀ g ∈ w.locks, g.tid ≠ t → g ∈ w.locks.filter fun g => !(g.ino == 0 && g.tid == t) :=
    fun g hg hne => List.mem_filter.2 ⟨hg, by simp [hne]⟩
  refine ⟨⟨fun u hu => ⟨fun g hl ht => ?_, rfl, fun ph d' _ h => ⟨d', h, rfl, fun _ he => he⟩,
    fun _ h => h, le_refl _, ⟨[], rfl⟩, fun hn g hg => hn g (List.mem_filter.1 hg).1⟩, ?_, nofun,
    nofun, fun _ _ _ _ => ⟨rfl, rfl⟩, fun h => nomatch h⟩, hw.unlock _, ⟨h.1, fun g hg ht => ?_⟩, h.2⟩
  · refine ⟨?_, rfl, fun _ _ => rfl⟩
    have hne : g.tid ≠ t := fun h => hu (ht.symm.trans h)
    simp [RunOp.run, hl, hne]
  · rintro (⟨_, _, h⟩ | h)
    · exact absurd rfl h
    · exact absurd rfl h
  · obtain ⟨hmem, hp⟩ := List.mem_filter.1 hg
    simp [(hw.gripIno g hmem).1, ht] at hp

end RunTriple

/-- What a probe of the processing run has found: a collection that goes on may
remove the run. -/
def Probed (t : Tid) (sweep : Bool) (r : Except String (Option Bool)) (w : RunWorld Tid) : Prop :=
  (Idle t w ∧ (sweep = true → (r = .ok none ∨ r = .ok (some false)) → w.view.Past .processing)) ∨
    (sweep = true ∧ (r = .ok none ∨ r = .ok (some false))) ∧ Condemned t .processing w

instance {r : Except String (Option Bool)} : Stable config k t (Probed t sweep r) :=
  inferInstanceAs (Stable config k t fun w =>
    (Idle t w ∧ (sweep = true → (r = .ok none ∨ r = .ok (some false)) → w.view.Past .processing)) ∨
      (sweep = true ∧ (r = .ok none ∨ r = .ok (some false))) ∧ Condemned t .processing w)

theorem probeProcessorLockReadonly_spec :
    RunTriple host config k t (Probing t sweep)
      (probeProcessorLockReadonly config k .processing sweep).run (Probed t sweep) := by
  refine RunTriple.askBind RunTriple.sys_probeDir fun found => ?_
  split
  · rename_i hf
    refine RunTriple.ret fun w _ h => .inl ⟨h.1.1, fun hs _ => h.2 hs (by simpa using hf)⟩
  refine RunTriple.askBind (RunTriple.sys_lockExists.strengthen fun w _ h => h.1) fun found => ?_
  split
  · rename_i hf
    have hf' : found = false := by simpa using hf
    refine RunTriple.ret fun w _ h => h.imp (fun h => ⟨h.1.1, fun hs _ => h.2 hs hf'⟩) fun h => ?_
    exact ⟨⟨h.1.1, .inr rfl⟩, h.2⟩
  rename_i hf
  have hf' : found = true := by simpa using hf
  refine RunTriple.askBind (RunTriple.sys_openLockReadonly.strengthen fun w _ h => ?_) fun r => ?_
  · obtain h | h := h
    · exact h.1
    · exact absurd (hf'.symm.trans h.1.2) (by simp)
  split
  · refine RunTriple.ret fun w _ h => ?_
    obtain ⟨h, ⟨hr, _⟩ | ⟨_, hr⟩ | ⟨_, hp⟩⟩ | h := h
    · cases hr
    · cases hr
    · exact .inl ⟨h.1, fun hs _ => hp hs⟩
    · exact .inr ⟨⟨h.1.1, .inr rfl⟩, h.2⟩
  · rename_i hne
    refine RunTriple.ret fun w _ h => ?_
    obtain ⟨h, _⟩ | ⟨⟨_, hr⟩, _⟩ := h
    · exact .inl ⟨h.1, fun _ h => by simp at h⟩
    · exact absurd (Except.error.inj hr) hne
  · rename_i ino
    refine RunTriple.strengthen (I := fun w => ino = 0 ∧ Idle t w ∧ Reached .processing w)
      (RunTriple.pure_pre ?_) fun w _ h => ?_
    swap
    · obtain ⟨h, ⟨hr, hreach⟩ | ⟨_, hr⟩ | ⟨hr, _⟩⟩ | ⟨⟨_, hr⟩, _⟩ := h
      · exact ⟨Except.ok.inj hr, h.1, hreach⟩
      · cases hr
      · cases hr
      · cases hr
    rintro rfl
    refine RunTriple.askBind RunTriple.sys_probeFlock fun r => RunTriple.or_pre ?_ ?_
    · refine RunTriple.pure_pre ?_
      rintro ⟨hs, rfl⟩
      refine RunTriple.askBind (RunTriple.close_probe.strengthen
        fun w _ h => ⟨h, fun h : False => h.elim⟩) fun _ => ?_
      exact RunTriple.ret fun w _ h => .inr ⟨⟨hs, .inr rfl⟩, h.1⟩
    · refine RunTriple.askBind (RunTriple.close_probe.strengthen
        fun w _ h => ⟨h.1, fun h' : sweep = true ∧ r = .ok true => h.2 h'.1 h'.2⟩) fun _ => ?_
      split
      · exact RunTriple.ret fun w _ h => .inl ⟨h.1, fun hs _ => h.2 ⟨hs, rfl⟩⟩
      · exact RunTriple.ret fun w _ h => .inl ⟨h.1, fun _ h => by simp at h⟩
      · exact RunTriple.ret fun w _ h => .inl ⟨h.1, fun _ h => by simp at h⟩

end Purgery.Server
