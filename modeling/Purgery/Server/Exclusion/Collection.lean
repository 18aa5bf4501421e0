import Purgery.Server.Exclusion.ProcessRun
import Purgery.Server.Exclusion.Removal

namespace Purgery.Server

open Purgery.Interleaving

variable {Tid : Type} [DecidableEq Tid]
variable {host : Host} {config : ServerConfig} {k : RunKey} {t : Tid} {ph : RunPhase}

/-- An accepted run is removed for its age alone. -/
theorem expireByMtime_spec (hph : ph = .incoming ∨ ph = .ready) (now retention : Nat) :
    RunTriple host config k t (Idle t) (expireByMtime config k ph now retention).run
      (fun _ => Idle t) := by
  refine RunTriple.ioBind (M := fun m w =>
    (pastRetention now retention m = true ∧ Condemned t ph w) ∨
      pastRetention now retention m = false ∧ Idle t w)
    ((RunTriple.sys_modified (hph.imp_right .inl)).weaken fun r w _ h => ?_) fun m =>
      RunTriple.or_pre ?_ ?_
  · obtain ⟨⟨e, rfl⟩, h⟩ | ⟨m, rfl, h⟩ := h
    · exact h
    · exact h
  · refine RunTriple.pure_pre fun hm => ?_
    rw [if_pos hm]
    exact removeRun_spec.strengthen fun w _ h => .inl h
  · refine RunTriple.pure_pre fun hm => ?_
    rw [if_neg (by simp [hm])]
    exact RunTriple.ret fun w _ h => h

theorem collectIncoming_spec (now : Nat) :
    RunTriple host config k t (Idle t) (collectIncoming config k now).run (fun _ => Idle t) := by
  refine RunTriple.askBind (RunTriple.sys_readLease fun _ => rfl) fun r => ?_
  have horphan : RunTriple host config k t (Idle t)
      (expireByMtime config k .incoming now config.gc.orphanRetentionSecs).run (fun _ => Idle t) :=
    expireByMtime_spec (.inl rfl) now _
  split
  · refine horphan.strengthen fun w _ h => ?_
    obtain ⟨h, _⟩ | ⟨_, h⟩ := h
    · cases h
    · exact h
  · rename_i content
    split
    · rename_i hnone
      refine horphan.strengthen fun w _ h => ?_
      obtain ⟨h, _⟩ | ⟨_, h⟩ := h
      · simp [leaseExpired, hnone] at h
      · exact h
    · rename_i lease hsome
      split
      · rename_i hnow
        refine removeRun_spec.strengthen fun w _ h => ?_
        obtain ⟨_, h⟩ | ⟨h, _⟩ := h
        · exact .inl h
        · simp [leaseExpired, hsome, hnow] at h
      · rename_i hnow
        refine RunTriple.ret fun w _ h => ?_
        obtain ⟨h, _⟩ | ⟨_, h⟩ := h
        · simp [leaseExpired, hsome, hnow] at h
        · exact h

/-- A processing run is removed only after its lock was found free. -/
theorem collectProcessing_spec (now : Nat) :
    RunTriple host config k t (Idle t) (collectProcessing config k now).run (fun _ => Idle t) := by
  refine RunTriple.ioBind (M := fun _ w => Idle t w ∧ Reached .processing w)
    (RunTriple.sys_modified_processing.weaken fun r w _ h => ?_) fun mtime => ?_
  · obtain ⟨hidle, ⟨e, rfl⟩ | h⟩ := h
    · exact hidle
    · cases r with
      | ok _ => exact ⟨hidle, h⟩
      | error _ => exact hidle
  refine RunTriple.runBind (M := fun r w => Probed t
    (pastRetention now config.gc.processingRetentionSecs mtime) (.ok r) w)
    (probeProcessorLockReadonly_spec.conseq (fun w _ h => ⟨h.1, fun _ => h.2⟩)
      fun r w _ h => ?_) fun r => ?_
  · cases r with
    | ok _ => exact h
    | error e =>
      obtain h | ⟨⟨_, h | h⟩, _⟩ := h
      · exact h.1
      · cases h
      · cases h
  have hleft : r ≠ some true → (.ok r : Except String (Option Bool)) = .ok none ∨
      (.ok r : Except String (Option Bool)) = .ok (some false) := by
    intro hne
    obtain _ | _ | _ := r
    · exact .inl rfl
    · exact .inr rfl
    · exact absurd rfl hne
  split
  · refine RunTriple.ret fun w _ h => ?_
    obtain h | ⟨⟨_, h | h⟩, _⟩ := h
    · exact h.1
    · cases h
    · cases h
  · rename_i hne
    split
    · rename_i hpast
      refine removeRun_spec.strengthen fun w _ h => ?_
      obtain ⟨hidle, h⟩ | ⟨_, h⟩ := h
      · exact .inr ⟨hidle, .inr (h hpast (hleft hne))⟩
      · exact .inl h
    · rename_i hpast
      refine RunTriple.ret fun w _ h => ?_
      obtain ⟨hidle, _⟩ | ⟨⟨h, _⟩, _⟩ := h
      · exact hidle
      · exact absurd h hpast

theorem expiryForTerminal_spec (now retention : Nat) :
    RunTriple host config k t (Idle t) (expiryForTerminal config k ph now retention).run
      (fun _ => Idle t) := by
  refine RunTriple.askBind ((RunTriple.sys_idle rfl).weaken fun _ _ _ h => h.1) fun content => ?_
  split
  · refine RunTriple.ioBind (M := fun _ => Idle t)
      ((RunTriple.sys_idle rfl).weaken fun r w _ h => ?_) fun _ => RunTriple.ret fun w _ h => h
    cases r <;> exact h.1
  · refine RunTriple.ioBind (M := fun _ => Idle t)
      ((RunTriple.sys_modified (.inr (.inr fun _ => rfl))).weaken fun r w _ h => ?_) fun _ =>
        RunTriple.ret fun w _ h => h
    obtain ⟨⟨e, rfl⟩, h⟩ | ⟨m, rfl, ⟨hm, _⟩ | ⟨_, h⟩⟩ := h
    · exact h
    · cases hm
    · exact h

theorem Idle.fresh {w : RunWorld Tid} (h : Idle t w) : ∀ g ∈ w.locks, g.tid = t → g.fresh = true :=
  fun g hg ht => absurd ht (h.2 g hg)

theorem collectFailed_spec (now : Nat) :
    RunTriple host config k t (Idle t) (collectFailed config k now).run (fun _ => Idle t) := by
  refine RunTriple.runBind (M := fun _ => Idle t)
    ((expiryForTerminal_spec now _).weaken fun r w _ h => by cases r <;> exact h) fun expired => ?_
  split
  · exact removeRun_spec.strengthen fun w _ h => .inr ⟨h, .inl rfl⟩
  · exact RunTriple.ret fun w _ h => h

theorem collectDone_spec (now : Nat) :
    RunTriple host config k t (Idle t) (collectDone config k now).run (fun _ => Idle t) := by
  refine RunTriple.runBind (M := fun _ => Idle t)
    ((expiryForTerminal_spec now _).weaken fun r w _ h => by cases r <;> exact h) fun expired => ?_
  split
  · exact removeRun_spec.strengthen fun w _ h => .inr ⟨h, .inl rfl⟩
  · refine RunTriple.askBind ((RunTriple.sys_idle rfl).weaken fun _ _ _ h => h.1) fun content => ?_
    split
    · exact RunTriple.of_prune (Prog.Only.runAdapt (pruneSuccessTerminal_only rfl))
        fun w _ h => h.fresh
    · exact RunTriple.ret fun w _ h => h

/-- The collection of one run leaves no lock and no removal behind. -/
theorem collectRun_spec (ph : RunPhase) (now : Nat) :
    RunTriple host config k t (Idle t) (collectRun config k ph now).run (fun _ => Idle t) := by
  cases ph with
  | incoming => exact collectIncoming_spec now
  | ready => exact expireByMtime_spec (.inr rfl) now _
  | processing => exact collectProcessing_spec now
  | done => exact collectDone_spec now
  | failed => exact collectFailed_spec now

end Purgery.Server
