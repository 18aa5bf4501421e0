import Purgery.Server.Exclusion.Terminal

namespace Purgery.Server

open Purgery.Interleaving

variable {Tid : Type} [DecidableEq Tid]
variable {host : Host} {config : ServerConfig} {k : RunKey} {t : Tid} {g : Grip Tid}
variable {ph : RunPhase} {D : CoreDir} {pl : List (RunPhase × Doc RunStatus)}
variable {w w' : RunWorld Tid} {o : RunOp} {I : RunWorld Tid → Prop}

theorem At.moved {dst : RunPhase} (h : At t g ph D pl w) (hw : w.view.Inv config k)
    (hrank : ph.rank < dst.rank) (hview : w'.view = w.view.move ph dst)
    (hremoves : o.removes = false) (hspawn : ∀ c, o ≠ .spawn c) : Guar t o true w w' := by
  have hl : w'.locks = w.locks := congrArg View.locks hview
  have hp : w'.pass = w.pass := congrArg View.pass hview
  have hf : w'.faults = w.faults := congrArg View.faults hview
  have hi : w'.nextIno = w.nextIno := congrArg View.nextIno hview
  refine h.guar hw (h.others hw hl hp hf hi fun ph' hpast => ?_) hremoves
    (fun c hc => absurd hc (hspawn c))
  rw [hview]
  exact hpast.move h.dir hrank

theorem At.move_run (host : Host) {dst : RunPhase} (h : At t g ph D pl w) (hw : w.view.Inv config k)
    (hne : dst ≠ ph) (x : (RunOp.move ph dst).Extra) (now : Nat) :
    ∃ d, w.dirs ph = some d ∧ d.core = D ∧
      (RunOp.move ph dst).run host t x now w = (.ok (), (w.setDir ph none).setDir dst (some d)) := by
  obtain ⟨d, hd, hcore⟩ := h.exists_dir
  exact ⟨d, hd, hcore, by simp [RunOp.run, hd, h.dirs_none hw hne]⟩

namespace RunTriple

/-- The run moves to a terminal phase, where its status is valid. -/
theorem at_finish {dst : RunPhase} (hdst : dst.terminal = true) :
    RunTriple host config k t (fun w => At t g ph D pl w ∧
        (classifyTerminalStatus k dst D.status.read = true ∨ w.view.ClaimSpoilt))
      (Server.sys (.move ph dst)) (fun r w => (r = .ok () ∧ Gone t g .processing w) ∨
        (∃ e, r = .error e) ∧ At t g ph D pl w ∧ Failed g ph pl (.move ph dst) w) := by
  refine RunTriple.sys (fun _ w m hw h _ => .inr ⟨⟨_, rfl⟩, h.1.noteFault hw _⟩)
    fun w now x hw ⟨hat, hvalid⟩ _ => ?_
  have hrank : ph.rank < dst.rank := by
    rw [RunPhase.rank_terminal hdst]
    obtain rfl | rfl := RunPhase.queued_cases hat.queued <;> decide
  have hne : dst ≠ ph := by
    rintro rfl
    exact absurd hrank (lt_irrefl _)
  obtain ⟨d, hd, rfl, hrun⟩ := hat.move_run host hw hne x now
  have hview := RunWorld.move_view w hd dst
  rw [hrun]
  refine ⟨hat.moved hw hrank hview rfl nofun, ?_, .inl ⟨rfl, ?_, fun ph' hr => ?_⟩⟩
  · rw [hview]
    refine hw.moved hat.dir hrank (hat.noPass hw) ?_ ?_ fun _ => hvalid
    · rintro rfl
      exact nomatch hdst
    · rintro rfl
      exact nomatch hdst
  · exact ⟨hat.session.locks, hat.session.tid, hat.session.idle⟩
  · rw [hview]
    by_contra hsome
    obtain ⟨d', hd'⟩ := Option.ne_none_iff_exists'.1 hsome
    rw [(View.move_sole hw hat.dir hd').1, RunPhase.rank_terminal hdst] at hr
    exact absurd hr (by decide)

/-- A ready run with valid inputs is claimed. -/
theorem at_claim {x : RunConfig × Manifest} (hx : D.inputs config k .ready = .ok x) :
    RunTriple host config k t (At t g .ready D pl) (Server.sys (.move .ready .processing))
      (fun r w => (r = .ok () ∧ At t g .processing D pl w ∧ Clean pl w) ∨
        (∃ e, r = .error e) ∧ At t g .ready D pl w) := by
  refine RunTriple.sys (fun _ w m hw hat _ => .inr ⟨⟨_, rfl⟩, (hat.noteFault hw _).1⟩)
    fun w now x' hw hat _ => ?_
  obtain ⟨d, hd, rfl, hrun⟩ := hat.move_run host hw (nofun : RunPhase.processing ≠ .ready) x' now
  have hview := RunWorld.move_view w hd .processing
  obtain ⟨hino, hnext⟩ := hat.ino hw
  rw [hrun]
  refine ⟨hat.moved hw (by decide) hview rfl nofun, ?_, .inl ⟨rfl, ?_, ?_⟩⟩
  · rw [hview]
    refine hw.moved hat.dir (by decide) (hat.noPass hw) nofun (fun _ => ?_) nofun
    exact ⟨rfl, hino ▸ hat.lock hw, hnext, x, CoreDir.inputs_ok hx _⟩
  · refine ⟨⟨hat.session.locks, hat.session.tid, hat.session.idle⟩, hat.fresh, rfl, ?_,
      hat.published⟩
    rw [hview]
    simp [View.move, View.setDir, hat.dir]
  · by_cases hf : w.faults = []
    · refine .inr ?_
      by_contra hp
      have hpub : w.view.published ≠ [] := by
        rw [show w.view.published = pl from hat.published]
        exact hp
      obtain ht | ⟨e, he⟩ := (hw.unstarted hf hpub).1 d.core hat.dir
      · exact absurd (ht.symm.trans (hat.untouched hw)) (by simp)
      · exact absurd (he.symm.trans hx) (by simp)
    · exact .inl hf

/-- The holder lets go of the lock. -/
theorem close :
    RunTriple host config k t (fun w => w.view.Session t g) (Server.sys (.close g.ino))
      (fun _ => Idle t) := by
  refine RunTriple.sys (by rintro ⟨⟩) fun w now x hw hs _ => ?_
  have hl : w.locks = [g] := hs.locks
  have hlocks : w.locks.filter (fun g' => !(g'.ino == g.ino && g'.tid == t)) = [] := by
    simp [hl, hs.tid]
  simp only [RunOp.run, hlocks]
  refine ⟨⟨fun u hu => ⟨fun g' hl' ht => ?_, rfl, fun ph d' _ h => ⟨d', h, rfl, fun _ he => he⟩,
    fun _ h => h, le_refl _, ⟨[], rfl⟩, fun _ => by rintro _ ⟨⟩⟩, ?_, by rintro ⟨⟩,
    by rintro _ ⟨⟩, fun _ _ _ _ => ⟨rfl, rfl⟩, by rintro ⟨⟩⟩, ?_, hs.idle, by rintro _ ⟨⟩⟩
  · rw [hl] at hl'
    cases hl'
    exact absurd (ht.symm.trans hs.tid) hu
  · rintro (⟨_, _, h⟩ | h)
    · exact absurd rfl h
    · exact absurd rfl h
  · have h := hw.unlock fun g' => !(g'.ino == g.ino && g'.tid == t)
    rw [show w.view.locks.filter _ = [] from hlocks] at h
    exact h

/-- A call on a directory that is not there. -/
theorem sys_absent [hI : Stable config k t I] {e : IoError}
    (hrun : ∀ w, w.view.Inv config k → I w → ∀ x now, o.run host t x now w = (o.failed e, w))
    (hspawn : o.transforms ≠ true)
    (hpublish : ∀ ph, o = .publish ph .status → ∀ w, w.view.Inv config k → I w → w.dirs ph = none) :
    RunTriple host config k t I (Server.sys o) (fun r w => I w ∧ ∃ e, r = o.failed e) := by
  refine RunTriple.sys (fun _ w m hw hI' _ => ⟨?_, _, rfl⟩) fun w now x hw hI' _ => ?_
  · exact hI.stable _ _ hw (RunWorld.noteFault_inv hw) (RunWorld.noteFault_rely t) hI'
  · rw [hrun w hw hI' x now]
    exact ⟨Guar.same hspawn fun ph hp => by rw [hpublish ph hp w hw hI']; rfl, hw, hI', e, rfl⟩

end RunTriple

end Purgery.Server
