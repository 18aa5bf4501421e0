import Purgery.Server.Scanning

namespace Purgery.Server

open Purgery.Interleaving

variable {Tid : Type} [DecidableEq Tid]

/-- The calls of process `t` on a run, none of which fails; the others leave it
what the lock gives it. -/
def holdScene (host : Host) (config : ServerConfig) (k : RunKey) (t : Tid) :
    Scene RunOp RunOp.Res (fun o => o.Choice × Nat) (RunWorld Tid) where
  step o x w := o.step host t x.1 x.2 w
  admits o x w := (Clear o x.1 w ∧ Calm t o x.1.1 w) ∧ Advance w (o.step host t x.1 x.2 w).2
  inv w := w.view.Inv config k ∧ Spared (fun _ => true) w
  rely w w' := Advance w w' ∧ w.Rely t w' ∧ (w.view.Inv config k → w'.view.Inv config k) ∧
    (w.faults = [] → w'.faults = [])

variable {host : Host} {config : ServerConfig} {k : RunKey} {t : Tid}

theorem holdScene_refl (w : RunWorld Tid) : (holdScene host config k t).rely w w :=
  ⟨.refl w, .refl t w, id, id⟩

theorem Spared.faultless {w : RunWorld Tid} (h : Spared (fun _ => true) w) : w.faults = [] :=
  List.eq_nil_iff_forall_not_mem.2 fun f hf => nomatch h.faults f hf

section Overtaken

variable {α : Type} {p : Call α} {a : α} {w w' : RunWorld Tid}
variable {L : Log RunOp (fun o => o.Choice × Nat) (RunWorld Tid)}

theorem Overtaken.watched (h : Overtaken (holdScene host config k t) p w L a w') :
    Overtaken (watchScene host config k (fun _ => true) t Clear) p w L a w' :=
  Overtaken.mono (V := holdScene host config k t)
    (U := watchScene host config k (fun _ => true) t Clear) (fun _ _ _ => rfl)
    (fun _ _ hr => hr.1) (fun _ hi => hi) (fun _ _ _ ha => ⟨ha.1.1, ha.2⟩) h

/-- Code that meets the contract of the lock ends as its triple says. -/
theorem Overtaken.meets {I : RunWorld Tid → Prop} {Q : α → RunWorld Tid → Prop}
    (h : Overtaken (holdScene host config k t) p w L a w') (htriple : RunTriple host config k t I p Q)
    (hi : w.view.Inv config k) (hI : I w) : Q a w' ∧ w'.view.Inv config k := by
  have hw := htriple ⟨0, fun _ => w⟩ hi hI
  have hruns : w = (⟨0, fun _ => w⟩ : World Tid).runs k := rfl
  generalize (⟨0, fun _ => w⟩ : World Tid) = W at hw hruns
  clear htriple hI
  induction h generalizing W with
  | ret hr =>
    subst hruns
    obtain ⟨-, hrely, hinv, -⟩ := hr
    refine ⟨?_, hinv hi⟩
    have hend := hw (W.setRun k _) (by simpa [lockContract, World.setRun] using hrely)
      (by simpa [lockContract, World.setRun] using hinv hi)
    simpa [World.setRun] using hend
  | @call o f w w₁ w' L a x hr hi₁ ha _ ih =>
    subst hruns
    obtain ⟨-, hrely, -⟩ := hr
    have hstep := hw { W.setRun k w₁ with clock := x.2 }
      (by simpa [lockContract, World.setRun] using hrely)
      (by simpa [lockContract, World.setRun] using hi₁.1) x.1
      (by simpa [calmPolicy, atRun, World.setRun] using ha.1.2)
    obtain ⟨-, hinv, hwp⟩ := hstep
    have hrun : serverStep host t (.run k o) x.1 { W.setRun k w₁ with clock := x.2 } =
        ((o.step host t x.1 x.2 w₁).1, World.setRun { W.setRun k w₁ with clock := x.2 } k
          (o.step host t x.1 x.2 w₁).2) := by
      simp [serverStep, World.setRun]
    simp only [server, atRun, hrun, lockContract] at hinv hwp
    refine ih ?_ _ hwp ?_
    · simpa [World.setRun, holdScene] using hinv
    · simp [World.setRun, holdScene]

/-- No call of the process fails, and none of the others. -/
theorem Overtaken.faultless (h : Overtaken (holdScene host config k t) p w L a w')
    (hw : w.faults = []) : w'.faults = [] := by
  induction h with
  | ret hr => exact hr.2.2.2 hw
  | @call o f w w₁ w' L a x hr hi ha _ ih =>
    refine ih ?_
    have hstep := RunOp.step_run host (t := t) (w := w₁) x.1 x.2 ha.1.1
    simp only [holdScene, hstep, RunOp.run_faults]
    exact hi.2.faultless

/-- One call of the process, and what it leaves to the others. -/
theorem Overtaken.own {o : RunOp} {f : o.Res → Call α}
    (h : Overtaken (holdScene host config k t) (sys o >>= f) w L a w') :
    ∃ w₁ x now L₁, L = (w₁, ⟨o, (x, now)⟩) :: L₁ ∧ (holdScene host config k t).rely w w₁ ∧
      w₁.view.Inv config k ∧ Calm t o none w₁ ∧ Advance w₁ (o.run host t x.2 now w₁).2 ∧
      Overtaken (holdScene host config k t) (f (o.run host t x.2 now w₁).1)
        (o.run host t x.2 now w₁).2 L₁ a w' := by
  obtain ⟨w₁, x, L₁, rfl, hr, hi, ⟨⟨hclear, hcalm⟩, hadvance⟩, hk⟩ := h.call_inv
  have hstep := RunOp.step_run host (t := t) (w := w₁) x.1 x.2 hclear
  refine ⟨w₁, x.1, x.2, L₁, rfl, hr, hi.1, hcalm.success hclear, ?_, ?_⟩
  · rw [← hstep]
    exact hadvance
  · rw [← hstep]
    exact hk

end Overtaken

section Performed

theorem Next.calm {c c' : Config Tid ServerOp ServerOp.Res (World Tid)} {bad : Fault Tid → Bool}
    {d : Deed Tid ServerOp ServerOp.Choice ServerEvent}
    (hr : Reachable (server host config) (sparingPolicy host bad) c)
    (hn : Next (server host config) (sparingPolicy host bad) c d c') :
    Next (server host config) calmPolicy c d c' :=
  hn.transfer (fun _ _ _ _ _ hx => sparingPolicy_calm hr hx) (fun e _ => calmPolicy_env hr e)
    fun t _ k => (reachable_spared hr k).pass t

theorem holdScene_part (host : Host) (config : ServerConfig) (k : RunKey) (t : Tid) :
    (holdScene host config k t).Part (server host config) (smoothPolicy host) t
      (atRun k) (fun W => W.runs k) (fun _ x W => (x, W.clock)) where
  step o x w := by simp [holdScene, server, serverStep, World.setRun, atRun]
  refl := holdScene_refl
  trans _ _ _ h h' := ⟨h.1.trans h'.1, h.2.1.trans h'.2.1, h'.2.2.1 ∘ h.2.2.1, h'.2.2.2 ∘ h.2.2.2⟩
  inv c hr := ⟨(reachable_calm hr).inv (lockContract_sound host config k), reachable_spared hr k⟩
  rely c d c' hr hn hne :=
    have hsound := lockContract_sound host config k
    have hn' := Next.calm hr hn
    ⟨Next.advance hr hn k, hn'.keeps_rely hsound (reachable_calm hr) hne,
      fun _ => ((reachable_calm hr).next hn').inv hsound,
      fun _ => (reachable_spared (hr.next hn) k).faultless⟩

variable {α : Type} {c : Call α} {a : α} {C C' : Config Tid ServerOp ServerOp.Res (World Tid)}
variable {f : α → Action Unit}
variable {L : List (Moment Tid ServerOp ServerOp.Choice (World Tid) ServerEvent)}

/-- Code on a run, as the process meets it that works on the run. -/
theorem Performs.held (hr : Reachable (server host config) (smoothPolicy host) C)
    (h : Performs (server host config) (smoothPolicy host) t f (onRun k c) C L a C') :
    ∃ L', Overtaken (holdScene host config k t) c (C.world.runs k) L' a (C'.world.runs k) ∧
      Records t (atRun k) (fun W => W.runs k) (fun _ x W => (x, W.clock)) L L' := by
  refine Performs.overtaken (holdScene_part host config k t) hr h fun C₁ o x C₂ hr₁ hn _ => ?_
  have ha := Next.advance hr₁ hn k
  obtain ⟨hx, hw⟩ := hn.call_inv
  rw [hw] at ha
  refine ⟨⟨smoothPolicy_clear hx, sparingPolicy_calm hr₁ hx⟩, ?_⟩
  simpa [server, serverStep, World.setRun, atRun] using ha

end Performed

end Purgery.Server
