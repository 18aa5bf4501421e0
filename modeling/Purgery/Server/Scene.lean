import Purgery.Server.Advance

namespace Purgery.Server

open Purgery.Interleaving

variable {Tid : Type} [DecidableEq Tid]

/-- The calls of process `t` on a run that no collection deletes: `ok` of those
that it makes itself, with an outcome and the time. -/
def watchScene (host : Host) (config : ServerConfig) (k : RunKey) (bad : Fault Tid → Bool) (t : Tid)
    (ok : (o : RunOp) → o.Choice → RunWorld Tid → Prop) :
    Scene RunOp RunOp.Res (fun o => o.Choice × Nat) (RunWorld Tid) where
  step o x w := o.step host t x.1 x.2 w
  admits o x w := ok o x.1 w ∧ Advance w (o.step host t x.1 x.2 w).2
  inv w := w.view.Inv config k ∧ Spared bad w
  rely := Advance

/-- The call does not fail. -/
def Clear (o : RunOp) (x : o.Choice) (_ : RunWorld Tid) : Prop := o.succeeds x.1 = true

variable {host : Host} {config : ServerConfig} {k : RunKey} {bad : Fault Tid → Bool} {t : Tid}
variable {ok : (o : RunOp) → o.Choice → RunWorld Tid → Prop}

theorem watchScene_steady (host : Host) (config : ServerConfig) (k : RunKey)
    (bad : Fault Tid → Bool) (t : Tid) (ok : (o : RunOp) → o.Choice → RunWorld Tid → Prop) :
    (watchScene host config k bad t ok).Steady where
  refl := Advance.refl
  trans _ _ _ := Advance.trans
  own _ _ _ _ h := h.2

theorem watchScene_part (host : Host) (config : ServerConfig) (k : RunKey)
    (bad : Fault Tid → Bool) (t : Tid) (ok : (o : RunOp) → o.Choice → RunWorld Tid → Prop) :
    (watchScene host config k bad t ok).Part (server host config) (sparingPolicy host bad) t
      (atRun k) (fun W => W.runs k) (fun _ x W => (x, W.clock)) where
  step o x w := by simp [watchScene, server, serverStep, World.setRun, atRun]
  refl := Advance.refl
  trans _ _ _ := Advance.trans
  inv c hr := ⟨(reachable_calm hr).inv (lockContract_sound host config k), reachable_spared hr k⟩
  rely c d c' hr hn _ := Next.advance hr hn k

section Performed

variable {α : Type} {c : Call α} {a : α} {C C' : Config Tid ServerOp ServerOp.Res (World Tid)}
variable {f : α → Action Unit}
variable {L : List (Moment Tid ServerOp ServerOp.Choice (World Tid) ServerEvent)}

variable (ok) in
/-- Code on a run, as its process sees it. -/
theorem Performs.watched (hr : Reachable (server host config) (sparingPolicy host bad) C)
    (h : Performs (server host config) (sparingPolicy host bad) t f (onRun k c) C L a C')
    (hok : ∀ W o x, (W, .call t (.run k o) x) ∈ L →
      (sparingPolicy host bad).step t (.run k o) x W → ok o x (W.runs k)) :
    ∃ L', Overtaken (watchScene host config k bad t ok) c (C.world.runs k) L' a (C'.world.runs k) ∧
      Records t (atRun k) (fun W => W.runs k) (fun _ x W => (x, W.clock)) L L' := by
  refine Performs.overtaken (watchScene_part host config k bad t ok) hr h
    fun C₁ o x C₂ hr₁ hn hm => ?_
  have ha := Next.advance hr₁ hn k
  obtain ⟨hx, hw⟩ := hn.call_inv
  rw [hw] at ha
  refine ⟨hok _ _ _ hm hx, ?_⟩
  simpa [server, serverStep, World.setRun, atRun] using ha

end Performed

section Calls

theorem ask_run_bind {ε α : Type} {o : RunOp} (f : o.Res → ExceptT ε Call α) :
    (ask o >>= f).run = (sys o >>= fun r => (f r).run) := rfl

theorem io_run_bind {ε β γ : Type} {x : Call (Except IoError β)} {describe : IoError → ε}
    (f : β → ExceptT ε Call γ) : (io x describe >>= f).run =
      (x >>= fun r => (ExceptT.mk (pure (r.mapError describe)) >>= f).run) := by
  change (x >>= _) >>= _ = _
  rw [Prog.bind_assoc]
  rfl

theorem checked_run {ε β γ : Type} {b : β} (f : β → ExceptT ε Call γ) :
    (ExceptT.mk (pure (.ok b)) >>= f : ExceptT ε Call γ).run = (f b).run := rfl

variable {α : Type} {w w' : RunWorld Tid} {a : α} {o : RunOp}
variable {L : Log RunOp (fun o => o.Choice × Nat) (RunWorld Tid)}

/-- An instant at which the process made one of these calls. -/
structure Instant (config : ServerConfig) (k : RunKey) (bad : Fault Tid → Bool) (w : RunWorld Tid)
    (L : Log RunOp (fun o => o.Choice × Nat) (RunWorld Tid)) (w₁ : RunWorld Tid) : Prop where
  mem : ∃ o x, (w₁, ⟨o, x⟩) ∈ L
  advance : Advance w w₁
  inv : w₁.view.Inv config k
  spared : Spared bad w₁

omit [DecidableEq Tid] in
theorem Instant.later {w₁ : RunWorld Tid} {L₁ : Log RunOp (fun o => o.Choice × Nat) (RunWorld Tid)}
    (h : Instant config k bad w₁ L₁ w') (hr : Advance w w₁) (hL : L₁ ⊆ L) :
    Instant config k bad w L w' where
  mem := by
    obtain ⟨o, x, hm⟩ := h.mem
    exact ⟨o, x, hL hm⟩
  advance := hr.trans h.advance
  inv := h.inv
  spared := h.spared

/-- The first of some calls that do not fail. -/
theorem Overtaken.first {f : o.Res → Call α}
    (h : Overtaken (watchScene host config k bad t Clear) (sys o >>= f) w L a w') :
    ∃ w₁ x now L₁, L = (w₁, ⟨o, (x, now)⟩) :: L₁ ∧ Instant config k bad w L w₁ ∧
      Advance w₁ (o.run host t x.2 now w₁).2 ∧
      Overtaken (watchScene host config k bad t Clear)
        (f (o.run host t x.2 now w₁).1) (o.run host t x.2 now w₁).2 L₁ a w' := by
  obtain ⟨w₁, x, L₁, rfl, hr, hi, ⟨hclear, hadvance⟩, hk⟩ := h.call_inv
  have hstep := RunOp.step_run host (t := t) (w := w₁) x.1 x.2 hclear
  refine ⟨w₁, x.1, x.2, L₁, rfl, ⟨⟨_, _, List.mem_cons_self⟩, hr, hi.1, hi.2⟩, ?_, ?_⟩
  · rw [← hstep]
    exact hadvance
  · rw [← hstep]
    exact hk

/-- A call that does not fail. -/
theorem Overtaken.clear {f : o.Res → Call α}
    (h : Overtaken (watchScene host config k bad t Clear) (sys o >>= f) w L a w') :
    ∃ w₁ x now L₁, (w₁, ⟨o, (x, now)⟩) ∈ L ∧ L₁ ⊆ L ∧ Instant config k bad w L w₁ ∧
      Advance w₁ (o.run host t x.2 now w₁).2 ∧
      Overtaken (watchScene host config k bad t Clear)
        (f (o.run host t x.2 now w₁).1) (o.run host t x.2 now w₁).2 L₁ a w' := by
  obtain ⟨w₁, x, now, L₁, rfl, h₁, hadvance, hk⟩ := Overtaken.first h
  exact ⟨w₁, x, now, L₁, List.mem_cons_self, List.subset_cons_self _ _, h₁, hadvance, hk⟩

/-- A call that does not fail and only looks. -/
theorem Overtaken.look (ho : o.idle = true) {f : o.Res → Call α}
    (h : Overtaken (watchScene host config k bad t Clear) (sys o >>= f) w L a w') :
    ∃ w₁ x now L₁, (w₁, ⟨o, (x, now)⟩) ∈ L ∧ L₁ ⊆ L ∧ Instant config k bad w L w₁ ∧
      Overtaken (watchScene host config k bad t Clear)
        (f (o.run host t x.2 now w₁).1) w₁ L₁ a w' := by
  obtain ⟨w₁, x, now, L₁, hm, hL, h₁, -, hk⟩ := Overtaken.clear h
  rw [RunOp.idle_run ho] at hk
  exact ⟨w₁, x, now, L₁, hm, hL, h₁, hk⟩

/-- A look at a phase directory. -/
theorem Overtaken.dirExists {ph : RunPhase} {f : Bool → Call α}
    (h : Overtaken (watchScene host config k bad t Clear) (sys (.dirExists ph) >>= f) w L a w') :
    ∃ w₁ L₁, Instant config k bad w L w₁ ∧ L₁ ⊆ L ∧
      ((∃ d, w₁.dirs ph = some d ∧
          Overtaken (watchScene host config k bad t Clear) (f true) w₁ L₁ a w') ∨
        w₁.dirs ph = none ∧
          Overtaken (watchScene host config k bad t Clear) (f false) w₁ L₁ a w') := by
  obtain ⟨w₁, x, now, L₁, -, hL, h₁, hk⟩ := Overtaken.look rfl h
  refine ⟨w₁, L₁, h₁, hL, ?_⟩
  simp only [RunOp.run] at hk
  cases hd : w₁.dirs ph with
  | none =>
    rw [hd] at hk
    exact .inr ⟨rfl, hk⟩
  | some d =>
    rw [hd] at hk
    exact .inl ⟨d, rfl, hk⟩

end Calls

end Purgery.Server
