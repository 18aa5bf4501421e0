import Purgery.Interleaving.System

namespace Purgery.Interleaving

variable {Tid Op : Type} {Res Choice : Op → Type} {σ ε : Type}

/-- What holds of every reachable state, what a process relies on while it
waits, and what each of its steps guarantees to the others. -/
structure Contract (S : System Tid Op Res Choice σ ε) (P : Policy Tid Op Choice σ ε) where
  inv : σ → Prop
  rely : Tid → σ → σ → Prop
  guar : Tid → (o : Op) → Choice o → σ → σ → Prop
  start : Tid → σ → Prop
  post : Tid → σ → Prop

variable {S : System Tid Op Res Choice σ ε} {P : Policy Tid Op Choice σ ε}

/-- The process may be overtaken by the others before each of its operations;
the operations it then takes keep the contract, and it ends in `Q`. -/
def wp (C : Contract S P) (t : Tid) {α : Type} :
    Prog Op Res α → (α → σ → Prop) → σ → Prop
  | .ret a, Q, s => ∀ s', C.rely t s s' → C.inv s' → Q a s'
  | .call o k, Q, s => ∀ s₁, C.rely t s s₁ → C.inv s₁ → ∀ x, P.step t o x s₁ →
      C.guar t o x s₁ (S.step t o x s₁).2 ∧ C.inv (S.step t o x s₁).2 ∧
        wp C t (k (S.step t o x s₁).1) Q (S.step t o x s₁).2

structure Contract.Closed (C : Contract S P) : Prop where
  rely_refl : ∀ t s, C.rely t s s
  rely_trans : ∀ t s₁ s₂ s₃, C.rely t s₁ s₂ → C.rely t s₂ s₃ → C.rely t s₁ s₃

/-- The steps of the others are what each process relies on, and every program
keeps the contract. -/
structure Contract.Sound (C : Contract S P) : Prop extends C.Closed where
  guar_rely : ∀ t u o x s s', t ≠ u → C.inv s → C.inv s' → C.guar u o x s s' → C.rely t s s'
  leave_inv : ∀ t s, C.inv s → P.crash t s ∨ C.post t s → C.inv (S.leave t s)
  leave_rely : ∀ t u s, t ≠ u → C.inv s → P.crash u s ∨ C.post u s → C.rely t s (S.leave u s)
  leave_start : ∀ t s, C.inv s → C.start t (S.leave t s)
  env_inv : ∀ e s, P.env e s → C.inv s → C.inv (S.env e s)
  env_rely : ∀ t e s, P.env e s → C.inv s → C.rely t s (S.env e s)
  init_inv : ∀ s, S.init s → C.inv s
  init_start : ∀ t s, S.init s → C.start t s
  start_rely : ∀ t s s', C.rely t s s' → C.start t s → C.start t s'
  program_wp : ∀ t p s, S.program p → C.inv s → C.start t s → wp C t p (fun _ => C.post t) s

section Rules

variable {C : Contract S P} {t : Tid} {α β : Type}

theorem wp_rely (hC : C.Closed) {p : Prog Op Res α} {Q : α → σ → Prop} {s s' : σ}
    (hr : C.rely t s s') (h : wp C t p Q s) : wp C t p Q s' := by
  cases p with
  | ret a => exact fun s'' hr' hi => h s'' (hC.rely_trans _ _ _ _ hr hr') hi
  | call o k => exact fun s₁ hr' hi => h s₁ (hC.rely_trans _ _ _ _ hr hr') hi

theorem wp_mono {p : Prog Op Res α} {Q Q' : α → σ → Prop} {s : σ} (h : wp C t p Q s)
    (hQ : ∀ a s', C.inv s' → Q a s' → Q' a s') : wp C t p Q' s := by
  induction p generalizing s with
  | ret a => exact fun s' hr hi => hQ a s' hi (h s' hr hi)
  | call o k ih =>
    intro s₁ hr hi x hx
    obtain ⟨hg, hi', hk⟩ := h s₁ hr hi x hx
    exact ⟨hg, hi', ih _ hk⟩

theorem wp_bind (hC : C.Closed) {p : Prog Op Res α} {f : α → Prog Op Res β} {Q : β → σ → Prop}
    {s : σ} (hs : C.inv s) (h : wp C t p (fun a => wp C t (f a) Q) s) :
    wp C t (p >>= f) Q s := by
  induction p generalizing s with
  | ret a => exact h s (hC.rely_refl t s) hs
  | call o k ih =>
    intro s₁ hr hi x hx
    obtain ⟨hg, hi', hk⟩ := h s₁ hr hi x hx
    exact ⟨hg, hi', ih _ hi' hk⟩

/-- What neither the others nor the process itself can undo. -/
theorem wp_frame {J : σ → Prop} {p : Prog Op Res α} {Q : α → σ → Prop} {s : σ}
    (hrely : ∀ s s', C.inv s → C.inv s' → C.rely t s s' → J s → J s')
    (hstep : ∀ o x s, P.step t o x s → J s → J (S.step t o x s).2) (hs : C.inv s)
    (h : wp C t p Q s) (hJ : J s) : wp C t p (fun a s => Q a s ∧ J s) s := by
  induction p generalizing s with
  | ret a => exact fun s' hr hi => ⟨h s' hr hi, hrely s s' hs hi hr hJ⟩
  | call o k ih =>
    intro s₁ hr hi x hx
    obtain ⟨hg, hi', hk⟩ := h s₁ hr hi x hx
    exact ⟨hg, hi', ih _ hi' hk (hstep o x s₁ hx (hrely s s₁ hs hi hr hJ))⟩

end Rules

section Soundness

variable [DecidableEq Tid] {C : Contract S P}

/-- What the contract says of a process: it is ready to start, or what is left
of its code meets the contract. -/
def Contract.meets (C : Contract S P) (t : Tid) : Option (Prog Op Res Unit) → σ → Prop
  | none, s => C.start t s
  | some p, s => wp C t p (fun _ => C.post t) s

omit [DecidableEq Tid] in
theorem Contract.meets_rely (hC : C.Sound) {t : Tid} {p : Option (Prog Op Res Unit)} {s s' : σ}
    (hr : C.rely t s s') (h : C.meets t p s) : C.meets t p s' := by
  cases p with
  | none => exact hC.start_rely t s s' hr h
  | some p => exact wp_rely hC.toClosed hr h

theorem Contract.meets_put {c : Config Tid Op Res σ} {t : Tid} {p : Option (Prog Op Res Unit)}
    {s : σ} (ht : C.meets t p s) (hothers : ∀ u, u ≠ t → C.meets u (c.threads u) s) :
    ∀ u, C.meets u ((c.put t p s).threads u) (c.put t p s).world := by
  intro u
  by_cases hu : u = t
  · subst hu
    simpa [Config.put] using ht
  · simpa [Config.put, hu] using hothers u hu

/-- Every reachable configuration meets the contract. -/
theorem Reachable.sound (hC : C.Sound) {c : Config Tid Op Res σ} (h : Reachable S P c) :
    C.inv c.world ∧ ∀ t, C.meets t (c.threads t) c.world := by
  induction h with
  | init hs => exact ⟨hC.init_inv _ hs, fun t => hC.init_start t _ hs⟩
  | @step c t o k x _ ht hx ih =>
    obtain ⟨hi, hm⟩ := ih
    have hw := hm t
    rw [ht] at hw
    obtain ⟨hg, hi', hk⟩ := hw c.world (hC.rely_refl t _) hi x hx
    refine ⟨hi', Contract.meets_put hk fun u hu => ?_⟩
    exact Contract.meets_rely hC (hC.guar_rely u t o x _ _ hu hi hi' hg) (hm u)
  | @leave c t p _ ht hl ih =>
    obtain ⟨hi, hm⟩ := ih
    have hl' : P.crash t c.world ∨ C.post t c.world := by
      refine hl.imp_right fun hp => ?_
      have hw := hm t
      rw [ht, hp] at hw
      exact hw c.world (hC.rely_refl t _) hi
    refine ⟨hC.leave_inv t _ hi hl', Contract.meets_put (hC.leave_start t _ hi) fun u hu => ?_⟩
    exact Contract.meets_rely hC (hC.leave_rely u t _ hu hi hl') (hm u)
  | @spawn c t p _ ht hp ih =>
    obtain ⟨hi, hm⟩ := ih
    have hst := hm t
    rw [ht] at hst
    exact ⟨hi, Contract.meets_put (hC.program_wp t p _ hp hi hst) fun u _ => hm u⟩
  | @env c e _ he ih =>
    obtain ⟨hi, hm⟩ := ih
    exact ⟨hC.env_inv e _ he hi, fun t => Contract.meets_rely hC (hC.env_rely t e _ he hi) (hm t)⟩

theorem Reachable.inv (hC : C.Sound) {c : Config Tid Op Res σ} (h : Reachable S P c) :
    C.inv c.world := (h.sound hC).1

/-- Every step that is taken keeps what the contract guarantees. -/
theorem Reachable.step_guar (hC : C.Sound) {c : Config Tid Op Res σ} (h : Reachable S P c)
    {t : Tid} {o : Op} {k : Res o → Prog Op Res Unit} (ht : c.threads t = some (.call o k))
    {x : Choice o} (hx : P.step t o x c.world) :
    C.guar t o x c.world (S.step t o x c.world).2 := by
  obtain ⟨hi, hm⟩ := h.sound hC
  have hw := hm t
  rw [ht] at hw
  exact (hw c.world (hC.rely_refl t _) hi x hx).1

theorem Reachable.ended (hC : C.Sound) {c : Config Tid Op Res σ} (h : Reachable S P c)
    {t : Tid} (ht : c.threads t = some (.ret ())) : C.post t c.world := by
  obtain ⟨hi, hm⟩ := h.sound hC
  have hw := hm t
  rw [ht] at hw
  exact hw c.world (hC.rely_refl t _) hi

end Soundness

end Purgery.Interleaving
