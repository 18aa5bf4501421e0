import Purgery.Interleaving.Solo
import Purgery.Interleaving.Triple

namespace Purgery.Interleaving

/-- Code that nobody interrupts: what its operations do, which outcomes they may
have, and what is asked of each of them and of the state that it leaves. -/
structure Alone (Op : Type) (Res Choice : Op → Type) (σ : Type) where
  step : (o : Op) → Choice o → σ → Res o × σ
  admits : (o : Op) → Choice o → Prop
  sound : Op → σ → Prop

namespace Alone

variable {Op : Type} {Res Choice : Op → Type} {σ α β ε : Type} {A : Alone Op Res Choice σ}

/-- Whatever outcomes its operations have, each of them is sound and the code
ends in `Q`. -/
def wp (A : Alone Op Res Choice σ) : Prog Op Res α → (α → σ → Prop) → σ → Prop
  | .ret a, Q, s => Q a s
  | .call o k, Q, s => ∀ x, A.admits o x →
      A.sound o (A.step o x s).2 ∧ A.wp (k (A.step o x s).1) Q (A.step o x s).2

variable {p : Prog Op Res α} {f : α → Prog Op Res β} {s : σ}

@[simp] theorem wp_ret {a : α} {Q : α → σ → Prop} :
    A.wp (.ret a : Prog Op Res α) Q s ↔ Q a s := Iff.rfl

theorem wp_call {o : Op} {k : Res o → Prog Op Res α} {Q : α → σ → Prop} :
    A.wp (.call o k) Q s ↔ ∀ x, A.admits o x →
      A.sound o (A.step o x s).2 ∧ A.wp (k (A.step o x s).1) Q (A.step o x s).2 := Iff.rfl

theorem wp_bind {Q : β → σ → Prop} :
    A.wp (p >>= f) Q s ↔ A.wp p (fun a s => A.wp (f a) Q s) s := by
  induction p generalizing s with
  | ret a => exact Iff.rfl
  | call o k ih =>
    simp only [Prog.call_bind, wp_call]
    exact forall₂_congr fun x _ => and_congr_right fun _ => ih _

theorem wp_mono {Q Q' : α → σ → Prop} (h : A.wp p Q s) (hQ : ∀ a s, Q a s → Q' a s) :
    A.wp p Q' s := by
  induction p generalizing s with
  | ret a => exact hQ a s h
  | call o k ih => exact fun x hx => ⟨(h x hx).1, ih _ (h x hx).2⟩

theorem wp_and {Q Q' : α → σ → Prop} (h : A.wp p Q s) (h' : A.wp p Q' s) :
    A.wp p (fun a s => Q a s ∧ Q' a s) s := by
  induction p generalizing s with
  | ret a => exact ⟨h, h'⟩
  | call o k ih => exact fun x hx => ⟨(h x hx).1, ih _ (h x hx).2 (h' x hx).2⟩

theorem wp_answers {Q : α → σ → Prop} {R : α → Prop} (h : A.wp p Q s) (hp : p.Answers R) :
    A.wp p (fun a s => Q a s ∧ R a) s := by
  induction p generalizing s with
  | ret a => exact ⟨h, hp⟩
  | call o k ih => exact fun x hx => ⟨(h x hx).1, ih _ (h x hx).2 (hp _)⟩

/-- What every sound operation leaves also holds at the end. -/
theorem wp_sound {I : σ → Prop} {Q : α → σ → Prop} (hI : ∀ o s, A.sound o s → I s)
    (h : A.wp p Q s) (hs : I s) : A.wp p (fun a s => Q a s ∧ I s) s := by
  induction p generalizing s with
  | ret a => exact ⟨h, hs⟩
  | call o k ih => exact fun x hx => ⟨(h x hx).1, ih _ (h x hx).2 (hI o _ (h x hx).1)⟩

/-- What the code ends with for one choice of the outcomes. -/
theorem wp_solo {Q : α → σ → Prop} (ω : (o : Op) → Choice o) (hω : ∀ o, A.admits o (ω o))
    (h : A.wp p Q s) :
    Q (p.solo (fun o => A.step o (ω o)) s).1 (p.solo (fun o => A.step o (ω o)) s).2 := by
  induction p generalizing s with
  | ret a => exact h
  | call o k ih => exact ih _ (h (ω o) (hω o)).2

/-- A way in which the code can go. -/
def Ends (A : Alone Op Res Choice σ) : Prog Op Res α → σ → α → σ → Prop
  | .ret a, s, b, s' => b = a ∧ s' = s
  | .call o k, s, b, s' =>
    ∃ x, A.admits o x ∧ A.Ends (k (A.step o x s).1) (A.step o x s).2 b s'

theorem wp_ends {Q : α → σ → Prop} {a : α} {s' : σ} (h : A.wp p Q s) (he : A.Ends p s a s') :
    Q a s' := by
  induction p generalizing s with
  | ret b =>
    obtain ⟨rfl, rfl⟩ := he
    exact h
  | call o k ih =>
    obtain ⟨x, hx, he⟩ := he
    exact ih _ (h x hx).2 he

theorem ends_solo (ω : (o : Op) → Choice o) (hω : ∀ o, A.admits o (ω o)) (p : Prog Op Res α)
    (s : σ) : A.Ends p s (p.solo (fun o => A.step o (ω o)) s).1
      (p.solo (fun o => A.step o (ω o)) s).2 := by
  induction p generalizing s with
  | ret a => exact ⟨rfl, rfl⟩
  | call o k ih => exact ⟨ω o, hω o, ih _ _⟩

/-- A state in which the code is cut off. -/
def Cut (A : Alone Op Res Choice σ) : Prog Op Res α → σ → σ → Prop
  | .ret _, s, s' => s' = s
  | .call o k, s, s' =>
    s' = s ∨ ∃ x, A.admits o x ∧ A.Cut (k (A.step o x s).1) (A.step o x s).2 s'

/-- The same code, of which every state that it leaves is asked to satisfy `I`. -/
def guarded (A : Alone Op Res Choice σ) (I : σ → Prop) : Alone Op Res Choice σ :=
  { A with sound := fun _ => I }

theorem wp_of_guarded {I : σ → Prop} {Q : α → σ → Prop} (hA : ∀ o s, A.sound o s)
    (h : (A.guarded I).wp p Q s) : A.wp p Q s := by
  induction p generalizing s with
  | ret a => exact h
  | call o k ih => exact fun x hx => ⟨hA _ _, ih _ (h x hx).2⟩

theorem cut_guarded {I : σ → Prop} {Q : α → σ → Prop} {s' : σ} (h : (A.guarded I).wp p Q s)
    (hs : I s) (hcut : A.Cut p s s') : I s' := by
  induction p generalizing s with
  | ret a =>
    obtain rfl := hcut
    exact hs
  | call o k ih =>
    obtain rfl | ⟨x, hx, hcut⟩ := hcut
    · exact hs
    · exact ih _ (h x hx).2 (h x hx).1 hcut

/-- Operations that keep `I`. -/
theorem wp_of_only {ok : Op → Prop} {I : σ → Prop} (hp : p.Only ok)
    (hop : ∀ o x s, ok o → I s → A.sound o (A.step o x s).2 ∧ I (A.step o x s).2) (hs : I s) :
    A.wp p (fun _ => I) s := by
  induction p generalizing s with
  | ret a => exact hs
  | call o k ih =>
    intro x _
    obtain ⟨hsound, hI⟩ := hop o x s hp.1 hs
    exact ⟨hsound, ih _ (hp.2 _) hI⟩

theorem wp_forEach {γ : Type} {I : σ → Prop} {f : γ → Prog Op Res Unit} {xs : List γ}
    (hf : ∀ x ∈ xs, ∀ s, I s → A.wp (f x) (fun _ => I) s) (hs : I s) :
    A.wp (Prog.forEach xs f) (fun _ => I) s := by
  induction xs generalizing s with
  | nil => exact hs
  | cons x xs ih =>
    obtain ⟨hx, hxs⟩ := List.forall_mem_cons.1 hf
    exact wp_bind.2 (wp_mono (hx s hs) fun _ s' hs' => ih hxs hs')

section Fallible

variable {x : ExceptT ε (Prog Op Res) α} {g : α → ExceptT ε (Prog Op Res) β}
variable {Z : Except ε β → σ → Prop}

theorem wp_runBind : A.wp (x >>= g).run Z s ↔ A.wp x.run (fun r s => match r with
    | .ok a => A.wp (g a).run Z s
    | .error e => Z (.error e) s) s := by
  have hb : (x >>= g).run = x.run >>= fun r => match r with
    | .ok a => (g a).run
    | .error e => .ret (.error e) := by
    refine congrArg (x.run >>= ·) (funext fun r => ?_)
    cases r <;> rfl
  have hQ : ∀ r s, A.wp (match (r : Except ε α) with
      | .ok a => (g a).run
      | .error e => .ret (.error e)) Z s ↔ match r with
      | .ok a => A.wp (g a).run Z s
      | .error e => Z (.error e) s := by
    intro r s
    cases r <;> exact Iff.rfl
  rw [hb, wp_bind]
  exact ⟨fun h => wp_mono h fun r s => (hQ r s).1, fun h => wp_mono h fun r s => (hQ r s).2⟩

theorem wp_runCheck {r : Except ε α} : A.wp (ExceptT.mk (pure r) >>= g).run Z s ↔ match r with
    | .ok a => A.wp (g a).run Z s
    | .error e => Z (.error e) s := by
  cases r <;> exact Iff.rfl

theorem wp_liftBind : A.wp (ExceptT.lift p >>= g).run Z s ↔
    A.wp p (fun a s => A.wp (g a).run Z s) s := by
  have hassoc : (ExceptT.lift p >>= g).run = (p >>= fun a => (g a).run) := Prog.bind_assoc _ _ _
  rw [hassoc, wp_bind]

theorem wp_runAdapt {ε' : Type} {y : ExceptT ε' (Prog Op Res) α} {h : ε' → ε}
    {Z : Except ε α → σ → Prop} :
    A.wp (ExceptT.adapt h y).run Z s ↔ A.wp y.run (fun r => Z (r.mapError h)) s := by
  have hb : (ExceptT.adapt h y).run = y.run >>= fun r => .ret (r.mapError h) := rfl
  rw [hb, wp_bind]
  exact Iff.rfl

/-- The code succeeds, whatever outcomes its operations have. -/
def Succeeds (A : Alone Op Res Choice σ) (x : ExceptT ε (Prog Op Res) α) (P : α → σ → Prop)
    (s : σ) : Prop := A.wp x.run (fun r s => ∃ a, r = .ok a ∧ P a s) s

variable {P : α → σ → Prop} {Q : β → σ → Prop}

theorem Succeeds.pure {b : β} (h : Q b s) : A.Succeeds (Pure.pure b : ExceptT ε _ β) Q s :=
  ⟨b, rfl, h⟩

theorem Succeeds.lift (h : A.wp p P s) : A.Succeeds (ExceptT.lift p : ExceptT ε _ α) P s := by
  have hrun : (ExceptT.lift p : ExceptT ε _ α).run = p >>= fun a => .ret (.ok a) := rfl
  rw [Succeeds, hrun, wp_bind]
  exact wp_mono h fun a s hs => ⟨a, rfl, hs⟩

theorem Succeeds.bind (h : A.Succeeds x P s) (hg : ∀ a s, P a s → A.Succeeds (g a) Q s) :
    A.Succeeds (x >>= g) Q s := by
  refine wp_runBind.2 (wp_mono h ?_)
  rintro _ s' ⟨a, rfl, hs'⟩
  exact hg a s' hs'

theorem Succeeds.adapt {ε' : Type} {y : ExceptT ε' (Prog Op Res) α} {f : ε' → ε}
    (h : A.Succeeds y P s) : A.Succeeds (ExceptT.adapt f y) P s := by
  refine wp_runAdapt.2 (wp_mono h ?_)
  rintro _ s' ⟨a, rfl, hs'⟩
  exact ⟨a, rfl, hs'⟩

theorem Succeeds.mono {P' : α → σ → Prop} (h : A.Succeeds x P s) (hP : ∀ a s, P a s → P' a s) :
    A.Succeeds x P' s := by
  refine wp_mono h ?_
  rintro _ s' ⟨a, rfl, hs'⟩
  exact ⟨a, rfl, hP a s' hs'⟩

end Fallible

end Alone

end Purgery.Interleaving
