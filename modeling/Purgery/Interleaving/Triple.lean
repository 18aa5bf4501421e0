import Purgery.Interleaving.Contract

namespace Purgery.Interleaving

variable {Tid Op : Type} {Res Choice : Op → Type} {σ ε : Type}
variable {S : System Tid Op Res Choice σ ε} {P : Policy Tid Op Choice σ ε}
variable {C : Contract S P} {t : Tid} {α β : Type}

/-- From a state with `pre`, the code keeps the contract and ends with `post`. -/
def Triple (C : Contract S P) (t : Tid) (pre : σ → Prop) (p : Prog Op Res α)
    (post : α → σ → Prop) : Prop :=
  ∀ s, C.inv s → pre s → wp C t p post s

namespace Triple

variable {pre pre' : σ → Prop} {p : Prog Op Res α} {post post' : α → σ → Prop}

theorem ret {a : α} {post : α → σ → Prop}
    (h : ∀ s s', C.inv s → C.inv s' → C.rely t s s' → pre s → post a s') :
    Triple C t pre (.ret a) post :=
  fun s hs hp s' hr hi => h s s' hs hi hr hp

theorem bind (hC : C.Closed) {f : α → Prog Op Res β} {M : α → σ → Prop}
    {post : β → σ → Prop} (hp : Triple C t pre p M)
    (hf : ∀ a, Triple C t (M a) (f a) post) : Triple C t pre (p >>= f) post :=
  fun s hs hpre => wp_bind hC hs (wp_mono (hp s hs hpre) fun a s' hi hm => hf a s' hi hm)

theorem conseq (h : Triple C t pre p post) (hpre : ∀ s, C.inv s → pre' s → pre s)
    (hpost : ∀ a s, C.inv s → post a s → post' a s) : Triple C t pre' p post' :=
  fun s hs hp => wp_mono (h s hs (hpre s hs hp)) hpost

theorem weaken (h : Triple C t pre p post) (hpost : ∀ a s, C.inv s → post a s → post' a s) :
    Triple C t pre p post' :=
  h.conseq (fun _ _ hp => hp) hpost

theorem strengthen (h : Triple C t pre p post) (hpre : ∀ s, C.inv s → pre' s → pre s) :
    Triple C t pre' p post :=
  h.conseq hpre fun _ _ _ hp => hp

theorem frame {J : σ → Prop}
    (hrely : ∀ s s', C.inv s → C.inv s' → C.rely t s s' → J s → J s')
    (hstep : ∀ o x s, P.step t o x s → J s → J (S.step t o x s).2) (h : Triple C t pre p post) :
    Triple C t (fun s => pre s ∧ J s) p (fun a s => post a s ∧ J s) :=
  fun s hs hp => wp_frame hrely hstep hs (h s hs hp.1) hp.2

theorem pure_pre {φ : Prop} (h : φ → Triple C t pre p post) :
    Triple C t (fun s => φ ∧ pre s) p post :=
  fun s hs hp => h hp.1 s hs hp.2

theorem exists_pre {ι : Type} {pre : ι → σ → Prop} (h : ∀ i, Triple C t (pre i) p post) :
    Triple C t (fun s => ∃ i, pre i s) p post :=
  fun s hs ⟨i, hp⟩ => h i s hs hp

theorem or_pre (h : Triple C t pre p post) (h' : Triple C t pre' p post) :
    Triple C t (fun s => pre s ∨ pre' s) p post :=
  fun s hs hp => hp.elim (h s hs) (h' s hs)

theorem false_pre (h : ∀ s, C.inv s → pre s → False) : Triple C t pre p post :=
  fun s hs hp => (h s hs hp).elim

/-- One operation: the precondition has to survive what the others do first. -/
theorem call {o : Op} {k : Res o → Prog Op Res α}
    (h : ∀ s s₁, C.inv s → pre s → C.rely t s s₁ → C.inv s₁ → ∀ x, P.step t o x s₁ →
      C.guar t o x s₁ (S.step t o x s₁).2 ∧ C.inv (S.step t o x s₁).2 ∧
        wp C t (k (S.step t o x s₁).1) post (S.step t o x s₁).2) :
    Triple C t pre (.call o k) post :=
  fun s hs hp s₁ hr hi x hx => h s s₁ hs hp hr hi x hx

theorem perform {o : Op} {post : Res o → σ → Prop}
    (hstable : ∀ s s', C.inv s → C.inv s' → C.rely t s s' → pre s → pre s')
    (hpost : ∀ r s s', C.inv s → C.inv s' → C.rely t s s' → post r s → post r s')
    (h : ∀ s x, C.inv s → pre s → P.step t o x s →
      C.guar t o x s (S.step t o x s).2 ∧ C.inv (S.step t o x s).2 ∧
        post (S.step t o x s).1 (S.step t o x s).2) :
    Triple C t pre (Prog.perform o) post := by
  intro s hs hp s₁ hr hi x hx
  obtain ⟨hg, hi', hq⟩ := h s₁ x hi (hstable s s₁ hs hi hr hp) hx
  exact ⟨hg, hi', fun s' hr' hs' => hpost _ _ s' hi' hs' hr' hq⟩

/-- A computation on the answer takes no step. -/
theorem map {f : α → β} {post : β → σ → Prop}
    (h : Triple C t pre p fun a => post (f a)) :
    Triple C t pre (p >>= fun a => .ret (f a)) post := by
  intro s hs hpre
  have hw := h s hs hpre
  clear h hpre hs
  induction p generalizing s with
  | ret a => exact hw
  | call o k ih =>
    intro s₁ hr hi x hx
    obtain ⟨hg, hi', hk⟩ := hw s₁ hr hi x hx
    exact ⟨hg, hi', ih _ _ hk⟩

/-- Code that keeps more than a contract says. -/
theorem keep {D : Contract S P} {K : σ → Prop}
    (hinv : ∀ s, D.inv s ↔ C.inv s ∧ K s) (hrely : D.rely = C.rely)
    (hguar : D.guar = C.guar) (hstable : ∀ s s', C.rely t s s' → K s → K s')
    (h : Triple D t pre p post) :
    Triple C t (fun s => pre s ∧ K s) p fun a s => post a s ∧ K s := by
  rintro s hs ⟨hpre, hk⟩
  have hw := h s ((hinv s).2 ⟨hs, hk⟩) hpre
  clear h hpre hs
  induction p generalizing s with
  | ret a =>
    intro s' hr hi
    have hk' := hstable s s' hr hk
    exact ⟨hw s' (hrely ▸ hr) ((hinv s').2 ⟨hi, hk'⟩), hk'⟩
  | call o k ih =>
    intro s₁ hr hi x hx
    obtain ⟨hg, hi', hnext⟩ := hw s₁ (hrely ▸ hr) ((hinv s₁).2 ⟨hi, hstable s s₁ hr hk⟩) x hx
    obtain ⟨hi', hk'⟩ := (hinv _).1 hi'
    exact ⟨hguar ▸ hg, hi', ih _ _ hk' hnext⟩

end Triple

section Only

/-- Every operation that the code may take satisfies `ok`. -/
def Prog.Only (ok : Op → Prop) : Prog Op Res α → Prop
  | .ret _ => True
  | .call o k => ok o ∧ ∀ r, (k r).Only ok

variable {ok : Op → Prop}

theorem Prog.Only.any (p : Prog Op Res α) : p.Only fun _ => True := by
  induction p with
  | ret a => trivial
  | call o k ih => exact ⟨trivial, ih⟩

theorem Prog.Only.bind {p : Prog Op Res α} {f : α → Prog Op Res β} (hp : p.Only ok)
    (hf : ∀ a, (f a).Only ok) : (p >>= f).Only ok := by
  induction p with
  | ret a => exact hf a
  | call o k ih => exact ⟨hp.1, fun r => ih r (hp.2 r)⟩

theorem Prog.Only.mono {ok' : Op → Prop} {p : Prog Op Res α} (hp : p.Only ok)
    (h : ∀ o, ok o → ok' o) : p.Only ok' := by
  induction p with
  | ret a => trivial
  | call o k ih => exact ⟨h o hp.1, fun r => ih r (hp.2 r)⟩

theorem Prog.Only.forEach {γ : Type} {xs : List γ} {f : γ → Prog Op Res Unit}
    (hf : ∀ x, (f x).Only ok) : (Prog.forEach xs f).Only ok := by
  induction xs with
  | nil => trivial
  | cons x xs ih => exact (hf x).bind fun _ => ih

theorem Prog.Only.embed {Op₂ : Type} {Res₂ Choice₂ : Op₂ → Type} {ok₂ : Op₂ → Prop}
    (e : Embedding Op Res Choice Op₂ Res₂ Choice₂) {p : Prog Op Res α} (hp : p.Only ok)
    (h : ∀ o, ok o → ok₂ (e.op o)) : (e.embed p).Only ok₂ := by
  induction p with
  | ret a => trivial
  | call o k ih => exact ⟨h o hp.1, fun r => ih _ (hp.2 _)⟩

/-- Code whose every operation keeps `I` keeps `I`. -/
theorem Triple.of_only {I : σ → Prop} {p : Prog Op Res α} (hp : p.Only ok)
    (hstable : ∀ s s', C.inv s → C.inv s' → C.rely t s s' → I s → I s')
    (hop : ∀ o s x, ok o → C.inv s → I s → P.step t o x s →
      C.guar t o x s (S.step t o x s).2 ∧ C.inv (S.step t o x s).2 ∧ I (S.step t o x s).2) :
    Triple C t I p (fun _ => I) := by
  induction p with
  | ret a => exact Triple.ret fun s s' hs hi hr => hstable s s' hs hi hr
  | call o k ih =>
    intro s hs hI s₁ hr hi x hx
    obtain ⟨hg, hi', hI'⟩ := hop o s₁ x hp.1 hi (hstable s s₁ hs hi hr hI) hx
    exact ⟨hg, hi', ih _ (hp.2 _) _ hi' hI'⟩

/-- What none of the operations of the code undoes. -/
theorem Triple.frame_only {ok : Op → Prop} {pre J : σ → Prop} {p : Prog Op Res α}
    {post : α → σ → Prop} (hp : p.Only ok)
    (hrely : ∀ s s', C.inv s → C.inv s' → C.rely t s s' → J s → J s')
    (hstep : ∀ o x s, ok o → J s → J (S.step t o x s).2) (h : Triple C t pre p post) :
    Triple C t (fun s => pre s ∧ J s) p fun a s => post a s ∧ J s := by
  rintro s hs ⟨hpre, hj⟩
  have hw := h s hs hpre
  clear h hpre
  induction p generalizing s with
  | ret a => exact fun s' hr hi => ⟨hw s' hr hi, hrely s s' hs hi hr hj⟩
  | call o k ih =>
    intro s₁ hr hi x hx
    obtain ⟨hg, hi', hk⟩ := hw s₁ hr hi x hx
    exact ⟨hg, hi', ih _ (hp.2 _) _ hi' (hstep o x s₁ hp.1 (hrely s s₁ hs hi hr hj)) hk⟩

end Only

section Answers

/-- Every answer that the code may give satisfies `Q`, whatever its calls
answer. -/
def Prog.Answers (Q : α → Prop) : Prog Op Res α → Prop
  | .ret a => Q a
  | .call _ k => ∀ r, (k r).Answers Q

variable {Q Q' : α → Prop} {p : Prog Op Res α}

theorem Prog.Answers.any (h : ∀ a, Q a) : p.Answers Q := by
  induction p with
  | ret a => exact h a
  | call o k ih => exact fun r => ih r

theorem Prog.Answers.bind {R : β → Prop} {f : α → Prog Op Res β} (hp : p.Answers Q)
    (hf : ∀ a, Q a → (f a).Answers R) : (p >>= f).Answers R := by
  induction p with
  | ret a => exact hf a hp
  | call o k ih => exact fun r => ih r (hp r)

theorem Prog.Answers.embed {Op₂ : Type} {Res₂ Choice₂ : Op₂ → Type}
    (e : Embedding Op Res Choice Op₂ Res₂ Choice₂) (hp : p.Answers Q) :
    (e.embed p).Answers Q := by
  induction p with
  | ret a => exact hp
  | call o k ih => exact fun r => ih _ (hp _)

/-- What the code may answer is also known when it ends. -/
theorem Triple.answers {pre : σ → Prop} {post : α → σ → Prop} (h : Triple C t pre p post)
    (hp : p.Answers Q) : Triple C t pre p fun a s => post a s ∧ Q a := by
  intro s hs hpre
  have hw := h s hs hpre
  clear h hpre hs
  induction p generalizing s with
  | ret a => exact fun s' hr hi => ⟨hw s' hr hi, hp⟩
  | call o k ih =>
    intro s₁ hr hi x hx
    obtain ⟨hg, hi', hk⟩ := hw s₁ hr hi x hx
    exact ⟨hg, hi', ih _ (hp _) _ hk⟩

theorem Prog.Answers.after {R : β → Prop} {f : α → Prog Op Res β} (hf : ∀ a, (f a).Answers R) :
    (p >>= f).Answers R :=
  Prog.Answers.bind (.any fun _ => trivial) fun a (_ : True) => hf a

end Answers

section Fallible

variable {ε₁ ε₂ : Type}

theorem Triple.runBind (hC : C.Closed) {pre : σ → Prop} {x : ExceptT ε₁ (Prog Op Res) α}
    {f : α → ExceptT ε₁ (Prog Op Res) β} {M : α → σ → Prop}
    {post : Except ε₁ β → σ → Prop}
    (hx : Triple C t pre x.run fun r s => match r with
      | .ok a => M a s
      | .error e => post (.error e) s)
    (hf : ∀ a, Triple C t (M a) (f a).run post)
    (hstable : ∀ e s s', C.inv s → C.inv s' → C.rely t s s' → post (.error e) s →
      post (.error e) s') :
    Triple C t pre (x >>= f).run post := by
  refine Triple.bind hC hx fun r => ?_
  cases r with
  | ok a => exact hf a
  | error e => exact Triple.ret fun s s' hs hi hr hp => hstable e s s' hs hi hr hp

theorem Triple.liftBind (hC : C.Closed) {pre : σ → Prop} {p : Prog Op Res α}
    {f : α → ExceptT ε₁ (Prog Op Res) β} {M : α → σ → Prop} {post : Except ε₁ β → σ → Prop}
    (hp : Triple C t pre p M) (hf : ∀ a, Triple C t (M a) (f a).run post) :
    Triple C t pre (ExceptT.lift p >>= f).run post := by
  have hassoc : (ExceptT.lift p >>= f).run = (p >>= fun a => (f a).run) := Prog.bind_assoc _ _ _
  rw [hassoc]
  exact Triple.bind hC hp hf

theorem Prog.Answers.runBind {A : Except ε₁ α → Prop} {Q : Except ε₁ β → Prop}
    {x : ExceptT ε₁ (Prog Op Res) α} {f : α → ExceptT ε₁ (Prog Op Res) β} (hx : x.run.Answers A)
    (hf : ∀ a, A (.ok a) → (f a).run.Answers Q) (he : ∀ e, A (.error e) → Q (.error e)) :
    (x >>= f).run.Answers Q := by
  refine Prog.Answers.bind hx fun r hr => ?_
  cases r with
  | ok a => exact hf a hr
  | error e => exact he e hr

theorem Prog.Answers.runAdapt {A : Except ε₁ α → Prop} {Q : Except ε₂ α → Prop}
    {x : ExceptT ε₁ (Prog Op Res) α} {g : ε₁ → ε₂} (hx : x.run.Answers A)
    (hg : ∀ r, A r → Q (r.mapError g)) : (ExceptT.adapt g x).run.Answers Q :=
  Prog.Answers.bind hx hg

theorem Prog.Answers.liftBind {A : α → Prop} {Q : Except ε₁ β → Prop} {p : Prog Op Res α}
    {f : α → ExceptT ε₁ (Prog Op Res) β} (hp : p.Answers A) (hf : ∀ a, A a → (f a).run.Answers Q) :
    (ExceptT.lift p >>= f).run.Answers Q := by
  have hassoc : (ExceptT.lift p >>= f).run = (p >>= fun a => (f a).run) := Prog.bind_assoc _ _ _
  rw [hassoc]
  exact Prog.Answers.bind hp hf

theorem Prog.Answers.runCheck {Q : Except ε₁ β → Prop} {x : Except ε₁ α}
    {f : α → ExceptT ε₁ (Prog Op Res) β} (hf : ∀ a, x = .ok a → (f a).run.Answers Q)
    (he : ∀ e, x = .error e → Q (.error e)) :
    (ExceptT.mk (pure x) >>= f : ExceptT ε₁ (Prog Op Res) β).run.Answers Q := by
  cases x with
  | ok a => exact hf a rfl
  | error e => exact he e rfl

theorem Prog.Only.runBind {ok : Op → Prop} {x : ExceptT ε₁ (Prog Op Res) α}
    {f : α → ExceptT ε₁ (Prog Op Res) β} (hx : x.run.Only ok) (hf : ∀ a, (f a).run.Only ok) :
    (x >>= f).run.Only ok := by
  refine Prog.Only.bind hx fun r => ?_
  cases r with
  | ok a => exact hf a
  | error e => trivial

theorem Prog.Only.runAdapt {ok : Op → Prop} {x : ExceptT ε₁ (Prog Op Res) α} {g : ε₁ → ε₂}
    (hx : x.run.Only ok) : (ExceptT.adapt g x).run.Only ok :=
  Prog.Only.bind hx fun _ => trivial

theorem Prog.Only.runLift {ok : Op → Prop} {p : Prog Op Res α} (hp : p.Only ok) :
    (ExceptT.lift p : ExceptT ε₁ (Prog Op Res) α).run.Only ok :=
  Prog.Only.bind hp fun _ => trivial

/-- Whenever the code succeeds, its result satisfies `Q`. -/
def Gives (x : ExceptT ε₁ (Prog Op Res) α) (Q : α → Prop) : Prop :=
  x.run.Answers fun r => ∀ a, r = .ok a → Q a

namespace Gives

variable {x : ExceptT ε₁ (Prog Op Res) α} {f : α → ExceptT ε₁ (Prog Op Res) β}
variable {Q : α → Prop} {R : β → Prop}

theorem bind (hx : Gives x Q) (hf : ∀ a, Q a → Gives (f a) R) : Gives (x >>= f) R :=
  .runBind hx (fun a h => hf a (h a rfl)) fun _ _ _ => nofun

theorem after (hf : ∀ a, Gives (f a) R) : Gives (x >>= f) R :=
  bind (Q := fun _ => True) (.any fun _ _ _ => trivial) fun a _ => hf a

theorem pure {a : α} (h : Q a) : Gives (Pure.pure a : ExceptT ε₁ (Prog Op Res) α) Q :=
  fun _ heq => Except.ok.inj heq ▸ h

end Gives

end Fallible

end Purgery.Interleaving
