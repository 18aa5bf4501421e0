import Purgery.Interleaving.Course

namespace Purgery.Interleaving

/-- What one process meets while it runs: its calls and their outcomes, what
holds at every instant, and what the others may do before each of its calls. -/
structure Scene (Op : Type) (Res Choice : Op → Type) (σ : Type) where
  step : (o : Op) → Choice o → σ → Res o × σ
  admits : (o : Op) → Choice o → σ → Prop
  inv : σ → Prop
  rely : σ → σ → Prop

/-- The calls of a process, each with the state in which it is made. -/
abbrev Log (Op : Type) (Choice : Op → Type) (σ : Type) : Type := List (σ × (o : Op) × Choice o)

section Overtaken

variable {Op : Type} {Res Choice : Op → Type} {σ α β : Type}

/-- The code runs from `s` to its answer `a` in `s'`. -/
inductive Overtaken (V : Scene Op Res Choice σ) :
    Prog Op Res α → σ → Log Op Choice σ → α → σ → Prop
  | ret {a : α} {s s' : σ} : V.rely s s' → Overtaken V (.ret a) s [] a s'
  | call {o : Op} {k : Res o → Prog Op Res α} {s s₁ s' : σ} {L : Log Op Choice σ} {a : α}
      (x : Choice o) : V.rely s s₁ → V.inv s₁ → V.admits o x s₁ →
      Overtaken V (k (V.step o x s₁).1) (V.step o x s₁).2 L a s' →
      Overtaken V (.call o k) s ((s₁, ⟨o, x⟩) :: L) a s'

/-- What the others do the process does too. -/
structure Scene.Steady (V : Scene Op Res Choice σ) : Prop where
  refl : ∀ s, V.rely s s
  trans : ∀ s₁ s₂ s₃, V.rely s₁ s₂ → V.rely s₂ s₃ → V.rely s₁ s₃
  own : ∀ o x s, V.inv s → V.admits o x s → V.rely s (V.step o x s).2

namespace Overtaken

variable {V : Scene Op Res Choice σ} {s s' : σ} {L : Log Op Choice σ}

theorem ret_inv {a b : α} (h : Overtaken V (.ret a) s L b s') : b = a ∧ L = [] ∧ V.rely s s' := by
  cases h with
  | ret hr => exact ⟨rfl, rfl, hr⟩

theorem call_inv {o : Op} {k : Res o → Prog Op Res α} {a : α}
    (h : Overtaken V (.call o k) s L a s') :
    ∃ s₁ x L₁, L = (s₁, ⟨o, x⟩) :: L₁ ∧ V.rely s s₁ ∧ V.inv s₁ ∧ V.admits o x s₁ ∧
      Overtaken V (k (V.step o x s₁).1) (V.step o x s₁).2 L₁ a s' := by
  cases h with
  | call x hr hi ha hk => exact ⟨_, x, _, rfl, hr, hi, ha, hk⟩

theorem perform_inv {o : Op} {f : Res o → Prog Op Res α} {a : α}
    (h : Overtaken V (Prog.perform o >>= f) s L a s') :
    ∃ s₁ x L₁, L = (s₁, ⟨o, x⟩) :: L₁ ∧ V.rely s s₁ ∧ V.inv s₁ ∧ V.admits o x s₁ ∧
      Overtaken V (f (V.step o x s₁).1) (V.step o x s₁).2 L₁ a s' := h.call_inv

theorem bind_inv (hrefl : ∀ s, V.rely s s) {p : Prog Op Res α} {f : α → Prog Op Res β} {b : β}
    (h : Overtaken V (p >>= f) s L b s') :
    ∃ a s₁ L₁ L₂, L = L₁ ++ L₂ ∧ Overtaken V p s L₁ a s₁ ∧ Overtaken V (f a) s₁ L₂ b s' := by
  induction p generalizing s L with
  | ret a => exact ⟨a, s, [], L, rfl, .ret (hrefl s), h⟩
  | call o k ih =>
    obtain ⟨s₁, x, L₁, rfl, hr, hi, ha, hk⟩ := call_inv h
    obtain ⟨a, s₂, L₂, L₃, rfl, hp, hf⟩ := ih _ hk
    exact ⟨a, s₂, _, L₃, rfl, .call x hr hi ha hp, hf⟩

theorem prepend (htrans : ∀ s₁ s₂ s₃, V.rely s₁ s₂ → V.rely s₂ s₃ → V.rely s₁ s₃)
    {p : Prog Op Res α} {a : α} {s₀ : σ} (hr : V.rely s₀ s) (h : Overtaken V p s L a s') :
    Overtaken V p s₀ L a s' := by
  cases h with
  | ret hr' => exact .ret (htrans _ _ _ hr hr')
  | call x hr' hi ha hk => exact .call x (htrans _ _ _ hr hr') hi ha hk

theorem rely (hV : V.Steady) {p : Prog Op Res α} {a : α} (h : Overtaken V p s L a s') :
    V.rely s s' := by
  induction h with
  | ret hr => exact hr
  | call x hr hi ha _ ih => exact hV.trans _ _ _ hr (hV.trans _ _ _ (hV.own _ x _ hi ha) ih)

theorem answers {Q : α → Prop} {p : Prog Op Res α} {a : α} (hp : p.Answers Q)
    (h : Overtaken V p s L a s') : Q a := by
  induction h with
  | ret _ => exact hp
  | call _ _ _ _ _ ih => exact ih (hp _)

/-- Code that runs in one scene runs in every scene that asks less. -/
theorem mono {U : Scene Op Res Choice σ} (hstep : ∀ o x s, U.step o x s = V.step o x s)
    (hrely : ∀ s s', V.rely s s' → U.rely s s') (hinv : ∀ s, V.inv s → U.inv s)
    (hadmits : ∀ o x s, V.admits o x s → U.admits o x s) {p : Prog Op Res α} {a : α}
    (h : Overtaken V p s L a s') : Overtaken U p s L a s' := by
  induction h with
  | ret hr => exact .ret (hrely _ _ hr)
  | @call o k s s₁ s' L a x hr hi ha _ ih =>
    refine .call x (hrely _ _ hr) (hinv _ hi) (hadmits _ _ _ ha) ?_
    rw [hstep]
    exact ih

/-- The calls in the log are those that the code may make. -/
theorem only {ok : Op → Prop} {p : Prog Op Res α} {a : α} (hp : p.Only ok)
    (h : Overtaken V p s L a s') : ∀ m ∈ L, ok m.2.1 := by
  induction h with
  | ret _ => exact nofun
  | call x _ _ _ _ ih => exact List.forall_mem_cons.2 ⟨hp.1, ih (hp.2 _)⟩

/-- What is kept by the others and by every call that the code may make. -/
theorem keeps {ok : Op → Prop} {I : σ → Prop} {p : Prog Op Res α} {a : α} (hp : p.Only ok)
    (hrely : ∀ s s', V.rely s s' → I s → I s')
    (hown : ∀ o x s, ok o → V.inv s → V.admits o x s → I s → I (V.step o x s).2)
    (h : Overtaken V p s L a s') (hs : I s) : I s' := by
  induction h with
  | ret hr => exact hrely _ _ hr hs
  | call x hr hi ha _ ih => exact ih (hp.2 _) (hown _ x _ hp.1 hi ha (hrely _ _ hr hs))

section Fallible

variable {ε ε' : Type} {r : Except ε β}

theorem runBind_inv (hrefl : ∀ s, V.rely s s) {x : ExceptT ε (Prog Op Res) α}
    {f : α → ExceptT ε (Prog Op Res) β} (h : Overtaken V (x >>= f).run s L r s') :
    (∃ e, r = .error e ∧ ∃ s₁, Overtaken V x.run s L (.error e) s₁ ∧ V.rely s₁ s') ∨
      ∃ a s₁ L₁ L₂, L = L₁ ++ L₂ ∧ Overtaken V x.run s L₁ (.ok a) s₁ ∧
        Overtaken V (f a).run s₁ L₂ r s' := by
  obtain ⟨b, s₁, L₁, L₂, rfl, hx, hf⟩ := bind_inv hrefl h
  cases b with
  | ok a => exact .inr ⟨a, s₁, L₁, L₂, rfl, hx, hf⟩
  | error e =>
    obtain ⟨rfl, rfl, hr⟩ := ret_inv hf
    rw [List.append_nil]
    exact .inl ⟨e, rfl, s₁, hx, hr⟩

theorem check_inv {x : Except ε α} {f : α → ExceptT ε (Prog Op Res) β}
    (h : Overtaken V (ExceptT.mk (pure x) >>= f : ExceptT ε (Prog Op Res) β).run s L r s') :
    (∃ e, x = .error e ∧ r = .error e) ∨ ∃ a, x = .ok a ∧ Overtaken V (f a).run s L r s' := by
  cases x with
  | ok a => exact .inr ⟨a, rfl, h⟩
  | error e => exact .inl ⟨e, rfl, (ret_inv h).1⟩

theorem adapt_inv (hrefl : ∀ s, V.rely s s) {x : ExceptT ε' (Prog Op Res) β} {g : ε' → ε}
    (h : Overtaken V (ExceptT.adapt g x).run s L r s') :
    ∃ r' s₁, r = r'.mapError g ∧ Overtaken V x.run s L r' s₁ ∧ V.rely s₁ s' := by
  obtain ⟨b, s₁, L₁, L₂, rfl, hx, hf⟩ := bind_inv hrefl h
  obtain ⟨rfl, rfl, hr⟩ := ret_inv hf
  rw [List.append_nil]
  exact ⟨b, s₁, rfl, hx, hr⟩

theorem lift_inv (hrefl : ∀ s, V.rely s s) {p : Prog Op Res α} {f : α → ExceptT ε (Prog Op Res) β}
    (h : Overtaken V (ExceptT.lift p >>= f).run s L r s') :
    ∃ a s₁ L₁ L₂, L = L₁ ++ L₂ ∧ Overtaken V p s L₁ a s₁ ∧ Overtaken V (f a).run s₁ L₂ r s' := by
  have hassoc : (ExceptT.lift p >>= f).run = (p >>= fun a => (f a).run) := Prog.bind_assoc _ _ _
  rw [hassoc] at h
  exact bind_inv hrefl h

end Fallible

end Overtaken

/-- However the code runs, `Q` holds of its answer and of the state then. -/
def Scene.Ends (V : Scene Op Res Choice σ) (p : Prog Op Res α) (Q : α → σ → Prop) : Prop :=
  ∀ s L a s', Overtaken V p s L a s' → Q a s'

variable {V : Scene Op Res Choice σ} {Q : β → σ → Prop}

theorem Scene.Ends.bind (hrefl : ∀ s, V.rely s s) {p : Prog Op Res α} {f : α → Prog Op Res β}
    (hf : ∀ a, V.Ends (f a) Q) : V.Ends (p >>= f) Q := by
  intro s L b s' h
  obtain ⟨a, s₁, L₁, L₂, -, -, h⟩ := h.bind_inv hrefl
  exact hf a _ _ _ _ h

theorem Scene.Ends.ret {b : β} (h : ∀ s, Q b s) : V.Ends (.ret b) Q := by
  intro s L b' s' hret
  obtain ⟨rfl, -⟩ := hret.ret_inv
  exact h s'

section Fallible

variable {ε : Type} {R : Except ε β → σ → Prop}

theorem Scene.Ends.runBind (hrefl : ∀ s, V.rely s s) {x : ExceptT ε (Prog Op Res) α}
    {f : α → ExceptT ε (Prog Op Res) β} (hf : ∀ a, V.Ends (f a).run R)
    (he : ∀ e s, R (.error e) s) : V.Ends (x >>= f).run R := by
  intro s L r s' h
  obtain ⟨e, rfl, -⟩ | ⟨a, s₁, L₁, L₂, -, -, h⟩ := h.runBind_inv hrefl
  · exact he e s'
  · exact hf a _ _ _ _ h

theorem Scene.Ends.lift (hrefl : ∀ s, V.rely s s) {p : Prog Op Res α}
    {f : α → ExceptT ε (Prog Op Res) β} (hf : ∀ a, V.Ends (f a).run R) :
    V.Ends (ExceptT.lift p >>= f).run R := by
  intro s L r s' h
  obtain ⟨a, s₁, L₁, L₂, -, -, h⟩ := h.lift_inv hrefl
  exact hf a _ _ _ _ h

end Fallible

end Overtaken

section Embedded

variable {Tid Op₁ Op₂ : Type} {Res₁ Choice₁ Choice : Op₁ → Type} {Res₂ Choice₂ : Op₂ → Type}
variable {σ₁ σ₂ ε α : Type} [DecidableEq Tid] {S : System Tid Op₂ Res₂ Choice₂ σ₂ ε}
variable {P : Policy Tid Op₂ Choice₂ σ₂ ε} {t : Tid}

/-- Where embedded code takes place in the part `part` of the state. -/
structure Scene.Part (V : Scene Op₁ Res₁ Choice σ₁) (S : System Tid Op₂ Res₂ Choice₂ σ₂ ε)
    (P : Policy Tid Op₂ Choice₂ σ₂ ε) (t : Tid) (e : Embedding Op₁ Res₁ Choice₁ Op₂ Res₂ Choice₂)
    (part : σ₂ → σ₁) (choice : (o : Op₁) → Choice₂ (e.op o) → σ₂ → Choice o) : Prop where
  step : ∀ o x s, V.step o (choice o x s) (part s) =
    (e.res o (S.step t (e.op o) x s).1, part (S.step t (e.op o) x s).2)
  refl : ∀ s, V.rely s s
  trans : ∀ s₁ s₂ s₃, V.rely s₁ s₂ → V.rely s₂ s₃ → V.rely s₁ s₃
  inv : ∀ c, Reachable S P c → V.inv (part c.world)
  rely : ∀ c d c', Reachable S P c → Next S P c d c' → d.actor ≠ some t →
    V.rely (part c.world) (part c'.world)

/-- The log of embedded code holds the calls that its process makes. -/
structure Records (t : Tid) (e : Embedding Op₁ Res₁ Choice₁ Op₂ Res₂ Choice₂) (part : σ₂ → σ₁)
    (choice : (o : Op₁) → Choice₂ (e.op o) → σ₂ → Choice o)
    (L : List (Moment Tid Op₂ Choice₂ σ₂ ε)) (L' : Log Op₁ Choice σ₁) : Prop where
  made : ∀ s₁ o y, (s₁, ⟨o, y⟩) ∈ L' →
    ∃ s x, (s, .call t (e.op o) x) ∈ L ∧ part s = s₁ ∧ choice o x s = y
  kept : ∀ s o₂ x, (s, .call t o₂ x) ∈ L → ∃ o y, e.op o = o₂ ∧ (part s, ⟨o, y⟩) ∈ L'

/-- What embedded code does, as far as its part of the state goes. -/
theorem Performs.overtaken {V : Scene Op₁ Res₁ Choice σ₁}
    {e : Embedding Op₁ Res₁ Choice₁ Op₂ Res₂ Choice₂} {part : σ₂ → σ₁}
    {choice : (o : Op₁) → Choice₂ (e.op o) → σ₂ → Choice o} (hV : V.Part S P t e part choice)
    {f : α → Prog Op₂ Res₂ Unit} {p : Prog Op₁ Res₁ α} {c c' : Config Tid Op₂ Res₂ σ₂}
    {L : List (Moment Tid Op₂ Choice₂ σ₂ ε)} {a : α} (hr : Reachable S P c)
    (h : Performs S P t f (e.embed p) c L a c')
    (hadmits : ∀ c o x c', Reachable S P c → Next S P c (.call t (e.op o) x) c' →
      (c.world, .call t (e.op o) x) ∈ L → V.admits o (choice o x c.world) (part c.world)) :
    ∃ L', Overtaken V p (part c.world) L' a (part c'.world) ∧ Records t e part choice L L' := by
  generalize hq : e.embed p = q at h
  induction h generalizing p with
  | ret ht =>
    cases p with
    | ret b =>
      cases hq
      exact ⟨[], .ret (hV.refl _), ⟨nofun, nofun⟩⟩
    | call o k => exact nomatch hq
  | @own o κ c c' L a x ht hx hperf ih =>
    cases p with
    | ret b => exact nomatch hq
    | call o k =>
      cases hq
      obtain ⟨L', hL', hmade, hkept⟩ := ih (hr.own ht hx)
        (fun c o y c' hr hn hm => hadmits c o y c' hr hn (List.mem_cons_of_mem _ hm)) rfl
      have hadm := hadmits c o x _ hr (.call x ht hx) List.mem_cons_self
      have hstep := hV.step o x c.world
      refine ⟨(part c.world, ⟨o, choice o x c.world⟩) :: L', ?_, fun s₁ o' y hm => ?_,
        fun s o' y hm => ?_⟩
      · refine .call _ (hV.refl _) (hV.inv _ hr) hadm ?_
        rw [hstep]
        exact hL'
      · obtain hm | hm := List.mem_cons.1 hm
        · cases hm
          exact ⟨c.world, x, List.mem_cons_self, rfl, rfl⟩
        · obtain ⟨s, z, hs, h⟩ := hmade s₁ o' y hm
          exact ⟨s, z, List.mem_cons_of_mem _ hs, h⟩
      · obtain hm | hm := List.mem_cons.1 hm
        · cases hm
          exact ⟨o, _, rfl, List.mem_cons_self⟩
        · obtain ⟨o₁, z, ho, h⟩ := hkept s o' y hm
          exact ⟨o₁, z, ho, List.mem_cons_of_mem _ h⟩
  | other hn hne hperf ih =>
    obtain ⟨L', hL', hmade, hkept⟩ := ih (hr.next hn)
      (fun c o y c' hr hn hm => hadmits c o y c' hr hn (List.mem_cons_of_mem _ hm)) hq
    refine ⟨L', hL'.prepend hV.trans (hV.rely _ _ _ hr hn hne), fun s₁ o y hm => ?_,
      fun s o y hm => ?_⟩
    · obtain ⟨s, x, hs, h⟩ := hmade s₁ o y hm
      exact ⟨s, x, List.mem_cons_of_mem _ hs, h⟩
    · obtain hm | hm := List.mem_cons.1 hm
      · cases hm
        exact absurd rfl hne
      · exact hkept s o y hm

end Embedded

end Purgery.Interleaving
