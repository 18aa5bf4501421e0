import Purgery.Interleaving.Triple

namespace Purgery.Interleaving

/-- What one step of a run does. -/
inductive Deed (Tid Op : Type) (Choice : Op → Type) (ε : Type) where
  | call (t : Tid) (o : Op) (x : Choice o)
  | leave (t : Tid)
  | spawn (t : Tid)
  | env (e : ε)

def Deed.actor {Tid Op : Type} {Choice : Op → Type} {ε : Type} :
    Deed Tid Op Choice ε → Option Tid
  | .call t _ _ => some t
  | .leave t => some t
  | .spawn t => some t
  | .env _ => none

section Courses

variable {Tid Op : Type} {Res Choice : Op → Type} {σ ε α β : Type} [DecidableEq Tid]

/-- A step, with the state in which it is taken. -/
abbrev Moment (Tid Op : Type) (Choice : Op → Type) (σ ε : Type) : Type := σ × Deed Tid Op Choice ε

inductive Next (S : System Tid Op Res Choice σ ε) (P : Policy Tid Op Choice σ ε) :
    Config Tid Op Res σ → Deed Tid Op Choice ε → Config Tid Op Res σ → Prop
  | call {c : Config Tid Op Res σ} {t : Tid} {o : Op} {k : Res o → Prog Op Res Unit}
      (x : Choice o) : c.threads t = some (.call o k) → P.step t o x c.world →
      Next S P c (.call t o x)
        (c.put t (some (k (S.step t o x c.world).1)) (S.step t o x c.world).2)
  | leave {c : Config Tid Op Res σ} {t : Tid} {p : Prog Op Res Unit} : c.threads t = some p →
      (P.crash t c.world ∨ p = .ret ()) → Next S P c (.leave t) (c.put t none (S.leave t c.world))
  | spawn {c : Config Tid Op Res σ} {t : Tid} {p : Prog Op Res Unit} : c.threads t = none →
      S.program p → Next S P c (.spawn t) (c.put t (some p) c.world)
  | env {c : Config Tid Op Res σ} (e : ε) : P.env e c.world →
      Next S P c (.env e) ⟨S.env e c.world, c.threads⟩

/-- The steps that lead from one configuration to another. -/
inductive Course (S : System Tid Op Res Choice σ ε) (P : Policy Tid Op Choice σ ε) :
    Config Tid Op Res σ → List (Moment Tid Op Choice σ ε) → Config Tid Op Res σ → Prop
  | refl (c : Config Tid Op Res σ) : Course S P c [] c
  | cons {c c₁ c' : Config Tid Op Res σ} {d : Deed Tid Op Choice ε}
      {L : List (Moment Tid Op Choice σ ε)} :
      Next S P c d c₁ → Course S P c₁ L c' → Course S P c ((c.world, d) :: L) c'

/-- Process `t` runs `p`, from a configuration in which it has this and then
`f` to do, until it has the answer `a`. The others take their steps meanwhile. -/
inductive Performs (S : System Tid Op Res Choice σ ε) (P : Policy Tid Op Choice σ ε) (t : Tid)
    (f : α → Prog Op Res Unit) :
    Prog Op Res α → Config Tid Op Res σ → List (Moment Tid Op Choice σ ε) → α →
      Config Tid Op Res σ → Prop
  | ret {a : α} {c : Config Tid Op Res σ} : c.threads t = some (f a) →
      Performs S P t f (.ret a) c [] a c
  | own {o : Op} {k : Res o → Prog Op Res α} {c c' : Config Tid Op Res σ}
      {L : List (Moment Tid Op Choice σ ε)} {a : α} (x : Choice o) :
      c.threads t = some (.call o k >>= f) → P.step t o x c.world →
      Performs S P t f (k (S.step t o x c.world).1)
        (c.put t (some (k (S.step t o x c.world).1 >>= f)) (S.step t o x c.world).2) L a c' →
      Performs S P t f (.call o k) c ((c.world, .call t o x) :: L) a c'
  | other {p : Prog Op Res α} {c c₁ c' : Config Tid Op Res σ} {d : Deed Tid Op Choice ε}
      {L : List (Moment Tid Op Choice σ ε)} {a : α} :
      Next S P c d c₁ → d.actor ≠ some t → Performs S P t f p c₁ L a c' →
      Performs S P t f p c ((c.world, d) :: L) a c'

variable {S : System Tid Op Res Choice σ ε} {P P' : Policy Tid Op Choice σ ε}
variable {c c' c'' : Config Tid Op Res σ} {L L' : List (Moment Tid Op Choice σ ε)}

theorem Reachable.next {d : Deed Tid Op Choice ε} (h : Reachable S P c) (hn : Next S P c d c') :
    Reachable S P c' := by
  cases hn with
  | call x ht hx => exact .step x h ht hx
  | leave ht hl => exact .leave h ht hl
  | spawn ht hp => exact .spawn h ht hp
  | env e he => exact .env e h he

theorem Reachable.course (h : Reachable S P c) (hc : Course S P c L c') : Reachable S P c' := by
  induction hc with
  | refl c => exact h
  | cons hn _ ih => exact ih (h.next hn)

theorem Course.trans (h : Course S P c L c') (h' : Course S P c' L' c'') :
    Course S P c (L ++ L') c'' := by
  induction h with
  | refl c => exact h'
  | cons hn _ ih => exact .cons hn (ih h')

theorem Course.snoc {d : Deed Tid Op Choice ε} (h : Course S P c L c') (hn : Next S P c' d c'') :
    Course S P c (L ++ [(c'.world, d)]) c'' := h.trans (.cons hn (.refl _))

/-- The configuration in which a step of the course is taken. -/
theorem Course.split {m : Moment Tid Op Choice σ ε} (h : Course S P c (L ++ m :: L') c') :
    ∃ c₁ c₂, Course S P c L c₁ ∧ c₁.world = m.1 ∧ Next S P c₁ m.2 c₂ ∧ Course S P c₂ L' c' := by
  induction L generalizing c with
  | nil =>
    cases h with
    | cons hn hc => exact ⟨c, _, .refl c, rfl, hn, hc⟩
  | cons m' L ih =>
    cases h with
    | cons hn hc =>
      obtain ⟨c₁, c₂, h₁, hw, hn', h₂⟩ := ih hc
      exact ⟨c₁, c₂, .cons hn h₁, hw, hn', h₂⟩

/-- Every reachable configuration has a history. -/
theorem Reachable.exists_course (h : Reachable S P c) :
    ∃ s L, S.init s ∧ Course S P ⟨s, fun _ => none⟩ L c := by
  induction h with
  | init hs => exact ⟨_, [], hs, .refl _⟩
  | step x _ ht hx ih =>
    obtain ⟨s, L, hs, hc⟩ := ih
    exact ⟨s, _, hs, hc.snoc (.call x ht hx)⟩
  | leave _ ht hl ih =>
    obtain ⟨s, L, hs, hc⟩ := ih
    exact ⟨s, _, hs, hc.snoc (.leave ht hl)⟩
  | spawn _ ht hp ih =>
    obtain ⟨s, L, hs, hc⟩ := ih
    exact ⟨s, _, hs, hc.snoc (.spawn ht hp)⟩
  | env e _ he ih =>
    obtain ⟨s, L, hs, hc⟩ := ih
    exact ⟨s, _, hs, hc.snoc (.env e he)⟩

/-- A relation that every step keeps, along a course. -/
theorem Course.rely {R : σ → σ → Prop} (hr : Reachable S P c) (h : Course S P c L c')
    (hrefl : ∀ s, R s s) (htrans : ∀ s₁ s₂ s₃, R s₁ s₂ → R s₂ s₃ → R s₁ s₃)
    (hstep : ∀ c d c', Reachable S P c → Next S P c d c' → R c.world c'.world) :
    R c.world c'.world := by
  induction h with
  | refl c => exact hrefl _
  | cons hn _ ih => exact htrans _ _ _ (hstep _ _ _ hr hn) (ih (hr.next hn))

variable {t : Tid} {f : α → Prog Op Res Unit} {p : Prog Op Res α} {a : α}

theorem Reachable.own {o : Op} {k : Res o → Prog Op Res α} {x : Choice o} (h : Reachable S P c)
    (ht : c.threads t = some (.call o k >>= f)) (hx : P.step t o x c.world) :
    Reachable S P (c.put t (some (k (S.step t o x c.world).1 >>= f)) (S.step t o x c.world).2) :=
  .step x h ht hx

theorem Performs.course (h : Performs S P t f p c L a c') : Course S P c L c' := by
  induction h with
  | ret _ => exact .refl _
  | own x ht hx _ ih => exact .cons (.call x ht hx) ih
  | other hn _ _ ih => exact .cons hn ih

/-- The answer is there when the process has `f` left to do. -/
theorem Performs.ended (h : Performs S P t f p c L a c') : c'.threads t = some (f a) := by
  induction h with
  | ret ht => exact ht
  | own _ _ _ _ ih => exact ih
  | other _ _ _ ih => exact ih

/-- Every call of the code is one that `ok` admits. -/
theorem Performs.only {ok : Op → Prop} (hp : p.Only ok) (h : Performs S P t f p c L a c') :
    ∀ s o x, (s, Deed.call t o x) ∈ L → ok o := by
  induction h with
  | ret _ => exact fun _ _ _ hm => nomatch hm
  | own x _ _ _ ih =>
    intro s o y hm
    obtain hm | hm := List.mem_cons.1 hm
    · cases hm
      exact hp.1
    · exact ih (hp.2 _) s o y hm
  | other _ hne _ ih =>
    intro s o y hm
    obtain hm | hm := List.mem_cons.1 hm
    · cases hm
      exact absurd rfl hne
    · exact ih hp s o y hm

theorem Next.call_inv {o : Op} {x : Choice o} (h : Next S P c (.call t o x) c') :
    P.step t o x c.world ∧ c'.world = (S.step t o x c.world).2 := by
  cases h with
  | call x ht hx => exact ⟨hx, rfl⟩

/-- A step of another process leaves what this one has to do. -/
theorem Next.threads_other {d : Deed Tid Op Choice ε} (h : Next S P c d c')
    (hne : d.actor ≠ some t) : c'.threads t = c.threads t := by
  have hput : ∀ {u : Tid} {q : Option (Prog Op Res Unit)} {s : σ}, some u ≠ some t →
      (c.put u q s).threads t = c.threads t := by
    intro u q s hut
    have htu : t ≠ u := fun h => hut (by rw [h])
    simp [Config.put, htu]
  cases h with
  | call x _ _ => exact hput hne
  | leave _ _ => exact hput hne
  | spawn _ _ => exact hput hne
  | env e _ => rfl

/-- What a process has to do when it starts with the code. -/
theorem Performs.started (h : Performs S P t f p c L a c') :
    c.threads t = some (p >>= f) := by
  induction h with
  | ret ht => exact ht
  | own _ ht _ _ _ => exact ht
  | other hn hne _ ih => exact (hn.threads_other hne).symm.trans ih

/-- A process that has its answer makes no call. -/
theorem Performs.ret_inv {b : α} (h : Performs S P t f (.ret b) c L a c') :
    a = b ∧ ∀ m ∈ L, m.2.actor ≠ some t := by
  generalize hp : Prog.ret b = p at h
  induction h with
  | ret _ =>
    cases hp
    exact ⟨rfl, nofun⟩
  | own _ _ _ _ _ => exact nomatch hp
  | other _ hne _ ih =>
    obtain ⟨rfl, hothers⟩ := ih hp
    exact ⟨rfl, List.forall_mem_cons.2 ⟨hne, hothers⟩⟩

/-- The others take some steps, and then the process makes its call. -/
theorem Performs.call_inv {o : Op} {k : Res o → Prog Op Res α}
    (h : Performs S P t f (.call o k) c L a c') :
    ∃ L₁ c₁ x c₂ L₂, L = L₁ ++ (c₁.world, .call t o x) :: L₂ ∧
      (∀ m ∈ L₁, m.2.actor ≠ some t) ∧ Course S P c L₁ c₁ ∧ Next S P c₁ (.call t o x) c₂ ∧
      Performs S P t f (k (S.step t o x c₁.world).1) c₂ L₂ a c' := by
  generalize hp : Prog.call o k = p at h
  induction h with
  | ret _ => exact nomatch hp
  | own x ht hx hperf _ =>
    cases hp
    exact ⟨[], _, x, _, _, rfl, nofun, .refl _, .call x ht hx, hperf⟩
  | other hn hne _ ih =>
    obtain ⟨L₁, c₁, x, c₂, L₂, rfl, hothers, hc, hcall, hperf⟩ := ih hp
    refine ⟨_, c₁, x, c₂, L₂, rfl, fun m hm => ?_, .cons hn hc, hcall, hperf⟩
    obtain rfl | hm := List.mem_cons.1 hm
    · exact hne
    · exact hothers m hm

/-- The first part of the code runs to its answer, and then the rest. -/
theorem Performs.bind_inv {g : β → Prog Op Res α} {q : Prog Op Res β}
    (h : Performs S P t f (q >>= g) c L a c') :
    ∃ b c₁ L₁ L₂, L = L₁ ++ L₂ ∧ Performs S P t (fun b => g b >>= f) q c L₁ b c₁ ∧
      Performs S P t f (g b) c₁ L₂ a c' := by
  have hret : ∀ {p b c L a c'}, Prog.ret b >>= g = p → Performs S P t f p c L a c' →
      ∃ b' c₁ L₁ L₂, L = L₁ ++ L₂ ∧ Performs S P t (fun b => g b >>= f) (.ret b) c L₁ b' c₁ ∧
        Performs S P t f (g b') c₁ L₂ a c' := by
    rintro _ b c L a c' rfl h
    exact ⟨b, c, [], L, rfl, .ret h.started, h⟩
  generalize hp : q >>= g = p at h
  induction h generalizing q with
  | ret ht =>
    cases q with
    | ret b => exact hret hp (.ret ht)
    | call o k => exact nomatch hp
  | @own o κ c c' L a x ht hx hperf ih =>
    cases q with
    | ret b => exact hret hp (.own x ht hx hperf)
    | call o' k =>
      cases hp
      obtain ⟨b, c₁, L₁, L₂, rfl, hq, hg⟩ := ih rfl
      have hstart : ∀ q : Prog Op Res β, (q >>= g) >>= f = q >>= fun b => g b >>= f :=
        fun q => Prog.bind_assoc q g f
      refine ⟨b, c₁, _, L₂, rfl, .own x (ht.trans (congrArg some (hstart (.call o k)))) hx ?_, hg⟩
      rwa [← hstart (k (S.step t o x c.world).1)]
  | @other p c c₁ c' d L a hn hne hperf ih =>
    cases q with
    | ret b => exact hret hp (.other hn hne hperf)
    | call o k =>
      obtain ⟨b, c₂, L₁, L₂, rfl, hq, hg⟩ := ih hp
      exact ⟨b, c₂, _, L₂, rfl, .other hn hne hq, hg⟩

/-- The process runs its code while the others wait, as long as the policy
admits it. -/
def alone [h : P.Checkable] (S : System Tid Op Res Choice σ ε) (t : Tid) (ω : (o : Op) → Choice o)
    (f : α → Prog Op Res Unit) : Prog Op Res α → Config Tid Op Res σ →
      Option (α × Config Tid Op Res σ)
  | .ret a, c => some (a, c)
  | .call o k, c =>
    match h.step t o (ω o) c.world with
    | .isTrue _ => alone S t ω f (k (S.step t o (ω o) c.world).1)
        (c.put t (some (k (S.step t o (ω o) c.world).1 >>= f)) (S.step t o (ω o) c.world).2)
    | .isFalse _ => none

theorem Performs.of_alone [P.Checkable] {ω : (o : Op) → Choice o}
    (h : alone (P := P) S t ω f p c = some (a, c')) (ht : c.threads t = some (p >>= f)) :
    ∃ L, Performs S P t f p c L a c' := by
  induction p generalizing c with
  | ret b =>
    cases h
    exact ⟨[], .ret ht⟩
  | call o k ih =>
    simp only [alone] at h
    split at h
    · obtain ⟨L, hL⟩ := ih _ h (by simp [Config.put])
      exact ⟨_, .own (ω o) ht ‹_› hL⟩
    · cases h

/-- A process outside the system that only looks: its calls fall between the
steps of the run and change nothing. -/
inductive Watches (S : System Tid Op Res Choice σ ε) (P : Policy Tid Op Choice σ ε) (t : Tid) :
    Prog Op Res α → Config Tid Op Res σ → α → Config Tid Op Res σ → Prop
  | ret {a : α} {c : Config Tid Op Res σ} : Watches S P t (.ret a) c a c
  | call {o : Op} {k : Res o → Prog Op Res α} {c c₁ c' : Config Tid Op Res σ}
      {L : List (Moment Tid Op Choice σ ε)} {a : α} {r : Res o} (x : Choice o) :
      Course S P c L c₁ → S.step t o x c₁.world = (r, c₁.world) → Watches S P t (k r) c₁ a c' →
      Watches S P t (.call o k) c a c'

/-- The threads of a run make only calls that the programs may make. -/
theorem Reachable.only {ok : Op → Prop} (hp : ∀ p, S.program p → p.Only ok)
    (h : Reachable S P c) {t : Tid} {p : Prog Op Res Unit} (ht : c.threads t = some p) :
    p.Only ok := by
  induction h generalizing t p with
  | init _ => exact nomatch ht
  | @step c u o k x _ hu _ ih =>
    by_cases htu : t = u
    · subst htu
      have hk : k (S.step t o x c.world).1 = p := by simpa [Config.put] using ht
      rw [← hk]
      exact (ih hu).2 _
    · exact ih (by simpa [Config.put, htu] using ht)
  | @leave c u q _ hu _ ih =>
    by_cases htu : t = u
    · simp [Config.put, htu] at ht
    · exact ih (by simpa [Config.put, htu] using ht)
  | @spawn c u q _ hu hq ih =>
    by_cases htu : t = u
    · have hk : q = p := by simpa [Config.put, htu] using ht
      exact hk ▸ hp q hq
    · exact ih (by simpa [Config.put, htu] using ht)
  | env e _ _ ih => exact ih ht

section Meets

variable {C : Contract S P}

/-- The others keep to what the process relies on. -/
theorem Next.keeps_rely (hC : C.Sound) {d : Deed Tid Op Choice ε} (hr : Reachable S P c)
    (hn : Next S P c d c') (hne : d.actor ≠ some t) : C.rely t c.world c'.world := by
  have hi := hr.inv hC
  have hi' := (hr.next hn).inv hC
  cases hn with
  | @call u o k x hu hx =>
    have htu : t ≠ u := fun h => hne (congrArg some h.symm)
    exact hC.guar_rely t u o x _ _ htu hi hi' (hr.step_guar hC hu hx)
  | @leave u p hu hl =>
    have htu : t ≠ u := fun h => hne (congrArg some h.symm)
    refine hC.leave_rely t u _ htu hi (hl.imp_right fun hp => ?_)
    exact hr.ended hC (hp ▸ hu)
  | spawn _ _ => exact hC.rely_refl t _
  | env e he => exact hC.env_rely t e _ he hi

/-- Code that meets the contract ends as its triple says. -/
theorem Performs.meets (hC : C.Sound) {pre : σ → Prop} {post : α → σ → Prop}
    (hr : Reachable S P c) (htriple : Triple C t pre p post) (hpre : pre c.world)
    (h : Performs S P t f p c L a c') : post a c'.world := by
  have hw := htriple c.world (hr.inv hC) hpre
  clear htriple hpre
  induction h with
  | ret _ => exact hw _ (hC.rely_refl t _) (hr.inv hC)
  | own x ht hx _ ih => exact ih (hr.own ht hx) (hw _ (hC.rely_refl t _) (hr.inv hC) x hx).2.2
  | other hn hne _ ih =>
    exact ih (hr.next hn) (wp_rely hC.toClosed (hn.keeps_rely hC hr hne) hw)

end Meets

theorem Next.transfer {d : Deed Tid Op Choice ε} (hn : Next S P c d c')
    (hstep : ∀ t o k x, c.threads t = some (.call o k) → P.step t o x c.world →
      P'.step t o x c.world)
    (henv : ∀ e, P.env e c.world → P'.env e c.world)
    (hcrash : ∀ t, P.crash t c.world → P'.crash t c.world) : Next S P' c d c' := by
  cases hn with
  | call x ht hx => exact .call x ht (hstep _ _ _ _ ht hx)
  | leave ht hl => exact .leave ht (hl.imp_left (hcrash _))
  | spawn ht hp => exact .spawn ht hp
  | env e he => exact .env e (henv _ he)

end Courses

end Purgery.Interleaving
