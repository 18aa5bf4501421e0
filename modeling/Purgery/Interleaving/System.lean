import Purgery.Interleaving.Prog

namespace Purgery.Interleaving

/-- Processes named by `Tid` over a shared state `σ`. What an operation does
is a function of the state and of a choice: the outcome the environment gives
it (a fault, a clock reading, a reply). -/
structure System (Tid Op : Type) (Res Choice : Op → Type) (σ ε : Type) where
  step : Tid → (o : Op) → Choice o → σ → Res o × σ
  leave : Tid → σ → σ
  env : ε → σ → σ
  program : Prog Op Res Unit → Prop
  init : σ → Prop

/-- The steps that a class of runs admits. -/
structure Policy (Tid Op : Type) (Choice : Op → Type) (σ ε : Type) where
  step : Tid → (o : Op) → Choice o → σ → Prop
  env : ε → σ → Prop
  crash : Tid → σ → Prop

structure Config (Tid Op : Type) (Res : Op → Type) (σ : Type) where
  world : σ
  threads : Tid → Option (Prog Op Res Unit)

section Runs

variable {Tid Op : Type} {Res Choice : Op → Type} {σ ε : Type}

def Policy.any : Policy Tid Op Choice σ ε := ⟨fun _ _ _ _ => True, fun _ _ => True, fun _ _ => True⟩

def Policy.le (P P' : Policy Tid Op Choice σ ε) : Prop :=
  (∀ t o x s, P.step t o x s → P'.step t o x s) ∧ (∀ e s, P.env e s → P'.env e s) ∧
    (∀ t s, P.crash t s → P'.crash t s)

theorem Policy.le_any (P : Policy Tid Op Choice σ ε) : P.le .any :=
  ⟨fun _ _ _ _ _ => trivial, fun _ _ _ => trivial, fun _ _ _ => trivial⟩

variable [DecidableEq Tid]

def Config.put (c : Config Tid Op Res σ) (t : Tid) (p : Option (Prog Op Res Unit)) (s : σ) :
    Config Tid Op Res σ := ⟨s, Function.update c.threads t p⟩

/-- The configurations that the admitted runs reach: any process may take its
next operation, end, crash if the policy lets it, or be started. -/
inductive Reachable (S : System Tid Op Res Choice σ ε) (P : Policy Tid Op Choice σ ε) :
    Config Tid Op Res σ → Prop
  | init {s : σ} : S.init s → Reachable S P ⟨s, fun _ => none⟩
  | step {c : Config Tid Op Res σ} {t : Tid} {o : Op} {k : Res o → Prog Op Res Unit}
      (x : Choice o) : Reachable S P c → c.threads t = some (.call o k) →
      P.step t o x c.world →
      Reachable S P (c.put t (some (k (S.step t o x c.world).1)) (S.step t o x c.world).2)
  | leave {c : Config Tid Op Res σ} {t : Tid} {p : Prog Op Res Unit} : Reachable S P c →
      c.threads t = some p → (P.crash t c.world ∨ p = .ret ()) →
      Reachable S P (c.put t none (S.leave t c.world))
  | spawn {c : Config Tid Op Res σ} {t : Tid} {p : Prog Op Res Unit} : Reachable S P c →
      c.threads t = none → S.program p → Reachable S P (c.put t (some p) c.world)
  | env {c : Config Tid Op Res σ} (e : ε) : Reachable S P c → P.env e c.world →
      Reachable S P ⟨S.env e c.world, c.threads⟩

theorem Reachable.mono {S : System Tid Op Res Choice σ ε} {P P' : Policy Tid Op Choice σ ε}
    (hle : P.le P') {c : Config Tid Op Res σ} (h : Reachable S P c) : Reachable S P' c := by
  induction h with
  | init hs => exact .init hs
  | step x _ ht hx ih => exact .step x ih ht (hle.1 _ _ _ _ hx)
  | leave _ ht hl ih => exact .leave ih ht (hl.imp_left (hle.2.2 _ _))
  | spawn _ ht hp ih => exact .spawn ih ht hp
  | env e _ he ih => exact .env e ih (hle.2.1 _ _ he)

/-- A policy whose steps, in the runs that it admits, another admits. -/
theorem Reachable.transfer {S : System Tid Op Res Choice σ ε} {P P' : Policy Tid Op Choice σ ε}
    (hstep : ∀ c t o k x, Reachable S P c → c.threads t = some (.call o k) →
      P.step t o x c.world → P'.step t o x c.world)
    (henv : ∀ c e, Reachable S P c → P.env e c.world → P'.env e c.world)
    (hcrash : ∀ c t, Reachable S P c → P.crash t c.world → P'.crash t c.world)
    {c : Config Tid Op Res σ} (h : Reachable S P c) : Reachable S P' c := by
  induction h with
  | init hs => exact .init hs
  | step x h' ht hx ih => exact .step x ih ht (hstep _ _ _ _ _ h' ht hx)
  | leave h' ht hl ih => exact .leave ih ht (hl.imp_left (hcrash _ _ h'))
  | spawn _ ht hp ih => exact .spawn ih ht hp
  | env e h' he ih => exact .env e ih (henv _ _ h' he)

/-- A property of the shared state that every admitted step keeps. -/
theorem Reachable.invariant {S : System Tid Op Res Choice σ ε} {P : Policy Tid Op Choice σ ε}
    (I : σ → Prop) (hinit : ∀ s, S.init s → I s)
    (hstep : ∀ t o x s, P.step t o x s → I s → I (S.step t o x s).2)
    (hleave : ∀ t s, I s → I (S.leave t s)) (henv : ∀ e s, P.env e s → I s → I (S.env e s))
    {c : Config Tid Op Res σ} (h : Reachable S P c) : I c.world := by
  induction h with
  | init hs => exact hinit _ hs
  | step x _ _ hx ih => exact hstep _ _ x _ hx ih
  | leave _ _ _ ih => exact hleave _ _ ih
  | spawn _ _ _ ih => exact ih
  | env e _ he ih => exact henv e _ he ih

/-- Every process of a reachable configuration can be run to its end when the
policy admits some outcome of every operation. -/
theorem Reachable.completes {S : System Tid Op Res Choice σ ε} {P : Policy Tid Op Choice σ ε}
    (hany : ∀ t o s, ∃ x, P.step t o x s) (t : Tid) (p : Prog Op Res Unit)
    {c : Config Tid Op Res σ} (h : Reachable S P c) (ht : c.threads t = some p) :
    ∃ c', Reachable S P c' ∧ c'.threads t = some (.ret ()) ∧
      ∀ u, u ≠ t → c'.threads u = c.threads u := by
  induction p generalizing c with
  | ret a => exact ⟨c, h, ht, fun _ _ => rfl⟩
  | call o k ih =>
    obtain ⟨x, hx⟩ := hany t o c.world
    have hn := Reachable.step x h ht hx
    have hput : (c.put t (some (k (S.step t o x c.world).1)) (S.step t o x c.world).2).threads t =
        some (k (S.step t o x c.world).1) := by simp [Config.put]
    obtain ⟨c', hc', hr, hu⟩ := ih _ hn hput
    refine ⟨c', hc', hr, fun u hne => (hu u hne).trans ?_⟩
    simp [Config.put, hne]

/-- A policy whose conditions can be evaluated. -/
class Policy.Checkable (P : Policy Tid Op Choice σ ε) where
  step : ∀ t o x s, Decidable (P.step t o x s)
  env : ∀ e s, Decidable (P.env e s)
  crash : ∀ t s, Decidable (P.crash t s)

instance : Policy.Checkable (Policy.any : Policy Tid Op Choice σ ε) where
  step _ _ _ _ := .isTrue trivial
  env _ _ := .isTrue trivial
  crash _ _ := .isTrue trivial

/-- An entry of a schedule: which process moves next, and with which outcome. -/
inductive Event (S : System Tid Op Res Choice σ ε) where
  | step (t : Tid) (ω : (o : Op) → Choice o)
  | leave (t : Tid)
  | spawn (t : Tid) (p : { p : Prog Op Res Unit // S.program p })
  | env (e : ε)

variable {S : System Tid Op Res Choice σ ε} (P : Policy Tid Op Choice σ ε)

def playEvent [h : P.Checkable] (c : Config Tid Op Res σ) :
    Event S → Option (Config Tid Op Res σ)
  | .step t ω =>
    match c.threads t with
    | some (.call o k) =>
      match h.step t o (ω o) c.world with
      | .isTrue _ =>
        some (c.put t (some (k (S.step t o (ω o) c.world).1)) (S.step t o (ω o) c.world).2)
      | .isFalse _ => none
    | _ => none
  | .leave t =>
    match c.threads t, h.crash t c.world with
    | some _, .isTrue _ => some (c.put t none (S.leave t c.world))
    | _, _ => none
  | .spawn t p =>
    match c.threads t with
    | none => some (c.put t (some p.1) c.world)
    | some _ => none
  | .env e =>
    match h.env e c.world with
    | .isTrue _ => some ⟨S.env e c.world, c.threads⟩
    | .isFalse _ => none

/-- The run of a schedule, as long as the policy admits it. -/
def play [P.Checkable] : List (Event S) → Config Tid Op Res σ → Option (Config Tid Op Res σ)
  | [], c => some c
  | e :: es, c => (playEvent P c e).bind (play es)

variable {P}

theorem playEvent_reachable [P.Checkable] {c c' : Config Tid Op Res σ} (e : Event S)
    (h : Reachable S P c) (hp : playEvent P c e = some c') : Reachable S P c' := by
  cases e with
  | step t ω =>
    simp only [playEvent] at hp
    split at hp
    · rename_i o k ht
      split at hp
      · cases hp
        exact .step (ω o) h ht ‹_›
      · exact nomatch hp
    · exact nomatch hp
  | leave t =>
    simp only [playEvent] at hp
    split at hp
    · rename_i hcrash ht _
      cases hp
      exact .leave h ht (.inl hcrash)
    · exact nomatch hp
  | spawn t p =>
    simp only [playEvent] at hp
    split at hp
    · cases hp
      exact .spawn h ‹_› p.2
    · exact nomatch hp
  | env e =>
    simp only [playEvent] at hp
    split at hp
    · cases hp
      exact .env e h ‹_›
    · exact nomatch hp

theorem play_reachable [P.Checkable] (es : List (Event S)) {c c' : Config Tid Op Res σ}
    (h : Reachable S P c) (hp : play P es c = some c') : Reachable S P c' := by
  induction es generalizing c with
  | nil =>
    cases hp
    exact h
  | cons e es ih =>
    obtain ⟨c₁, he, hp⟩ := Option.bind_eq_some_iff.1 hp
    exact ih (playEvent_reachable e h he) hp

/-- What a schedule shows of a run is shown by a reachable configuration. -/
theorem exists_reachable [P.Checkable] (es : List (Event S)) {s : σ} (hs : S.init s)
    (test : Config Tid Op Res σ → Bool)
    (h : (play P es ⟨s, fun _ => none⟩).any test = true) :
    ∃ c, Reachable S P c ∧ test c = true := by
  obtain ⟨c, hc, ht⟩ := (Option.any_eq_true _ _).1 h
  exact ⟨c, play_reachable es (.init hs) hc, ht⟩

end Runs

end Purgery.Interleaving
