import Purgery.Interleaving.Triple

namespace Purgery.Interleaving

variable {Op : Type} {Res : Op → Type} {α β ε : Type}

/-- A call and its answer. -/
abbrev Exchange (Op : Type) (Res : Op → Type) : Type := (o : Op) × Res o

namespace Prog

/-- The code makes the calls of the list with these answers, and ends with `a`. -/
def Runs : Prog Op Res α → List (Exchange Op Res) → α → Prop
  | ret b, L, a => L = [] ∧ a = b
  | call o k, L, a => ∃ r L', L = ⟨o, r⟩ :: L' ∧ (k r).Runs L' a

variable {p : Prog Op Res α} {f : α → Prog Op Res β} {L : List (Exchange Op Res)} {a : α} {b : β}

@[simp] theorem runs_ret {c : α} : (ret c : Prog Op Res α).Runs L a ↔ L = [] ∧ a = c := Iff.rfl

theorem runs_call {o : Op} {k : Res o → Prog Op Res α} :
    (call o k).Runs L a ↔ ∃ r L', L = ⟨o, r⟩ :: L' ∧ (k r).Runs L' a := Iff.rfl

theorem runs_bind : (p >>= f).Runs L b ↔
    ∃ a L₁ L₂, L = L₁ ++ L₂ ∧ p.Runs L₁ a ∧ (f a).Runs L₂ b := by
  induction p generalizing L with
  | ret c =>
    constructor
    · exact fun h => ⟨c, [], L, rfl, ⟨rfl, rfl⟩, h⟩
    · rintro ⟨a, L₁, L₂, rfl, ⟨rfl, rfl⟩, h⟩
      exact h
  | call o k ih =>
    constructor
    · rintro ⟨r, L', rfl, h⟩
      obtain ⟨a, L₁, L₂, rfl, hp, hf⟩ := (ih r).1 h
      exact ⟨a, ⟨o, r⟩ :: L₁, L₂, rfl, ⟨r, L₁, rfl, hp⟩, hf⟩
    · rintro ⟨a, L₁, L₂, rfl, ⟨r, L', rfl, hp⟩, hf⟩
      exact ⟨r, L' ++ L₂, rfl, (ih r).2 ⟨a, L', L₂, rfl, hp, hf⟩⟩

theorem runs_perform_bind {o : Op} {f : Res o → Prog Op Res β} :
    (perform o >>= f).Runs L b ↔ ∃ r L', L = ⟨o, r⟩ :: L' ∧ (f r).Runs L' b := Iff.rfl

theorem runs_perform {o : Op} {r : Res o} :
    (perform o : Prog Op Res (Res o)).Runs L r ↔ L = [⟨o, r⟩] := by
  constructor
  · rintro ⟨r', L', rfl, rfl, rfl⟩
    rfl
  · rintro rfl
    exact ⟨r, [], rfl, rfl, rfl⟩

/-- The calls that are made are those that the code may make. -/
theorem Runs.only {ok : Op → Prop} (hp : p.Only ok) (h : p.Runs L a) : ∀ e ∈ L, ok e.1 := by
  induction p generalizing L with
  | ret c =>
    obtain ⟨rfl, -⟩ := h
    exact nofun
  | call o k ih =>
    obtain ⟨r, L', rfl, hk⟩ := h
    exact List.forall_mem_cons.2 ⟨hp.1, ih r (hp.2 r) hk⟩

/-- The code gets to its end, whatever the answers are. -/
theorem exists_runs (p : Prog Op Res α) (answer : (o : Op) → Res o) :
    ∃ L a, p.Runs L a ∧ ∀ e ∈ L, e.2 = answer e.1 := by
  induction p with
  | ret c => exact ⟨[], c, ⟨rfl, rfl⟩, List.forall_mem_nil _⟩
  | call o k ih =>
    obtain ⟨L, a, hruns, hL⟩ := ih (answer o)
    exact ⟨⟨o, answer o⟩ :: L, a, ⟨_, L, rfl, hruns⟩, List.forall_mem_cons.2 ⟨rfl, hL⟩⟩

section Fallible

variable {x : ExceptT ε (Prog Op Res) α} {g : α → ExceptT ε (Prog Op Res) β} {r : Except ε β}

theorem runs_runBind : (x >>= g).run.Runs L r ↔
    (∃ e, r = .error e ∧ x.run.Runs L (.error e)) ∨
      ∃ a L₁ L₂, L = L₁ ++ L₂ ∧ x.run.Runs L₁ (.ok a) ∧ (g a).run.Runs L₂ r := by
  rw [run_bind, runs_bind]
  constructor
  · rintro ⟨s, L₁, L₂, rfl, hx, hg⟩
    cases s with
    | ok a => exact .inr ⟨a, L₁, L₂, rfl, hx, hg⟩
    | error e =>
      obtain ⟨rfl, rfl⟩ := hg
      rw [List.append_nil]
      exact .inl ⟨e, rfl, hx⟩
  · rintro (⟨e, rfl, hx⟩ | ⟨a, L₁, L₂, rfl, hx, hg⟩)
    · exact ⟨.error e, L, [], (List.append_nil L).symm, hx, rfl, rfl⟩
    · exact ⟨.ok a, L₁, L₂, rfl, hx, hg⟩

theorem runs_liftBind {p : Prog Op Res α} : (ExceptT.lift p >>= g).run.Runs L r ↔
    ∃ a L₁ L₂, L = L₁ ++ L₂ ∧ p.Runs L₁ a ∧ (g a).run.Runs L₂ r := by
  have hassoc : (ExceptT.lift p >>= g).run = (p >>= fun a => (g a).run) := bind_assoc _ _ _
  rw [hassoc, runs_bind]

end Fallible

section Replay

variable [DecidableEq Op]

/-- The answer of the code if its calls are those of the list. -/
def replay : Prog Op Res α → List (Exchange Op Res) → Option α
  | ret a, [] => some a
  | ret _, _ :: _ => none
  | call _ _, [] => none
  | call o k, e :: L => if h : e.1 = o then (k (h ▸ e.2)).replay L else none

theorem runs_of_replay (h : p.replay L = some a) : p.Runs L a := by
  induction p generalizing L with
  | ret b =>
    cases L with
    | nil => exact ⟨rfl, (Option.some.inj h).symm⟩
    | cons e L => exact nomatch h
  | call o k ih =>
    cases L with
    | nil => exact nomatch h
    | cons e L =>
      obtain ⟨o', r⟩ := e
      unfold replay at h
      split at h
      · rename_i ho
        subst ho
        exact ⟨r, L, rfl, ih r h⟩
      · exact nomatch h

end Replay

end Prog

section Everywhere

variable {E : Type} {φ ψ : List E → E → List E → Prop} {A L L' : List E} {e : E}

/-- `φ` holds at every place of `L`, of what comes before it (`A` first), the
element there and what comes after. -/
def Everywhere (φ : List E → E → List E → Prop) (A L : List E) : Prop :=
  ∀ A' e B, L = A' ++ e :: B → φ (A ++ A') e B

@[simp] theorem everywhere_nil : Everywhere φ A [] := by
  intro A' e B h
  exact absurd h.symm (by simp)

theorem everywhere_cons : Everywhere φ A (e :: L) ↔ φ A e L ∧ Everywhere φ (A ++ [e]) L := by
  constructor
  · intro h
    refine ⟨?_, fun A' e' B hL => ?_⟩
    · have hhead := h [] e L rfl
      rwa [List.append_nil] at hhead
    · have htail := h (e :: A') e' B (by rw [hL]; rfl)
      rwa [List.append_assoc]
  · rintro ⟨hhead, htail⟩ A' e' B hL
    cases A' with
    | nil =>
      obtain ⟨rfl, rfl⟩ := List.cons.inj hL
      rwa [List.append_nil]
    | cons c A' =>
      obtain ⟨rfl, rfl⟩ := List.cons.inj hL
      have hplace := htail A' e' B rfl
      rwa [List.append_assoc] at hplace

theorem everywhere_append : Everywhere φ A (L ++ L') ↔
    Everywhere (fun A' e B => φ A' e (B ++ L')) A L ∧ Everywhere φ (A ++ L) L' := by
  induction L generalizing A with
  | nil => simp
  | cons e L ih =>
    rw [List.cons_append, everywhere_cons, ih, everywhere_cons, List.append_assoc, and_assoc]
    rfl

/-- Places where `φ` holds anyway. -/
theorem everywhere_skip (h : ∀ e ∈ L, ∀ A B, φ A e B) :
    Everywhere φ A (L ++ L') ↔ Everywhere φ (A ++ L) L' := by
  induction L generalizing A with
  | nil => rw [List.nil_append, List.append_nil]
  | cons e L ih =>
    obtain ⟨he, hL⟩ := List.forall_mem_cons.1 h
    rw [List.cons_append, everywhere_cons, ih hL, List.append_assoc]
    exact and_iff_right (he A _)

theorem Everywhere.mono (h : Everywhere φ A L) (hφ : ∀ A e B, φ A e B → ψ A e B) :
    Everywhere ψ A L :=
  fun A' e B hL => hφ _ _ _ (h A' e B hL)

end Everywhere

section Safe

variable {tame : Exchange Op Res → Prop} {sound : List (Exchange Op Res) → Exchange Op Res → Prop}
variable {P P' : List (Exchange Op Res) → Prop} {p : Prog Op Res α}

/-- After a history with `P`, as long as the answers are `tame`, the code makes
only `sound` calls and ends with `Q`. -/
def Prog.Safe (tame : Exchange Op Res → Prop) (sound : List (Exchange Op Res) → Exchange Op Res → Prop)
    (P : List (Exchange Op Res) → Prop) (p : Prog Op Res α) (Q : α → List (Exchange Op Res) → Prop) :
    Prop :=
  ∀ A L a, p.Runs L a → (∀ e ∈ L, tame e) → P A →
    Everywhere (fun A e _ => sound A e) A L ∧ Q a (A ++ L)

namespace Prog.Safe

variable {Q Q' : α → List (Exchange Op Res) → Prop} {R : β → List (Exchange Op Res) → Prop}

theorem ret {a : α} (h : ∀ A, P A → Q a A) : Safe tame sound P (.ret a) Q := by
  rintro A L b ⟨rfl, rfl⟩ - hA
  rw [List.append_nil]
  exact ⟨everywhere_nil, h A hA⟩

theorem bind {f : α → Prog Op Res β} (hp : Safe tame sound P p Q)
    (hf : ∀ a, Safe tame sound (Q a) (f a) R) : Safe tame sound P (p >>= f) R := by
  intro A L b h htame hA
  obtain ⟨a, L₁, L₂, rfl, hL₁, hL₂⟩ := runs_bind.1 h
  obtain ⟨htame₁, htame₂⟩ := List.forall_mem_append.1 htame
  obtain ⟨hsound₁, ha⟩ := hp A L₁ a hL₁ htame₁ hA
  obtain ⟨hsound₂, hb⟩ := hf a (A ++ L₁) L₂ b hL₂ htame₂ ha
  rw [← List.append_assoc]
  exact ⟨everywhere_append.2 ⟨hsound₁, hsound₂⟩, hb⟩

theorem call {o : Op} {k : Res o → Prog Op Res α}
    (h : ∀ A r, P A → tame ⟨o, r⟩ → sound A ⟨o, r⟩)
    (hk : ∀ r, Safe tame sound (fun A => ∃ A', A = A' ++ [⟨o, r⟩] ∧ P A' ∧ tame ⟨o, r⟩) (k r) Q) :
    Safe tame sound P (.call o k) Q := by
  rintro A L a ⟨r, L', rfl, hL'⟩ htame hA
  obtain ⟨hr, htame'⟩ := List.forall_mem_cons.1 htame
  obtain ⟨hsound, ha⟩ := hk r (A ++ [⟨o, r⟩]) L' a hL' htame' ⟨A, rfl, hA, hr⟩
  rw [List.append_assoc] at ha
  exact ⟨everywhere_cons.2 ⟨h A r hA hr, hsound⟩, ha⟩

theorem perform {o : Op} {Q : Res o → List (Exchange Op Res) → Prop}
    (h : ∀ A r, P A → tame ⟨o, r⟩ → sound A ⟨o, r⟩ ∧ Q r (A ++ [⟨o, r⟩])) :
    Safe tame sound P (Prog.perform o) Q := by
  refine call (fun A r hA hr => (h A r hA hr).1) fun r => ret ?_
  rintro _ ⟨A, rfl, hA, hr⟩
  exact (h A r hA hr).2

theorem conseq (h : Safe tame sound P p Q) (hP : ∀ A, P' A → P A) (hQ : ∀ a A, Q a A → Q' a A) :
    Safe tame sound P' p Q' := by
  intro A L a hL htame hA
  obtain ⟨hsound, ha⟩ := h A L a hL htame (hP A hA)
  exact ⟨hsound, hQ a _ ha⟩

theorem weaken (h : Safe tame sound P p Q) (hQ : ∀ a A, Q a A → Q' a A) :
    Safe tame sound P p Q' :=
  h.conseq (fun _ hA => hA) hQ

theorem pure_pre {φ : Prop} (h : φ → Safe tame sound P p Q) :
    Safe tame sound (fun A => φ ∧ P A) p Q :=
  fun A L a hL htame hA => h hA.1 A L a hL htame hA.2

theorem frame {J : List (Exchange Op Res) → Prop} (hJ : ∀ A L, J A → J (A ++ L))
    (h : Safe tame sound P p Q) :
    Safe tame sound (fun A => P A ∧ J A) p fun a A => Q a A ∧ J A := by
  intro A L a hL htame hA
  obtain ⟨hsound, ha⟩ := h A L a hL htame hA.1
  exact ⟨hsound, ha, hJ A L hA.2⟩

section Fallible

variable {x : ExceptT ε (Prog Op Res) α} {g : α → ExceptT ε (Prog Op Res) β}
variable {M : α → List (Exchange Op Res) → Prop} {Z : Except ε β → List (Exchange Op Res) → Prop}

theorem runBind (hx : Safe tame sound P x.run fun r A => match r with
      | .ok a => M a A
      | .error e => Z (.error e) A)
    (hg : ∀ a, Safe tame sound (M a) (g a).run Z) : Safe tame sound P (x >>= g).run Z := by
  refine bind hx fun r => ?_
  cases r with
  | ok a => exact hg a
  | error e => exact ret fun A hA => hA

theorem liftBind (hp : Safe tame sound P p M) (hg : ∀ a, Safe tame sound (M a) (g a).run Z) :
    Safe tame sound P (ExceptT.lift p >>= g).run Z := by
  have hassoc : (ExceptT.lift p >>= g).run = (p >>= fun a => (g a).run) := bind_assoc _ _ _
  rw [hassoc]
  exact bind hp hg

end Fallible

end Prog.Safe

end Safe

end Purgery.Interleaving
