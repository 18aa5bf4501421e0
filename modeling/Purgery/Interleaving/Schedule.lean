import Purgery.Interleaving.Course

namespace Purgery.Interleaving

section Along

variable {M : Type} {p : List M → M → Prop} {H L : List M} {m : M}

/-- Some step of `L` satisfies `p`, given the steps before it. -/
def Sometime (p : List M → M → Prop) (H L : List M) : Prop :=
  ∃ L₁ m L₂, L = L₁ ++ m :: L₂ ∧ p (H ++ L₁) m

/-- Every step of `L` satisfies `p`, given the steps before it. -/
def Always (p : List M → M → Prop) (H L : List M) : Prop :=
  ∀ L₁ m L₂, L = L₁ ++ m :: L₂ → p (H ++ L₁) m

theorem sometime_nil : ¬ Sometime p H [] := by
  rintro ⟨L₁, m, L₂, hL, -⟩
  exact absurd hL (by simp)

theorem sometime_cons : Sometime p H (m :: L) ↔ p H m ∨ Sometime p (H ++ [m]) L := by
  constructor
  · rintro ⟨L₁, m', L₂, hL, hp⟩
    cases L₁ with
    | nil =>
      obtain ⟨rfl, rfl⟩ := List.cons.inj hL
      exact .inl (by simpa using hp)
    | cons m'' L₁ =>
      obtain ⟨rfl, rfl⟩ := List.cons.inj hL
      exact .inr ⟨L₁, m', L₂, rfl, by simpa using hp⟩
  · rintro (hp | ⟨L₁, m', L₂, rfl, hp⟩)
    · exact ⟨[], m, L, rfl, by simpa using hp⟩
    · exact ⟨m :: L₁, m', L₂, rfl, by simpa using hp⟩

theorem always_iff : Always p H L ↔ ¬ Sometime (fun H m => ¬ p H m) H L := by
  constructor
  · rintro h ⟨L₁, m, L₂, hL, hp⟩
    exact hp (h L₁ m L₂ hL)
  · intro h L₁ m L₂ hL
    by_contra hp
    exact h ⟨L₁, m, L₂, hL, hp⟩

def decideSometime (p : List M → M → Prop) [∀ H m, Decidable (p H m)] :
    (L H : List M) → Decidable (Sometime p H L)
  | [], _ => .isFalse sometime_nil
  | m :: L, H =>
    haveI := decideSometime p L (H ++ [m])
    decidable_of_iff (p H m ∨ Sometime p (H ++ [m]) L) sometime_cons.symm

instance [∀ H m, Decidable (p H m)] : Decidable (Sometime p H L) := decideSometime p L H

instance [∀ H m, Decidable (p H m)] : Decidable (Always p H L) :=
  decidable_of_iff _ always_iff.symm

end Along

section Schedules

variable {Tid Op : Type} {Res Choice : Op → Type} {σ ε α : Type} [DecidableEq Tid]
variable {S : System Tid Op Res Choice σ ε} {P : Policy Tid Op Choice σ ε}

/-- The step that an entry of a schedule stands for. -/
def Event.deed (c : Config Tid Op Res σ) : Event S → Option (Deed Tid Op Choice ε)
  | .step t ω =>
    match c.threads t with
    | some (.call o _) => some (.call t o (ω o))
    | _ => none
  | .leave t => some (.leave t)
  | .spawn t _ => some (.spawn t)
  | .env e => some (.env e)

theorem playEvent_next [P.Checkable] {c c' : Config Tid Op Res σ} {e : Event S}
    {d : Deed Tid Op Choice ε} (hd : e.deed c = some d) (hp : playEvent P c e = some c') :
    Next S P c d c' := by
  cases e with
  | step t ω =>
    simp only [playEvent] at hp
    split at hp
    · rename_i o k ht
      simp only [Event.deed, ht] at hd
      cases hd
      split at hp
      · cases hp
        exact .call (ω o) ht ‹_›
      · cases hp
    · cases hp
  | leave t =>
    cases hd
    simp only [playEvent] at hp
    split at hp
    · rename_i hcrash ht _
      cases hp
      exact .leave ht (.inl hcrash)
    · cases hp
  | spawn t p =>
    cases hd
    simp only [playEvent] at hp
    split at hp
    · cases hp
      exact .spawn ‹_› p.2
    · cases hp
  | env e =>
    cases hd
    simp only [playEvent] at hp
    split at hp
    · cases hp
      exact .env e ‹_›
    · cases hp

variable (P)

/-- The run of a schedule with the record of its steps. -/
def record [P.Checkable] : List (Event S) → Config Tid Op Res σ →
    Option (List (Moment Tid Op Choice σ ε) × Config Tid Op Res σ)
  | [], c => some ([], c)
  | e :: es, c =>
    match e.deed c, playEvent P c e with
    | some d, some c₁ => (record es c₁).map fun r => ((c.world, d) :: r.1, r.2)
    | _, _ => none

def Event.own (t : Tid) : Event S → Option ((o : Op) → Choice o)
  | .step u ω => if u = t then some ω else none
  | _ => none

/-- Process `t` runs its code by a schedule, up to the end of the code. -/
def follow [h : P.Checkable] (t : Tid) (f : α → Prog Op Res Unit) : List (Event S) →
    Prog Op Res α → Config Tid Op Res σ →
      Option (List (Moment Tid Op Choice σ ε) × α × Config Tid Op Res σ)
  | _, .ret a, c => some ([], a, c)
  | [], .call _ _, _ => none
  | e :: es, .call o k, c =>
    match e.own t with
    | some ω =>
      match h.step t o (ω o) c.world with
      | .isTrue _ =>
        (follow t f es (k (S.step t o (ω o) c.world).1)
          (c.put t (some (k (S.step t o (ω o) c.world).1 >>= f)) (S.step t o (ω o) c.world).2)).map
          fun r => ((c.world, .call t o (ω o)) :: r.1, r.2)
      | .isFalse _ => none
    | none =>
      match e.deed c, playEvent P c e with
      | some d, some c₁ =>
        if d.actor = some t then none
        else (follow t f es (.call o k) c₁).map fun r => ((c.world, d) :: r.1, r.2)
      | _, _ => none

variable {P}

theorem Course.of_record [P.Checkable] {es : List (Event S)} {c c' : Config Tid Op Res σ}
    {L : List (Moment Tid Op Choice σ ε)} (h : record P es c = some (L, c')) :
    Course S P c L c' := by
  induction es generalizing c L with
  | nil =>
    cases h
    exact .refl _
  | cons e es ih =>
    simp only [record] at h
    split at h
    · rename_i d c₁ hd hp
      obtain ⟨⟨L₁, c₂⟩, hr, heq⟩ := Option.map_eq_some_iff.1 h
      cases heq
      exact .cons (playEvent_next hd hp) (ih hr)
    · exact nomatch h

theorem Performs.of_follow [P.Checkable] {t : Tid} {f : α → Prog Op Res Unit} {es : List (Event S)}
    {p : Prog Op Res α} {c c' : Config Tid Op Res σ} {L : List (Moment Tid Op Choice σ ε)} {a : α}
    (h : follow P t f es p c = some (L, a, c')) (ht : c.threads t = some (p >>= f)) :
    Performs S P t f p c L a c' := by
  induction es generalizing p c L with
  | nil =>
    cases p with
    | ret b =>
      cases h
      exact .ret ht
    | call o k => cases h
  | cons e es ih =>
    cases p with
    | ret b =>
      cases h
      exact .ret ht
    | call o k =>
      simp only [follow] at h
      split at h
      · split at h
        · obtain ⟨⟨L₁, a₁, c₂⟩, hr, heq⟩ := Option.map_eq_some_iff.1 h
          cases heq
          exact .own _ ht ‹_› (ih hr (by simp [Config.put]))
        · cases h
      · split at h
        · rename_i d c₁ hd hp
          split at h
          · cases h
          · obtain ⟨⟨L₁, a₁, c₂⟩, hr, heq⟩ := Option.map_eq_some_iff.1 h
            cases heq
            have hn := playEvent_next hd hp
            exact .other hn ‹_› (ih hr ((hn.threads_other ‹_›).trans ht))
        · cases h

end Schedules

end Purgery.Interleaving
