import Purgery.Interleaving.Prog

namespace Purgery.Interleaving.Prog

variable {Op σ : Type} {Res : Op → Type} {α β : Type}

/-- The code as it goes when nobody else takes a step. -/
def solo (step : (o : Op) → σ → Res o × σ) : Prog Op Res α → σ → α × σ
  | ret a, s => (a, s)
  | call o k, s => (k (step o s).1).solo step (step o s).2

variable {step : (o : Op) → σ → Res o × σ}

@[simp] theorem solo_ret (a : α) (s : σ) : (ret a : Prog Op Res α).solo step s = (a, s) := rfl

@[simp] theorem solo_call (o : Op) (k : Res o → Prog Op Res α) (s : σ) :
    (call o k).solo step s = (k (step o s).1).solo step (step o s).2 := rfl

@[simp] theorem solo_perform (o : Op) (s : σ) :
    (perform o : Prog Op Res (Res o)).solo step s = step o s := rfl

@[simp] theorem solo_bind (p : Prog Op Res α) (f : α → Prog Op Res β) (s : σ) :
    (p >>= f).solo step s = (f (p.solo step s).1).solo step (p.solo step s).2 := by
  induction p generalizing s with
  | ret a => rfl
  | call o k ih => exact ih _ _

section Fallible

variable {ε : Type}

theorem solo_ok_bind {x : ExceptT ε (Prog Op Res) α} {f : α → ExceptT ε (Prog Op Res) β} {s s' : σ}
    {a : α} (h : x.run.solo step s = (.ok a, s')) :
    (x >>= f).run.solo step s = (f a).run.solo step s' := by
  rw [run_bind, solo_bind, h]

theorem solo_error_bind {x : ExceptT ε (Prog Op Res) α} {f : α → ExceptT ε (Prog Op Res) β}
    {s s' : σ} {e : ε} (h : x.run.solo step s = (.error e, s')) :
    (x >>= f).run.solo step s = (.error e, s') := by
  rw [run_bind, solo_bind, h]
  rfl

/-- A result is the result of what comes last. -/
theorem solo_bind_ok {x : ExceptT ε (Prog Op Res) α} {f : α → ExceptT ε (Prog Op Res) β} {b : β}
    (h : ((x >>= f).run.solo step s).1 = .ok b) :
    ∃ a s', x.run.solo step s = (.ok a, s') ∧ ((f a).run.solo step s').1 = .ok b := by
  cases hx : x.run.solo step s with
  | mk r s' =>
    cases r with
    | error e =>
      rw [solo_error_bind hx] at h
      exact nomatch h
    | ok a =>
      rw [solo_ok_bind hx] at h
      exact ⟨a, s', rfl, h⟩

end Fallible

end Purgery.Interleaving.Prog
