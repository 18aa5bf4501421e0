import Mathlib.Logic.Function.Basic

namespace Purgery.Interleaving

/-- The code of a process: every interaction with the shared state is one
operation `o`, answered with a value of type `Res o`. -/
inductive Prog (Op : Type) (Res : Op → Type) (α : Type) : Type where
  | ret (a : α)
  | call (o : Op) (k : Res o → Prog Op Res α)

namespace Prog

variable {Op : Type} {Res : Op → Type} {α β : Type}

def bind : Prog Op Res α → (α → Prog Op Res β) → Prog Op Res β
  | ret a, f => f a
  | call o k, f => call o (fun r => (k r).bind f)

instance : Monad (Prog Op Res) where
  pure := ret
  bind := bind

def perform (o : Op) : Prog Op Res (Res o) := call o ret

@[simp] theorem pure_eq_ret (a : α) : (pure a : Prog Op Res α) = ret a := rfl

@[simp] theorem ret_bind (a : α) (f : α → Prog Op Res β) : (ret a >>= f) = f a := rfl

@[simp] theorem call_bind (o : Op) (k : Res o → Prog Op Res α) (f : α → Prog Op Res β) :
    (call o k >>= f) = call o (fun r => k r >>= f) := rfl

@[simp] theorem perform_bind (o : Op) (f : Res o → Prog Op Res β) :
    (perform o >>= f) = call o f := rfl

theorem bind_eq (p : Prog Op Res α) (f : α → Prog Op Res β) : p.bind f = (p >>= f) := rfl

theorem bind_assoc {γ : Type} (p : Prog Op Res α) (f : α → Prog Op Res β)
    (h : β → Prog Op Res γ) : ((p >>= f) >>= h) = (p >>= fun a => f a >>= h) := by
  induction p with
  | ret a => rfl
  | call o k ih =>
    simp only [call_bind]
    exact congrArg _ (funext fun r => ih r)

instance : LawfulMonad (Prog Op Res) :=
  LawfulMonad.mk' (Prog Op Res)
    (fun p => by
      induction p with
      | ret a => rfl
      | call o k ih => exact congrArg _ (funext fun r => ih r))
    (fun _ _ => rfl) bind_assoc

theorem run_bind {ε : Type} {x : ExceptT ε (Prog Op Res) α} {f : α → ExceptT ε (Prog Op Res) β} :
    (x >>= f).run = x.run >>= fun r => match r with
      | .ok a => (f a).run
      | .error e => ret (.error e) := by
  refine congrArg (x.run >>= ·) (funext fun r => ?_)
  cases r <;> rfl

/-- Run the body once for every element, left to right. -/
def forEach {γ : Type} : List γ → (γ → Prog Op Res Unit) → Prog Op Res Unit
  | [], _ => ret ()
  | x :: xs, f => f x >>= fun _ => forEach xs f

end Prog

/-- A way to perform the operations of one signature by those of another. -/
structure Embedding (Op₁ : Type) (Res₁ Choice₁ : Op₁ → Type)
    (Op₂ : Type) (Res₂ Choice₂ : Op₂ → Type) where
  op : Op₁ → Op₂
  res : ∀ o, Res₂ (op o) → Res₁ o
  choice : ∀ o, Choice₂ (op o) → Choice₁ o

namespace Embedding

variable {Op₁ : Type} {Res₁ Choice₁ : Op₁ → Type}
variable {Op₂ : Type} {Res₂ Choice₂ : Op₂ → Type} {α β : Type}

def embed (e : Embedding Op₁ Res₁ Choice₁ Op₂ Res₂ Choice₂) :
    Prog Op₁ Res₁ α → Prog Op₂ Res₂ α
  | .ret a => .ret a
  | .call o k => .call (e.op o) (fun r => e.embed (k (e.res o r)))

@[simp] theorem embed_ret (e : Embedding Op₁ Res₁ Choice₁ Op₂ Res₂ Choice₂) (a : α) :
    e.embed (.ret a : Prog Op₁ Res₁ α) = .ret a := rfl

@[simp] theorem embed_call (e : Embedding Op₁ Res₁ Choice₁ Op₂ Res₂ Choice₂) (o : Op₁)
    (k : Res₁ o → Prog Op₁ Res₁ α) :
    e.embed (.call o k) = .call (e.op o) (fun r => e.embed (k (e.res o r))) := rfl

theorem embed_bind (e : Embedding Op₁ Res₁ Choice₁ Op₂ Res₂ Choice₂) (p : Prog Op₁ Res₁ α)
    (f : α → Prog Op₁ Res₁ β) : e.embed (p >>= f) = e.embed p >>= fun a => e.embed (f a) := by
  induction p with
  | ret a => rfl
  | call o k ih =>
    simp only [Prog.call_bind, embed_call]
    exact congrArg _ (funext fun r => ih _)

end Embedding

end Purgery.Interleaving
