import Purgery.Server.Exclusion.Policy

namespace Purgery.Server

open Purgery.Interleaving

variable {Tid : Type} [DecidableEq Tid]

section Stability

variable (config : ServerConfig) (k : RunKey) (t : Tid)

/-- An assertion of process `t` that the steps of the others do not disturb. -/
class Stable (I : RunWorld Tid → Prop) : Prop where
  stable : ∀ w w', w.view.Inv config k → w'.view.Inv config k → w.Rely t w' → I w → I w'

variable {config k t} {I J : RunWorld Tid → Prop}

instance Stable.const (φ : Prop) : Stable config k t (fun _ => φ) := ⟨fun _ _ _ _ _ h => h⟩

instance Stable.and [hI : Stable config k t I] [hJ : Stable config k t J] :
    Stable config k t (fun w => I w ∧ J w) :=
  ⟨fun w w' hw hw' hr h => ⟨hI.stable w w' hw hw' hr h.1, hJ.stable w w' hw hw' hr h.2⟩⟩

instance Stable.or [hI : Stable config k t I] [hJ : Stable config k t J] :
    Stable config k t (fun w => I w ∨ J w) :=
  ⟨fun w w' hw hw' hr h => h.imp (hI.stable w w' hw hw' hr) (hJ.stable w w' hw hw' hr)⟩

instance Stable.imp {φ : Prop} [hI : Stable config k t I] :
    Stable config k t (fun w => φ → I w) :=
  ⟨fun w w' hw hw' hr h hφ => hI.stable w w' hw hw' hr (h hφ)⟩

instance Stable.exists {ι : Type} {I : ι → RunWorld Tid → Prop}
    [hI : ∀ i, Stable config k t (I i)] : Stable config k t (fun w => ∃ i, I i w) :=
  ⟨fun w w' hw hw' hr ⟨i, h⟩ => ⟨i, (hI i).stable w w' hw hw' hr h⟩⟩

instance Stable.forall {ι : Type} {I : ι → RunWorld Tid → Prop}
    [hI : ∀ i, Stable config k t (I i)] : Stable config k t (fun w => ∀ i, I i w) :=
  ⟨fun w w' hw hw' hr h i => (hI i).stable w w' hw hw' hr (h i)⟩

end Stability

section Steps

variable {config : ServerConfig} {k : RunKey} {t : Tid} {w : RunWorld Tid} {o : RunOp}

theorem RunOp.step_fault (host : Host) (h : o.fallible = true) (m : String) (x : o.Extra)
    (now : Nat) : o.step host t (some m, x) now w = (o.failed (.other m), w.noteFault t o) := by
  simp [RunOp.step, h]

theorem RunOp.step_run (host : Host) (x : o.Choice) (now : Nat)
    (h : o.succeeds x.1 = true) : o.step host t x now w = o.run host t x.2 now w := by
  obtain ⟨failure, x⟩ := x
  cases failure with
  | none => rfl
  | some m =>
    have hf : o.fallible = false := by simpa [RunOp.succeeds] using h
    simp [RunOp.step, hf]

theorem RunWorld.noteFault_inv (hw : w.view.Inv config k) :
    (w.noteFault t o).view.Inv config k where
  unique := hw.unique
  oneIno := hw.oneIno
  lockIno := hw.lockIno
  incoming := hw.incoming
  gripIno := hw.gripIno
  oneGrip := hw.oneGrip
  readyLock := hw.readyLock
  processingLock := hw.processingLock
  inputs := hw.inputs
  terminal ph d hph hd := (hw.terminal ph d hph hd).imp_right
    (Or.imp_right fun ⟨f, hf, hs⟩ => ⟨f, List.mem_cons_of_mem _ hf, hs⟩)
  publishedValid := hw.publishedValid
  final doc ph d hdoc hd := (hw.final doc ph d hdoc hd).imp_right
    (Or.imp_right fun ⟨f, hf, hs⟩ => ⟨f, List.mem_cons_of_mem _ hf, hs⟩)
  unstarted hf := nomatch hf
  pass := hw.pass
  touched := hw.touched

theorem RunWorld.noteFault_rely (u : Tid) : w.Rely u (w.noteFault t o) where
  locks _ h _ := ⟨h, rfl, fun _ _ => rfl⟩
  pass := rfl
  shrink _ d _ h := ⟨d, h, rfl, fun _ he => he⟩
  past _ h := h
  nextIno := le_refl _
  faults := ⟨[_], rfl⟩
  noGrip h := h

theorem RunWorld.noteFault_guar : Guar t o false w (w.noteFault t o) where
  others u _ := RunWorld.noteFault_rely u
  mutates h := by
    obtain ⟨_, _, h⟩ | h := h
    · exact absurd rfl h
    · exact absurd rfl h
  spawns _ h := nomatch h
  publishes _ _ h := nomatch h
  stale _ _ _ _ := ⟨rfl, rfl⟩
  removal _ h := absurd rfl h

/-- A call that changes nothing and is not one of those that need the lock. -/
theorem Guar.same {ok : Bool} (hspawn : o.transforms ≠ true)
    (hpublish : ∀ ph, o = .publish ph .status → (w.dirs ph).isSome = false) :
    Guar t o ok w w where
  others u _ := RunWorld.Rely.refl u w
  mutates h := by
    obtain ⟨_, _, h⟩ | h := h
    · exact absurd rfl h
    · exact absurd rfl h
  spawns h := absurd h hspawn
  publishes ph h _ hs := by
    rw [hpublish ph h] at hs
    exact nomatch hs
  stale _ _ _ _ := ⟨rfl, rfl⟩
  removal _ h := absurd rfl h

end Steps

section RunTriple

variable (host : Host) (config : ServerConfig) (k : RunKey) (t : Tid)

/-- The contract of code that works on the run. -/
def RunTriple {α : Type} (I : RunWorld Tid → Prop) (c : Call α)
    (Q : α → RunWorld Tid → Prop) : Prop :=
  Triple (lockContract host config k) t (fun w => I (w.runs k)) (onRun k c)
    (fun a w => Q a (w.runs k))

namespace RunTriple

variable {host config k t} {α β ε : Type}
variable {I J : RunWorld Tid → Prop} {c : Call α} {Q R : α → RunWorld Tid → Prop}

theorem ret {a : α} [hI : Stable config k t I] (h : ∀ w, w.view.Inv config k → I w → Q a w) :
    RunTriple host config k t I (.ret a) Q :=
  Triple.ret fun w w' hw hw' hr hp => h _ hw' (hI.stable _ _ hw hw' hr hp)

theorem bind {f : α → Call β} {M : α → RunWorld Tid → Prop} {Q : β → RunWorld Tid → Prop}
    (hc : RunTriple host config k t I c M)
    (hf : ∀ a, RunTriple host config k t (M a) (f a) Q) :
    RunTriple host config k t I (c >>= f) Q := by
  unfold RunTriple onRun
  rw [Embedding.embed_bind]
  exact Triple.bind (lockContract_closed host config k) hc hf

theorem conseq (h : RunTriple host config k t I c Q)
    (hpre : ∀ w, w.view.Inv config k → J w → I w)
    (hpost : ∀ a w, w.view.Inv config k → Q a w → R a w) :
    RunTriple host config k t J c R :=
  Triple.conseq h (fun _ hw hp => hpre _ hw hp) (fun a _ hw hq => hpost a _ hw hq)

theorem weaken (h : RunTriple host config k t I c Q)
    (hpost : ∀ a w, w.view.Inv config k → Q a w → R a w) : RunTriple host config k t I c R :=
  h.conseq (fun _ _ hp => hp) hpost

theorem strengthen (h : RunTriple host config k t I c Q)
    (hpre : ∀ w, w.view.Inv config k → J w → I w) : RunTriple host config k t J c Q :=
  h.conseq hpre fun _ _ _ hq => hq

theorem pure_pre {φ : Prop} (h : φ → RunTriple host config k t I c Q) :
    RunTriple host config k t (fun w => φ ∧ I w) c Q :=
  Triple.pure_pre h

theorem exists_pre {ι : Type} {I : ι → RunWorld Tid → Prop}
    (h : ∀ i, RunTriple host config k t (I i) c Q) :
    RunTriple host config k t (fun w => ∃ i, I i w) c Q :=
  Triple.exists_pre h

theorem or_pre (h : RunTriple host config k t I c Q) (h' : RunTriple host config k t J c Q) :
    RunTriple host config k t (fun w => I w ∨ J w) c Q :=
  Triple.or_pre h h'

theorem answers {A : α → Prop} (h : RunTriple host config k t I c Q) (hc : c.Answers A) :
    RunTriple host config k t I c fun a w => Q a w ∧ A a :=
  Triple.answers h (hc.embed _)

/-- One system call: what it answers when it fails, and what it does when it
goes through. -/
theorem sys {o : RunOp} {Q : o.Res → RunWorld Tid → Prop} [hI : Stable config k t I]
    [hQ : ∀ r, Stable config k t (Q r)]
    (hfault : o.fallible = true → ∀ w m, w.view.Inv config k → I w →
      Calm t o (some m) w → Q (o.failed (.other m)) (w.noteFault t o))
    (hrun : ∀ w now x, w.view.Inv config k → I w → Calm t o none w →
      Guar t o true w (o.run host t x now w).2 ∧ (o.run host t x now w).2.view.Inv config k ∧
        Q (o.run host t x now w).1 (o.run host t x now w).2) :
    RunTriple host config k t I (sys o) Q := by
  refine Triple.perform (fun w w' hw hw' hr hp => hI.stable _ _ hw hw' hr hp)
    (fun r w w' hw hw' hr hq => (hQ r).stable _ _ hw hw' hr hq) fun w x hw hp hx => ?_
  have hcalm : Calm t o x.1 (w.runs k) := hx
  suffices h : Guar t o (o.succeeds x.1) (w.runs k) (o.step host t x w.clock (w.runs k)).2 ∧
      (o.step host t x w.clock (w.runs k)).2.view.Inv config k ∧
        Q (o.step host t x w.clock (w.runs k)).1 (o.step host t x w.clock (w.runs k)).2 by
    obtain ⟨hg, hi, hq⟩ := h
    simp only [lockContract, server, serverStep, World.setRun, if_true, Function.update_self,
      atRun]
    exact ⟨hg, hi, hq⟩
  by_cases hs : o.succeeds x.1 = true
  · rw [RunOp.step_run host x w.clock hs, hs]
    exact hrun _ _ _ hw hp (hcalm.success hs)
  · obtain ⟨failure, x⟩ := x
    cases failure with
    | none => simp [RunOp.succeeds] at hs
    | some m =>
      have hf : o.fallible = true := by simpa [RunOp.succeeds] using hs
      have hsf : o.succeeds (some m) = false := by simpa using hs
      rw [RunOp.step_fault host hf m x w.clock, hsf]
      exact ⟨RunWorld.noteFault_guar, RunWorld.noteFault_inv hw, hfault hf _ m hw hp hcalm⟩

theorem runBind {x : ExceptT ε Call α} {f : α → ExceptT ε Call β}
    {M : α → RunWorld Tid → Prop} {Q : Except ε β → RunWorld Tid → Prop}
    [hQ : ∀ e, Stable config k t (Q (.error e))]
    (hx : RunTriple host config k t I x.run fun r w => match r with
      | .ok a => M a w
      | .error e => Q (.error e) w)
    (hf : ∀ a, RunTriple host config k t (M a) (f a).run Q) :
    RunTriple host config k t I (x >>= f).run Q := by
  refine RunTriple.bind hx fun r => ?_
  cases r with
  | ok a => exact hf a
  | error e =>
    have := hQ e
    exact RunTriple.ret fun w _ hq => hq

/-- A check that makes no call. -/
theorem runCheck {x : Except ε α} {f : α → ExceptT ε Call β} {Q : Except ε β → RunWorld Tid → Prop}
    [Stable config k t I] (hok : ∀ a, x = .ok a → RunTriple host config k t I (f a).run Q)
    (herror : ∀ e, x = .error e → ∀ w, w.view.Inv config k → I w → Q (.error e) w) :
    RunTriple host config k t I (ExceptT.mk (pure x) >>= f).run Q := by
  cases x with
  | ok a => exact hok a rfl
  | error e => exact RunTriple.ret fun w hw hI => herror e rfl w hw hI

theorem runLift {Q : Except ε α → RunWorld Tid → Prop} [∀ a, Stable config k t (Q (.ok a))]
    (hc : RunTriple host config k t I c fun a => Q (.ok a)) :
    RunTriple host config k t I (ExceptT.lift c : ExceptT ε Call α).run Q :=
  RunTriple.bind hc fun _ => RunTriple.ret fun _ _ hq => hq

theorem runAdapt {ε' : Type} {x : ExceptT ε' Call α} {g : ε' → ε}
    {Q : Except ε α → RunWorld Tid → Prop} [∀ r, Stable config k t (Q r)]
    (hx : RunTriple host config k t I x.run fun r => Q (r.mapError g)) :
    RunTriple host config k t I (ExceptT.adapt g x).run Q :=
  RunTriple.bind hx fun _ => RunTriple.ret fun _ _ hq => hq

theorem io {x : Call (Except IoError α)} {g : IoError → ε}
    {Q : Except ε α → RunWorld Tid → Prop} [∀ r, Stable config k t (Q r)]
    (hx : RunTriple host config k t I x fun r => Q (r.mapError g)) :
    RunTriple host config k t I (Server.io x g).run Q :=
  RunTriple.runAdapt hx

/-- Code whose error, under another name, ends what follows. -/
theorem adaptBind {ε' : Type} {x : ExceptT ε' Call α} {g : ε' → ε} {f : α → ExceptT ε Call β}
    {M : α → RunWorld Tid → Prop} {Q : Except ε β → RunWorld Tid → Prop}
    [hQ : ∀ e, Stable config k t (Q (.error e))]
    (hx : RunTriple host config k t I x.run fun r w => match r with
      | .ok a => M a w
      | .error e => Q (.error (g e)) w)
    (hf : ∀ a, RunTriple host config k t (M a) (f a).run Q) :
    RunTriple host config k t I (ExceptT.adapt g x >>= f).run Q := by
  have hassoc : (ExceptT.adapt g x >>= f).run =
      (x.run >>= fun r => ExceptT.bindCont f (r.mapError g)) := Prog.bind_assoc _ _ _
  rw [hassoc]
  refine RunTriple.bind hx fun r => ?_
  cases r with
  | ok a => exact hf a
  | error e => exact RunTriple.ret fun w _ hq => hq

theorem ioBind {x : Call (Except IoError α)} {g : IoError → ε} {f : α → ExceptT ε Call β}
    {M : α → RunWorld Tid → Prop} {Q : Except ε β → RunWorld Tid → Prop}
    [hQ : ∀ e, Stable config k t (Q (.error e))]
    (hx : RunTriple host config k t I x fun r w => match r with
      | .ok a => M a w
      | .error e => Q (.error (g e)) w)
    (hf : ∀ a, RunTriple host config k t (M a) (f a).run Q) :
    RunTriple host config k t I (Server.io x g >>= f).run Q :=
  RunTriple.adaptBind (x := ExceptT.mk x) (hx.weaken fun r w _ h => by cases r <;> exact h) hf

/-- A part of the code that cannot fail. -/
theorem liftBind {c : Call α} {f : α → ExceptT ε Call β} {M : α → RunWorld Tid → Prop}
    {Q : Except ε β → RunWorld Tid → Prop} (hc : RunTriple host config k t I c M)
    (hf : ∀ a, RunTriple host config k t (M a) (f a).run Q) :
    RunTriple host config k t I (ExceptT.lift c >>= f).run Q := by
  have hassoc : (ExceptT.lift c >>= f).run = (c >>= fun a => (f a).run) := Prog.bind_assoc _ _ _
  rw [hassoc]
  exact RunTriple.bind hc hf

theorem askBind {o : RunOp} {f : o.Res → ExceptT ε Call β} {M : o.Res → RunWorld Tid → Prop}
    {Q : Except ε β → RunWorld Tid → Prop} (hc : RunTriple host config k t I (Server.sys o) M)
    (hf : ∀ a, RunTriple host config k t (M a) (f a).run Q) :
    RunTriple host config k t I (Server.ask o >>= f).run Q :=
  RunTriple.liftBind hc hf

theorem ask {o : RunOp} {Q : Except ε o.Res → RunWorld Tid → Prop}
    [∀ r, Stable config k t (Q (.ok r))]
    (hx : RunTriple host config k t I (Server.sys o) fun r => Q (.ok r)) :
    RunTriple host config k t I (Server.ask o : ExceptT ε Call o.Res).run Q :=
  RunTriple.runLift hx

end RunTriple

end RunTriple

end Purgery.Server
