import Purgery.Server.Exclusion.Quiet

namespace Purgery.Server

open Purgery.Interleaving

section Faults

variable {Tid : Type} {w : RunWorld Tid}

theorem RunWorld.change_faults {ph : RunPhase} {f : RunDir → Except IoError RunDir} :
    (w.change ph f).2.faults = w.faults := by
  unfold RunWorld.change
  split
  · rfl
  · split <;> rfl

theorem RunWorld.inWork_faults {f : Tree → Except IoError Tree} :
    (w.inWork f).2.faults = w.faults := by
  unfold RunWorld.inWork
  split
  · rfl
  · split
    · rfl
    · split <;> rfl

theorem RunWorld.createWorkDirs_faults {now : Nat} {paths : List String} :
    (w.createWorkDirs now paths).faults = w.faults := by
  unfold RunWorld.createWorkDirs
  split <;> rfl

variable [DecidableEq Tid]

theorem RunOp.doom_faults {t : Tid} {ph : RunPhase} {b : Bool} :
    (RunOp.doom t ph b w).faults = w.faults := by
  unfold RunOp.doom
  split <;> rfl

omit [DecidableEq Tid] in
theorem RunOp.tryFlock_faults {t : Tid} {ph : RunPhase} {ino : Nat} :
    (RunOp.tryFlock t ph ino w).2.faults = w.faults := by
  unfold RunOp.tryFlock
  split <;> rfl

/-- A call that goes through puts no failure on record. -/
theorem RunOp.run_faults (host : Host) (t : Tid) (o : RunOp) (x : o.Extra) (now : Nat)
    (w : RunWorld Tid) : (o.run host t x now w).2.faults = w.faults := by
  cases o <;> simp only [RunOp.run, RunWorld.change_faults, RunWorld.inWork_faults,
    RunWorld.createWorkDirs_faults, RunOp.doom_faults, RunOp.tryFlock_faults]
  all_goals repeat' split
  all_goals first
    | rfl
    | exact RunOp.doom_faults
    | exact RunWorld.inWork_faults

theorem RunOp.step_faults (host : Host) (t : Tid) (o : RunOp) (x : o.Choice) (now : Nat)
    (w : RunWorld Tid) : ∃ fs, (o.step host t x now w).2.faults = fs ++ w.faults := by
  unfold RunOp.step
  split
  · exact ⟨[_], rfl⟩
  · exact ⟨[], RunOp.run_faults host t o x.2 now w⟩

end Faults

variable {Tid : Type} [DecidableEq Tid]
variable {host : Host} {config : ServerConfig} {k : RunKey} {t : Tid}

/-- An assertion about the failures on record, which more failures keep. -/
class Lasting (J : RunWorld Tid → Prop) : Prop where
  lasting : ∀ w w' fs, w'.faults = fs ++ w.faults → J w → J w'

namespace Lasting

omit [DecidableEq Tid]

variable {J J' : RunWorld Tid → Prop}

instance (φ : Prop) : Lasting (fun _ : RunWorld Tid => φ) := ⟨fun _ _ _ _ h => h⟩

instance [hJ : Lasting J] [hJ' : Lasting J'] : Lasting (fun w => J w ∧ J' w) :=
  ⟨fun w w' fs hf h => ⟨hJ.lasting w w' fs hf h.1, hJ'.lasting w w' fs hf h.2⟩⟩

instance [hJ : Lasting J] [hJ' : Lasting J'] : Lasting (fun w => J w ∨ J' w) :=
  ⟨fun w w' fs hf h => h.imp (hJ.lasting w w' fs hf) (hJ'.lasting w w' fs hf)⟩

instance {p : Fault Tid → Prop} : Lasting (fun w => ∃ f ∈ w.faults, p f) :=
  ⟨fun _ _ _ hf ⟨f, hmem, hp⟩ => ⟨f, by rw [hf]; exact List.mem_append_right _ hmem, hp⟩⟩

instance : Lasting (fun w : RunWorld Tid => w.faults ≠ []) :=
  ⟨fun _ _ _ hf h => by
    rw [hf]
    exact fun h' => h (List.append_eq_nil_iff.1 h').2⟩

instance {pl : List (RunPhase × Doc RunStatus)} : Lasting (Clean pl : RunWorld Tid → Prop) :=
  inferInstanceAs (Lasting fun w => w.faults ≠ [] ∨ pl = [])

instance : Lasting (fun w : RunWorld Tid => w.view.ClaimSpoilt) :=
  inferInstanceAs (Lasting fun w => ∃ f ∈ w.faults, _)

instance : Lasting (fun w : RunWorld Tid => w.view.RecoverySpoilt) :=
  inferInstanceAs (Lasting fun w => ∃ f ∈ w.faults, _)

instance {g : Grip Tid} {ph : RunPhase} {pl : List (RunPhase × Doc RunStatus)} {o : RunOp} :
    Lasting (Failed g ph pl o) := inferInstanceAs (Lasting fun w => ∃ f ∈ w.faults, _)

theorem stable (hJ : Lasting J) : Stable config k t J :=
  ⟨fun w w' _ _ hr h => by
    obtain ⟨fs, hf⟩ := hr.faults
    exact hJ.lasting w w' fs hf h⟩

end Lasting

theorem serverStep_faults (host : Host) (k : RunKey) (t : Tid) (o : ServerOp) (x : o.Choice) (w : World Tid) :
    ∃ fs, ((serverStep host t o x w).2.runs k).faults = fs ++ (w.runs k).faults := by
  cases o with
  | run k' o =>
    by_cases hk : k = k'
    · subst hk
      simpa [serverStep, World.setRun] using
        RunOp.step_faults host t o x w.clock (w.runs k)
    · exact ⟨[], by simp [serverStep, World.setRun, Function.update_of_ne hk]⟩
  | unixNow | rootExists => exact ⟨[], rfl⟩
  | nicknames | runIds =>
    obtain ⟨failure, x⟩ := x
    cases failure <;> exact ⟨[], rfl⟩

/-- What is on record stays on record while the code runs. -/
theorem RunTriple.frame {α : Type} {I J : RunWorld Tid → Prop} {c : Call α}
    {Q : α → RunWorld Tid → Prop} [hJ : Lasting J] (h : RunTriple host config k t I c Q) :
    RunTriple host config k t (fun w => I w ∧ J w) c (fun a w => Q a w ∧ J w) :=
  have hs : Stable config k t J := hJ.stable
  Triple.frame (fun _ _ hw hw' hr h => hs.stable _ _ hw hw' hr h)
    (fun o x w _ h => by
      obtain ⟨fs, hf⟩ := serverStep_faults host k t o x w
      exact hJ.lasting _ _ fs hf h) h

/-- The calls that only look. -/
def RunOp.idle : RunOp → Bool
  | .unixNow => true
  | .dirExists _ => true
  | .probeDir _ _ => true
  | .fileExists _ _ => true
  | .lockExists _ sweep => !sweep
  | .treeExists _ _ => true
  | .read _ _ => true
  | .statusModified _ => true
  | .listTmp _ => true
  | .createParent _ => true
  | _ => false

omit [DecidableEq Tid] in
theorem RunOp.idle_run [DecidableEq Tid] {o : RunOp} (ho : o.idle = true) (x : o.Extra) (now : Nat)
    (w : RunWorld Tid) : (o.run host t x now w).2 = w := by
  cases o with
  | unixNow | dirExists | probeDir | fileExists | treeExists | read | statusModified | listTmp
  | createParent => rfl
  | lockExists ph sweep =>
    have hs : sweep = false := by simpa [RunOp.idle] using ho
    subst hs
    rfl
  | _ => simp [RunOp.idle] at ho

/-- A call failed in a state with `I`, and this is on record. -/
def Recorded (config : ServerConfig) (k : RunKey) (t : Tid) (I : RunWorld Tid → Prop)
    (o : RunOp) (w : RunWorld Tid) : Prop :=
  ∃ f ∈ w.faults, ∃ w₀, w₀.view.Inv config k ∧ I w₀ ∧
    f = ⟨o, w₀.grip? t, w₀.location, w₀.publishedInProcessing⟩

/-- A call was answered in a state with `I`: it failed, or it said what it
found. -/
def Answered (host : Host) (config : ServerConfig) (k : RunKey) (t : Tid)
    (I : RunWorld Tid → Prop) (o : RunOp) (r : o.Res) (w : RunWorld Tid) : Prop :=
  ((∃ m, r = o.failed (.other m)) ∧ Recorded config k t I o w) ∨
  ∃ w₀ x now, w₀.view.Inv config k ∧ I w₀ ∧ r = (o.run host t x now w₀).1

section

variable {I : RunWorld Tid → Prop} {o : RunOp}

instance : Lasting (Recorded config k t I o) :=
  inferInstanceAs (Lasting fun w => ∃ f ∈ w.faults, _)

instance : Stable config k t (Recorded config k t I o) := Lasting.stable inferInstance

instance {r : o.Res} : Stable config k t (Answered host config k t I o r) :=
  Lasting.stable (inferInstanceAs (Lasting fun w =>
    ((∃ m, r = o.failed (.other m)) ∧ Recorded config k t I o w) ∨ _))

theorem Recorded.faults {w : RunWorld Tid} (h : Recorded config k t I o w) : w.faults ≠ [] := by
  obtain ⟨f, hf, _⟩ := h
  exact List.ne_nil_of_mem hf

theorem Recorded.failed {g : Grip Tid} {ph : RunPhase} {D : CoreDir}
    {pl : List (RunPhase × Doc RunStatus)} {w : RunWorld Tid}
    (h : Recorded config k t (At t g ph D pl) o w) : Failed g ph pl o w := by
  obtain ⟨f, hf, w₀, hw₀, hat, rfl⟩ := h
  refine ⟨_, hf, rfl, hat.grip, hat.location hw₀, ?_⟩
  simp [RunWorld.publishedInProcessing, hat.published]

/-- A call that keeps the assertion and what the others rely on. -/
theorem RunTriple.sys_keep [hI : Stable config k t I]
    (hkeep : ∀ w now x, w.view.Inv config k → I w → Calm t o none w →
      Guar t o true w (o.run host t x now w).2 ∧ (o.run host t x now w).2.view.Inv config k ∧
        I (o.run host t x now w).2) :
    RunTriple host config k t I (Server.sys o)
      (fun r w => I w ∧ Answered host config k t I o r w) := by
  refine RunTriple.sys (fun _ w m hw hI' _ => ?_) fun w now x hw hI' hc => ?_
  · exact ⟨hI.stable _ _ hw (RunWorld.noteFault_inv hw) (RunWorld.noteFault_rely t) hI',
      .inl ⟨⟨m, rfl⟩, _, List.mem_cons_self, w, hw, hI', rfl⟩⟩
  · obtain ⟨hg, hi, hI''⟩ := hkeep w now x hw hI' hc
    exact ⟨hg, hi, hI'', .inr ⟨w, x, now, hw, hI', rfl⟩⟩

theorem RunTriple.sys_idle [hI : Stable config k t I] (ho : o.idle = true) :
    RunTriple host config k t I (Server.sys o)
      (fun r w => I w ∧ Answered host config k t I o r w) := by
  refine RunTriple.sys_keep fun w now x hw hI' _ => ?_
  rw [RunOp.idle_run ho x now w]
  refine ⟨Guar.same (fun hs => ?_) (fun ph hp => ?_), hw, hI'⟩
  · cases o <;> simp_all [RunOp.idle, RunOp.transforms]
  · subst hp
    simp [RunOp.idle] at ho

theorem RunTriple.sys_read [Stable config k t I] {ph : RunPhase} {f : FileName}
    {v : Except IoError (Doc f.Content)}
    (hv : ∀ w, w.view.Inv config k → I w → (w.look ph fun d => (d.file f).read) = v) :
    RunTriple host config k t I (Server.sys (.read ph f)) (fun r w => I w ∧
      (r = v ∨ (∃ m, r = .error (.other m)) ∧ Recorded config k t I (.read ph f) w)) := by
  refine (RunTriple.sys_idle rfl).weaken fun r w _ h => ⟨h.1, ?_⟩
  obtain h' | ⟨w₀, _, _, hw₀, hI, hr⟩ := h.2
  · exact .inr h'
  · exact .inl (hr.trans (hv w₀ hw₀ hI))

/-- Code that only looks keeps every assertion. -/
theorem RunTriple.of_idle {α : Type} {c : Call α} [hI : Stable config k t I]
    (hc : c.Only fun o => o.idle = true) : RunTriple host config k t I c (fun _ => I) := by
  induction c with
  | ret a => exact RunTriple.ret fun w _ h => h
  | call o f ih =>
    refine RunTriple.bind (c := Server.sys o) (f := f) (RunTriple.sys_idle hc.1) fun r => ?_
    exact (ih r (hc.2 r)).strengthen fun w _ h => h.1

end

end Purgery.Server
