import Purgery.Server.Exclusion.Session

namespace Purgery.Server

open Purgery.Interleaving

/-- The calls of processing that leave what the lock protects as it is. -/
def RunOp.quiet : RunOp → Bool
  | .unixNow => true
  | .dirExists _ => true
  | .fileExists _ _ => true
  | .lockExists _ sweep => !sweep
  | .treeExists _ _ => true
  | .read _ _ => true
  | .statusModified _ => true
  | .openTmp .processing .progress => true
  | .openTmp .processing .plan => true
  | .writeTmp _ .progress _ => true
  | .writeTmp _ .plan _ => true
  | .publish .processing .progress => true
  | .publish .processing .plan => true
  | .listTmp _ => true
  | .createParent _ => true
  | .breakTree .processing _ => true
  | .removeTree .processing _ => true
  | .createWork => true
  | .createWorkParent _ => true
  | .createWorkDir _ => true
  | .openWorkFile _ => true
  | .copyToWork _ _ => true
  | .linkInWork _ _ => true
  | .stagedKind _ => true
  | .stagedLen _ => true
  | .stagedBytes _ => true
  | .stagedTarget _ => true
  | .stagedEmpty _ => true
  | .walkStaged _ => true
  | .walkNext => true
  | .destinationKind _ => true
  | .destinationTarget _ => true
  | .spawn _ => true
  | .tryWait => true
  | .reap => true
  | _ => false

namespace RunDir

@[simp] theorem core_setTree (d : RunDir) (s : Subtree) (x : Option Tree) :
    (d.setTree s x).core = d.core := rfl

@[simp] theorem core_stamp (d : RunDir) (now : Nat) : (d.stamp now).core = d.core := rfl

theorem core_setFile (d : RunDir) (f : FileName) (s : FileState f) (hf : f = .progress ∨ f = .plan) :
    (d.setFile f s).core = d.core := by
  obtain rfl | rfl := hf <;> rfl

theorem core_setTmp (d : RunDir) (f : FileName) (s : FileState f) (hf : f ≠ .status) :
    (d.setTmp f s).core = d.core := by
  cases f <;> first | rfl | exact absurd rfl hf

theorem core_openTmp (d : RunDir) (f : FileName) (torn : Except String (Doc f.Content)) (now : Nat)
    (hf : f ≠ .status) : (d.openTmp f torn now).core = d.core := by
  have h : ∀ d' : RunDir, d'.core = d.core →
      ({ d'.setTmp f (FileState.ofTorn torn) with tmpMtime := now } : RunDir).core = d.core :=
    fun d' hd => (core_setTmp d' f _ hf).trans hd
  unfold openTmp
  split
  · exact h _ rfl
  · exact h _ rfl

theorem core_publish (d : RunDir) (f : FileName) (now : Nat) (hf : f = .progress ∨ f = .plan) :
    (d.publish f now).core = d.core := by
  obtain rfl | rfl := hf <;> rfl

end RunDir

variable {Tid : Type} {w : RunWorld Tid}

namespace RunWorld

theorem view_setDir {ph : RunPhase} {d d' : RunDir} (hd : w.dirs ph = some d)
    (hcore : d'.core = d.core) : (w.setDir ph (some d')).view = w.view := by
  have h : (w.setDir ph (some d')).view.dirs = w.view.dirs := by
    funext ph'
    by_cases hne : ph' = ph
    · subst hne
      simp [RunWorld.view, RunWorld.setDir, hd, hcore]
    · simp [RunWorld.view, RunWorld.setDir, hne]
  unfold RunWorld.view at h ⊢
  simpa [RunWorld.setDir] using h

theorem view_change {ph : RunPhase} {f : RunDir → Except IoError RunDir}
    (hf : ∀ d d', f d = .ok d' → d'.core = d.core) : (w.change ph f).2.view = w.view := by
  unfold RunWorld.change
  split
  · rfl
  · rename_i d hd
    split
    · rfl
    · rename_i d' hd'
      exact view_setDir hd (hf d d' hd')

theorem view_inWork (f : Tree → Except IoError Tree) : (w.inWork f).2.view = w.view := by
  unfold RunWorld.inWork
  split
  · rfl
  · rename_i d hd
    split
    · rfl
    · split
      · rfl
      · exact view_setDir hd rfl

theorem view_createWorkDirs (now : Nat) (paths : List String)
    (h : (w.dirs .processing).isSome = true) : (w.createWorkDirs now paths).view = w.view := by
  unfold RunWorld.createWorkDirs
  obtain ⟨d, hd⟩ := Option.isSome_iff_exists.1 h
  simp only [hd]
  exact view_setDir hd rfl

theorem view_writeTmp [DecidableEq Tid] (host : Host) (t : Tid) (dir now : Nat) (f : FileName)
    (doc : Doc f.Content) (hf : f ≠ .status) :
    (RunOp.run host t (.writeTmp dir f doc) () now w).2.view = w.view := by
  simp only [RunOp.run]
  split
  · rfl
  · rename_i ph _
    cases hd : w.dirs ph with
    | none =>
      have hsame : w.setDir ph none = w := by
        unfold RunWorld.setDir
        rw [← hd, Function.update_eq_self]
      rw [Option.map_none, hsame]
    | some d =>
      refine view_setDir hd ?_
      simp only []
      split
      · exact RunDir.core_setTmp d f _ hf
      · rfl

theorem view_publish [DecidableEq Tid] (host : Host) (t : Tid) (ph : RunPhase) (now : Nat)
    (f : FileName) (hf : f = .progress ∨ f = .plan) :
    (RunOp.run host t (.publish ph f) () now w).2.view = w.view := by
  simp only [RunOp.run]
  split
  · rfl
  · rename_i d hd
    split
    · have hn : statusText f (d.tmp f) = none := by obtain rfl | rfl := hf <;> rfl
      rw [hn]
      exact view_setDir hd (RunDir.core_publish d f now hf)
    · rfl

end RunWorld

theorem RunDir.removeEntry_tree_core {d d' : RunDir} {s : Subtree} {now : Nat}
    (h : d.removeEntry (.tree s) now = .ok d') : d'.core = d.core := by
  unfold RunDir.removeEntry at h
  split at h
  · cases h
    rfl
  · exact nomatch h

/-- A quiet call on a run in `processing` changes no part of the view. -/
theorem RunOp.quiet_view [DecidableEq Tid] {o : RunOp} (ho : o.quiet = true) (host : Host)
    (t : Tid) (x : o.Extra) (now : Nat) (hdir : (w.dirs .processing).isSome = true) :
    (o.run host t x now w).2.view = w.view := by
  obtain ⟨d, hd⟩ := Option.isSome_iff_exists.1 hdir
  cases o with
  | unixNow | dirExists | fileExists | treeExists | read | statusModified | listTmp
  | createParent | stagedKind | stagedLen | stagedBytes | stagedTarget | stagedEmpty | walkStaged
  | walkNext | destinationKind | destinationTarget | tryWait => rfl
  | lockExists ph sweep =>
    have hs : sweep = false := by simpa [RunOp.quiet] using ho
    subst hs
    rfl
  | openTmp ph f =>
    have hf : ph = .processing ∧ f ≠ .status := by
      cases ph <;> cases f <;> simp_all [RunOp.quiet]
    obtain ⟨rfl, hf⟩ := hf
    simp only [RunOp.run, hd]
    exact RunWorld.view_setDir hd (RunDir.core_openTmp d f x now hf)
  | writeTmp dir f doc =>
    exact RunWorld.view_writeTmp host t dir now f doc (by cases f <;> simp_all [RunOp.quiet])
  | publish ph f =>
    exact RunWorld.view_publish host t ph now f
      (by cases ph <;> cases f <;> simp_all [RunOp.quiet])
  | breakTree ph s =>
    refine RunWorld.view_change fun d d' h => ?_
    split at h
    · exact nomatch h
    · cases h
      rfl
  | removeTree ph s => exact RunWorld.view_change fun d d' h => RunDir.removeEntry_tree_core h
  | createWork => exact RunWorld.view_createWorkDirs now [] hdir
  | createWorkParent path => exact RunWorld.view_createWorkDirs now _ hdir
  | createWorkDir path => exact RunWorld.view_inWork _
  | openWorkFile path => exact RunWorld.view_inWork _
  | linkInWork path target => exact RunWorld.view_inWork _
  | copyToWork source path =>
    simp only [RunOp.run]
    split
    · rfl
    · exact RunWorld.view_inWork _
  | spawn c =>
    simp only [RunOp.run, hd]
    exact RunWorld.view_setDir hd rfl
  | reap =>
    simp only [RunOp.run, hd]
    exact RunWorld.view_setDir hd rfl
  | _ => simp [RunOp.quiet] at ho

variable [DecidableEq Tid]
variable {host : Host} {config : ServerConfig} {k : RunKey} {t : Tid} {g : Grip Tid}
variable {D : CoreDir} {pl : List (RunPhase × Doc RunStatus)} {α : Type}

theorem RunOp.quiet_removes {o : RunOp} (ho : o.quiet = true) : o.removes = false := by
  cases o <;> simp_all [RunOp.quiet, RunOp.removes]

/-- What processing keeps while it only does quiet calls. -/
def Working (t : Tid) (g : Grip Tid) (D : CoreDir) (pl : List (RunPhase × Doc RunStatus))
    (w : RunWorld Tid) : Prop := At t g .processing D pl w ∧ Clean pl w

instance : Stable config k t (Working t g D pl) :=
  inferInstanceAs (Stable config k t fun w => At t g .processing D pl w ∧ Clean pl w)

/-- A quiet call fails, and this is on record, or answers as it does. -/
theorem RunTriple.sys_quiet {o : RunOp} (ho : o.quiet = true) :
    RunTriple host config k t (Working t g D pl) (Server.sys o)
      (fun r w => Working t g D pl w ∧
        (Failed g .processing pl o w ∨ ∃ x now w₀, r = (o.run host t x now w₀).1)) := by
  refine RunTriple.sys (fun _ w m hw hI _ => ?_) fun w now x hw hI _ => ?_
  · obtain ⟨hat, hf⟩ := hI.1.noteFault hw o
    exact ⟨⟨hat, .inl (by simp [RunWorld.noteFault])⟩, .inl hf⟩
  · obtain ⟨d, hd, _⟩ := hI.1.exists_dir
    have hview := RunOp.quiet_view ho host t x now (w := w) (by simp [hd])
    have hclean : w.faults = [] → pl = [] := fun hf => hI.2.resolve_left (by simp [hf])
    obtain ⟨hg, hi, hat⟩ := hI.1.quiet hw hview (RunOp.quiet_removes ho) fun _ _ => hclean
    refine ⟨hg, hi, ⟨hat, ?_⟩, .inr ⟨x, now, w, rfl⟩⟩
    have hfaults : (o.run host t x now w).2.faults = w.faults := congrArg View.faults hview
    unfold Clean
    rw [hfaults]
    exact hI.2

theorem RunTriple.of_quiet {c : Call α} (hc : c.Only fun o => o.quiet = true) :
    RunTriple host config k t (Working t g D pl) c (fun _ => Working t g D pl) := by
  induction c with
  | ret a => exact RunTriple.ret fun w _ h => h
  | call o f ih =>
    refine RunTriple.bind (c := Server.sys o) (f := f) (RunTriple.sys_quiet hc.1) fun r => ?_
    exact (ih r (hc.2 r)).strengthen fun w _ h => h.1

end Purgery.Server
