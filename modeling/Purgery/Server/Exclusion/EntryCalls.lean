import Purgery.Interleaving.Triple
import Purgery.Server.Exclusion.Quiet

namespace Purgery.Server

open Purgery.Interleaving

section Calls

variable {ok : RunOp → Prop} {ε α β : Type}

theorem only_sys {o : RunOp} (h : ok o) : (sys o).Only ok := ⟨h, fun _ => trivial⟩

theorem only_ask {o : RunOp} (h : ok o) : (ask o : ExceptT ε Call o.Res).run.Only ok :=
  Prog.Only.runLift (only_sys h)

theorem only_io {x : Call (Except IoError α)} {f : IoError → ε} (h : x.Only ok) :
    (io x f).run.Only ok := Prog.Only.runAdapt h

theorem only_writeFile {ph : RunPhase} {f : FileName} {d : Doc f.Content} (h : ok (.openTmp ph f))
    (h' : ∀ dir, ok (.writeTmp dir f d)) : (writeFile ph f d).Only ok := by
  refine Prog.Only.bind (only_sys h) fun r => ?_
  cases r with
  | error e => trivial
  | ok dir => exact only_sys (h' dir)

theorem only_removeSubtree {ph : RunPhase} {s : Subtree} (h : ok (.breakTree ph s))
    (h' : ok (.removeTree ph s)) : (removeSubtree ph s).run.Only ok :=
  Prog.Only.runBind (only_io (only_sys h)) fun _ => only_io (only_sys h')

end Calls

/-- A call that writes down or carries out a plan does so with one of these. -/
def RunOp.Follows (plans : ResolvedDestinationPlan → Prop) : RunOp → Prop
  | .spawn c => plans c.target
  | .writeTmp _ .plan doc => ∀ p, doc.parsed = .ok p → plans p
  | _ => True

theorem RunOp.follows_any (o : RunOp) : o.Follows fun _ => True := by
  cases o with
  | writeTmp dir f doc =>
    cases f with
    | plan => exact fun _ _ => trivial
    | _ => trivial
  | _ => trivial

abbrev Quietly {α : Type} (plans : ResolvedDestinationPlan → Prop) (c : Call α) : Prop :=
  c.Only fun o => o.quiet = true ∧ o.Follows plans

variable {plans : ResolvedDestinationPlan → Prop}

section Progress

variable (config : ServerConfig) (k : RunKey)

/-- The calls that write down the progress. -/
def RunOp.reports : RunOp → Bool
  | .unixNow => true
  | .read .processing .progress => true
  | .openTmp .processing .progress => true
  | .writeTmp _ .progress _ => true
  | .publish .processing .progress => true
  | _ => false

theorem RunOp.reports_quiet {o : RunOp} (h : o.reports = true) :
    o.quiet = true ∧ o.Follows plans := by
  unfold RunOp.reports at h
  split at h <;> first | exact ⟨rfl, trivial⟩ | exact nomatch h

variable {ok : RunOp → Prop}

theorem writeProgress_only (h : ∀ o : RunOp, o.reports = true → ok o) (state : String) (i n : Nat)
    (entry transform : String) :
    (writeProgress config k state i n entry transform).run.Only ok := by
  unfold writeProgress
  split
  · trivial
  · refine Prog.Only.runBind (only_ask (h _ rfl)) fun now => ?_
    refine Prog.Only.runBind (only_ask (h _ rfl)) fun existing => ?_
    have hwrite : ∀ progress : ProcessingProgress,
        (do
          io (writeFile .processing .progress (Doc.ofValue progress)) fun _ =>
            "failed to write progress: " ++ filePath config k .processing "progress.toml.tmp"
          io (sys (.publish .processing .progress)) fun _ =>
            "failed to publish progress: " ++ filePath config k .processing "progress.toml" :
          ExceptT String Call Unit).run.Only ok := fun progress =>
      Prog.Only.runBind (only_io (only_writeFile (h _ rfl) fun _ => h _ rfl)) fun _ =>
        only_io (only_sys (h _ rfl))
    split
    · trivial
    all_goals exact hwrite _

theorem writeProgressBestEffort_only (h : ∀ o : RunOp, o.reports = true → ok o) (state : String)
    (i n : Nat) (entry transform : String) :
    (writeProgressBestEffort config k state i n entry transform).Only ok :=
  Prog.Only.bind (writeProgress_only config k h state i n entry transform) fun _ => trivial

theorem writeProgressBestEffort_quiet (state : String) (i n : Nat) (entry transform : String) :
    Quietly plans (writeProgressBestEffort config k state i n entry transform) :=
  writeProgressBestEffort_only config k (fun _ => RunOp.reports_quiet) state i n entry transform

end Progress

section Entry

variable (host : Host) (config : ServerConfig) (k : RunKey) (entry : ManifestEntry)

theorem verifyStaged_quiet (path : String) : Quietly plans (verifyStaged host entry path).run := by
  refine Prog.Only.runBind (only_io (only_sys ⟨rfl, trivial⟩)) fun actual => ?_
  split
  · trivial
  · split
    · trivial
    · refine Prog.Only.runBind (only_io (only_sys ⟨rfl, trivial⟩)) fun bytes => ?_
      split <;> trivial

theorem checkExpected_quiet (expected : NormalizedRelativePath) : Quietly plans (do
    if entry.stagedPath ≠ expected then
      throw ("staged_path mismatch: expected '" ++ expected.asStr ++ "', got '" ++
        entry.stagedPath.asStr ++ "'")
    else
      let kind ← io (sys (.stagedKind entry.stagedPath.asStr)) fun e =>
        "failed to read staged metadata: " ++ e.message
      if !kindMatches entry.kind kind then
        throw "staged filesystem kind does not match manifest kind"
      else
        match entry.kind with
        | .regularFile =>
          let path := filePath config k .processing entry.stagedPath.asStr
          ExceptT.adapt ("staged file identity check failed: " ++ ·)
            (verifyStaged host entry path)
        | .symlink =>
          match entry.linkTarget with
          | none => throw "symlink manifest entry has no link_target"
          | some expected =>
            let actual ← io (sys (.stagedTarget entry.stagedPath.asStr)) fun e =>
              "failed to read staged symlink: " ++ e.message
            if Path.same actual expected then return ()
            else throw "staged symlink target does not match manifest"
        | .directory => return () : ExceptT String Call Unit).run := by
  split
  · trivial
  · refine Prog.Only.runBind (only_io (only_sys ⟨rfl, trivial⟩)) fun kind => ?_
    split
    · trivial
    · split
      · exact Prog.Only.runAdapt (verifyStaged_quiet host entry _)
      · split
        · trivial
        · refine Prog.Only.runBind (only_io (only_sys ⟨rfl, trivial⟩)) fun actual => ?_
          split <;> trivial
      · trivial

theorem checkStaged_quiet : Quietly plans (checkStaged host config k entry).run := by
  unfold checkStaged
  cases NormalizedRelativePath.new (Path.join "files" entry.relativePath.asStr) with
  | error e => trivial
  | ok expected => exact checkExpected_quiet host config k entry expected

theorem inspectDestination_quiet (path : String) : Quietly plans (inspectDestination path).run := by
  refine Prog.Only.runBind (only_ask ⟨rfl, trivial⟩) fun kind => ?_
  split
  · refine Prog.Only.runBind (only_ask ⟨rfl, trivial⟩) fun target => ?_
    split <;> trivial
  all_goals trivial

theorem sourceDirectoryEmpty_quiet : Quietly plans (sourceDirectoryEmpty entry).run := by
  unfold sourceDirectoryEmpty
  split
  · exact only_io (only_sys ⟨rfl, trivial⟩)
  · trivial

theorem resolvePlan_quiet (destination : DestinationPath) :
    Quietly plans (resolvePlan destination entry).run :=
  Prog.Only.runBind (inspectDestination_quiet _) fun _ =>
    Prog.Only.runBind (sourceDirectoryEmpty_quiet entry) fun _ => trivial

theorem loadOrResolveDestinationPlan_quiet (h : ∀ p, plans p) (destination : DestinationPath) :
    Quietly plans (loadOrResolveDestinationPlan destination entry).run := by
  refine Prog.Only.runBind (only_ask ⟨rfl, trivial⟩) fun found => ?_
  split
  · exact Prog.Only.runBind (only_io (only_sys ⟨rfl, trivial⟩)) fun _ => trivial
  · exact Prog.Only.runBind (resolvePlan_quiet entry destination) fun _ =>
      Prog.Only.runBind (only_io (only_writeFile ⟨rfl, trivial⟩ fun _ => ⟨rfl, fun p _ => h p⟩)) fun _ =>
        Prog.Only.runBind (only_io (only_sys ⟨rfl, trivial⟩)) fun _ => trivial

theorem copyFile_quiet (source path : String) : Quietly plans (copyFile source path) := by
  refine Prog.Only.bind (only_sys ⟨rfl, trivial⟩) fun opened => ?_
  split
  · trivial
  · exact only_sys ⟨rfl, trivial⟩

theorem createWorkParent_quiet (path : String) : Quietly plans (createWorkParent path).run :=
  only_io (only_sys ⟨rfl, trivial⟩)

theorem copyStagedChild_quiet (relativePath source child : String) :
    Quietly plans (copyStagedChild relativePath source child).run := by
  refine Prog.Only.runBind (only_io (only_sys ⟨rfl, trivial⟩)) fun _ => ?_
  refine Prog.Only.runBind (only_io (only_sys ⟨rfl, trivial⟩)) fun found => ?_
  split
  · exact only_io (only_sys ⟨rfl, trivial⟩)
  · exact Prog.Only.runBind (createWorkParent_quiet _) fun _ => only_io (copyFile_quiet _ _)
  · exact Prog.Only.runBind (createWorkParent_quiet _) fun _ =>
      Prog.Only.runBind (only_io (only_sys ⟨rfl, trivial⟩)) fun _ => only_io (only_sys ⟨rfl, trivial⟩)
  · trivial

theorem copyStagedChildren_quiet (relativePath source : String) (children : List String) :
    Quietly plans (copyStagedChildren relativePath source children).run := by
  induction children with
  | nil => trivial
  | cons child rest ih =>
    exact Prog.Only.runBind (copyStagedChild_quiet relativePath source child) fun _ => ih

theorem prepareWorkEntry_quiet : Quietly plans (prepareWorkEntry config k entry).run := by
  refine Prog.Only.runBind (createWorkParent_quiet _) fun _ => ?_
  split
  · refine Prog.Only.runBind (only_io (only_sys ⟨rfl, trivial⟩)) fun _ => ?_
    refine Prog.Only.runBind (only_io (only_sys ⟨rfl, trivial⟩)) fun children => ?_
    exact Prog.Only.runBind (copyStagedChildren_quiet _ _ children) fun _ => trivial
  · exact Prog.Only.runBind (only_io (copyFile_quiet _ _)) fun _ => trivial
  · refine Prog.Only.runBind (only_io (only_sys ⟨rfl, trivial⟩)) fun _ => ?_
    exact Prog.Only.runBind (only_io (only_sys ⟨rfl, trivial⟩)) fun _ => trivial

section Transform

variable {ok : RunOp → Prop}

theorem awaitTransform_only (hwait : ok .tryWait) (name : String) {running : Call Unit}
    (h : running.Only ok) (n : Nat) : (awaitTransform name running n).run.Only ok := by
  induction n with
  | zero => exact only_io (only_sys hwait)
  | succ n ih =>
    exact Prog.Only.runBind (only_io (only_sys hwait)) fun _ =>
      Prog.Only.runBind (Prog.Only.runLift h) fun _ => ih

theorem checkExpectedOutputs_only (h : ∀ path, ok (.destinationKind path)) (paths : List String) :
    (checkExpectedOutputs paths).run.Only ok := by
  induction paths with
  | nil => trivial
  | cons path rest ih =>
    refine Prog.Only.runBind (only_io (only_sys (h path))) fun found => ?_
    split
    · trivial
    · exact ih

theorem applyTransformForTarget_only (hreports : ∀ o : RunOp, o.reports = true → ok o)
    (hwait : ok .tryWait) (hreap : ok .reap) (hkind : ∀ path, ok (.destinationKind path))
    (name : String) (d : TransformDefinition) (workPath : String)
    {target : ResolvedDestinationPlan} (hspawn : ∀ c : TransformCall, c.target = target → ok (.spawn c))
    (i n : Nat) (current : String) :
    (applyTransformForTarget config k name d workPath target i n current).run.Only ok := by
  have hprogress : ∀ state, (writeProgressBestEffort config k state i n current name).Only ok :=
    fun state => writeProgressBestEffort_only config k hreports state i n current name
  refine Prog.Only.runBind trivial fun _ => ?_
  split
  · trivial
  · refine Prog.Only.runBind trivial fun _ => ?_
    refine Prog.Only.runBind (Prog.Only.runLift (hprogress _)) fun _ => ?_
    refine Prog.Only.runBind (only_io (only_sys (hspawn _ rfl))) fun polls => ?_
    refine Prog.Only.runBind (awaitTransform_only hwait name (hprogress _) polls) fun _ => ?_
    refine Prog.Only.runBind (only_ask hreap) fun exit => ?_
    split
    · trivial
    · refine Prog.Only.runBind (Prog.Only.runLift (hprogress _)) fun _ => ?_
      refine Prog.Only.runBind trivial fun expected => ?_
      exact Prog.Only.runBind (checkExpectedOutputs_only hkind expected) fun _ => trivial

end Transform

theorem applyTransformForTarget_quiet (name : String) (d : TransformDefinition)
    (workPath : String) {target : ResolvedDestinationPlan} (h : plans target) (i n : Nat)
    (current : String) :
    Quietly plans (applyTransformForTarget config k name d workPath target i n current).run :=
  applyTransformForTarget_only config k (fun _ => RunOp.reports_quiet) ⟨rfl, trivial⟩ ⟨rfl, trivial⟩
    (fun _ => ⟨rfl, trivial⟩) name d workPath (fun c hc => ⟨rfl, show plans c.target from hc ▸ h⟩) i n
    current

theorem importEntry_quiet (h : ∀ p, plans p) (i n : Nat) (destination : DestinationPath) :
    Quietly plans (importEntry host config k entry i n destination).run := by
  unfold importEntry
  split
  · trivial
  · refine Prog.Only.runBind (checkStaged_quiet host config k entry) fun _ => ?_
    refine Prog.Only.runBind (loadOrResolveDestinationPlan_quiet entry h destination) fun _ => ?_
    refine Prog.Only.runBind (prepareWorkEntry_quiet config k entry) fun _ => ?_
    split
    · trivial
    · exact applyTransformForTarget_quiet config k _ _ _ (h _) i n _

theorem processManifestEntry_quiet (h : ∀ p, plans p) (i n : Nat)
    (destination : DestinationPath) :
    Quietly plans (processManifestEntry host config k entry i n destination) := by
  refine Prog.Only.bind (importEntry_quiet host config k entry h i n destination) fun r => ?_
  cases r <;> trivial

end Entry

end Purgery.Server
