import Mathlib.Data.List.Forall2
import Purgery.Core.Outputs
import Purgery.Server.Report

namespace Purgery.Server

open Purgery.Interleaving
open Path (fileName EntryName names)
open TransformDefinition (Confined Confining samplePlan)

section Work

variable {config : ServerConfig} {k : RunKey} {entry : ManifestEntry} {σ : Type}
variable {step : (o : RunOp) → σ → o.Res × σ} {s : σ} {work : String}

theorem prepareWorkEntry_path
    (h : ((prepareWorkEntry config k entry).run.solo step s).1 = .ok work) :
    work = Path.join (workDir config.workDir k) entry.relativePath.asStr := by
  unfold prepareWorkEntry at h
  obtain ⟨_, s₁, -, h⟩ := Prog.solo_bind_ok h
  cases hkind : entry.kind with
  | directory =>
    rw [hkind] at h
    obtain ⟨_, s₂, -, h⟩ := Prog.solo_bind_ok h
    obtain ⟨_, s₃, -, h⟩ := Prog.solo_bind_ok h
    obtain ⟨_, s₄, -, h⟩ := Prog.solo_bind_ok h
    exact (Except.ok.inj h).symm
  | regularFile =>
    rw [hkind] at h
    obtain ⟨_, s₂, -, h⟩ := Prog.solo_bind_ok h
    exact (Except.ok.inj h).symm
  | symlink =>
    rw [hkind] at h
    obtain ⟨_, s₂, -, h⟩ := Prog.solo_bind_ok h
    obtain ⟨_, s₃, -, h⟩ := Prog.solo_bind_ok h
    exact (Except.ok.inj h).symm

theorem prepareWorkEntry_fileName
    (h : ((prepareWorkEntry config k entry).run.solo step s).1 = .ok work) :
    fileName work = some ((fileName entry.relativePath.asStr).getD "") := by
  obtain rfl := prepareWorkEntry_path h
  obtain ⟨ns, hne, hns, hpath⟩ := entry.relativePath.exists_names
  have habs : Path.isAbsolute (workDir config.workDir k) = true := by
    unfold workDir ServerWorkDir.runDir
    exact Path.isAbsolute_join (Path.isAbsolute_join (Path.isAbsolute_join
      (ServerWorkDir.nicknameDir_absolute _ _)))
  have hrel : Path.isAbsolute entry.relativePath.asStr = false := by
    rw [hpath]
    exact Path.isAbsolute_joinSlash hne hns
  have hlast : (Path.components entry.relativePath.asStr).getLast? = some (ns.getLast hne) := by
    rw [hpath, Path.components_joinSlash hne hns, List.getLast?_eq_some_getLast hne]
  have hjoined : (Path.components (Path.join (workDir config.workDir k)
      entry.relativePath.asStr)).getLast? = some (ns.getLast hne) := by
    rw [Path.components_absolute (Path.isAbsolute_join habs), Path.names_join habs hrel, hpath,
      Path.names_joinSlash hne hns, List.getLast?_append_of_ne_nil _ hne,
      List.getLast?_eq_some_getLast hne]
  have hname := hns _ (List.getLast_mem hne)
  have hplain : ∀ p : String, (Path.components p).getLast? = some (ns.getLast hne) →
      fileName p = some (ns.getLast hne) := by
    intro p hp
    unfold fileName
    rw [hp]
    split
    · rename_i heq
      exact absurd (Option.some.inj heq) hname.plain.2
    · rename_i heq
      exact absurd (Option.some.inj heq) hname.plain.1
    · rfl
  rw [hplain _ hjoined, hplain _ hlast]
  rfl

/-- The expected outputs of accepted patterns stay below the target directory
exactly if the parts of every pattern are safe for the names at hand. -/
theorem expected_outputs_confined (config : ServerConfig) (k : RunKey) (entry : ManifestEntry)
    (step : (o : RunOp) → σ → o.Res × σ) (s : σ)
    (h : ((prepareWorkEntry config k entry).run.solo step s).1 = .ok work)
    (d : TransformDefinition) (hd : validateTransformDefinition d = .ok ())
    (target : ResolvedDestinationPlan) (habs : Path.isAbsolute target.targetDirectory = true)
    (hdots : ".." ∉ Path.components target.targetDirectory) :
    (∃ outputs, d.resolveExpectedOutputsForTarget work target = .ok outputs ∧
      List.Forall₂ (Confined work target) d.expectedOutputs outputs) ↔
    ∀ pattern ∈ d.expectedOutputs,
      Confining ((fileName entry.relativePath.asStr).getD "") target pattern := by
  have hvalid := TransformDefinition.validated hd
  have hname := prepareWorkEntry_fileName h
  rw [TransformDefinition.resolve_valid hvalid]
  simp only [Except.ok.injEq, exists_eq_left', List.forall₂_map_right_iff, List.forall₂_same]
  refine forall₂_congr fun pattern hpattern => ?_
  exact TransformDefinition.outputPath_confined hname (hvalid pattern hpattern) habs hdots

end Work

section Sample

/-- One file of a run, with its path. -/
def fileEntry (path staged : NormalizedRelativePath) : ManifestEntry :=
  ⟨"/l/a", staged, path, .regularFile, 0, 0, none, none, some "t"⟩

def runOf (staged : String) : RunWorld Unit :=
  (worldWith Unit { sampleRun with tree := fun
    | .files => some [(staged, .file [])]
    | .work => some [] } 0 .processing).runs sampleKey

def stemOutput : TransformDefinition :=
  ⟨"t", .subprocess, "p", [], ["\x7bfile_stem\x7d"]⟩

theorem expected_outputs_confined_plain :
    (∃ outputs, stemOutput.resolveExpectedOutputsForTarget "/w/laptop/processing/r1/work/a"
      samplePlan = .ok outputs ∧ List.Forall₂ (Confined "/w/laptop/processing/r1/work/a"
        samplePlan) stemOutput.expectedOutputs outputs) ↔
    ∀ pattern ∈ stemOutput.expectedOutputs, Confining "a" samplePlan pattern :=
  expected_outputs_confined sampleConfig sampleKey (fileEntry samplePath sampleStaged)
    (undisturbed sampleHost () (fun o => o.plain) 0) (runOf "files/a") (by decide +kernel)
    stemOutput (by decide) samplePlan (by decide) (by decide)

def dotsPath : NormalizedRelativePath := ⟨"...", "...", by decide⟩

def dotsStaged : NormalizedRelativePath := ⟨"files/...", "files/...", by decide⟩

/-- The stem of a file named `...` is the parent directory. -/
theorem dots_climb :
    ((prepareWorkEntry sampleConfig sampleKey (fileEntry dotsPath dotsStaged)).run.solo
      (undisturbed sampleHost () (fun o => o.plain) 0) (runOf "files/...")).1 =
        .ok "/w/laptop/processing/r1/work/..." ∧
    validateTransformDefinition stemOutput = .ok () ∧
    stemOutput.resolveExpectedOutputsForTarget "/w/laptop/processing/r1/work/..." samplePlan =
      .ok ["/d/.."] ∧
    ".." ∈ Path.components "/d/.." := by
  refine ⟨?_, ?_, ?_, ?_⟩ <;> decide +kernel

end Sample

end Purgery.Server
