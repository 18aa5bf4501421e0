import Purgery.Core.Placement

namespace Purgery.Client

open Purgery.Path
open Purgery.DestinationPath (trimEndSlashes)

/-! The source operand of a sync. -/

inductive SourceKind where
  | regularFile
  | directory
  | symlink
  deriving DecidableEq

/-- The local path for rsync, and the name that the manifest, the staged path
and the cleanup use. -/
structure SourceSpec where
  rawInput : String
  operationPath : String
  sourceEntryName : String
  kind : SourceKind
  deriving DecidableEq

/-- A current directory, by the names that lead to it from the root. -/
structure CurrentDir where
  names : List String
  entries : ∀ n ∈ names, EntryName n

def CurrentDir.path (dir : CurrentDir) : String := "/" ++ joinSlash dir.names

/-- What the process asks the system: its current directory, and what kind of
entry a path names (`none` is one that is not supported). -/
structure Surroundings where
  currentDir : Except String CurrentDir
  symlinkMetadata : String → Except String (Option SourceKind)

section Normalize

variable (env : Surroundings) (source : String)

/-- Strip trailing slashes and resolve `.` and `..`. -/
def normalizeOperand : Except String (String × String) :=
  if source == "." || source == ".." then
    match env.currentDir with
    | .error e => .error ("failed to resolve current directory: " ++ e)
    | .ok cwd =>
      let target := if source == ".." then (parent cwd.path).getD cwd.path else cwd.path
      match fileName target with
      | none => .error ("cannot determine source entry name for '" ++ source ++ "'")
      | some name =>
        if name.isEmpty then
          .error ("cannot determine source entry name for '" ++ source ++
            "': resolved path has no name")
        else .ok (target, name)
  else
    let stripped := String.ofList (trimEndSlashes source.toList)
    match fileName stripped with
    | none => .error ("cannot determine source entry name from path: " ++ source)
    | some name =>
      if name.isEmpty then .error ("cannot determine source entry name from path: " ++ source)
      else .ok (stripped, name)

def normalizeSource : Except String SourceSpec :=
  if source == "/" then .error "cannot use root path as source entry: /"
  else
    match normalizeOperand env source with
    | .error e => .error e
    | .ok (operationPath, sourceEntryName) =>
      match env.symlinkMetadata operationPath with
      | .error _ => .error ("source path does not exist: " ++ operationPath)
      | .ok none => .error ("unsupported source kind: " ++ source)
      | .ok (some kind) => .ok ⟨source, operationPath, sourceEntryName, kind⟩

end Normalize

section Operand

variable {env : Surroundings} {source operationPath name : String} {spec : SourceSpec}
variable {cs : List Char} {n : Nat}

theorem names_getLast? (hne : lastPart cs ≠ []) (hdot : lastPart cs ≠ ['.']) :
    (names cs).getLast? = some (String.ofList (lastPart cs)) := by
  have hsplit : splitSlash cs = (splitSlash cs).dropLast ++ [lastPart cs] :=
    (List.dropLast_append_getLast (splitSlash_ne_nil cs)).symm
  have hempty : String.ofList (lastPart cs) ≠ "" := by simpa using hne
  have hplain : String.ofList (lastPart cs) ≠ "." := by
    intro heq
    have hlist := congrArg String.toList heq
    rw [String.toList_ofList] at hlist
    exact hdot hlist
  unfold names
  rw [hsplit, List.map_append, List.filter_append]
  simp [hempty, hplain]

/-- The name of a path whose text ends with neither a slash nor a lone dot is
what its text ends with. -/
theorem fileName_ofList (hne : lastPart cs ≠ []) (hdot : lastPart cs ≠ ['.'])
    (h : fileName (String.ofList cs) = some name) : name = String.ofList (lastPart cs) := by
  have hlast : (components (String.ofList cs)).getLast? = some (String.ofList (lastPart cs)) := by
    rw [components_eq, String.toList_ofList]
    have hnames := names_getLast? hne hdot
    split
    · rw [List.getLast?_cons, hnames]
      rfl
    · exact hnames
  unfold fileName at h
  rw [hlast] at h
  split at h
  · exact nomatch h
  · exact nomatch h
  · exact (Option.some.inj h).symm

theorem fileName_plain {p : String} (h : fileName p = some name) : name ≠ "." ∧ name ≠ ".." := by
  unfold fileName at h
  split at h
  · exact nomatch h
  · exact nomatch h
  · rename_i hdots hdot
    exact ⟨fun heq => hdot (heq ▸ h), fun heq => hdots (heq ▸ h)⟩

/-- The operand is taken as a path of its own. -/
theorem normalizeOperand_path (hdot : source ≠ ".") (hdots : source ≠ "..") :
    normalizeOperand env source = .ok (operationPath, name) ↔
      operationPath = String.ofList (trimEndSlashes source.toList) ∧
        fileName operationPath = some name ∧ name ≠ "" := by
  have hspecial : (source == "." || source == "..") = false := by simp [hdot, hdots]
  simp only [normalizeOperand, hspecial, Bool.false_eq_true, if_false]
  cases hname : fileName (String.ofList (trimEndSlashes source.toList)) with
  | none =>
    refine ⟨nofun, ?_⟩
    rintro ⟨rfl, h, -⟩
    rw [hname] at h
    exact nomatch h
  | some stem =>
    by_cases hempty : stem = ""
    · subst hempty
      refine ⟨fun h => by simp at h, ?_⟩
      rintro ⟨rfl, h, hne⟩
      rw [hname] at h
      exact absurd (Option.some.inj h).symm hne
    · have hisEmpty : stem.isEmpty = false := by simpa using hempty
      simp only [hisEmpty, Bool.false_eq_true, if_false, Except.ok.injEq, Prod.mk.injEq]
      constructor
      · rintro ⟨rfl, rfl⟩
        exact ⟨rfl, hname, hempty⟩
      · rintro ⟨rfl, h, -⟩
        rw [hname] at h
        exact ⟨rfl, Option.some.inj h⟩

theorem normalizeSource_ok :
    normalizeSource env source = .ok spec ↔ source ≠ "/" ∧ spec.rawInput = source ∧
      normalizeOperand env source = .ok (spec.operationPath, spec.sourceEntryName) ∧
      env.symlinkMetadata spec.operationPath = .ok (some spec.kind) := by
  obtain ⟨rawInput, operationPath, sourceEntryName, kind⟩ := spec
  unfold normalizeSource
  by_cases hroot : source = "/"
  · simp [hroot]
  · have hne : (source == "/") = false := by simp [hroot]
    simp only [hne, Bool.false_eq_true, if_false, ne_eq, hroot, not_false_eq_true, true_and]
    cases normalizeOperand env source with
    | error e => simp
    | ok found =>
      obtain ⟨path, name⟩ := found
      simp only [Except.ok.injEq, Prod.mk.injEq]
      cases hkind : env.symlinkMetadata path with
      | error e =>
        refine ⟨nofun, ?_⟩
        rintro ⟨-, ⟨rfl, -⟩, h⟩
        rw [hkind] at h
        exact nomatch h
      | ok found =>
        cases found with
        | none =>
          refine ⟨nofun, ?_⟩
          rintro ⟨-, ⟨rfl, -⟩, h⟩
          rw [hkind] at h
          exact nomatch h
        | some found =>
          simp only [Except.ok.injEq, SourceSpec.mk.injEq]
          constructor
          · rintro ⟨rfl, rfl, rfl, rfl⟩
            exact ⟨rfl, ⟨rfl, rfl⟩, hkind⟩
          · rintro ⟨rfl, ⟨rfl, rfl⟩, h⟩
            rw [hkind] at h
            cases h
            exact ⟨rfl, rfl, rfl, rfl⟩

theorem trimEndSlashes_replicate (cs : List Char) (n : Nat) :
    trimEndSlashes (cs ++ List.replicate n '/') = trimEndSlashes cs := by
  induction n with
  | zero => rw [List.replicate_zero, List.append_nil]
  | succ n ih =>
    rw [List.replicate_succ', ← List.append_assoc, DestinationPath.trimEndSlashes_slash, ih]

def withSlashes (source : String) (n : Nat) : String :=
  source ++ String.ofList (List.replicate n '/')

theorem toList_withSlashes : (withSlashes source n).toList = source.toList ++ List.replicate n '/' := by
  simp [withSlashes]

theorem withSlashes_ne {s : String} (hplain : '/' ∉ s.toList) (hne : source ≠ s) :
    withSlashes source n ≠ s := by
  rintro rfl
  rw [toList_withSlashes, List.mem_append, not_or] at hplain
  have hzero : n = 0 := by
    by_contra hn
    exact hplain.2 (List.mem_replicate.2 ⟨hn, rfl⟩)
  subst hzero
  exact hne (by simp [withSlashes])

/-- All spellings of the operand name the same entry, and the path for rsync
ends with the name of the entry. -/
def Consistent (env : Surroundings) (source : String) (spec : SourceSpec) : Prop :=
  (∀ n, ∃ spec', normalizeSource env (withSlashes source n) = .ok spec' ∧
    spec'.operationPath = spec.operationPath ∧ spec'.sourceEntryName = spec.sourceEntryName) ∧
  String.ofList (lastPart spec.operationPath.toList) = spec.sourceEntryName

/-- What is left of an operand without its slashes is not a lone dot. -/
def NoLoneDot (source : String) : Prop := lastPart (trimEndSlashes source.toList) ≠ ['.']

instance (source : String) : Decidable (NoLoneDot source) := inferInstanceAs (Decidable (_ ≠ _))

/-- The working directory and its parent are only found without a slash. -/
theorem normalizeSource_special (hspecial : source = "." ∨ source = "..") :
    ∀ spec, normalizeSource env (withSlashes source 1) ≠ .ok spec := by
  intro spec h
  obtain ⟨-, -, hoperand, -⟩ := normalizeSource_ok.1 h
  have hnone : fileName (String.ofList (trimEndSlashes (withSlashes source 1).toList)) = none := by
    obtain rfl | rfl := hspecial <;> decide +kernel
  have hdot : withSlashes source 1 ≠ "." := by
    obtain rfl | rfl := hspecial <;> decide
  have hdots : withSlashes source 1 ≠ ".." := by
    obtain rfl | rfl := hspecial <;> decide
  obtain ⟨hpath, hname, -⟩ := (normalizeOperand_path hdot hdots).1 hoperand
  rw [hpath, hnone] at hname
  exact nomatch hname

theorem NoLoneDot.consistent (h : normalizeSource env source = .ok spec) (hdots : source ≠ "..")
    (hlone : NoLoneDot source) : Consistent env source spec := by
  obtain ⟨hroot, hraw, hoperand, hkind⟩ := normalizeSource_ok.1 h
  have hdot : source ≠ "." := by
    rintro rfl
    exact hlone (by decide)
  obtain ⟨hpath, hname, hempty⟩ := (normalizeOperand_path hdot hdots).1 hoperand
  have htrim : trimEndSlashes source.toList ≠ [] := by
    intro hnil
    rw [hpath, hnil] at hname
    exact absurd hname (by simp [fileName, components, splitSlash, isAbsolute])
  refine ⟨fun n => ?_, ?_⟩
  · refine ⟨{ spec with rawInput := withSlashes source n }, ?_, rfl, rfl⟩
    refine normalizeSource_ok.2 ⟨?_, rfl, ?_, hkind⟩
    · intro heq
      have hslash := congrArg (fun s => trimEndSlashes s.toList) heq
      simp only [toList_withSlashes, trimEndSlashes_replicate] at hslash
      exact htrim (hslash.trans (by decide))
    · refine (normalizeOperand_path (withSlashes_ne (by decide) hdot)
        (withSlashes_ne (by decide) hdots)).2 ⟨?_, hname, hempty⟩
      rw [toList_withSlashes, trimEndSlashes_replicate]
      exact hpath
  · rw [hpath, String.toList_ofList]
    rw [hpath] at hname
    exact (fileName_ofList (DestinationPath.lastPart_trimEndSlashes htrim) hlone hname).symm

/-- Only `..` and the operands that end with a lone dot are taken in more ways
than one. -/
theorem source_operands_consistent (env : Surroundings) (source : String) (spec : SourceSpec)
    (h : normalizeSource env source = .ok spec) :
    Consistent env source spec ↔ source ≠ ".." ∧ NoLoneDot source := by
  constructor
  · rintro ⟨hslashes, hlast⟩
    have hspecial : ¬ (source = "." ∨ source = "..") := fun hspecial => by
      obtain ⟨spec', hspec', -⟩ := hslashes 1
      exact normalizeSource_special hspecial spec' hspec'
    obtain ⟨hdot, hdots⟩ := not_or.1 hspecial
    refine ⟨hdots, fun hlone => ?_⟩
    obtain ⟨-, -, hoperand, -⟩ := normalizeSource_ok.1 h
    obtain ⟨hpath, hname, -⟩ := (normalizeOperand_path hdot hdots).1 hoperand
    rw [hpath, String.toList_ofList, hlone] at hlast
    exact (fileName_plain hname).1 hlast.symm
  · rintro ⟨hdots, hlone⟩
    exact hlone.consistent h hdots

section Sample

/-- A process in `/home/u`, where all paths name directories. -/
def atHome : Surroundings :=
  ⟨.ok ⟨["home", "u"], by decide⟩, fun _ => .ok (some .directory)⟩

theorem source_operands_consistent_videos :
    Consistent atHome "Videos//" ⟨"Videos//", "Videos", "Videos", .directory⟩ :=
  (source_operands_consistent atHome "Videos//" ⟨"Videos//", "Videos", "Videos", .directory⟩
    (by decide +kernel)).2 ⟨by decide, by decide⟩

/-- The current directory is accepted as `.` only, and a dot after a slash stays
in the path for rsync. -/
theorem source_operands_differ :
    normalizeSource atHome "." = .ok ⟨".", "/home/u", "u", .directory⟩ ∧
      normalizeSource atHome "./" =
        .error "cannot determine source entry name from path: ./" ∧
      normalizeSource atHome "Videos/." = .ok ⟨"Videos/.", "Videos/.", "Videos", .directory⟩ ∧
      ¬ Consistent atHome "." ⟨".", "/home/u", "u", .directory⟩ ∧
      ¬ Consistent atHome "Videos/." ⟨"Videos/.", "Videos/.", "Videos", .directory⟩ := by
  refine ⟨by decide +kernel, by decide +kernel, by decide +kernel, ?_, ?_⟩
  · rintro ⟨hslashes, -⟩
    obtain ⟨spec, hspec, -⟩ := hslashes 1
    exact normalizeSource_special (.inl rfl) spec hspec
  · rintro ⟨-, hlast⟩
    exact absurd hlast (by decide +kernel)

end Sample

end Operand

end Purgery.Client
