import Purgery.Client.Capture
import Purgery.Core.Lookup
import Purgery.Core.Subpaths

namespace Purgery.Client

open Purgery.Path
open Purgery.Interleaving
open Purgery.Server (FileKind IoError)

section Places

variable (spec : SourceSpec)

/-- The place that these names lead to from the source. -/
def SourceSpec.at (ns : List String) : Location :=
  (isAbsolute spec.operationPath, components spec.operationPath ++ ns)

/-- The path with which the client speaks of the place. -/
def SourceSpec.pathOf (ns : List String) : String :=
  if ns = [] then spec.operationPath else join spec.operationPath (joinSlash ns)

def SourceSpec.relativeOf (ns : List String) : String :=
  if ns = [] then spec.sourceEntryName else spec.sourceEntryName ++ "/" ++ joinSlash ns

/-- A source entry that can be captured: a file, a symlink or a tree of directories,
files and symlinks, and an operand whose last segment is the name of the entry. -/
structure Source (t : LocalTree) (spec : SourceSpec) : Prop where
  nodup : (t.map Prod.fst).Nodup
  name : EntryName spec.sourceEntryName
  operand : lastPart spec.operationPath.toList = spec.sourceEntryName.toList
  way : t.absent spec.operationPath = .notFound
  root : (t.find spec.operationPath).isSome = true
  names : ∀ ns, (t.lookup (spec.at ns)).isSome = true → Names ns
  parent : ∀ ns m, (t.lookup (spec.at (ns ++ [m]))).isSome = true →
    t.lookup (spec.at ns) = some .dir
  supported : ∀ ns, t.lookup (spec.at ns) ≠ some .other

/-- What the ledger says of an object. -/
def SourceSpec.entryOf (sha : List UInt8 → String) (ns : List String) : LocalNode → CleanupEntry
  | .file bytes modified =>
    fileEntryOf (spec.relativeOf ns) (spec.pathOf ns) bytes.length (mtimeNs modified) (sha bytes)
  | .symlink target => symlinkEntry (spec.relativeOf ns) (spec.pathOf ns) target
  | .dir | .other => directoryEntry (spec.relativeOf ns) (spec.pathOf ns)

end Places

section Lookup

variable {t : LocalTree} {spec : SourceSpec} {ns ms : List String} {n : LocalNode} {p : String}
variable {l : Location}

theorem locate_pathOf (h : Names ns) : locate (spec.pathOf ns) = spec.at ns := by
  unfold SourceSpec.pathOf SourceSpec.at locate
  split
  · rename_i hnil
    rw [hnil, List.append_nil]
  · rename_i hne
    obtain ⟨hcomponents, habs⟩ := components_below spec.operationPath hne h
    rw [hcomponents, habs]

theorem find_pathOf (h : Names ns) : t.find (spec.pathOf ns) = t.lookup (spec.at ns) := by
  rw [LocalTree.find, locate_pathOf h]

theorem at_injective (h : spec.at ns = spec.at ms) : ns = ms :=
  List.append_cancel_left (Prod.mk.inj h).2

theorem lookup_erase : (t.erase p).lookup l = if l = locate p then none else t.lookup l :=
  lookup_filter_ne (locate p)

/-- The names in a directory are those of the objects right below it. -/
theorem mem_children (hnodup : (t.map Prod.fst).Nodup) {m : String} : m ∈ t.children p ↔
    (t.lookup (isAbsolute p, components p ++ [m])).isSome = true := by
  rw [LocalTree.children, List.mem_filterMap, Option.isSome_iff_exists]
  constructor
  · rintro ⟨⟨⟨a, cs⟩, n⟩, he, hm⟩
    simp only at hm
    split at hm
    · rename_i hchild
      obtain ⟨rfl, hdir⟩ := hchild
      have hcs : cs = components p ++ [m] := by
        rw [← hdir]
        exact (List.dropLast_append_getLast? m hm).symm
      exact ⟨n, lookup_of_mem hnodup (hcs ▸ he)⟩
    · exact nomatch hm
  · rintro ⟨n, hn⟩
    exact ⟨((isAbsolute p, components p ++ [m]), n), mem_of_lookup hn, by simp⟩

/-- The names of what is below a directory. -/
theorem mem_below (hnodup : (t.map Prod.fst).Nodup) : ns ∈ t.below p ↔
    ns ≠ [] ∧ (t.lookup (isAbsolute p, components p ++ ns)).isSome = true := by
  rw [LocalTree.below, List.mem_filterMap, Option.isSome_iff_exists]
  constructor
  · rintro ⟨⟨⟨a, cs⟩, n⟩, he, hm⟩
    simp only at hm
    split at hm
    · rename_i hbelow
      obtain ⟨rfl, ⟨ms, rfl⟩, hne⟩ := hbelow
      rw [List.drop_left] at hm
      obtain rfl := Option.some.inj hm
      refine ⟨?_, n, lookup_of_mem hnodup he⟩
      rintro rfl
      exact hne (List.append_nil _)
    · exact nomatch hm
  · rintro ⟨hne, n, hn⟩
    exact ⟨((isAbsolute p, components p ++ ns), n), mem_of_lookup hn, by simp [hne]⟩

theorem nodup_below (hnodup : (t.map Prod.fst).Nodup) : (t.below p).Nodup := by
  have hkeys : t.below p = (t.map Prod.fst).filterMap fun l =>
      if l.1 = isAbsolute p ∧ components p <+: l.2 ∧ l.2 ≠ components p then
        some (l.2.drop (components p).length)
      else none := by
    rw [List.filterMap_map]
    rfl
  rw [hkeys]
  refine hnodup.filterMap fun l l' ns hns hns' => ?_
  obtain ⟨a, cs⟩ := l
  obtain ⟨a', cs'⟩ := l'
  simp only [Option.mem_def, Option.ite_none_right_eq_some, Option.some.injEq] at hns hns'
  obtain ⟨⟨rfl, ⟨ms, rfl⟩, -⟩, rfl⟩ := hns
  obtain ⟨⟨rfl, ⟨ms', rfl⟩, -⟩, heq⟩ := hns'
  rw [List.drop_left, List.drop_left] at heq
  rw [heq]

theorem Source.dir_above (h : Source t spec)
    (hsome : (t.lookup (spec.at (ns ++ ms))).isSome = true) (hms : ms ≠ []) :
    t.lookup (spec.at ns) = some .dir := by
  induction ms using List.reverseRecOn with
  | nil => exact absurd rfl hms
  | append_singleton ms m ih =>
    rw [← List.append_assoc] at hsome
    have hparent := h.parent _ _ hsome
    by_cases hnil : ms = []
    · subst hnil
      rwa [List.append_nil] at hparent
    · exact ih (by rw [hparent]; rfl) hnil

theorem Source.direct (h : Source t spec) (hsome : (t.lookup (spec.at ns)).isSome = true) :
    t.direct spec.operationPath ns = true := by
  refine List.all_eq_true.2 fun i hi => beq_iff_eq.2 ?_
  have hlt := List.mem_range.1 hi
  have hparts : (t.lookup (spec.at (ns.take i ++ ns.drop i))).isSome = true := by
    rwa [List.take_append_drop]
  refine h.dir_above hparts ?_
  rw [Ne, List.drop_eq_nil_iff]
  omega

end Lookup

section Calm

/-- The calls that do not fail for reasons of their own. -/
def FileOp.calm : (o : FileOp) → o.Choice → Prop
  | .walk _, x => x.1 = none ∧ ∀ ns, x.2.2 ns = true
  | _, x => x.1 = none

def calmFile (sha : List UInt8 → String) : Alone FileOp FileOp.Res FileOp.Choice LocalTree where
  step o x t := o.step sha x t
  admits o x := o.calm x
  sound _ _ := True

variable {sha : List UInt8 → String} {t : LocalTree} {spec : SourceSpec} {ns : List String}
variable {n : LocalNode} {p : String}

theorem calmFile_lift {ε : Type} {o : FileOp} {Q : o.Res → LocalTree → Prop}
    (h : ∀ x, o.calm x → Q (o.step sha x t).1 (o.step sha x t).2) :
    (calmFile sha).Succeeds (ExceptT.lift (file o) : ExceptT ε FileCall o.Res) Q t :=
  .lift fun x hx => ⟨trivial, h x hx⟩

theorem calmFile_adapt {ε ε' α : Type} {c : FileCall (Except ε' α)} {f : ε' → ε}
    {P : α → LocalTree → Prop} (h : (calmFile sha).wp c (fun r t => ∃ a, r = .ok a ∧ P a t) t) :
    (calmFile sha).Succeeds (ExceptT.adapt f (ExceptT.mk c)) P t :=
  .adapt h

theorem calm_symlinkMetadata (hn : t.find p = some n) (x : (FileOp.symlinkMetadata p).Choice)
    (hx : (FileOp.symlinkMetadata p).calm x) :
    (FileOp.symlinkMetadata p).step sha x t = (.ok n.metadata, t) := by
  obtain ⟨fault, x⟩ := x
  obtain rfl : fault = none := hx
  simp [FileOp.step, FileOp.run, hn]

theorem calm_metadata {bytes : List UInt8} {modified : Int}
    (hn : t.find p = some (.file bytes modified)) (x : (FileOp.metadata p).Choice)
    (hx : (FileOp.metadata p).calm x) :
    (FileOp.metadata p).step sha x t = (.ok ⟨.regularFile, bytes.length, modified⟩, t) := by
  obtain ⟨fault, x⟩ := x
  obtain rfl : fault = none := hx
  simp [FileOp.step, FileOp.run, hn, LocalNode.metadata]

theorem calm_sha256 {bytes : List UInt8} {modified : Int}
    (hn : t.find p = some (.file bytes modified)) (x : (FileOp.sha256 p).Choice)
    (hx : (FileOp.sha256 p).calm x) : (FileOp.sha256 p).step sha x t = (.ok (sha bytes), t) := by
  obtain ⟨fault, x⟩ := x
  obtain rfl : fault = none := hx
  simp [FileOp.step, FileOp.run, hn]

theorem calm_readLink {target : String} (hn : t.find p = some (.symlink target))
    (x : (FileOp.readLink p).Choice) (hx : (FileOp.readLink p).calm x) :
    (FileOp.readLink p).step sha x t = (.ok target, t) := by
  obtain ⟨fault, x⟩ := x
  obtain rfl : fault = none := hx
  simp [FileOp.step, FileOp.run, hn]

variable (sha) in
/-- A walk comes to every object below the source, in any order. -/
theorem calm_walk (h : Source t spec) (x : (FileOp.walk spec.operationPath).Choice)
    (hx : (FileOp.walk spec.operationPath).calm x) :
    ∃ nss : List (List String), (FileOp.walk spec.operationPath).step sha x t =
        (nss.map spec.pathOf, t) ∧
      ∀ ns, ns ∈ nss ↔ ns ≠ [] ∧ (t.lookup (spec.at ns)).isSome = true := by
  obtain ⟨fault, order, keep⟩ := x
  obtain ⟨rfl, hkeep⟩ : fault = none ∧ ∀ ns, keep ns = true := hx
  have hall : (t.below spec.operationPath).filter
      (fun ns => t.direct spec.operationPath ns && keep ns) = t.below spec.operationPath := by
    refine List.filter_eq_self.2 fun ns hns => ?_
    rw [h.direct ((mem_below h.nodup).1 hns).2, hkeep]
    rfl
  have hperm := arrange_perm order (nodup_below h.nodup (p := spec.operationPath))
  refine ⟨arrange order (t.below spec.operationPath), ?_, fun ns => ?_⟩
  · simp only [FileOp.step, FileOp.run, hall]
    refine Prod.ext (List.map_congr_left fun ns hns => ?_) rfl
    rw [SourceSpec.pathOf, if_neg ((mem_below h.nodup).1 (hperm.mem_iff.1 hns)).1]
  · rw [hperm.mem_iff, mem_below h.nodup]
    exact Iff.rfl

end Calm

end Purgery.Client
