import Purgery.Client.Source

namespace Purgery.Client

open Purgery.Path
open Purgery.Interleaving
open Purgery.Server (FileKind IoError)

section Covers

variable {sha : List UInt8 → String} {t : LocalTree} {spec : SourceSpec} {ns : List String}
variable {P : List String → Prop} {n : LocalNode} {found : Found}

/-- What a walk that has come to these places has found. -/
structure Covers (sha : List UInt8 → String) (spec : SourceSpec) (t : LocalTree)
    (P : List String → Prop) (found : Found) : Prop where
  entries : ∀ e, e ∈ found.1 ↔ ∃ ns n, P ns ∧ t.lookup (spec.at ns) = some n ∧ n ≠ .dir ∧
    e = spec.entryOf sha ns n
  dirs : ∀ d, d ∈ found.2 ↔ ∃ ns, P ns ∧ t.lookup (spec.at ns) = some .dir ∧
    d = (spec.relativeOf ns, spec.pathOf ns)

theorem Covers.addDir (h : Covers sha spec t P found) (hn : t.lookup (spec.at ns) = some .dir) :
    Covers sha spec t (fun ms => P ms ∨ ms = ns)
      (found.1, found.2 ++ [(spec.relativeOf ns, spec.pathOf ns)]) where
  entries e := by
    rw [h.entries]
    constructor
    · rintro ⟨ms, n, hms, hrest⟩
      exact ⟨ms, n, .inl hms, hrest⟩
    · rintro ⟨ms, n, hms | rfl, hnode, hdir, he⟩
      · exact ⟨ms, n, hms, hnode, hdir, he⟩
      · rw [hn] at hnode
        exact absurd (Option.some_inj.1 hnode).symm hdir
  dirs d := by
    rw [List.mem_append, h.dirs, List.mem_singleton]
    constructor
    · rintro (⟨ms, hms, hrest⟩ | rfl)
      · exact ⟨ms, .inl hms, hrest⟩
      · exact ⟨ns, .inr rfl, hn, rfl⟩
    · rintro ⟨ms, hms | rfl, hnode, hd⟩
      · exact .inl ⟨ms, hms, hnode, hd⟩
      · exact .inr hd

theorem Covers.addEntry (h : Covers sha spec t P found) (hn : t.lookup (spec.at ns) = some n)
    (hdir : n ≠ .dir) :
    Covers sha spec t (fun ms => P ms ∨ ms = ns)
      (found.1 ++ [spec.entryOf sha ns n], found.2) where
  entries e := by
    rw [List.mem_append, h.entries, List.mem_singleton]
    constructor
    · rintro (⟨ms, m, hms, hrest⟩ | rfl)
      · exact ⟨ms, m, .inl hms, hrest⟩
      · exact ⟨ns, n, .inr rfl, hn, hdir, rfl⟩
    · rintro ⟨ms, m, hms | rfl, hnode, hm, he⟩
      · exact .inl ⟨ms, m, hms, hnode, hm, he⟩
      · rw [hn] at hnode
        obtain rfl := Option.some_inj.1 hnode
        exact .inr he
  dirs d := by
    rw [h.dirs]
    constructor
    · rintro ⟨ms, hms, hrest⟩
      exact ⟨ms, .inl hms, hrest⟩
    · rintro ⟨ms, hms | rfl, hnode, hd⟩
      · exact ⟨ms, hms, hnode, hd⟩
      · rw [hn] at hnode
        exact absurd (Option.some_inj.1 hnode) hdir

theorem captureChild_calm (hsource : Source t spec) (hne : ns ≠ [])
    (hn : t.lookup (spec.at ns) = some n) (h : Covers sha spec t P found) :
    (calmFile sha).Succeeds (captureChild spec (spec.pathOf ns) found)
      (fun found t' => t = t' ∧ Covers sha spec t (fun ms => P ms ∨ ms = ns) found) t := by
  have hnames : Names ns := hsource.names ns (by rw [hn]; rfl)
  have hfind : t.find (spec.pathOf ns) = some n := by rw [find_pathOf hnames, hn]
  have hrelative : stripPrefix (spec.pathOf ns) spec.operationPath = some (joinSlash ns) := by
    rw [SourceSpec.pathOf, if_neg hne, stripPrefix_below hne hnames]
  have hprefix : spec.sourceEntryName ++ "/" ++ joinSlash ns = spec.relativeOf ns := by
    rw [SourceSpec.relativeOf, if_neg hne]
  have hkind : (calmFile sha).Succeeds
      (ExceptT.lift (file (.symlinkMetadata (spec.pathOf ns))) : ExceptT String FileCall _)
      (fun r t' => t = t' ∧ r = .ok n.metadata) t :=
    calmFile_lift fun x hx => by simp [calm_symlinkMetadata hfind x hx]
  refine hkind.bind ?_
  rintro _ _ ⟨rfl, rfl⟩
  simp only [hrelative, hprefix]
  cases n with
  | dir => exact .pure ⟨rfl, h.addDir hn⟩
  | file bytes modified =>
    have hstat : (calmFile sha).Succeeds
        (ExceptT.lift (file (.metadata (spec.pathOf ns))) : ExceptT String FileCall _)
        (fun r t' => t = t' ∧ r = .ok ⟨.regularFile, bytes.length, modified⟩) t :=
      calmFile_lift fun x hx => by simp [calm_metadata hfind x hx]
    refine hstat.bind ?_
    rintro _ _ ⟨rfl, rfl⟩
    refine hstat.bind ?_
    rintro _ _ ⟨rfl, rfl⟩
    have hsha : (calmFile sha).Succeeds
        (ExceptT.adapt (fun _ => "SHA-256 failed for cleanup identity: " ++ spec.pathOf ns)
          (ExceptT.mk (file (.sha256 (spec.pathOf ns)))))
        (fun r t' => t = t' ∧ r = sha bytes) t :=
      calmFile_adapt fun x hx => by simp [calm_sha256 hfind x hx, calmFile]
    refine hsha.bind ?_
    rintro _ _ ⟨rfl, rfl⟩
    exact .pure ⟨rfl, h.addEntry hn (by rintro ⟨⟩)⟩
  | symlink target =>
    have htarget : (calmFile sha).Succeeds
        (ExceptT.adapt (fun _ => "failed to read symlink target: " ++ spec.pathOf ns)
          (ExceptT.mk (file (.readLink (spec.pathOf ns)))))
        (fun r t' => t = t' ∧ r = target) t :=
      calmFile_adapt fun x hx => by simp [calm_readLink hfind x hx, calmFile]
    refine htarget.bind ?_
    rintro _ _ ⟨rfl, rfl⟩
    exact .pure ⟨rfl, h.addEntry hn (by rintro ⟨⟩)⟩
  | other => exact absurd hn (hsource.supported ns)

theorem captureChildren_calm (hsource : Source t spec) {nss : List (List String)}
    (hnss : ∀ ns ∈ nss, ns ≠ [] ∧ (t.lookup (spec.at ns)).isSome = true)
    (h : Covers sha spec t P found) :
    (calmFile sha).Succeeds (captureChildren spec (nss.map spec.pathOf) found)
      (fun found t' => t = t' ∧ Covers sha spec t (fun ms => P ms ∨ ms ∈ nss) found) t := by
  induction nss generalizing P found with
  | nil =>
    refine .pure ⟨rfl, ?_⟩
    simpa using h
  | cons ns nss ih =>
    obtain ⟨⟨hne, hsome⟩, hrest⟩ := List.forall_mem_cons.1 hnss
    obtain ⟨n, hn⟩ := Option.isSome_iff_exists.1 hsome
    refine (captureChild_calm hsource hne hn h).bind ?_
    rintro found' _ ⟨rfl, h'⟩
    have hlater := ih hrest h'
    simpa only [List.mem_cons, or_assoc] using hlater

end Covers

section Captured

variable {sha : List UInt8 → String} {t : LocalTree} {spec : SourceSpec} {ns ms : List String}
variable {n : LocalNode} {entries : List CleanupEntry}

/-- Every object of the source has its entry, the deepest first. -/
structure Captured (sha : List UInt8 → String) (spec : SourceSpec) (t : LocalTree)
    (entries : List CleanupEntry) : Prop where
  all : ∀ e, e ∈ entries ↔ ∃ ns n, t.lookup (spec.at ns) = some n ∧ e = spec.entryOf sha ns n
  sorted : entries.Pairwise fun a b => b.depth ≤ a.depth

theorem Covers.captured {found : Found} (h : Covers sha spec t (fun _ => True) found)
    (hsource : Source t spec) :
    Captured sha spec t (sortByDepth (found.1 ++ found.2.reverse.map fun d =>
      directoryEntry d.1 d.2)) where
  all e := by
    rw [sortByDepth, (List.mergeSort_perm _ _).mem_iff, List.mem_append, h.entries, List.mem_map]
    constructor
    · rintro (⟨ns, n, -, hn, -, rfl⟩ | ⟨d, hd, rfl⟩)
      · exact ⟨ns, n, hn, rfl⟩
      · obtain ⟨ns, -, hn, rfl⟩ := (h.dirs d).1 (List.mem_reverse.1 hd)
        exact ⟨ns, .dir, hn, rfl⟩
    · rintro ⟨ns, n, hn, rfl⟩
      by_cases hdir : n = .dir
      · subst hdir
        exact .inr ⟨_, List.mem_reverse.2 ((h.dirs _).2 ⟨ns, trivial, hn, rfl⟩), rfl⟩
      · exact .inl ⟨ns, n, trivial, hn, hdir, rfl⟩
  sorted := by
    have htotal : ∀ a b : CleanupEntry,
        (decide (b.depth ≤ a.depth) || decide (a.depth ≤ b.depth)) = true := by
      intro a b
      simpa using Nat.le_total b.depth a.depth
    have htrans : ∀ a b c : CleanupEntry, decide (b.depth ≤ a.depth) = true →
        decide (c.depth ≤ b.depth) = true → decide (c.depth ≤ a.depth) = true := by
      intro a b c hab hbc
      simp only [decide_eq_true_eq] at hab hbc ⊢
      omega
    have hsorted := List.pairwise_mergeSort htrans htotal (found.1 ++ found.2.reverse.map fun d =>
      directoryEntry d.1 d.2)
    exact hsorted.imp fun hle => of_decide_eq_true hle

theorem Covers.everywhere {P : List String → Prop} {found : Found} (h : Covers sha spec t P found)
    (hP : ∀ ns, (t.lookup (spec.at ns)).isSome = true → P ns) :
    Covers sha spec t (fun _ => True) found where
  entries e := by
    rw [h.entries]
    constructor
    · rintro ⟨ns, n, -, hrest⟩
      exact ⟨ns, n, trivial, hrest⟩
    · rintro ⟨ns, n, -, hn, hrest⟩
      exact ⟨ns, n, hP ns (by rw [hn]; rfl), hn, hrest⟩
  dirs d := by
    rw [h.dirs]
    constructor
    · rintro ⟨ns, -, hrest⟩
      exact ⟨ns, trivial, hrest⟩
    · rintro ⟨ns, -, hn, hd⟩
      exact ⟨ns, hP ns (by rw [hn]; rfl), hn, hd⟩

/-- A source that is no directory has one entry. -/
theorem captured_single (hsource : Source t spec) (hn : t.lookup (spec.at []) = some n)
    (hdir : n ≠ .dir) : Captured sha spec t [spec.entryOf sha [] n] where
  all e := by
    rw [List.mem_singleton]
    constructor
    · rintro rfl
      exact ⟨[], n, hn, rfl⟩
    · rintro ⟨ns, m, hm, rfl⟩
      by_cases hns : ns = []
      · subst hns
        rw [hn] at hm
        rw [Option.some_inj.1 hm]
      · have habove : t.lookup (spec.at []) = some .dir :=
          hsource.dir_above (by rw [List.nil_append, hm]; rfl) hns
        rw [hn] at habove
        exact absurd (Option.some_inj.1 habove) hdir
  sorted := List.pairwise_singleton _ _

/-- Without failing calls a source is captured as it is. -/
theorem captureCleanupIdentity_calm (hsource : Source t spec) :
    (calmFile sha).Succeeds (captureCleanupIdentity spec)
      (fun entries t' => t = t' ∧ Captured sha spec t entries) t := by
  obtain ⟨n, hfind⟩ := Option.isSome_iff_exists.1 hsource.root
  have hn : t.lookup (spec.at []) = some n := by
    simpa [LocalTree.find, locate, SourceSpec.at] using hfind
  have hkind : (calmFile sha).Succeeds
      (ExceptT.adapt (fun _ => "failed to read metadata: " ++ spec.operationPath)
        (ExceptT.mk (file (.symlinkMetadata spec.operationPath))))
      (fun r t' => t = t' ∧ r = n.metadata) t :=
    calmFile_adapt fun x hx => by simp [calm_symlinkMetadata hfind x hx, calmFile]
  refine hkind.bind ?_
  rintro _ _ ⟨rfl, rfl⟩
  cases n with
  | file bytes modified =>
    have hsha : (calmFile sha).Succeeds
        (ExceptT.adapt (fun _ => "SHA-256 failed: " ++ spec.operationPath)
          (ExceptT.mk (file (.sha256 spec.operationPath))))
        (fun r t' => t = t' ∧ r = sha bytes) t :=
      calmFile_adapt fun x hx => by simp [calm_sha256 hfind x hx, calmFile]
    refine hsha.bind ?_
    rintro _ _ ⟨rfl, rfl⟩
    exact .pure ⟨rfl, captured_single hsource hn (by rintro ⟨⟩)⟩
  | symlink target =>
    have htarget : (calmFile sha).Succeeds
        (ExceptT.adapt (fun _ => "failed to read symlink target: " ++ spec.operationPath)
          (ExceptT.mk (file (.readLink spec.operationPath))))
        (fun r t' => t = t' ∧ r = target) t :=
      calmFile_adapt fun x hx => by simp [calm_readLink hfind x hx, calmFile]
    refine htarget.bind ?_
    rintro _ _ ⟨rfl, rfl⟩
    exact .pure ⟨rfl, captured_single hsource hn (by rintro ⟨⟩)⟩
  | dir =>
    have hwalk : (calmFile sha).Succeeds
        (ExceptT.lift (file (.walk spec.operationPath)) : ExceptT String FileCall _)
        (fun paths t' => t = t' ∧ ∃ nss : List (List String), paths = nss.map spec.pathOf ∧
          ∀ ns, ns ∈ nss ↔ ns ≠ [] ∧ (t.lookup (spec.at ns)).isSome = true) t := by
      refine calmFile_lift fun x hx => ?_
      obtain ⟨nss, hstep, hnss⟩ := calm_walk sha hsource x hx
      rw [hstep]
      exact ⟨rfl, nss, rfl, hnss⟩
    refine hwalk.bind ?_
    rintro _ _ ⟨rfl, nss, rfl, hnss⟩
    have hnone : Covers sha spec t (fun _ => False) ([], []) :=
      ⟨fun e => by simp, fun d => by simp⟩
    refine (captureChildren_calm hsource (fun ns hns => (hnss ns).1 hns)
      (hnone.addDir hn)).bind ?_
    rintro found _ ⟨rfl, hfound⟩
    refine .pure ⟨rfl, (hfound.everywhere fun ns hsome => ?_).captured hsource⟩
    by_cases hns : ns = []
    · exact .inl (.inr hns)
    · exact .inr ((hnss ns).2 ⟨hns, hsome⟩)
  | other => exact absurd hn (hsource.supported [])

end Captured

end Purgery.Client
