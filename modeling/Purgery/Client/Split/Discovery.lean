import Mathlib.Data.List.Nodup
import Mathlib.Data.String.Basic
import Purgery.Client.Classify
import Purgery.Client.Split.Glob

namespace Purgery.Client

open Purgery.Path

/-! Discovery of the entries that a split processes. -/

structure SplitCandidate where
  path : String
  isDir : Bool
  deriving DecidableEq

/-- What the walk yields for a descendant: the names that lead to it from the
source, and whether it is a directory and no link. -/
structure WalkEntry where
  names : List String
  isDir : Bool

section Discover

variable (source : String)

def WalkEntry.path (e : WalkEntry) : String := join source (joinSlash e.names)

/-- The source and its descendants. -/
def candidates (kind : SourceKind) (walk : List WalkEntry) : List SplitCandidate :=
  ⟨source, kind == .directory⟩ :: walk.filterMap fun e =>
    (stripPrefix (e.path source) source).map fun relative => ⟨join source relative, e.isDir⟩

def relativeStr (c : SplitCandidate) : String :=
  if c.path = source then "." else (stripPrefix c.path source).getD ""

/-- `filter` with a predicate that may panic. -/
def select (keep : SplitCandidate → Option Bool) :
    List SplitCandidate → Option (List SplitCandidate)
  | [] => some []
  | c :: rest => do
    let kept ← keep c
    let selected ← select keep rest
    some (if kept then c :: selected else selected)

def hasAncestor (matched : List SplitCandidate) (c : SplitCandidate) : Bool :=
  matched.any fun other => other.path != c.path && startsWith c.path other.path

def sortByPath (cs : List SplitCandidate) : List SplitCandidate :=
  cs.mergeSort fun a b => decide (a.path ≤ b.path)

/-- The descendants of matched ancestors are dropped. -/
def prune (matched : List SplitCandidate) :
    List SplitCandidate → List SplitCandidate → List SplitCandidate
  | [], pruned => sortByPath pruned
  | c :: rest, pruned =>
    if c.path = source then [⟨source, true⟩]
    else prune matched rest (if hasAncestor matched c then pruned else pruned ++ [c])

/-- `discover_split_entries` with a matcher. Without metadata there is no
source. -/
def discoverWith (isMatch : String → Bool → Option Bool) (metadata : Option SourceKind)
    (walk : List WalkEntry) : Option (List SplitCandidate) :=
  match metadata with
  | none => some []
  | some kind => do
    let matched ← select (fun c => isMatch (relativeStr source c) c.isDir)
      (candidates source kind walk)
    some (prune source matched matched [])

def discoverSplitEntries (pattern : String) (metadata : Option SourceKind)
    (walk : List WalkEntry) : Option (List SplitCandidate) :=
  discoverWith source
    (fun path isDir => (PatternMatcher.new (utf8 pattern)).isMatch (utf8 path) isDir) metadata walk

end Discover

section Walk

/-- The entries of a directory tree: each has proper names and comes once. -/
structure WalkTree (walk : List WalkEntry) : Prop where
  nonempty : ∀ e ∈ walk, e.names ≠ []
  entryNames : ∀ e ∈ walk, ∀ n ∈ e.names, EntryName n
  distinct : (walk.map (·.names)).Nodup

variable {source : String} {walk : List WalkEntry} {e f : WalkEntry}

def WalkEntry.candidate (source : String) (e : WalkEntry) : SplitCandidate :=
  ⟨e.path source, e.isDir⟩

theorem WalkTree.eq_of_names (h : WalkTree walk) (he : e ∈ walk) (hf : f ∈ walk)
    (hnames : e.names = f.names) : e = f :=
  List.inj_on_of_nodup_map h.distinct he hf hnames

theorem WalkTree.path_ne (h : WalkTree walk) (he : e ∈ walk) : e.path source ≠ source :=
  below_ne (h.nonempty e he) (h.entryNames e he)

theorem WalkTree.path_eq_iff (h : WalkTree walk) (he : e ∈ walk) (hf : f ∈ walk) :
    e.path source = f.path source ↔ e.names = f.names := by
  constructor
  · exact below_injective (h.nonempty e he) (h.nonempty f hf) (h.entryNames e he)
      (h.entryNames f hf)
  · intro hnames
    rw [WalkEntry.path, WalkEntry.path, hnames]

theorem WalkTree.startsWith_iff (h : WalkTree walk) (he : e ∈ walk) (hf : f ∈ walk) :
    startsWith (e.path source) (f.path source) = true ↔ f.names <+: e.names :=
  startsWith_below (h.nonempty e he) (h.nonempty f hf) (h.entryNames e he) (h.entryNames f hf)

theorem candidates_eq (h : WalkTree walk) (kind : SourceKind) :
    candidates source kind walk =
      ⟨source, kind == .directory⟩ :: walk.map (WalkEntry.candidate source) := by
  rw [candidates, ← List.filterMap_eq_map]
  congr 1
  refine List.filterMap_congr fun e he => ?_
  rw [WalkEntry.path, stripPrefix_below (h.nonempty e he) (h.entryNames e he)]
  rfl

theorem relativeStr_source (isDir : Bool) : relativeStr source ⟨source, isDir⟩ = "." :=
  if_pos rfl

theorem relativeStr_candidate (h : WalkTree walk) (he : e ∈ walk) :
    relativeStr source (e.candidate source) = joinSlash e.names := by
  rw [relativeStr, WalkEntry.candidate, if_neg (h.path_ne he), WalkEntry.path,
    stripPrefix_below (h.nonempty e he) (h.entryNames e he)]
  rfl

theorem select_total (keep : SplitCandidate → Bool) (cs : List SplitCandidate) :
    select (fun c => some (keep c)) cs = some (cs.filter keep) := by
  induction cs with
  | nil => rfl
  | cons c cs ih =>
    simp only [select, Option.bind_eq_bind, Option.bind_some, ih, List.filter_cons]

theorem prune_eq (matched cs pruned : List SplitCandidate) :
    prune source matched cs pruned =
      if ∃ c ∈ cs, c.path = source then [⟨source, true⟩]
      else sortByPath (pruned ++ cs.filter fun c => !hasAncestor matched c) := by
  induction cs generalizing pruned with
  | nil => simp [prune]
  | cons c cs ih =>
    rw [prune]
    by_cases hc : c.path = source
    · rw [if_pos hc, if_pos ⟨c, List.mem_cons_self, hc⟩]
    · rw [if_neg hc, ih]
      cases hancestor : hasAncestor matched c <;> simp [hc, hancestor]

end Walk

section Cover

variable {source : String} {walk : List WalkEntry} {e f r r' : WalkEntry}

/-- The entry is matched, and no other matched entry leads to it. -/
def Root (matched : List WalkEntry) (r : WalkEntry) : Prop :=
  r ∈ matched ∧ ∀ f ∈ matched, f.names <+: r.names → f.names = r.names

theorem exists_root (matched : List WalkEntry) (he : e ∈ matched) :
    ∃ r, Root matched r ∧ r.names <+: e.names := by
  induction hn : e.names.length using Nat.strong_induction_on generalizing e with
  | _ n ih =>
    subst hn
    by_cases hroot : Root matched e
    · exact ⟨e, hroot, List.prefix_rfl⟩
    · obtain ⟨f, hf, hunder, hne⟩ : ∃ f ∈ matched, f.names <+: e.names ∧ f.names ≠ e.names := by
        by_contra h
        refine hroot ⟨he, fun f hf hunder => ?_⟩
        by_contra hne
        exact h ⟨f, hf, hunder, hne⟩
      have hlen : f.names.length < e.names.length :=
        lt_of_le_of_ne hunder.length_le fun hlen => hne (hunder.eq_of_length hlen)
      obtain ⟨r, hr, hrf⟩ := ih _ hlen hf rfl
      exact ⟨r, hr, hrf.trans hunder⟩

/-- The ancestors of an entry are in line, so only one of them is a root. -/
theorem root_unique {matched : List WalkEntry} (hr : Root matched r) (hr' : Root matched r')
    (h : r.names <+: e.names) (h' : r'.names <+: e.names) : r.names = r'.names := by
  obtain hle | hle := List.prefix_or_prefix_of_prefix h h'
  · exact hr'.2 r hr.1 hle
  · exact (hr.2 r' hr'.1 hle).symm

theorem hasAncestor_candidate {matched : List WalkEntry} (h : WalkTree walk)
    (hsub : ∀ e ∈ matched, e ∈ walk) (he : e ∈ matched) :
    hasAncestor (matched.map (WalkEntry.candidate source)) (e.candidate source) = false ↔
      Root matched e := by
  rw [hasAncestor, List.any_map, List.any_eq_false]
  simp only [Function.comp_apply, WalkEntry.candidate, Bool.and_eq_true, bne_iff_ne, ne_eq, not_and]
  constructor
  · intro hno
    refine ⟨he, fun f hf hunder => ?_⟩
    by_contra hne
    refine hno f hf ?_ ?_
    · rwa [h.path_eq_iff (hsub f hf) (hsub e he)]
    · rwa [h.startsWith_iff (hsub e he) (hsub f hf)]
  · intro hroot f hf hne hstarts
    rw [h.path_eq_iff (hsub f hf) (hsub e he)] at hne
    rw [h.startsWith_iff (hsub e he) (hsub f hf)] at hstarts
    exact hne (hroot.2 f hf hstarts)

/-- The roots are what is asked of a split: in order, matched, not below each
other, and above everything that is matched. -/
structure MinimalCover (isMatch : String → Bool → Bool) (source : String) (kind : SourceKind)
    (walk : List WalkEntry) (roots : List SplitCandidate) : Prop where
  increasing : roots.Pairwise fun a b => a.path < b.path
  matching : ∀ r ∈ roots,
    r.path = source ∧ isMatch "." (kind == .directory) = true ∨
    ∃ e ∈ walk, isMatch (joinSlash e.names) e.isDir = true ∧ r = e.candidate source
  antichain : ∀ r ∈ roots, ∀ r' ∈ roots, r ≠ r' → startsWith r'.path r.path = false
  source_covered : isMatch "." (kind == .directory) = true →
    ∃! r, r ∈ roots ∧ startsWith source r.path = true
  covered : ∀ e ∈ walk, isMatch (joinSlash e.names) e.isDir = true →
    ∃! r, r ∈ roots ∧ startsWith (e.path source) r.path = true

theorem sortByPath_sorted (cs : List SplitCandidate) :
    (sortByPath cs).Pairwise fun a b => a.path ≤ b.path := by
  have h : (sortByPath cs).Pairwise fun a b => decide (a.path ≤ b.path) = true :=
    List.pairwise_mergeSort
      (fun a b c hab hbc => by simpa using le_trans (of_decide_eq_true hab) (of_decide_eq_true hbc))
      (fun a b => by simpa using le_total a.path b.path) cs
  exact h.imp of_decide_eq_true

/-- Lists of the same paths are sorted to the same list. -/
theorem sortByPath_perm {cs ds : List SplitCandidate} (hperm : cs.Perm ds)
    (hdistinct : ∀ a ∈ cs, ∀ b ∈ cs, a.path = b.path → a = b) : sortByPath cs = sortByPath ds := by
  refine List.Perm.eq_of_pairwise (fun a b ha hb hab hba => ?_) (sortByPath_sorted cs)
    (sortByPath_sorted ds) ?_
  · have ha : a ∈ cs := (List.mergeSort_perm cs _).mem_iff.1 ha
    have hb : b ∈ cs := hperm.mem_iff.2 ((List.mergeSort_perm ds _).mem_iff.1 hb)
    exact hdistinct a ha b hb (le_antisymm hab hba)
  · exact ((List.mergeSort_perm cs _).trans hperm).trans (List.mergeSort_perm ds _).symm

variable {isMatch : String → Bool → Bool} {kind : SourceKind}

/-- The entries that match. -/
def matchedEntries (isMatch : String → Bool → Bool) (walk : List WalkEntry) : List WalkEntry :=
  walk.filter fun e => isMatch (joinSlash e.names) e.isDir

theorem mem_matchedEntries :
    e ∈ matchedEntries isMatch walk ↔ e ∈ walk ∧ isMatch (joinSlash e.names) e.isDir = true :=
  List.mem_filter

/-- The matched entries that are kept. -/
def rootCandidates (isMatch : String → Bool → Bool) (source : String) (walk : List WalkEntry) :
    List SplitCandidate :=
  let matched := (matchedEntries isMatch walk).map (WalkEntry.candidate source)
  matched.filter fun c => !hasAncestor matched c

theorem mem_rootCandidates (h : WalkTree walk) {c : SplitCandidate} :
    c ∈ rootCandidates isMatch source walk ↔
      ∃ e, Root (matchedEntries isMatch walk) e ∧ e.candidate source = c := by
  have hsub : ∀ e ∈ matchedEntries isMatch walk, e ∈ walk := fun e he => (mem_matchedEntries.1 he).1
  rw [rootCandidates, List.mem_filter, List.mem_map, Bool.not_eq_true']
  constructor
  · rintro ⟨⟨e, he, rfl⟩, hno⟩
    exact ⟨e, (hasAncestor_candidate h hsub he).1 hno, rfl⟩
  · rintro ⟨e, hroot, rfl⟩
    exact ⟨⟨e, hroot.1, rfl⟩, (hasAncestor_candidate h hsub hroot.1).2 hroot⟩

theorem discoverWith_total (h : WalkTree walk) :
    discoverWith source (fun p d => some (isMatch p d)) (some kind) walk =
      some (if isMatch "." (kind == .directory) = true then [⟨source, true⟩]
        else sortByPath (rootCandidates isMatch source walk)) := by
  have hmatched : (candidates source kind walk).filter
      (fun c => isMatch (relativeStr source c) c.isDir) =
      (if isMatch "." (kind == .directory) = true then [⟨source, kind == .directory⟩] else []) ++
        (matchedEntries isMatch walk).map (WalkEntry.candidate source) := by
    rw [candidates_eq h, List.filter_cons, relativeStr_source, List.filter_map, matchedEntries]
    have hfilter : walk.filter ((fun c => isMatch (relativeStr source c) c.isDir) ∘
        WalkEntry.candidate source) = walk.filter fun e => isMatch (joinSlash e.names) e.isDir := by
      refine List.filter_congr fun e he => ?_
      rw [Function.comp_apply, relativeStr_candidate h he]
      rfl
    rw [hfilter]
    split <;> rfl
  simp only [discoverWith, select_total, hmatched, Option.bind_eq_bind, Option.bind_some]
  rw [prune_eq]
  by_cases hsource : isMatch "." (kind == .directory) = true
  · rw [if_pos hsource, if_pos hsource, if_pos ⟨_, List.mem_append_left _ List.mem_cons_self, rfl⟩]
  · rw [if_neg hsource, if_neg hsource, List.nil_append, List.nil_append, if_neg]
    · rfl
    · rintro ⟨c, hc, hpath⟩
      obtain ⟨e, he, rfl⟩ := List.mem_map.1 hc
      exact h.path_ne (mem_matchedEntries.1 he).1 hpath

theorem cover_source (h : WalkTree walk) (hsource : isMatch "." (kind == .directory) = true) :
    MinimalCover isMatch source kind walk [⟨source, true⟩] := by
  have hunique : ∀ p, startsWith p source = true →
      ∃! r, r ∈ [(⟨source, true⟩ : SplitCandidate)] ∧ startsWith p r.path = true := by
    intro p hp
    refine ⟨⟨source, true⟩, ⟨List.mem_cons_self, hp⟩, ?_⟩
    rintro r ⟨hr, -⟩
    exact List.mem_singleton.1 hr
  constructor
  · exact List.pairwise_singleton _ _
  · intro r hr
    obtain rfl := List.mem_singleton.1 hr
    exact .inl ⟨rfl, hsource⟩
  · intro r hr r' hr' hne
    exact absurd ((List.mem_singleton.1 hr).trans (List.mem_singleton.1 hr').symm) hne
  · exact fun _ => hunique source (startsWith_self source)
  · exact fun e he _ => hunique _ (startsWith_base (h.nonempty e he) (h.entryNames e he))

theorem rootCandidates_paths (h : WalkTree walk) :
    (rootCandidates isMatch source walk).Pairwise fun a b => a.path ≠ b.path := by
  have hwalk : walk.Pairwise fun e f => e.path source ≠ f.path source :=
    (List.pairwise_map.1 h.distinct).imp_of_mem fun he hf hne hpath =>
      hne ((h.path_eq_iff he hf).1 hpath)
  unfold rootCandidates matchedEntries
  refine List.Pairwise.filter _ (List.pairwise_map.2 ?_)
  exact hwalk.filter _

theorem rootCandidates_distinct (h : WalkTree walk) :
    ∀ a ∈ rootCandidates isMatch source walk, ∀ b ∈ rootCandidates isMatch source walk,
      a.path = b.path → a = b := by
  intro a ha b hb hpath
  obtain ⟨e, he, rfl⟩ := (mem_rootCandidates h).1 ha
  obtain ⟨f, hf, rfl⟩ := (mem_rootCandidates h).1 hb
  have he := (mem_matchedEntries.1 he.1).1
  have hf := (mem_matchedEntries.1 hf.1).1
  rw [h.eq_of_names he hf ((h.path_eq_iff he hf).1 hpath)]

theorem cover_entries (h : WalkTree walk) (hsource : ¬ isMatch "." (kind == .directory) = true) :
    MinimalCover isMatch source kind walk (sortByPath (rootCandidates isMatch source walk)) := by
  have hmem : ∀ c, c ∈ sortByPath (rootCandidates isMatch source walk) ↔
      ∃ e, Root (matchedEntries isMatch walk) e ∧ e.candidate source = c := by
    intro c
    rw [← mem_rootCandidates h]
    exact (List.mergeSort_perm _ _).mem_iff
  constructor
  · have hdistinct : (sortByPath (rootCandidates isMatch source walk)).Pairwise
        fun a b => a.path ≠ b.path :=
      (rootCandidates_paths h).perm (List.mergeSort_perm _ _).symm Ne.symm
    exact (sortByPath_sorted _).imp₂ (fun a b => lt_of_le_of_ne) hdistinct
  · intro c hc
    obtain ⟨e, hroot, rfl⟩ := (hmem c).1 hc
    obtain ⟨he, hmatch⟩ := mem_matchedEntries.1 hroot.1
    exact .inr ⟨e, he, hmatch, rfl⟩
  · intro c hc d hd hne
    obtain ⟨e, he, rfl⟩ := (hmem c).1 hc
    obtain ⟨f, hf, rfl⟩ := (hmem d).1 hd
    have hewalk := (mem_matchedEntries.1 he.1).1
    have hfwalk := (mem_matchedEntries.1 hf.1).1
    rw [← Bool.not_eq_true]
    intro hstarts
    have hunder := (h.startsWith_iff hfwalk hewalk).1 hstarts
    exact hne (congrArg _ (h.eq_of_names hewalk hfwalk (hf.2 e he.1 hunder)))
  · exact fun hmatch => absurd hmatch hsource
  · intro e he hmatch
    obtain ⟨r, hr, hunder⟩ := exists_root _ (mem_matchedEntries.2 ⟨he, hmatch⟩)
    have hrwalk := (mem_matchedEntries.1 hr.1).1
    refine ⟨r.candidate source, ⟨(hmem _).2 ⟨r, hr, rfl⟩, ?_⟩, ?_⟩
    · exact (h.startsWith_iff he hrwalk).2 hunder
    · rintro c ⟨hc, hstarts⟩
      obtain ⟨r', hr', rfl⟩ := (hmem c).1 hc
      have hrwalk' := (mem_matchedEntries.1 hr'.1).1
      have hunder' := (h.startsWith_iff he hrwalk').1 hstarts
      rw [h.eq_of_names hrwalk' hrwalk (root_unique hr' hr hunder' hunder)]

theorem rootCandidates_perm {walk' : List WalkEntry} (hperm : walk.Perm walk') :
    (rootCandidates isMatch source walk).Perm (rootCandidates isMatch source walk') := by
  have hmatched := (hperm.filter fun e => isMatch (joinSlash e.names) e.isDir).map
    (WalkEntry.candidate source)
  unfold rootCandidates matchedEntries
  refine (hmatched.filter _).trans (List.Perm.of_eq (List.filter_congr fun c _ => ?_))
  rw [hasAncestor, hasAncestor, hmatched.any_eq]

theorem WalkTree.perm {walk' : List WalkEntry} (h : WalkTree walk) (hperm : walk.Perm walk') :
    WalkTree walk' :=
  ⟨fun e he => h.nonempty e (hperm.mem_iff.2 he), fun e he => h.entryNames e (hperm.mem_iff.2 he),
    (hperm.map _).nodup_iff.1 h.distinct⟩

end Cover

/-- Discovery returns the minimal cover of what matches, whatever the order of
the walk. -/
theorem discovery_minimal_cover (isMatch : String → Bool → Bool) (source : String)
    (kind : SourceKind) (walk : List WalkEntry) (h : WalkTree walk) :
    ∃ roots, MinimalCover isMatch source kind walk roots ∧
      ∀ walk', walk.Perm walk' →
        discoverWith source (fun p d => some (isMatch p d)) (some kind) walk' = some roots := by
  by_cases hsource : isMatch "." (kind == .directory) = true
  · refine ⟨_, cover_source h hsource, fun walk' hperm => ?_⟩
    rw [discoverWith_total (h.perm hperm), if_pos hsource]
  · refine ⟨_, cover_entries h hsource, fun walk' hperm => ?_⟩
    rw [discoverWith_total (h.perm hperm), if_neg hsource,
      sortByPath_perm (rootCandidates_perm hperm) (rootCandidates_distinct h)]

theorem discovery_minimal_cover_siblings :
    ∃ roots, MinimalCover (fun path _ => path != ".") "/src" .directory
        [⟨["a", "b"], false⟩, ⟨["a-b"], false⟩, ⟨["a"], true⟩] roots ∧
      ∀ walk', [⟨["a", "b"], false⟩, ⟨["a-b"], false⟩, ⟨["a"], true⟩].Perm walk' →
        discoverWith "/src" (fun path _ => some (path != ".")) (some .directory) walk' =
          some roots :=
  discovery_minimal_cover (fun path _ => path != ".") "/src" .directory _
    ⟨by decide, by decide, by decide⟩

end Purgery.Client
