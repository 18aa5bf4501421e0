import Purgery.Client.Split.Discovery
import Purgery.Client.Split.Slices

namespace Purgery.Client

open Purgery.Path

/-! When a pattern selects the source itself. -/

section Passthrough

structure SplitFilters where
  includeRules : List String
  excludeRule : String

def trimEndSlashes (s : String) : String :=
  String.ofList (s.toList.reverse.dropWhile (· == '/')).reverse

def buildDirPayload (pattern : String) : String := trimEndSlashes pattern ++ "/***"

def buildNestedDirPayload (pattern : String) : String := "**/" ++ trimEndSlashes pattern ++ "/***"

def buildSplitFilters (pattern : String) : Option SplitFilters :=
  if pattern == "." then none
  else
    let rules := ["*/", buildDirPayload pattern]
    let rules := if pattern.toList.contains '/' then rules
      else rules ++ [buildNestedDirPayload pattern]
    some ⟨rules ++ [pattern], "*"⟩

/-- The rsync calls of a split. -/
inductive Transfer where
  | entry
  | filtered (filters : SplitFilters)

def runPassthroughSplit (kind : SourceKind) (pattern : String) : Option Transfer :=
  match buildSplitFilters pattern with
  | none => some .entry
  | some filters => if kind = .directory then some (.filtered filters) else none

theorem passthrough_nothing {kind : SourceKind} {pattern : String} (hdot : pattern ≠ ".")
    (hkind : kind ≠ .directory) : runPassthroughSplit kind pattern = none := by
  have hne : (pattern == ".") = false := by simpa using hdot
  simp [runPassthroughSplit, buildSplitFilters, hne, hkind]

end Passthrough

section Dot

abbrev dot : UInt8 := '.'.toUInt8

variable {p q : Bytes} {c : UInt8}

/-- An element that matches the dot, and a `*` after it or nothing. -/
def DotUnit (q : Bytes) : Prop :=
  ∃ tail, (tail = [] ∨ tail = [star]) ∧
    (q = dot :: tail ∨ q = query :: tail ∨
      ∃ b, q = opening :: b ∧ bracket dot b = some (true, tail))

/-- The patterns without `**` that match the sentinel. -/
def MatchesDot (q : Bytes) : Prop :=
  q = [star] ∨ DotUnit q ∨ ∃ rest, q = star :: rest ∧ DotUnit rest

theorem globLoop_nil : globLoop p [] = some true ↔ p = [] ∨ p = [star] := by
  cases p with
  | nil => simp [globLoop]
  | cons c p =>
    by_cases hstar : c = star
    · subst hstar
      cases p with
      | nil => simp [globLoop.eq_def, boundary]
      | cons d p =>
        rw [globLoop_star (List.cons_ne_nil d p)]
        simp [starLoop]
    · simp [globLoop.eq_def, hstar]

theorem globLoop_sentinel (hc : c ≠ star) : globLoop (c :: p) sentinel =
    if c = query then globLoop p []
    else if c = opening then
      match bracket dot p with
      | some (true, p') => globLoop p' []
      | _ => some false
    else if dot = c then globLoop p [] else some false := by
  rw [globLoop.eq_def]
  simp only [sentinel, if_neg hc, if_neg (show (46 : UInt8) ≠ slash by decide)]
  congr 2
  split
  · rename_i p' hbracket
    rw [show bracket dot p = some (true, p') from hbracket]
  · rename_i hno
    split
    · rename_i p' hbracket
      exact absurd hbracket (hno p')
    · rfl

theorem globLoop_dot (hc : c ≠ star) :
    globLoop (c :: p) sentinel = some true ↔ DotUnit (c :: p) := by
  have hslash : dot ≠ slash := by decide
  have hquery : dot ≠ query := by decide
  have hopening : dot ≠ opening := by decide
  rw [globLoop_sentinel hc]
  by_cases hq : c = query
  · subst hq
    rw [if_pos rfl, globLoop_nil]
    constructor
    · exact fun h => ⟨p, h, .inr (.inl rfl)⟩
    · rintro ⟨tail, htail, h | h | ⟨b, h, -⟩⟩
      · exact absurd (List.cons.inj h).1 (Ne.symm hquery)
      · exact (List.cons.inj h).2 ▸ htail
      · exact absurd (List.cons.inj h).1 (by decide)
  · rw [if_neg hq]
    by_cases ho : c = opening
    · subst ho
      rw [if_pos rfl]
      constructor
      · intro h
        split at h
        · rename_i p' hbracket
          exact ⟨p', globLoop_nil.1 h, .inr (.inr ⟨p, rfl, hbracket⟩)⟩
        · cases h
      · rintro ⟨tail, htail, h | h | ⟨b, h, hbracket⟩⟩
        · exact absurd (List.cons.inj h).1 (Ne.symm hopening)
        · exact absurd (List.cons.inj h).1 hq
        · obtain ⟨-, rfl⟩ := List.cons.inj h
          rw [hbracket]
          exact globLoop_nil.2 htail
    · rw [if_neg ho]
      constructor
      · intro h
        split at h
        · rename_i hdot
          subst hdot
          exact ⟨p, globLoop_nil.1 h, .inl rfl⟩
        · cases h
      · rintro ⟨tail, htail, h | h | ⟨b, h, -⟩⟩
        · obtain ⟨rfl, rfl⟩ := List.cons.inj h
          rw [if_pos rfl]
          exact globLoop_nil.2 htail
        · exact absurd (List.cons.inj h).1 hq
        · exact absurd (List.cons.inj h).1 ho

theorem not_dotUnit_plain (hstar : star ∉ q) (hquery : query ∉ q) (hopening : opening ∉ q)
    (hne : q ≠ sentinel) : ¬ DotUnit q := by
  rintro ⟨tail, htail, rfl | rfl | ⟨b, rfl, -⟩⟩
  · obtain rfl | rfl := htail
    · exact hne rfl
    · exact hstar (by simp)
  · exact hquery List.mem_cons_self
  · exact hopening List.mem_cons_self

theorem simpleGlob_unit (hc : c ≠ star) :
    simpleGlob (c :: p) sentinel = some true ↔ DotUnit (c :: p) := by
  unfold simpleGlob shortcut
  by_cases heq : c :: p = sentinel
  · have hunit : DotUnit (c :: p) := by
      obtain ⟨rfl, rfl⟩ := List.cons.inj heq
      exact ⟨[], .inl rfl, .inl rfl⟩
    simp [heq, heq ▸ hunit]
  · rw [if_neg (by simpa using heq)]
    split
    · rename_i hplain
      simp only [Bool.and_eq_true, Bool.not_eq_true', List.contains_eq_mem,
        decide_eq_false_iff_not] at hplain
      have hne : (c :: p == sentinel) = false := by simpa using heq
      rw [hne]
      exact ⟨nofun, fun h => absurd h (not_dotUnit_plain hplain.1.1 hplain.1.2 hplain.2 heq)⟩
    · exact globLoop_dot hc

theorem simpleGlob_dot (hdouble : hasDoubleStar q = false) (hq : Clean q) :
    simpleGlob q sentinel = some true ↔ MatchesDot q := by
  cases q with
  | nil => simp [simpleGlob, shortcut, MatchesDot, DotUnit, sentinel]
  | cons c p =>
    by_cases hstar : c = star
    · subst hstar
      cases p with
      | nil =>
        have hmatch : simpleGlob [star] sentinel = some true := by decide +kernel
        simp [hmatch, MatchesDot]
      | cons d p =>
        have hd : d ≠ star := fun h => (hasDoubleStar_cons hdouble).2 rfl (by rw [h]; rfl)
        have hloop : simpleGlob (star :: d :: p) sentinel = simpleGlob (d :: p) sentinel := by
          have hne : (star :: d :: p == sentinel) = false := by simp [sentinel]
          have hascii : Ascii sentinel := by simp [Ascii, sentinel]
          obtain ⟨found, hfound⟩ := simpleGlob_returns hq.tail hascii
          have hattempt : starLoop (fun t => if boundary (d :: p) && boundary t then
              simpleGlob (d :: p) t else none) sentinel = some found := by
            have hslash : (46 : UInt8) ≠ slash := by decide
            rw [sentinel, starLoop, hq.star, ← sentinel, hascii.boundary, Bool.and_true, if_pos rfl,
              hfound]
            cases found <;> simp [hslash, starLoop]
          rw [hfound, simpleGlob, shortcut, hne, globLoop_star (List.cons_ne_nil d p), hattempt]
          simp
        rw [hloop, simpleGlob_unit hd]
        constructor
        · exact fun h => .inr (.inr ⟨_, rfl, h⟩)
        · rintro (h | ⟨tail, -, h | h | ⟨b, h, -⟩⟩ | ⟨rest, h, hunit⟩)
          · cases (List.cons.inj h).2
          · exact absurd (List.cons.inj h).1 (by decide)
          · exact absurd (List.cons.inj h).1 (by decide)
          · exact absurd (List.cons.inj h).1 (by decide)
          · obtain ⟨-, rfl⟩ := List.cons.inj h
            exact hunit
    · rw [simpleGlob_unit hstar]
      constructor
      · exact fun h => .inr (.inl h)
      · rintro (h | h | ⟨rest, h, -⟩)
        · exact absurd (List.cons.inj h).1 hstar
        · exact h
        · exact absurd (List.cons.inj h).1 hstar

/-- The pattern has no `/` at its end, and matches the sentinel without the `/`
at its beginning. -/
def SelectsSource (p : Bytes) : Prop :=
  (unanchored p).getLast? ≠ some slash ∧ MatchesDot (core p)

theorem matched_sentinel (p : Bytes) : matched p sentinel = globMatch (core p) sentinel := by
  unfold matched
  split
  · rfl
  · have hparts : splitBytes sentinel = [sentinel] := rfl
    rw [hparts, anyComponent]
    cases globMatch (core p) sentinel with
    | none => rfl
    | some found => cases found <;> rfl

theorem isMatch_sentinel (hdouble : hasDoubleStar p = false) (hp : Clean p) (isDir : Bool) :
    (PatternMatcher.new p).isMatch sentinel isDir = some true ↔ SelectsSource p := by
  have hcore := hasDoubleStar_within (core_within p) hdouble
  by_cases hslash : (unanchored p).getLast? = some slash
  · rw [isMatch_of_false hslash fun h => h.2 rfl]
    exact ⟨nofun, fun h => absurd hslash h.1⟩
  · rw [isMatch_of_true fun h => absurd h hslash, matched_sentinel, globMatch_single hcore,
      simpleGlob_dot hcore (hp.within (core_within p))]
    exact ⟨fun h => ⟨hslash, h⟩, And.right⟩

end Dot

section Select

variable {source pattern : String} {walk : List WalkEntry} {kind : SourceKind}
  {isMatch : String → Bool → Option Bool}

/-- What the matcher of the pattern says of a path. -/
def patternMatch (pattern path : String) (isDir : Bool) : Option Bool :=
  (PatternMatcher.new (utf8 pattern)).isMatch (utf8 path) isDir

theorem select_congr {keep keep' : SplitCandidate → Option Bool} {cs : List SplitCandidate}
    (h : ∀ c ∈ cs, keep c = keep' c) : select keep cs = select keep' cs := by
  induction cs with
  | nil => rfl
  | cons c cs ih =>
    rw [select, select, h c List.mem_cons_self, ih fun x hx => h x (List.mem_cons_of_mem _ hx)]

theorem select_none (keep : SplitCandidate → Option Bool) {cs : List SplitCandidate}
    {c : SplitCandidate} (hc : c ∈ cs) (h : keep c = none) : select keep cs = none := by
  induction cs with
  | nil => exact nomatch hc
  | cons d cs ih =>
    rw [select]
    obtain rfl | hc := List.mem_cons.1 hc
    · rw [h]
      rfl
    · rw [ih hc]
      cases keep d <;> rfl

/-- A panic of the matcher leaves nothing to process. -/
theorem discoverWith_none (hwalk : WalkTree walk) {e : WalkEntry} (he : e ∈ walk)
    (h : isMatch (joinSlash e.names) e.isDir = none) :
    discoverWith source isMatch (some kind) walk = none := by
  have hc : e.candidate source ∈ candidates source kind walk := by
    rw [candidates_eq hwalk]
    exact List.mem_cons_of_mem _ (List.mem_map_of_mem he)
  have hpanic : isMatch (relativeStr source (e.candidate source)) (e.candidate source).isDir =
      none := by
    rw [relativeStr_candidate hwalk he]
    exact h
  rw [discoverWith, select_none (fun c => isMatch (relativeStr source c) c.isDir) hc hpanic]
  rfl

theorem discoverWith_some (hwalk : WalkTree walk) {found : String → Bool → Bool}
    (hsource : isMatch "." (kind == .directory) = some (found "." (kind == .directory)))
    (h : ∀ e ∈ walk,
      isMatch (joinSlash e.names) e.isDir = some (found (joinSlash e.names) e.isDir)) :
    discoverWith source isMatch (some kind) walk =
      discoverWith source (fun path isDir => some (found path isDir)) (some kind) walk := by
  unfold discoverWith
  simp only
  rw [select_congr]
  intro c hc
  rw [candidates_eq hwalk] at hc
  obtain rfl | hc := List.mem_cons.1 hc
  · rw [relativeStr_source]
    exact hsource
  · obtain ⟨e, he, rfl⟩ := List.mem_map.1 hc
    rw [relativeStr_candidate hwalk he]
    exact h e he

/-- What discovery returns when the matcher never panics. -/
theorem discoverSplitEntries_eq (source : String) (kind : SourceKind) (hwalk : WalkTree walk)
    (found : String → Bool → Bool)
    (hfound : ∀ path isDir, found path isDir = (patternMatch pattern path isDir).getD false)
    (h : ¬ ∃ e ∈ walk, patternMatch pattern (joinSlash e.names) e.isDir = none) :
    discoverSplitEntries source pattern (some kind) walk =
      some (if found "." (kind == .directory) = true then [⟨source, true⟩]
        else sortByPath (rootCandidates found source walk)) := by
  have hreturns : ∀ path isDir, patternMatch pattern path isDir ≠ none →
      patternMatch pattern path isDir = some (found path isDir) := by
    intro path isDir hne
    obtain ⟨b, hb⟩ := Option.ne_none_iff_exists'.1 hne
    rw [hfound, hb]
    rfl
  rw [← discoverWith_total hwalk]
  refine discoverWith_some hwalk (hreturns _ _ ?_) fun e he => hreturns _ _ fun hnone =>
    h ⟨e, he, hnone⟩
  have hascii : Ascii (utf8 ".") := by decide +kernel
  obtain ⟨b, hb⟩ := isMatch_returns (clean_utf8 pattern) hascii (kind == .directory)
  rw [patternMatch, hb]
  exact Option.some_ne_none b

theorem getD_false_eq_true {b : Option Bool} : b.getD false = true ↔ b = some true := by
  cases b <;> simp

theorem eq_some_false (h : ¬ ∃ e ∈ walk, patternMatch pattern (joinSlash e.names) e.isDir = none)
    {e : WalkEntry} (he : e ∈ walk)
    (hfound : (patternMatch pattern (joinSlash e.names) e.isDir).getD false = false) :
    patternMatch pattern (joinSlash e.names) e.isDir = some false := by
  cases hmatch : patternMatch pattern (joinSlash e.names) e.isDir with
  | none => exact absurd ⟨e, he, hmatch⟩ h
  | some b =>
    rw [hmatch] at hfound
    exact congrArg some hfound

theorem matchedEntries_nil {found : String → Bool → Bool} :
    matchedEntries found walk = [] ↔
      ∀ e ∈ walk, found (joinSlash e.names) e.isDir = false := by
  simp [matchedEntries, List.filter_eq_nil_iff]

theorem roots_nil (hwalk : WalkTree walk) {found : String → Bool → Bool} :
    sortByPath (rootCandidates found source walk) = [] ↔ matchedEntries found walk = [] := by
  rw [← List.length_eq_zero_iff, sortByPath, List.length_mergeSort, List.length_eq_zero_iff]
  constructor
  · intro hroots
    rw [List.eq_nil_iff_forall_not_mem]
    intro e he
    obtain ⟨r, hr, -⟩ := exists_root _ he
    have hmem : r.candidate source ∈ rootCandidates found source walk :=
      (mem_rootCandidates hwalk).2 ⟨r, hr, rfl⟩
    rw [hroots] at hmem
    exact nomatch hmem
  · intro hnone
    rw [rootCandidates, hnone]
    rfl

end Select

/-- When a split without `**` leaves the source itself alone. -/
theorem sentinel_selection (pattern source : String) (kind : SourceKind) (walk : List WalkEntry)
    (hdouble : hasDoubleStar (utf8 pattern) = false) (hdot : pattern ≠ ".")
    (hwalk : WalkTree walk) (hfile : kind = .regularFile → walk = []) :
    (∀ roots, discoverSplitEntries source pattern (some kind) walk = some roots →
      (∀ r ∈ roots, r.path ≠ source) ∧
      (kind ≠ .directory → roots = [] ∧ runPassthroughSplit kind pattern = none)) ↔
    (∃ e ∈ walk, patternMatch pattern (joinSlash e.names) e.isDir = none) ∨
      ¬ SelectsSource (utf8 pattern) ∧
      (kind = .symlink →
        ∀ e ∈ walk, patternMatch pattern (joinSlash e.names) e.isDir = some false) := by
  by_cases hpanic : ∃ e ∈ walk, patternMatch pattern (joinSlash e.names) e.isDir = none
  · refine ⟨fun _ => .inl hpanic, fun _ roots hroots => ?_⟩
    obtain ⟨e, he, hnone⟩ := hpanic
    have hnothing : discoverSplitEntries source pattern (some kind) walk = none :=
      discoverWith_none hwalk he hnone
    rw [hnothing] at hroots
    exact nomatch hroots
  · let found path isDir := (patternMatch pattern path isDir).getD false
    have hdiscover := discoverSplitEntries_eq source kind hwalk found (fun _ _ => rfl) hpanic
    have hsource : found "." (kind == .directory) = true ↔ SelectsSource (utf8 pattern) := by
      rw [← isMatch_sentinel hdouble (clean_utf8 pattern) (kind == .directory)]
      exact getD_false_eq_true
    rw [hdiscover, or_iff_right hpanic, ← hsource]
    simp only [Option.some.injEq, forall_eq']
    by_cases hselects : found "." (kind == .directory) = true
    · rw [if_pos hselects]
      exact ⟨fun h => absurd rfl (h.1 _ List.mem_cons_self), fun h => absurd hselects h.1⟩
    · rw [if_neg hselects]
      constructor
      · rintro ⟨-, hnothing⟩
        refine ⟨hselects, fun hlink e he => ?_⟩
        have hnone := (roots_nil hwalk).1 (hnothing (by rw [hlink]; decide)).1
        exact eq_some_false hpanic he (matchedEntries_nil.1 hnone e he)
      · rintro ⟨-, hlink⟩
        refine ⟨fun r hr => ?_, fun hkind => ⟨?_, passthrough_nothing hdot hkind⟩⟩
        · obtain ⟨e, hroot, rfl⟩ := (mem_rootCandidates hwalk).1
            ((List.mergeSort_perm _ _).mem_iff.1 hr)
          exact hwalk.path_ne (mem_matchedEntries.1 hroot.1).1
        · rw [roots_nil hwalk, matchedEntries_nil]
          intro e he
          cases kind with
          | directory => exact absurd rfl hkind
          | regularFile => exact absurd he (by rw [hfile rfl]; exact List.not_mem_nil)
          | symlink => exact congrArg (Option.getD · false) (hlink rfl e he)

theorem sentinel_selection_txt :
    (∀ roots, discoverSplitEntries "/src" "*.txt" (some .regularFile) [] = some roots →
      (∀ r ∈ roots, r.path ≠ "/src") ∧
      (SourceKind.regularFile ≠ .directory → roots = [] ∧
        runPassthroughSplit .regularFile "*.txt" = none)) ↔
    (∃ e ∈ ([] : List WalkEntry), patternMatch "*.txt" (joinSlash e.names) e.isDir = none) ∨
      ¬ SelectsSource (utf8 "*.txt") ∧
      (SourceKind.regularFile = .symlink → ∀ e ∈ ([] : List WalkEntry),
        patternMatch "*.txt" (joinSlash e.names) e.isDir = some false) :=
  sentinel_selection "*.txt" "/src" .regularFile [] (by decide +kernel) (by decide)
    ⟨nofun, nofun, by decide⟩ fun _ => rfl

/-- The pattern `*` selects a regular file as a whole. -/
theorem star_selects_source : ¬ ∀ roots,
    discoverSplitEntries "/src" "*" (some .regularFile) [] = some roots →
      (∀ r ∈ roots, r.path ≠ "/src") ∧
      (SourceKind.regularFile ≠ .directory → roots = [] ∧
        runPassthroughSplit .regularFile "*" = none) := by
  intro h
  have hroots : discoverSplitEntries "/src" "*" (some .regularFile) [] =
      some [⟨"/src", true⟩] := by decide +kernel
  exact (h _ hroots).1 _ List.mem_cons_self rfl

end Purgery.Client
