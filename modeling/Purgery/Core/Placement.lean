import Mathlib.Data.List.Induction
import Mathlib.Data.List.TakeWhile
import Purgery.Core.Descent
import Purgery.Core.Destination

namespace Purgery

namespace Path

variable {p q : String} {cs : List Char} {ns ms : List String}

theorem no_slash_of_mem_splitSlash {s : List Char} (h : s ∈ splitSlash cs) : '/' ∉ s := by
  induction cs generalizing s with
  | nil =>
    obtain rfl : s = [] := by simpa [splitSlash] using h
    exact List.not_mem_nil
  | cons c cs ih =>
    by_cases hc : c = '/'
    · subst hc
      obtain rfl | h := List.mem_cons.1 h
      · exact List.not_mem_nil
      · exact ih h
    · obtain ⟨first, rest, hcs, hcons⟩ := splitSlash_cons hc cs
      rw [hcons] at h
      rw [hcs] at ih
      obtain rfl | h := List.mem_cons.1 h
      · rw [List.mem_cons, not_or]
        exact ⟨Ne.symm hc, ih List.mem_cons_self⟩
      · exact ih (List.mem_cons_of_mem _ h)

/-- The segments that name something are entry names, but for `..`. -/
theorem entryName_of_mem_names {n : String} (h : n ∈ names cs) (hdots : n ≠ "..") :
    EntryName n := by
  obtain ⟨hmem, hplain⟩ := List.mem_filter.1 h
  obtain ⟨s, hs, rfl⟩ := List.mem_map.1 hmem
  simp only [Bool.and_eq_true, bne_iff_ne] at hplain
  refine ⟨hplain.1, ?_, hplain.2, hdots⟩
  rw [String.toList_ofList]
  exact no_slash_of_mem_splitSlash hs

theorem components_joinSlash (hne : ns ≠ []) (h : ∀ n ∈ ns, EntryName n) :
    components (joinSlash ns) = ns := by
  rw [components_eq, leadingDot_joinSlash hne h, names_joinSlash hne h]
  rfl

theorem joinSlash_ne_empty (hne : ns ≠ []) (h : ∀ n ∈ ns, EntryName n) : joinSlash ns ≠ "" := by
  intro hempty
  have hcomponents := components_joinSlash hne h
  rw [hempty] at hcomponents
  exact hne hcomponents.symm

theorem components_dot_joinSlash (h : ∀ n ∈ ns, EntryName n) :
    components (joinSlash ("." :: ns)) = "." :: ns ∧ isAbsolute (joinSlash ("." :: ns)) = false := by
  by_cases hne : ns = []
  · subst hne
    exact ⟨by decide, by decide⟩
  · have hjoin : join "." (joinSlash ns) = joinSlash ("." :: ns) := by
      rw [join_below hne h, if_neg (by decide)]
      obtain ⟨n, rest, rfl⟩ := List.exists_cons_of_ne_nil hne
      rfl
    obtain ⟨hcomponents, habs⟩ := components_below "." hne h
    rw [hjoin] at hcomponents habs
    exact ⟨hcomponents, habs⟩

/-- The text of a path with these components below the root, or below the
working directory. -/
def normalText (abs : Bool) (ns : List String) : String :=
  if abs then "/" ++ joinSlash ns else if ns.isEmpty then "." else joinSlash ns

theorem names_slash_joinSlash (h : ∀ n ∈ ns, EntryName n) :
    names ("/" ++ joinSlash ns).toList = ns := by
  have htext : ("/" ++ joinSlash ns).toList = [] ++ '/' :: (joinSlash ns).toList := by simp
  rw [htext, names_append]
  by_cases hne : ns = []
  · subst hne
    rfl
  · rw [names_joinSlash hne h]
    rfl

theorem isAbsolute_normalText {abs : Bool} (h : ∀ n ∈ ns, EntryName n) :
    isAbsolute (normalText abs ns) = abs := by
  cases abs with
  | true => simp [normalText, isAbsolute]
  | false =>
    by_cases hne : ns = []
    · subst hne
      decide
    · simp [normalText, hne, isAbsolute_joinSlash hne h]

theorem components_normalText {abs : Bool} (h : ∀ n ∈ ns, EntryName n) :
    components (normalText abs ns) = if !abs && ns.isEmpty then ["."] else ns := by
  cases abs with
  | true =>
    have habs : isAbsolute (normalText true ns) = true := isAbsolute_normalText h
    rw [components_absolute habs]
    exact names_slash_joinSlash h
  | false =>
    by_cases hne : ns = []
    · subst hne
      decide
    · simp [normalText, hne, components_joinSlash hne h]

theorem filter_names (cs : List Char) : (names cs).filter (· != ".") = names cs := by
  rw [List.filter_eq_self]
  intro n hn
  have hplain := (List.mem_filter.1 hn).2
  simp only [Bool.and_eq_true] at hplain
  exact hplain.2

theorem names_components (p : String) : (components p).filter (· != ".") = names p.toList := by
  rw [components_eq]
  split
  · rw [List.filter_cons_of_neg (by simp), filter_names]
  · exact filter_names _

theorem dots_mem_components : ".." ∈ components p ↔ ".." ∈ names p.toList := by
  rw [components_eq]
  split <;> simp

/-- The directory that a path is in. -/
theorem parent_components (hdots : ".." ∉ components p) (h : parent p = some q) :
    (∃ n, components p = components q ++ [n]) ∧ isAbsolute q = isAbsolute p := by
  have hnames : ∀ n ∈ names p.toList, EntryName n := fun n hn =>
    entryName_of_mem_names hn fun heq => hdots (dots_mem_components.2 (heq ▸ hn))
  have hne : components p ≠ [] := by
    intro hnil
    rw [parent, hnil] at h
    exact nomatch h
  obtain ⟨init, last, hsplit⟩ : ∃ init last, components p = init ++ [last] :=
    ⟨_, _, (List.dropLast_append_getLast hne).symm⟩
  have htext : q = (if isAbsolute p then "/" else "") ++ joinSlash init := by
    simpa [parent, hsplit] using h.symm
  have hinit : init <+: components p := ⟨[last], hsplit.symm⟩
  have hgoal : components q = init ∧ isAbsolute q = isAbsolute p := by
    cases habs : isAbsolute p with
    | true =>
      rw [components_absolute habs] at hinit
      have hentries : ∀ n ∈ init, EntryName n := fun n hn => hnames n (hinit.subset hn)
      rw [habs, if_pos rfl] at htext
      have hnormal : q = normalText true init := htext
      rw [hnormal, components_normalText hentries]
      exact ⟨rfl, isAbsolute_normalText hentries⟩
    | false =>
      rw [habs, if_neg Bool.false_ne_true, String.empty_append] at htext
      subst htext
      rw [components_eq] at hinit
      by_cases hnil : init = []
      · subst hnil
        exact ⟨by decide, by decide⟩
      cases hdot : leadingDot p with
      | true =>
        rw [hdot, if_pos rfl] at hinit
        obtain ⟨first, rest, rfl⟩ := List.exists_cons_of_ne_nil hnil
        obtain ⟨rfl, hrest⟩ := List.cons_prefix_cons.1 hinit
        exact components_dot_joinSlash fun n hn => hnames n (hrest.subset hn)
      | false =>
        rw [hdot, if_neg Bool.false_ne_true] at hinit
        have hentries : ∀ n ∈ init, EntryName n := fun n hn => hnames n (hinit.subset hn)
        exact ⟨components_joinSlash hnil hentries, isAbsolute_joinSlash hnil hentries⟩
  exact ⟨⟨last, by rw [hsplit, hgoal.1]⟩, hgoal.2⟩

/-- The part of the text after the last slash. -/
def lastPart (cs : List Char) : List Char := (splitSlash cs).getLast (splitSlash_ne_nil cs)

theorem lastPart_append (a s : List Char) : lastPart (a ++ '/' :: s) = lastPart s := by
  have hsplit := splitSlash_append a s
  unfold lastPart
  rw [List.getLast_congr _ _ hsplit, List.getLast_append_of_ne_nil _ (splitSlash_ne_nil s)]
  exact List.append_ne_nil_of_right_ne_nil _ (splitSlash_ne_nil s)

theorem lastPart_plain (h : '/' ∉ cs) : lastPart cs = cs := by
  unfold lastPart
  rw [List.getLast_congr _ _ (splitSlash_plain h)]
  · rfl
  · exact List.cons_ne_nil _ _

/-- The text ends with its last part. -/
theorem lastPart_spec (cs : List Char) :
    '/' ∉ lastPart cs ∧ (cs = lastPart cs ∨ ∃ a, cs = a ++ '/' :: lastPart cs) := by
  refine ⟨no_slash_of_mem_splitSlash (List.getLast_mem (splitSlash_ne_nil cs)), ?_⟩
  induction cs with
  | nil => exact .inl rfl
  | cons c cs ih =>
    by_cases hc : c = '/'
    · subst hc
      have hlast : lastPart ('/' :: cs) = lastPart cs := lastPart_append [] cs
      rw [hlast]
      obtain h | ⟨a, ha⟩ := ih
      · exact .inr ⟨[], by rw [List.nil_append, ← h]⟩
      · exact .inr ⟨'/' :: a, by rw [List.cons_append, ← ha]⟩
    · obtain h | ⟨a, ha⟩ := ih
      · have hplain : '/' ∉ c :: cs := by
          rw [List.mem_cons, not_or, h]
          exact ⟨Ne.symm hc, no_slash_of_mem_splitSlash (List.getLast_mem (splitSlash_ne_nil cs))⟩
        exact .inl (lastPart_plain hplain).symm
      · refine .inr ⟨c :: a, ?_⟩
        have hlast : lastPart (c :: cs) = lastPart cs := by
          rw [ha, ← List.cons_append, lastPart_append, lastPart_append]
        rw [hlast, List.cons_append, ← ha]

theorem lastPart_joinSlash (hne : ns ≠ []) (h : ∀ n ∈ ns, EntryName n) :
    lastPart (joinSlash ns).toList = (ns.getLast hne).toList := by
  unfold lastPart
  rw [List.getLast_congr _ _ (splitSlash_joinSlash hne h), List.getLast_map]
  simpa using hne

/-- A last part that names something is one of the names. -/
theorem lastPart_mem_names (hne : lastPart cs ≠ []) (hdot : lastPart cs ≠ ['.']) :
    String.ofList (lastPart cs) ∈ names cs := by
  have hmem : lastPart cs ∈ splitSlash cs := List.getLast_mem (splitSlash_ne_nil cs)
  refine List.mem_filter.2 ⟨List.mem_map.2 ⟨_, hmem, rfl⟩, ?_⟩
  have hempty : String.ofList (lastPart cs) ≠ "" := by simpa using hne
  have hplain : String.ofList (lastPart cs) ≠ "." := by
    intro heq
    have hlist := congrArg String.toList heq
    rw [String.toList_ofList] at hlist
    exact hdot hlist
  simp [hempty, hplain]

end Path

open Path

namespace DestinationPath

variable {raw : String} {p : DestinationPath} {cs a : List Char}

/-- An operand is accepted when it is not empty and has no `..`. -/
theorem new_ok_iff : (∃ p, DestinationPath.new raw = .ok p) ↔
    raw ≠ "" ∧ ".." ∉ names raw.toList := by
  have hdots : (components raw).contains ".." = true ↔ ".." ∈ names raw.toList := by
    rw [List.contains_iff_mem, dots_mem_components]
  rw [← hdots]
  unfold DestinationPath.new
  by_cases hempty : raw = ""
  · simp [hempty]
  · have hne : raw.isEmpty = false := by simpa using hempty
    cases (components raw).contains ".." <;> simp [hempty, hne]

theorem new_eq (hne : raw ≠ "") (hdots : ".." ∉ names raw.toList) :
    DestinationPath.new raw =
      .ok ⟨normalText (isAbsolute raw) (names raw.toList), raw, intentOf raw⟩ := by
  have hempty : raw.isEmpty = false := by simpa using hne
  have hcontains : (components raw).contains ".." = false := by
    simpa using fun h => hdots (dots_mem_components.1 h)
  simp only [DestinationPath.new, hempty, hcontains, Bool.false_eq_true, if_false,
    names_components, normalText]

/-- What an accepted operand becomes. -/
theorem of_new (h : DestinationPath.new raw = .ok p) :
    raw ≠ "" ∧ (∀ n ∈ names raw.toList, EntryName n) ∧
      p = ⟨normalText (isAbsolute raw) (names raw.toList), raw, intentOf raw⟩ := by
  obtain ⟨hne, hdots⟩ := new_ok_iff.1 ⟨p, h⟩
  refine ⟨hne, fun n hn => entryName_of_mem_names hn fun heq => hdots (heq ▸ hn), ?_⟩
  rw [new_eq hne hdots] at h
  exact (Except.ok.inj h).symm

theorem operand_of_new (h : DestinationPath.new raw = .ok p) : p.operand = raw := by
  obtain ⟨-, -, rfl⟩ := of_new h
  rfl

theorem trimEndSlashes_slash : trimEndSlashes (cs ++ ['/']) = trimEndSlashes cs := by
  simp [trimEndSlashes]

theorem trimEndSlashes_self (h : lastPart cs ≠ []) : trimEndSlashes cs = cs := by
  have hlast : cs.getLast? ≠ some '/' := by
    intro hslash
    obtain ⟨a, rfl⟩ := List.getLast?_eq_some_iff.1 hslash
    exact h (lastPart_append a [])
  unfold trimEndSlashes
  cases hrev : cs.reverse with
  | nil => simp_all
  | cons c rest =>
    have hc : c ≠ '/' := by
      rintro rfl
      rw [List.getLast?_eq_head?_reverse, hrev] at hlast
      exact hlast rfl
    rw [List.dropWhile_cons_of_neg (by simpa using hc), ← hrev, List.reverse_reverse]

theorem lastPart_eq_nil : lastPart cs = [] ↔ cs = [] ∨ cs.getLast? = some '/' := by
  constructor
  · intro h
    obtain ⟨-, hcs | ⟨a, ha⟩⟩ := lastPart_spec cs
    · exact .inl (hcs.trans h)
    · rw [h] at ha
      exact .inr (by rw [ha]; simp)
  · rintro (rfl | h)
    · rfl
    · obtain ⟨a, rfl⟩ := List.getLast?_eq_some_iff.1 h
      exact lastPart_append a []

theorem names_trimEndSlashes (cs : List Char) : names (trimEndSlashes cs) = names cs := by
  induction cs using List.reverseRecOn with
  | nil => rfl
  | append_singleton cs c ih =>
    by_cases hc : c = '/'
    · subst hc
      rw [trimEndSlashes_slash, ih, names_append]
      exact (List.append_nil _).symm
    · have hlast : lastPart (cs ++ [c]) ≠ [] := by
        rw [ne_eq, lastPart_eq_nil]
        simp [hc]
      rw [trimEndSlashes_self hlast]

theorem lastPart_trimEndSlashes (h : trimEndSlashes cs ≠ []) : lastPart (trimEndSlashes cs) ≠ [] := by
  induction cs using List.reverseRecOn with
  | nil => exact absurd rfl h
  | append_singleton cs c ih =>
    by_cases hc : c = '/'
    · subst hc
      rw [trimEndSlashes_slash] at h ⊢
      exact ih h
    · have hlast : lastPart (cs ++ [c]) ≠ [] := by
        rw [ne_eq, lastPart_eq_nil]
        simp [hc]
      rwa [trimEndSlashes_self hlast]

/-- Something is left of a relative operand. -/
theorem trimEndSlashes_relative (hne : raw ≠ "") (hrel : isAbsolute raw = false) :
    trimEndSlashes raw.toList ≠ [] := by
  intro hnil
  have hall : ∀ c ∈ raw.toList, c = '/' := by
    intro c hc
    rw [trimEndSlashes, List.reverse_eq_nil_iff, List.dropWhile_eq_nil_iff] at hnil
    simpa using hnil c (List.mem_reverse.2 hc)
  cases hraw : raw.toList with
  | nil => exact hne (String.toList_inj.1 hraw)
  | cons c cs =>
    have hc := hall c (by rw [hraw]; exact List.mem_cons_self)
    simp [isAbsolute, hraw, hc] at hrel

/-- The text is `.` or ends with `/.`. -/
theorem terminalDot_iff :
    (cs == ['.'] || ['/', '.'].isSuffixOf cs) = true ↔ lastPart cs = ['.'] := by
  rw [Bool.or_eq_true, beq_iff_eq, List.isSuffixOf_iff_suffix]
  constructor
  · rintro (rfl | ⟨a, rfl⟩)
    · rfl
    · exact lastPart_append a ['.']
  · intro h
    obtain ⟨-, hcs | ⟨a, ha⟩⟩ := lastPart_spec cs
    · exact .inl (hcs.trans h)
    · exact .inr ⟨a, by rw [← h]; exact ha.symm⟩

/-- The intent is told by the last part of the text, and by the last part that
is left without the slashes at the end. -/
theorem intentOf_eq (hne : raw ≠ "") : intentOf raw =
    if lastPart raw.toList = [] then
      if lastPart (trimEndSlashes raw.toList) = ['.'] then .terminalDotSlash else .trailingSlash
    else if lastPart raw.toList = ['.'] then .terminalDot
    else .exactOrExistingDirectory := by
  have hslash : (raw.toList.getLast? == some '/') = true ↔ lastPart raw.toList = [] := by
    rw [lastPart_eq_nil, beq_iff_eq]
    simp [hne]
  have hdot := @terminalDot_iff (trimEndSlashes raw.toList)
  unfold intentOf
  simp only [Bool.and_eq_true, hslash, hdot]
  by_cases hlast : lastPart raw.toList = []
  · simp only [hlast, true_and, if_true]
  · rw [trimEndSlashes_self hlast]
    simp only [hlast, false_and, if_false]

/-- The operand says that it is a directory: it ends with a slash, or with a `.`
that stands alone. -/
def NamesDirectory (raw : String) : Prop :=
  lastPart raw.toList = [] ∨ lastPart raw.toList = ['.']

instance (raw : String) : Decidable (NamesDirectory raw) :=
  inferInstanceAs (Decidable (_ ∨ _))

theorem intentOf_forced (hne : raw ≠ "") :
    intentOf raw ≠ .exactOrExistingDirectory ↔ NamesDirectory raw := by
  rw [intentOf_eq hne, NamesDirectory]
  by_cases hlast : lastPart raw.toList = []
  · simp only [hlast, if_true, true_or, iff_true]
    split <;> exact nofun
  · by_cases hdot : lastPart raw.toList = ['.'] <;> simp [hlast, hdot]

theorem names_of_not_namesDirectory (h : ¬ NamesDirectory raw) : names raw.toList ≠ [] := by
  obtain ⟨hempty, hdot⟩ := not_or.1 h
  exact List.ne_nil_of_mem (lastPart_mem_names hempty hdot)

theorem components_of_new (h : DestinationPath.new raw = .ok p) :
    components p.path = (if !isAbsolute raw && (names raw.toList).isEmpty then ["."]
      else names raw.toList) ∧ isAbsolute p.path = isAbsolute raw := by
  obtain ⟨-, hnames, rfl⟩ := of_new h
  exact ⟨components_normalText hnames, isAbsolute_normalText hnames⟩

theorem names_of_new (h : DestinationPath.new raw = .ok p) :
    names p.path.toList = names raw.toList := by
  rw [← names_components p.path, (components_of_new h).1]
  split
  · rename_i hempty
    simp only [Bool.and_eq_true, List.isEmpty_iff] at hempty
    rw [hempty.2]
    rfl
  · exact filter_names _

theorem dots_not_mem_of_new (h : DestinationPath.new raw = .ok p) : ".." ∉ components p.path := by
  obtain ⟨-, hnames, -⟩ := of_new h
  rw [(components_of_new h).1]
  split
  · decide
  · exact fun hmem => (hnames _ hmem).plain.2 rfl

end DestinationPath

/-- The names on a relative path. -/
theorem NormalizedRelativePath.exists_names (path : NormalizedRelativePath) :
    ∃ ns, ns ≠ [] ∧ (∀ n ∈ ns, EntryName n) ∧ path.asStr = joinSlash ns := by
  obtain ⟨raw, h⟩ := path.normalized
  unfold normalizeRelative at h
  split at h
  · exact nomatch h
  · split at h
    · exact nomatch h
    · rename_i hdots
      simp only [names_components] at h
      split at h
      · exact nomatch h
      · rename_i hne
        refine ⟨names raw.toList, by simpa using hne, fun n hn => ?_, (Except.ok.inj h).symm⟩
        refine entryName_of_mem_names hn fun heq => hdots ?_
        rw [List.contains_iff_mem, dots_mem_components]
        exact heq ▸ hn

theorem Path.parent_eq_none {p : String} : parent p = none ↔ components p = [] := by
  unfold parent
  split
  · rename_i h
    simpa using h
  · rename_i h
    refine iff_of_false nofun fun hnil => ?_
    rw [hnil] at h
    exact nomatch h

section Resolution

variable {operand : DestinationPath} {entry : NormalizedRelativePath} {kind : ManifestEntryKind}
variable {empty : Bool} {state : DestinationState} {raw : String}

/-- Where the planner puts an entry. -/
inductive Placed (operand : DestinationPath) (entry : NormalizedRelativePath) :
    DestinationPlacement → String → Prop
  | directory : Placed operand entry .directoryTarget (join operand.path entry.asStr)
  | exact (h : operand.intent = .exactOrExistingDirectory) :
      Placed operand entry .exactTarget operand.path

/-- The planner refuses, or places the entry and takes the parent. -/
theorem resolveDestination_cases (operand : DestinationPath) (entry : NormalizedRelativePath)
    (kind : ManifestEntryKind) (empty : Bool) (state : DestinationState) :
    resolveDestination operand entry kind empty state = .error .directoryRequired ∨
    resolveDestination operand entry kind empty state = .error .directoryOntoNonDirectory ∨
    ∃ placement target, Placed operand entry placement target ∧
      resolveDestination operand entry kind empty state =
        match parent target with
        | none => .error .missingParent
        | some directory => .ok ⟨operand, target, directory, placement⟩ := by
  unfold resolveDestination
  simp only
  split
  · exact .inl rfl
  · split
    · exact .inr (.inl rfl)
    · split
      · exact .inl rfl
      · refine .inr (.inr ?_)
        generalize hdir : (operand.intent != .exactOrExistingDirectory || state == .directory ||
          (kind == .directory && !empty && state != .danglingSymlink)) = directoryTarget
        cases directoryTarget with
        | true => exact ⟨_, _, .directory, rfl⟩
        | false =>
          refine ⟨_, _, .exact ?_, rfl⟩
          by_contra hne
          simp [hne] at hdir

/-- An operand that asks for a directory has the entry put into it. -/
theorem resolveDestination_directory {plan : ResolvedDestinationPlan}
    (hintent : operand.intent ≠ .exactOrExistingDirectory)
    (h : resolveDestination operand entry kind empty state = .ok plan) :
    plan.placement = .directoryTarget ∧ plan.targetPath = join operand.path entry.asStr := by
  obtain hr | hr | ⟨placement, target, hplaced, hr⟩ :=
    resolveDestination_cases operand entry kind empty state
  · exact nomatch hr.symm.trans h
  · exact nomatch hr.symm.trans h
  · rw [h] at hr
    cases hparent : parent target with
    | none =>
      rw [hparent] at hr
      exact nomatch hr
    | some directory =>
      rw [hparent] at hr
      cases hr
      cases hplaced with
      | directory => exact ⟨rfl, rfl⟩
      | exact hexact => exact absurd hexact hintent

/-- Every target has a name, and no `..`. -/
theorem Placed.components {placement : DestinationPlacement} {target : String}
    (h : DestinationPath.new raw = .ok operand) (hp : Placed operand entry placement target) :
    Path.components target ≠ [] ∧ ".." ∉ Path.components target := by
  cases hp with
  | directory =>
    obtain ⟨ns, hne, hnames, hentry⟩ := entry.exists_names
    rw [hentry, (components_below operand.path hne hnames).1, List.mem_append, not_or]
    refine ⟨List.append_ne_nil_of_right_ne_nil _ hne, DestinationPath.dots_not_mem_of_new h, ?_⟩
    exact fun hmem => (hnames _ hmem).plain.2 rfl
  | exact hintent =>
    refine ⟨?_, DestinationPath.dots_not_mem_of_new h⟩
    obtain ⟨hne, -, hoperand⟩ := DestinationPath.of_new h
    have hlexical : ¬ DestinationPath.NamesDirectory raw := by
      rw [← DestinationPath.intentOf_forced hne, not_not]
      rw [hoperand] at hintent
      exact hintent
    have hnames := DestinationPath.names_of_not_namesDirectory hlexical
    rw [(DestinationPath.components_of_new h).1, if_neg (by simp [hnames])]
    exact hnames

/-- The planner always finds the parent of its target. -/
theorem destination_planned (raw : String) (operand : DestinationPath)
    (entry : NormalizedRelativePath) (kind : ManifestEntryKind) (empty : Bool)
    (state : DestinationState) (h : DestinationPath.new raw = .ok operand) :
    resolveDestination operand entry kind empty state ≠ .error .missingParent ∧
    ∀ plan, resolveDestination operand entry kind empty state = .ok plan →
      ".." ∉ Path.components plan.targetPath ∧ ".." ∉ Path.components plan.targetDirectory ∧
      parent plan.targetPath = some plan.targetDirectory ∧
      (∃ n, Path.components plan.targetPath = Path.components plan.targetDirectory ++ [n]) ∧
      isAbsolute plan.targetDirectory = isAbsolute plan.targetPath ∧
      (plan.placement = .directoryTarget → plan.targetPath = join operand.path entry.asStr) ∧
      (plan.placement = .exactTarget → plan.targetPath = operand.path) ∧
      (DestinationPath.NamesDirectory raw → plan.placement ≠ .exactTarget) := by
  obtain hr | hr | ⟨placement, target, hplaced, hr⟩ :=
    resolveDestination_cases operand entry kind empty state
  · rw [hr]
    exact ⟨nofun, nofun⟩
  · rw [hr]
    exact ⟨nofun, nofun⟩
  · obtain ⟨hne, hdots⟩ := hplaced.components h
    obtain ⟨directory, hparent⟩ := Option.ne_none_iff_exists'.1 (mt parent_eq_none.1 hne)
    rw [hparent] at hr
    rw [hr]
    refine ⟨nofun, ?_⟩
    rintro _ ⟨⟩
    obtain ⟨⟨n, hn⟩, habs⟩ := parent_components hdots hparent
    have hdirectory : ".." ∉ Path.components directory := fun hmem =>
      hdots (hn ▸ List.mem_append_left _ hmem)
    refine ⟨hdots, hdirectory, hparent, ⟨n, hn⟩, habs, ?_⟩
    cases hplaced with
    | directory => exact ⟨fun _ => rfl, nofun, fun _ => nofun⟩
    | exact hintent =>
      refine ⟨nofun, fun _ => rfl, fun hlexical => ?_⟩
      obtain ⟨hraw, -, hoperand⟩ := DestinationPath.of_new h
      rw [hoperand] at hintent
      exact absurd hintent ((DestinationPath.intentOf_forced hraw).2 hlexical)

/-- A regular file goes below a missing directory that is written with a `.`. -/
theorem destination_planned_dot :
    ∃ plan, resolveDestination ⟨"dst", "dst//.", .terminalDot⟩ ⟨"a", "a", by decide⟩ .regularFile
        false .missing = .ok plan ∧ parent plan.targetPath = some plan.targetDirectory ∧
      plan.placement ≠ .exactTarget := by
  obtain ⟨-, hplan⟩ := destination_planned "dst//." ⟨"dst", "dst//.", .terminalDot⟩
    ⟨"a", "a", by decide⟩ .regularFile false .missing (by decide +kernel)
  have hresolved : resolveDestination ⟨"dst", "dst//.", .terminalDot⟩ ⟨"a", "a", by decide⟩
      .regularFile false .missing = .ok ⟨⟨"dst", "dst//.", .terminalDot⟩, "dst/a", "dst",
        .directoryTarget⟩ := by decide +kernel
  obtain ⟨-, -, hparent, -, -, -, -, hplacement⟩ := hplan _ hresolved
  exact ⟨_, hresolved, hparent, hplacement (.inr (by decide +kernel))⟩

end Resolution

end Purgery
