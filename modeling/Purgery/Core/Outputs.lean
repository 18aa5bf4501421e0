import Purgery.Core.Expansion
import Purgery.Core.Placement

namespace Purgery

namespace Path

/-- The dots that a part of a path is made of; three if it is anything more than
`..`. -/
def dots (part : List Char) : Nat := if part.all (· == '.') then min 3 part.length else 3

/-- The dots of the parts between slashes. -/
def dotParts (cs : List Char) : List Nat := (splitSlash cs).map dots

/-- The last part on the left and the first on the right become one. -/
def glue : List Nat → List Nat → List Nat
  | [], right => right
  | left, [] => left
  | [n], m :: right => min 3 (n + m) :: right
  | n :: n' :: left, right => n :: glue (n' :: left) right

variable {part cs a b : List Char}

theorem dots_cons (c : Char) : dots (c :: part) = min 3 ((if c = '.' then 1 else 3) + dots part) := by
  unfold dots
  by_cases hc : c = '.'
  · subst hc
    simp only [List.all_cons, BEq.rfl, Bool.true_and, List.length_cons, if_true]
    split <;> omega
  · simp only [List.all_cons, beq_eq_false_iff_ne.2 hc, Bool.false_and, Bool.false_eq_true, hc,
      if_false]
    omega

theorem dots_le (part : List Char) : dots part ≤ 3 := by
  unfold dots
  split <;> omega

theorem dots_eq_zero : dots part = 0 ↔ part = [] := by
  cases part with
  | nil => simp [dots]
  | cons c part =>
    have hle : 1 ≤ (if c = '.' then 1 else 3 : Nat) := by split <;> omega
    rw [dots_cons]
    simp only [reduceCtorEq, iff_false]
    omega

theorem dots_eq_one : dots part = 1 ↔ part = ['.'] := by
  cases part with
  | nil => simp [dots]
  | cons c part =>
    rw [dots_cons, List.cons.injEq, ← dots_eq_zero]
    by_cases hc : c = '.'
    · simp only [hc, if_true, true_and]
      omega
    · simp only [hc, if_false, false_and, iff_false]
      omega

theorem dots_eq_two : dots part = 2 ↔ part = ['.', '.'] := by
  cases part with
  | nil => simp [dots]
  | cons c part =>
    rw [dots_cons, List.cons.injEq, ← dots_eq_one]
    by_cases hc : c = '.'
    · simp only [hc, if_true, true_and]
      omega
    · simp only [hc, if_false, false_and, iff_false]
      omega

theorem dotParts_ne_nil (cs : List Char) : dotParts cs ≠ [] := by
  simpa [dotParts] using splitSlash_ne_nil cs

theorem dotParts_plain (h : '/' ∉ cs) : dotParts cs = [dots cs] := by
  rw [dotParts, splitSlash_plain h]
  rfl

theorem glue_cons {n : Nat} {left right : List Nat} (h : left ≠ []) :
    glue (n :: left) right = n :: glue left right := by
  obtain ⟨n', left, rfl⟩ := List.exists_cons_of_ne_nil h
  cases right with
  | nil => cases left <;> rfl
  | cons m right => rfl

theorem dotParts_append (a b : List Char) : dotParts (a ++ b) = glue (dotParts a) (dotParts b) := by
  induction a with
  | nil =>
    obtain ⟨s, rest, hb⟩ := List.exists_cons_of_ne_nil (splitSlash_ne_nil b)
    have hdots := dots_le s
    have hmin : min 3 (0 + dots s) = dots s := by omega
    have hnil : dotParts [] = [0] := rfl
    rw [List.nil_append, hnil, dotParts, hb, List.map_cons, glue, hmin]
  | cons c a ih =>
    by_cases hc : c = '/'
    · subst hc
      have hslash : ∀ s, dotParts ('/' :: s) = 0 :: dotParts s := fun _ => rfl
      rw [List.cons_append, hslash, hslash, glue_cons (dotParts_ne_nil a), ih]
    · obtain ⟨s, rest, hs, hcons⟩ := splitSlash_cons hc (a ++ b)
      obtain ⟨s', rest', hs', hcons'⟩ := splitSlash_cons hc a
      obtain ⟨s'', rest'', hs''⟩ := List.exists_cons_of_ne_nil (splitSlash_ne_nil b)
      simp only [dotParts, hs, hs', hs'', List.map_cons] at ih
      simp only [dotParts, List.cons_append, hcons, hcons', hs'', List.map_cons, dots_cons]
      cases rest' with
      | nil =>
        obtain ⟨hfirst, hrest⟩ := List.cons.inj ih
        simp only [List.map_nil, glue, hrest, hfirst]
        refine congrArg (· :: _) ?_
        omega
      | cons r rest' =>
        simp only [List.map_cons] at ih ⊢
        rw [glue_cons (List.cons_ne_nil _ _)] at ih ⊢
        obtain ⟨hfirst, hrest⟩ := List.cons.inj ih
        rw [hfirst, hrest]

theorem mem_names {s : String} : s ∈ names cs ↔ s.toList ∈ splitSlash cs ∧ s ≠ "" ∧ s ≠ "." := by
  unfold names
  rw [List.mem_filter, List.mem_map, Bool.and_eq_true, bne_iff_ne, bne_iff_ne]
  refine and_congr_left fun _ => ⟨?_, fun h => ⟨_, h, String.ofList_toList⟩⟩
  rintro ⟨part, hpart, rfl⟩
  rwa [String.toList_ofList]

theorem dotdot_mem_names : ".." ∈ names cs ↔ 2 ∈ dotParts cs := by
  rw [mem_names, dotParts, List.mem_map]
  constructor
  · intro ⟨hmem, _⟩
    exact ⟨_, hmem, rfl⟩
  · intro ⟨part, hpart, hdots⟩
    rw [dots_eq_two] at hdots
    rw [hdots] at hpart
    exact ⟨hpart, by decide, by decide⟩

theorem names_ne_nil : names cs ≠ [] ↔ ∃ n ∈ dotParts cs, 2 ≤ n := by
  unfold dotParts
  constructor
  · intro hne
    obtain ⟨s, hs⟩ := List.exists_mem_of_ne_nil _ hne
    obtain ⟨hpart, hempty, hdot⟩ := mem_names.1 hs
    refine ⟨_, List.mem_map_of_mem hpart, ?_⟩
    have hzero : dots s.toList ≠ 0 := fun h => hempty (String.toList_inj.1 (dots_eq_zero.1 h))
    have hone : dots s.toList ≠ 1 := fun h => hdot (String.toList_inj.1 (dots_eq_one.1 h))
    omega
  · intro ⟨n, hn, hle⟩
    obtain ⟨part, hpart, rfl⟩ := List.mem_map.1 hn
    refine List.ne_nil_of_mem (a := String.ofList part)
      (mem_names.2 ⟨by rwa [String.toList_ofList], ?_, ?_⟩)
    · intro h
      rw [← String.toList_inj, String.toList_ofList] at h
      rw [dots_eq_zero.2 h] at hle
      omega
    · intro h
      rw [← String.toList_inj, String.toList_ofList] at h
      rw [dots_eq_one.2 h] at hle
      omega

/-- An absolute path has an empty part before its first slash. -/
theorem absolute_dotParts (p : String) :
    isAbsolute p = true ↔ (dotParts p.toList).head? = some 0 ∧ 2 ≤ (dotParts p.toList).length := by
  unfold isAbsolute
  cases p.toList with
  | nil => simp [dotParts, splitSlash]
  | cons c cs =>
    by_cases hc : c = '/'
    · subst hc
      have hpos := List.length_pos_iff.2 (splitSlash_ne_nil cs)
      simp [dotParts, splitSlash, dots]
      omega
    · obtain ⟨s, rest, -, hcons⟩ := splitSlash_cons hc cs
      have hne : dots (c :: s) ≠ 0 := fun h => List.cons_ne_nil _ _ (dots_eq_zero.1 h)
      simp [dotParts, hcons, hc, hne]

variable {p q name : String}

theorem fileName_eq_some (h : fileName p = some name) : EntryName name := by
  unfold fileName at h
  split at h
  · exact nomatch h
  · exact nomatch h
  · rename_i hdotdot hdot
    have hmem : name ∈ (components p).filter (· != ".") := by
      refine List.mem_filter.2 ⟨List.mem_of_getLast? h, ?_⟩
      rw [bne_iff_ne]
      rintro rfl
      exact hdot h
    rw [names_components] at hmem
    refine entryName_of_mem_names hmem ?_
    rintro rfl
    exact hdotdot h

theorem fileName_self (h : EntryName name) : fileName name = some name := by
  have hcomponents : components name = [name] :=
    @components_joinSlash [name] (List.cons_ne_nil _ _) (by simpa using h)
  unfold fileName
  rw [hcomponents, List.getLast?_singleton]
  split
  · rename_i heq
    exact absurd (Option.some.inj heq) h.plain.2
  · rename_i heq
    exact absurd (Option.some.inj heq) h.plain.1
  · rfl

theorem fileStem_self (h : fileName p = some name) : fileStem p = fileStem name := by
  unfold fileStem
  rw [h, fileName_self (fileName_eq_some h)]

theorem fileStem_plain (p : String) : '/' ∉ ((fileStem p).getD "").toList := by
  unfold fileStem
  cases hname : fileName p with
  | none => exact List.not_mem_nil
  | some name =>
    have hplain := (fileName_eq_some hname).no_slash
    simp only [Option.map_some, Option.getD_some]
    split
    · exact hplain
    · exact hplain
    · rename_i c stem _ hdrop
      rw [String.toList_ofList, List.mem_reverse]
      intro hmem
      have hsuffix : c :: stem <:+ name.toList.reverse := hdrop ▸ List.dropWhile_suffix _
      exact hplain (List.mem_reverse.1 (hsuffix.subset (.tail c hmem)))

theorem dots_name (h : EntryName name) : dots name.toList = 3 := by
  have hle := dots_le name.toList
  have hzero : dots name.toList ≠ 0 := fun heq =>
    h.ne_empty (String.toList_inj.1 (dots_eq_zero.1 heq))
  have hone : dots name.toList ≠ 1 := fun heq =>
    h.plain.1 (String.toList_inj.1 (dots_eq_one.1 heq))
  have htwo : dots name.toList ≠ 2 := fun heq =>
    h.plain.2 (String.toList_inj.1 (dots_eq_two.1 heq))
  omega

theorem dotParts_fileName (p : String) :
    dotParts ((fileName p).getD "").toList = [if (fileName p).isSome then 3 else 0] := by
  cases hname : fileName p with
  | none => rfl
  | some name =>
    have hentry := fileName_eq_some hname
    exact (dotParts_plain hentry.no_slash).trans (congrArg (fun n => [n]) (dots_name hentry))

end Path

namespace TransformDefinition

open Path

/-- What a piece of a pattern adds to the parts of the path: a file name is more
than dots, a stem may be `.` or `..`, and the paths of the plan bring their slashes. -/
def Piece.parts (name : String) (target : ResolvedDestinationPlan) : Piece → List Nat
  | token body =>
    let text := String.ofList (token body).text
    if text == "\x7bfile_name\x7d" then [3]
    else if text == "\x7bfile_stem\x7d" then [dots ((fileStem name).getD "").toList]
    else if text == "\x7btarget_path\x7d" then dotParts target.targetPath.toList
    else if text == "\x7btarget_directory\x7d" then dotParts target.targetDirectory.toList
    else if text == "\x7btarget_file_name\x7d" then
      [if (fileName target.targetPath).isSome then 3 else 0]
    else if text == "\x7btarget_file_stem\x7d" then
      [dots ((fileStem target.targetPath).getD "").toList]
    else dotParts (token body).text
  | p => dotParts p.text

def patternParts (name : String) (target : ResolvedDestinationPlan) (pattern : String) :
    List Nat :=
  (pieces pattern.toList).foldr (fun p parts => glue (p.parts name target) parts) [0]

/-- No part is two dots, and the first one is empty or some part is a name. -/
def Confining (name : String) (target : ResolvedDestinationPlan) (pattern : String) : Prop :=
  let parts := patternParts name target pattern
  2 ∉ parts ∧ ((parts.head? = some 0 ∧ 2 ≤ parts.length) ∨ ∃ n ∈ parts, 3 ≤ n)

variable {work name pattern : String} {target : ResolvedDestinationPlan}

theorem value_parts (hname : fileName work = some name) {body : List Char}
    (hinput : String.ofList (Piece.token body).text ≠ "\x7binput\x7d")
    (hparent : String.ofList (Piece.token body).text ≠ "\x7bparent\x7d") :
    dotParts ((Piece.token body).value (placeholder work target)) =
      (Piece.token body).parts name target := by
  have hentry := fileName_eq_some hname
  have hinput' := beq_eq_false_iff_ne.2 hinput
  have hparent' := beq_eq_false_iff_ne.2 hparent
  have hstem : ∀ p : String, dotParts ((fileStem p).getD "").toList =
      [dots ((fileStem p).getD "").toList] := fun p => dotParts_plain (fileStem_plain p)
  simp only [Piece.value, Piece.parts, placeholder, hinput', hparent', Bool.false_eq_true, if_false]
  generalize String.ofList (Piece.token body).text = token
  by_cases hfile : (token == "\x7bfile_name\x7d") = true
  · simp only [hfile, if_true, hname]
    exact (dotParts_plain hentry.no_slash).trans (congrArg (fun n => [n]) (dots_name hentry))
  by_cases hfileStem : (token == "\x7bfile_stem\x7d") = true
  · simp only [hfile, hfileStem, if_true, Bool.false_eq_true, if_false, fileStem_self hname]
    exact hstem name
  by_cases hpath : (token == "\x7btarget_path\x7d") = true
  · simp only [hfile, hfileStem, hpath, if_true, Bool.false_eq_true, if_false]
  by_cases hdirectory : (token == "\x7btarget_directory\x7d") = true
  · simp only [hfile, hfileStem, hpath, hdirectory, if_true, Bool.false_eq_true, if_false]
  by_cases htarget : (token == "\x7btarget_file_name\x7d") = true
  · simp only [hfile, hfileStem, hpath, hdirectory, htarget, if_true, Bool.false_eq_true, if_false]
    exact dotParts_fileName _
  by_cases htargetStem : (token == "\x7btarget_file_stem\x7d") = true
  · simp only [hfile, hfileStem, hpath, hdirectory, htarget, htargetStem, if_true,
      Bool.false_eq_true, if_false]
    exact hstem _
  · simp only [hfile, hfileStem, hpath, hdirectory, htarget, htargetStem, Bool.false_eq_true,
      if_false]

theorem dotParts_flatMap {value : Piece → List Char} {parts : Piece → List Nat} {ps : List Piece}
    (h : ∀ p ∈ ps, dotParts (value p) = parts p) :
    dotParts (ps.flatMap value) = ps.foldr (fun p right => glue (parts p) right) [0] := by
  induction ps with
  | nil => rfl
  | cons p ps ih =>
    rw [List.flatMap_cons, dotParts_append, h p (.head _), ih fun q hq => h q (.tail _ hq)]
    rfl

/-- The parts of an expanded pattern. -/
theorem expand_parts (hname : fileName work = some name)
    (h : validateExpectedOutputName pattern = .ok ()) :
    dotParts (expandPlaceholders work target pattern).toList = patternParts name target pattern := by
  obtain ⟨-, hinput, hparent⟩ := validate_ok h
  rw [expandPlaceholders_pieces]
  apply dotParts_flatMap
  intro p hp
  cases p with
  | literal c => rfl
  | unclosed rest => rfl
  | token body =>
    exact value_parts hname (token_ne hp hinput) (token_ne hp hparent)

/-- Strictly below a directory. -/
def StrictlyBelow (p directory : String) : Prop :=
  isAbsolute p = isAbsolute directory ∧
    ∃ ns, ns ≠ [] ∧ components p = components directory ++ ns

/-- What is promised of the path of an expected output. -/
structure Confined (work : String) (target : ResolvedDestinationPlan) (pattern path : String) :
    Prop where
  climbs : ".." ∉ components path
  below : isAbsolute (expandPlaceholders work target pattern) = false →
    StrictlyBelow path target.targetDirectory

theorem outputPath_confined (hname : fileName work = some name)
    (h : validateExpectedOutputName pattern = .ok ())
    (habs : isAbsolute target.targetDirectory = true)
    (hdots : ".." ∉ components target.targetDirectory) :
    Confined work target pattern (outputPath work target pattern) ↔
      Confining name target pattern := by
  have hparts : dotParts (expandPlaceholders work target pattern).toList =
      patternParts name target pattern := expand_parts hname h
  have habsolute := absolute_dotParts (expandPlaceholders work target pattern)
  have hclimb := @dotdot_mem_names (expandPlaceholders work target pattern).toList
  have hnames := @names_ne_nil (expandPlaceholders work target pattern).toList
  rw [hparts] at habsolute hclimb hnames
  unfold Confining
  cases hexpanded : isAbsolute (expandPlaceholders work target pattern) with
  | true =>
    have hpath : outputPath work target pattern = expandPlaceholders work target pattern :=
      if_pos hexpanded
    constructor
    · intro hconfined
      have hclimbs := hconfined.climbs
      rw [hpath, dots_mem_components, hclimb] at hclimbs
      exact ⟨hclimbs, .inl (habsolute.1 hexpanded)⟩
    · intro ⟨hclimbs, _⟩
      refine ⟨?_, fun hrel => ?_⟩
      · rwa [hpath, dots_mem_components, hclimb]
      · rw [hexpanded] at hrel
        exact nomatch hrel
  | false =>
    have hpath : outputPath work target pattern =
        join target.targetDirectory (expandPlaceholders work target pattern) :=
      if_neg (by simp [hexpanded])
    have hjoined : isAbsolute (outputPath work target pattern) = true := by
      rw [hpath]
      exact isAbsolute_join habs
    have hcomponents : components (outputPath work target pattern) =
        components target.targetDirectory ++
          names (expandPlaceholders work target pattern).toList := by
      rw [components_absolute hjoined, hpath, names_join habs hexpanded, components_absolute habs]
    have hrelative : ¬ ((patternParts name target pattern).head? = some 0 ∧
        2 ≤ (patternParts name target pattern).length) := by
      rw [← habsolute, hexpanded]
      exact Bool.false_ne_true
    constructor
    · intro hconfined
      have hclimbs : 2 ∉ patternParts name target pattern := fun hmem =>
        hconfined.climbs (hcomponents ▸ List.mem_append_right _ (hclimb.2 hmem))
      obtain ⟨-, ns, hne, hns⟩ := hconfined.below hexpanded
      obtain rfl := List.append_cancel_left (hcomponents.symm.trans hns)
      obtain ⟨n, hn, hle⟩ := hnames.1 hne
      have hother : n ≠ 2 := fun heq => hclimbs (heq ▸ hn)
      exact ⟨hclimbs, .inr ⟨n, hn, by omega⟩⟩
    · intro ⟨hclimbs, hsome⟩
      obtain ⟨n, hn, hle⟩ := hsome.resolve_left hrelative
      refine ⟨?_, fun _ => ⟨hjoined.trans habs.symm, _, hnames.2 ⟨n, hn, by omega⟩, hcomponents⟩⟩
      rw [hcomponents, List.mem_append, not_or]
      exact ⟨hdots, fun hmem => hclimbs (hclimb.1 hmem)⟩

theorem validated {d : TransformDefinition} (h : validateTransformDefinition d = .ok ()) :
    ∀ output ∈ d.expectedOutputs, validateExpectedOutputName output = .ok () := by
  unfold validateTransformDefinition at h
  simp only [bind, Except.bind, pure, Except.pure, throw, throwThe, MonadExceptOf.throw] at h
  split at h
  · exact nomatch h
  generalize d.expectedOutputs = outputs at h
  induction outputs with
  | nil => exact List.forall_mem_nil _
  | cons pattern outputs ih =>
    rw [List.forIn_cons] at h
    cases hvalid : validateExpectedOutputName pattern with
    | error e =>
      simp only [hvalid] at h
      exact nomatch h
    | ok u =>
      simp only [hvalid] at h
      exact List.forall_mem_cons.2 ⟨hvalid, ih h⟩

end TransformDefinition

end Purgery
