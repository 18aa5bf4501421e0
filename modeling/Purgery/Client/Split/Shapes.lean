import Purgery.Client.Split.DoubleStar

namespace Purgery.Client

open Purgery.Glob

variable {p path first part last segment : Bytes} {parts : List Bytes} {k : Nat}

/-- The shape of a pattern by its parts around `**`. -/
inductive Shape where
  /-- There is no `**`. -/
  | single
  /-- A part between two `**` is not `/`. -/
  | inner
  /-- The pattern ends with `**`; the first part may have a `*` before a `/`. -/
  | opened (starSlash : Bool)
  /-- The pattern ends with `**/`. -/
  | closed
  /-- The last part follows a `**` without a `/`. -/
  | bare
  /-- The last part follows a `**/`; the first part may have a `*`, and a `/`
  that is not at its end. -/
  | rooted (withStar inside : Bool)
  deriving DecidableEq

def shape (p : Bytes) : Shape :=
  match splitDoubleStar p with
  | first :: part :: parts =>
    let last := (part :: parts).getLast (List.cons_ne_nil part parts)
    if ¬ ∀ x ∈ (part :: parts).dropLast, x = [slash] then .inner
    else if last = [] then .opened (decide ([star, slash] <:+: first))
    else if last = [slash] then .closed
    else if last.head? = some slash then
      .rooted (first.contains star) (first.dropLast.contains slash)
    else .bare
  | _ => .single

/-- The shapes whose patterns match their language. -/
def Shape.Sound : Shape → Prop
  | .single => True
  | .opened starSlash => starSlash = false
  | .rooted withStar inside => withStar = false ∧ inside = false
  | _ => False

section Segments

theorem hasDoubleStar_of_parts (h : splitDoubleStar p = first :: part :: parts) :
    hasDoubleStar p = true := by
  fun_induction splitDoubleStar p generalizing first part parts with
  | case1 => cases h
  | case2 c => cases h
  | case3 a b p hstars ih => simp [hasDoubleStar, hstars]
  | case4 a b p hstars hnil ih => exact absurd hnil (splitDoubleStar_ne_nil _)
  | case5 a b p hstars part' parts' hp ih =>
    cases h
    rw [hasDoubleStar, ih hp, Bool.or_true]

theorem single_part (h : splitDoubleStar p = [first]) : first = p ∧ hasDoubleStar p = false := by
  fun_induction splitDoubleStar p generalizing first with
  | case1 =>
    cases h
    exact ⟨rfl, rfl⟩
  | case2 c =>
    cases h
    exact ⟨rfl, rfl⟩
  | case3 a b p hstars ih => exact absurd (List.cons.inj h).2 (splitDoubleStar_ne_nil p)
  | case4 a b p hstars hnil ih => exact absurd hnil (splitDoubleStar_ne_nil _)
  | case5 a b p hstars part' parts' hp ih =>
    cases h
    obtain ⟨rfl, hrest⟩ := ih hp
    refine ⟨rfl, ?_⟩
    rw [hasDoubleStar, hrest, Bool.or_false]
    simpa using hstars

theorem slashes_then_last {parts : List Bytes} (hne : parts ≠ [])
    (h : ∀ part ∈ parts.dropLast, part = [slash]) :
    parts = List.replicate (parts.length - 1) [slash] ++ [parts.getLast hne] := by
  have hslashes : parts.dropLast = List.replicate (parts.length - 1) [slash] :=
    List.eq_replicate_iff.2 ⟨List.length_dropLast, h⟩
  rw [← hslashes, List.dropLast_append_getLast]

theorem segmentsOf_slashes (h : stripLeadingSlash last = some segment) :
    segmentsOf (first :: (List.replicate k [slash] ++ [last])) =
      some (first :: (List.replicate k [] ++ [segment])) := by
  have hparts : (List.replicate k [slash] ++ [last]).mapM stripLeadingSlash =
      some (List.replicate k [] ++ [segment]) := by
    induction k with
    | zero => simp [h]
    | succ k ih =>
      rw [List.replicate_succ, List.cons_append, List.mapM_cons, ih]
      rfl
  rw [segmentsOf, hparts]
  rfl

theorem filter_segments (first segment : Bytes) (k : Nat) :
    ((first :: (List.replicate k [] ++ [segment])).zipIdx.filter fun s => !s.1.isEmpty) =
      (if first = [] then [] else [(first, 0)]) ++
        if segment = [] then [] else [(segment, k + 1)] := by
  have hempty : ((List.replicate k ([] : Bytes)).zipIdx 1).filter (fun s => !s.1.isEmpty) = [] := by
    rw [List.filter_eq_nil_iff]
    intro entry hentry
    rw [List.eq_of_mem_replicate (List.fst_mem_of_mem_zipIdx hentry)]
    decide
  rw [List.zipIdx_cons, List.zipIdx_append, List.filter_cons, List.filter_append, hempty]
  cases first <;> cases segment <;> simp [Nat.add_comm]

theorem globMatch_segments (h : splitDoubleStar p = first :: part :: parts) :
    globMatch p path = (segmentsOf (first :: part :: parts)).bind fun segments =>
      matchSegments path (segments.length - 1) true
        (segments.zipIdx.filter fun s => !s.1.isEmpty) 0 := by
  unfold globMatch
  split
  · rename_i hp
    rw [eq_of_beq hp] at h
    cases h
    rfl
  · rw [hasDoubleStar_of_parts h, h]
    rfl

theorem globMatch_slashes
    (hsplit : splitDoubleStar p = first :: (List.replicate k [slash] ++ [last]))
    (h : stripLeadingSlash last = some segment) :
    globMatch p path = matchSegments path (k + 1) true
      ((if first = [] then [] else [(first, 0)]) ++
        if segment = [] then [] else [(segment, k + 1)]) 0 := by
  obtain ⟨part, parts, hparts⟩ := List.exists_cons_of_ne_nil
    (List.append_ne_nil_of_right_ne_nil (List.replicate k [slash]) (List.cons_ne_nil last []))
  rw [globMatch_segments (hparts ▸ hsplit), ← hparts, segmentsOf_slashes h, Option.bind_some,
    filter_segments]
  simp

end Segments

section Sound

theorem unit_slashes (k : Nat) :
    (List.replicate k [slash]).flatMap unit = List.replicate k .tree := by
  induction k with
  | zero => rfl
  | succ k ih =>
    rw [List.replicate_succ, List.flatMap_cons, ih]
    rfl

theorem elements_slashes (hruns : ¬ [star, star, star] <:+: p)
    (hsplit : splitDoubleStar p = first :: (List.replicate k [slash] ++ [last])) :
    elements p = first.map single ++ (List.replicate k .tree ++ unit last) := by
  rw [elements_split hruns hsplit, List.flatMap_append, unit_slashes, List.flatMap_singleton]

/-- A part of a pattern has what the pattern has. -/
theorem Plain.of_part (hp : Plain p) (hsplit : splitDoubleStar p = first :: parts)
    (h : part ∈ first :: parts) :
    hasDoubleStar part = false ∧ opening ∉ part ∧ Ascii part := by
  have hwithin : part <:+: p := by
    obtain ⟨first', parts', hsplit', hfirst, hparts⟩ := splitDoubleStar_within p
    rw [hsplit] at hsplit'
    obtain ⟨rfl, rfl⟩ := List.cons.inj hsplit'
    obtain rfl | h := List.mem_cons.1 h
    · exact hfirst.isInfix
    · exact hparts part h
  exact ⟨parts_single hsplit h, fun ho => hp.bracket (hwithin.subset ho), hp.ascii.within hwithin⟩

theorem opened_decides (hp : Plain p) (hpath : Ascii path)
    (hsplit : splitDoubleStar p = first :: (List.replicate k [slash] ++ [[]]))
    (hslash : ¬ [star, slash] <:+: first) :
    Decides (globMatch p path) (path ∈ patternLanguage p) := by
  have hlanguage : path ∈ patternLanguage p ↔ path ∈ prefixLanguage first := by
    rw [patternLanguage, elements_slashes hp.runs hsplit, prefixLanguage, mem_append, mem_append]
    constructor
    · rintro ⟨u, hu, t, -, rfl⟩
      exact ⟨u, hu, t, mem_all, rfl⟩
    · rintro ⟨u, hu, t, -, rfl⟩
      exact ⟨u, hu, t, mem_trees_all k, rfl⟩
  rw [hlanguage, globMatch_slashes hsplit rfl]
  by_cases hfirst : first = []
  · subst hfirst
    exact .of_true (mem_prefixLanguage.2 ⟨[], mem_nil.2 rfl, List.nil_prefix⟩)
  · obtain ⟨hdouble, hbracket, hascii⟩ := hp.of_part hsplit List.mem_cons_self
    obtain ⟨found, hfound, hiff⟩ := firstMatchLen_finds hdouble hbracket hslash hascii hpath 0
    simp only [if_neg hfirst, if_true, List.append_nil, matchSegments, hfound]
    cases found with
    | none => exact .of_false fun h => by cases hiff.2 h
    | some len => exact .of_true (hiff.1 rfl)

theorem slash_iff_of_mem_simpleLanguage {u : Bytes} (hstar : star ∉ p) (h : u ∈ simpleLanguage p)
    (i : Nat) : u[i]? = some slash ↔ p[i]? = some slash := by
  induction p generalizing u i with
  | nil => rw [mem_nil.1 h]
  | cons c p ih =>
    rw [List.mem_cons, not_or] at hstar
    by_cases hquery : c = query
    · subst hquery
      obtain ⟨b, hb, s, hs, rfl⟩ := simpleLanguage_query.1 h
      have hne : query ≠ slash := by decide
      cases i with
      | zero => simp [hb, hne]
      | succ i => exact ih hstar.2 hs i
    · obtain ⟨s, hs, rfl⟩ := (simpleLanguage_literal (Ne.symm hstar.1) hquery).1 h
      cases i with
      | zero => exact Iff.rfl
      | succ i => exact ih hstar.2 hs i

theorem rooted_after {u : Bytes} (hstar : star ∉ first) (hinside : slash ∉ first.dropLast)
    (hu : u ∈ simpleLanguage first) (hpath : u <+: path) : Rooted path first.length := by
  have hlen := length_of_mem_simpleLanguage hstar hu
  have hsame : ∀ j < first.length, (path[j]? = some slash ↔ first[j]? = some slash) := by
    intro j hj
    rw [← slash_iff_of_mem_simpleLanguage hstar hu j]
    obtain ⟨t, rfl⟩ := hpath
    rw [List.getElem?_append_left (by omega)]
  have hbefore : ∀ j < first.length - 1, first[j]? ≠ some slash := by
    intro j hj hslash
    refine hinside (List.mem_iff_getElem?.2 ⟨j, ?_⟩)
    rwa [List.getElem?_dropLast, if_pos hj]
  by_cases hne : first.length = 0
  · exact .inl hne
  · by_cases hlast : path[first.length - 1]? = some slash
    · exact .inr (.inl hlast)
    · refine .inr (.inr fun j hj hslash => ?_)
      obtain heq | hlt := Nat.eq_or_lt_of_le (Nat.le_sub_one_of_lt hj)
      · exact hlast (heq ▸ hslash)
      · exact hbefore j hlt ((hsame j hj).1 hslash)

theorem rooted_decides (hp : Plain p) (hpath : Ascii path)
    (hsplit : splitDoubleStar p = first :: (List.replicate k [slash] ++ [slash :: segment]))
    (hne : segment ≠ []) (hstar : star ∉ first) (hinside : slash ∉ first.dropLast) :
    Decides (globMatch p path) (path ∈ patternLanguage p) := by
  have hlast : slash :: segment ∈ first :: (List.replicate k [slash] ++ [slash :: segment]) := by
    simp
  obtain ⟨hlastDouble, hlastBracket, hlastAscii⟩ := hp.of_part hsplit hlast
  have hsegment : hasDoubleStar segment = false := (hasDoubleStar_cons hlastDouble).1
  have hbracket : opening ∉ segment := fun h => hlastBracket (List.mem_cons_of_mem _ h)
  have hstrip : stripLeadingSlash (slash :: segment) = some segment := by
    rw [stripLeadingSlash, if_pos rfl, hlastAscii.sliceFrom (by simp)]
    rfl
  have hend : ∀ start ≤ path.length, Rooted path start →
      Decides (lastSegment segment path start)
        (path.drop start ∈ language slash (.tree :: segment.map single)) := by
    intro start hlen hroot
    refine (lastSegment_decides hsegment hbracket hlastAscii.tail hpath hroot hlen).congr ?_
    exact (mem_tree_iff (segment.map single) hlen).symm
  have hlanguage : path ∈ patternLanguage p ↔ ∃ u ∈ simpleLanguage first,
      ∃ t ∈ language slash (.tree :: segment.map single), u ++ t = path := by
    rw [patternLanguage, elements_slashes hp.runs hsplit, mem_append]
    simp only [unit, List.head?_cons, if_true, List.tail_cons, mem_trees]
    rfl
  rw [hlanguage, globMatch_slashes hsplit hstrip, if_neg hne]
  by_cases hfirst : first = []
  · subst hfirst
    obtain ⟨found, hfound, hiff⟩ := hend 0 (Nat.zero_le _) (.inl rfl)
    have hmatch : matchSegments path (k + 1) true [(segment, k + 1)] 0 = some found := by
      cases found <;> simp [matchSegments, hfound]
    rw [if_pos rfl, List.nil_append, hmatch]
    refine ⟨found, rfl, hiff.trans ?_⟩
    constructor
    · exact fun h => ⟨[], mem_nil.2 rfl, path, h, rfl⟩
    · rintro ⟨u, hu, t, ht, rfl⟩
      rw [mem_nil.1 hu]
      exact ht
  · obtain ⟨hdouble, hfirstBracket, hascii⟩ := hp.of_part hsplit List.mem_cons_self
    have hslash : ¬ [star, slash] <:+: first := fun h => hstar (h.subset List.mem_cons_self)
    obtain ⟨found, hfound, hiff⟩ := firstMatchLen_finds hdouble hfirstBracket hslash hascii hpath 0
    rw [mem_prefixLanguage] at hiff
    cases found with
    | none =>
      have hmatch : matchSegments path (k + 1) true [(first, 0), (segment, k + 1)] 0 =
          some false := by
        simp [matchSegments, hfound]
      rw [if_neg hfirst, List.singleton_append, hmatch]
      refine .of_false ?_
      rintro ⟨u, hu, t, -, rfl⟩
      exact nomatch hiff.2 ⟨u, hu, List.prefix_append u t⟩
    | some len =>
      have hlen := firstMatchLen_length hstar hfirstBracket hfound
      rw [Nat.zero_add] at hlen
      subst hlen
      obtain ⟨u, hu, hunder⟩ := hiff.1 rfl
      have hulen := length_of_mem_simpleLanguage hstar hu
      obtain ⟨found, hlastFound, hlastIff⟩ := hend first.length
        (hulen ▸ hunder.length_le) (rooted_after hstar hinside hu hunder)
      have hmatch : matchSegments path (k + 1) true [(first, 0), (segment, k + 1)] 0 =
          some found := by
        cases found <;> simp [matchSegments, hfound, hlastFound]
      rw [if_neg hfirst, List.singleton_append, hmatch]
      refine ⟨found, rfl, hlastIff.trans ?_⟩
      constructor
      · intro h
        refine ⟨u, hu, _, h, ?_⟩
        obtain ⟨t, rfl⟩ := hunder
        rw [← hulen, List.drop_left]
      · rintro ⟨v, hv, t, ht, rfl⟩
        have hvlen := length_of_mem_simpleLanguage hstar hv
        rwa [← hvlen, List.drop_left]

theorem single_decides (hp : Plain p) (hpath : Ascii path) (h : splitDoubleStar p = [first]) :
    Decides (globMatch p path) (path ∈ patternLanguage p) := by
  have hlanguage := elements_split hp.runs h
  obtain ⟨rfl, hdouble⟩ := single_part h
  rw [globMatch_single hdouble, patternLanguage, hlanguage, List.flatMap_nil, List.append_nil]
  exact simpleGlob_decides hdouble hp.bracket hp.ascii hpath

theorem sound_decides (hp : Plain p) (hpath : Ascii path) (h : (shape p).Sound) :
    Decides (globMatch p path) (path ∈ patternLanguage p) := by
  unfold shape at h
  split at h
  · rename_i first part parts hsplit
    have hne := List.cons_ne_nil part parts
    simp only at h
    split at h
    · exact h.elim
    · rename_i hslashes
      have hparts := slashes_then_last hne (not_not.1 hslashes)
      rw [hparts] at hsplit
      split at h
      · rename_i hlast
        rw [hlast] at hsplit
        exact opened_decides hp hpath hsplit (of_decide_eq_false h)
      · split at h
        · exact h.elim
        · split at h
          · rename_i hclosed hhead
            obtain ⟨segment, hsegment⟩ := List.head?_eq_some_iff.1 hhead
            rw [hsegment] at hsplit hclosed
            refine rooted_decides hp hpath hsplit ?_ ?_ ?_
            · rintro rfl
              exact hclosed rfl
            · simpa using h.1
            · simpa using h.2
          · exact h.elim
  · rename_i hsplit
    obtain ⟨first, parts, hparts⟩ := List.exists_cons_of_ne_nil (splitDoubleStar_ne_nil p)
    cases parts with
    | nil => exact single_decides hp hpath hparts
    | cons part parts => exact absurd hparts (hsplit first part parts)

end Sound

section Unsound

/-- The components of the path are names. -/
def Normalized (path : Bytes) : Prop :=
  ∀ part ∈ splitBytes path, part ≠ [] ∧ part ≠ utf8 "." ∧ part ≠ utf8 ".."

instance : DecidablePred Normalized := fun path =>
  inferInstanceAs (Decidable (∀ part ∈ splitBytes path,
    part ≠ [] ∧ part ≠ utf8 "." ∧ part ≠ utf8 ".."))

instance : DecidablePred Plain := fun p =>
  decidable_of_iff (Ascii p ∧ opening ∉ p ∧ ¬ [star, star, star] <:+: p)
    ⟨fun h => ⟨h.1, h.2.1, h.2.2⟩, fun h => ⟨h.ascii, h.bracket, h.runs⟩⟩

instance (s : Bytes) : Decidable (s ∈ patternLanguage p) :=
  inferInstanceAs (Decidable (s ∈ language slash (elements p)))

/-- The patterns of the shape match their language. -/
def Agrees (kind : Shape) : Prop :=
  ∀ pattern path, Plain pattern → shape pattern = kind → Ascii path → Normalized path →
    Decides (globMatch pattern path) (path ∈ patternLanguage pattern)

theorem not_agrees {kind : Shape} (pattern path : Bytes) (found : Bool)
    (h : Plain pattern ∧ shape pattern = kind ∧ Ascii path ∧ Normalized path ∧
      globMatch pattern path = some found ∧
      ¬ (found = true ↔ path ∈ patternLanguage pattern)) : ¬ Agrees kind := by
  intro hagrees
  obtain ⟨hp, hkind, hpath, hnormal, hfound, hwrong⟩ := h
  obtain ⟨found', hfound', hiff⟩ := hagrees pattern path hp hkind hpath hnormal
  rw [hfound] at hfound'
  cases hfound'
  exact hwrong hiff

/-- An inner part has to match the whole rest of the path. -/
theorem inner_not_agrees : ¬ Agrees .inner :=
  not_agrees (utf8 "a**b**") (utf8 "abc") false (by decide +kernel)

/-- A `**/` at the end is dropped. -/
theorem closed_not_agrees : ¬ Agrees .closed :=
  not_agrees (utf8 "a**/") (utf8 "ab") true (by decide +kernel)

/-- The last part is tried after a `/` only. -/
theorem bare_not_agrees : ¬ Agrees .bare :=
  not_agrees (utf8 "a**b") (utf8 "axb") false (by decide +kernel)

/-- A `*` of the first part gives up before a `/`. -/
theorem opened_not_agrees : ¬ Agrees (.opened true) :=
  not_agrees (utf8 "*/**") (utf8 "a/b") false (by decide +kernel)

/-- A first part with `*` is matched in one way only, and one with a `/` inside
lets the last part begin in it; then its end is not tried. -/
theorem rooted_not_agrees {withStar inside : Bool} (h : ¬ (withStar = false ∧ inside = false)) :
    ¬ Agrees (.rooted withStar inside) := by
  cases withStar with
  | true =>
    cases inside with
    | true => exact not_agrees (utf8 "*/a/**/b") (utf8 "x/a/b") false (by decide +kernel)
    | false => exact not_agrees (utf8 "a*b**/c") (utf8 "abbc") false (by decide +kernel)
  | false =>
    cases inside with
    | true => exact not_agrees (utf8 "a/b**/c/d") (utf8 "a/bc/d") false (by decide +kernel)
    | false => exact absurd ⟨rfl, rfl⟩ h

end Unsound

end Purgery.Client
