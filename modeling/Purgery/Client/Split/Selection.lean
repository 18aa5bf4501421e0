import Purgery.Client.Split.SingleStar

namespace Purgery.Client

/-! Which paths a pattern without `**` and brackets selects. -/

variable {p s path pattern : Bytes} {c : UInt8}

theorem splitBytes_ne_nil (s : Bytes) : splitBytes s ≠ [] := by
  induction s with
  | nil => exact List.cons_ne_nil _ _
  | cons b s ih =>
    simp only [splitBytes]
    split
    · exact List.cons_ne_nil _ _
    · split <;> exact List.cons_ne_nil _ _

theorem splitBytes_cons {b : UInt8} (hb : b ≠ slash) (s : Bytes) : ∃ first parts,
    splitBytes s = first :: parts ∧ splitBytes (b :: s) = (b :: first) :: parts := by
  obtain ⟨first, parts, hs⟩ := List.exists_cons_of_ne_nil (splitBytes_ne_nil s)
  refine ⟨first, parts, hs, ?_⟩
  simp only [splitBytes, if_neg hb, hs]

theorem splitBytes_eq (s : Bytes) : splitBytes s = s.splitOn slash := by
  induction s with
  | nil => rfl
  | cons b s ih =>
    rw [List.splitOn_cons_eq_if_modifyHead, ← ih]
    by_cases hb : b = slash
    · simp [splitBytes, hb]
    · obtain ⟨first, parts, hs, hbs⟩ := splitBytes_cons hb s
      simp [hb, hs, hbs]

theorem slash_not_mem_of_mem_splitBytes {part : Bytes} (h : part ∈ splitBytes s) :
    slash ∉ part := by
  induction s generalizing part with
  | nil =>
    obtain rfl := List.mem_singleton.1 h
    exact List.not_mem_nil
  | cons b s ih =>
    by_cases hb : b = slash
    · rw [splitBytes, if_pos hb] at h
      obtain rfl | h := List.mem_cons.1 h
      · exact List.not_mem_nil
      · exact ih h
    · obtain ⟨first, parts, hs, hbs⟩ := splitBytes_cons hb s
      rw [hbs] at h
      rw [hs] at ih
      obtain rfl | h := List.mem_cons.1 h
      · rw [List.mem_cons, not_or]
        exact ⟨Ne.symm hb, ih List.mem_cons_self⟩
      · exact ih (List.mem_cons_of_mem _ h)

theorem splitBytes_within (s : Bytes) : ∃ first parts,
    splitBytes s = first :: parts ∧ first <+: s ∧ ∀ part ∈ parts, part <:+: s := by
  induction s with
  | nil => exact ⟨[], [], rfl, List.nil_prefix, nofun⟩
  | cons b s ih =>
    obtain ⟨first, parts, hs, hfirst, hparts⟩ := ih
    have hsuffix : s <:+: b :: s := (List.suffix_cons b s).isInfix
    by_cases hb : b = slash
    · refine ⟨[], first :: parts, by rw [splitBytes, if_pos hb, hs], List.nil_prefix, ?_⟩
      simp only [List.mem_cons, forall_eq_or_imp]
      exact ⟨hfirst.isInfix.trans hsuffix, fun part h => (hparts part h).trans hsuffix⟩
    · obtain ⟨first', parts', hs', hbs⟩ := splitBytes_cons hb s
      rw [hs] at hs'
      obtain ⟨rfl, rfl⟩ := List.cons.inj hs'
      refine ⟨_, _, hbs, (List.prefix_cons_inj b).2 hfirst, ?_⟩
      exact fun part h => (hparts part h).trans hsuffix

theorem within_of_mem_splitBytes {part : Bytes} (h : part ∈ splitBytes s) : part <:+: s := by
  obtain ⟨first, parts, hs, hfirst, hparts⟩ := splitBytes_within s
  rw [hs] at h
  obtain rfl | h := List.mem_cons.1 h
  · exact hfirst.isInfix
  · exact hparts part h

theorem exists_part {b : UInt8} (hb : b ∈ s) (hslash : b ≠ slash) :
    ∃ part ∈ splitBytes s, b ∈ part := by
  induction s with
  | nil => exact nomatch hb
  | cons c s ih =>
    by_cases hc : c = slash
    · have hs : b ∈ s := (List.mem_cons.1 hb).resolve_left fun h => hslash (h.trans hc)
      obtain ⟨part, hpart, hmem⟩ := ih hs
      rw [splitBytes, if_pos hc]
      exact ⟨part, List.mem_cons_of_mem _ hpart, hmem⟩
    · obtain ⟨first, parts, hs, hcs⟩ := splitBytes_cons hc s
      rw [hcs]
      rw [hs] at ih
      obtain rfl | hb := List.mem_cons.1 hb
      · exact ⟨_, List.mem_cons_self, List.mem_cons_self⟩
      · obtain ⟨part, hpart, hmem⟩ := ih hb
        obtain rfl | hpart := List.mem_cons.1 hpart
        · exact ⟨_, List.mem_cons_self, List.mem_cons_of_mem _ hmem⟩
        · exact ⟨part, List.mem_cons_of_mem _ hpart, hmem⟩

/-- `part` is one of the parts that `/` separates in `s`. -/
def Component (part s : Bytes) : Prop :=
  ∃ parts, [slash].intercalate parts = s ∧ (∀ x ∈ parts, slash ∉ x) ∧ part ∈ parts

theorem mem_splitBytes {part : Bytes} : part ∈ splitBytes s ↔ Component part s := by
  constructor
  · intro h
    refine ⟨splitBytes s, ?_, fun x hx => slash_not_mem_of_mem_splitBytes hx, h⟩
    rw [splitBytes_eq]
    exact List.intercalate_splitOn slash
  · rintro ⟨parts, rfl, hparts, h⟩
    rw [splitBytes_eq, List.splitOn_intercalate slash hparts (List.ne_nil_of_mem h)]
    exact h

theorem Ascii.component {part : Bytes} (hs : Ascii s) (h : part ∈ splitBytes s) : Ascii part :=
  fun b hb => hs b ((within_of_mem_splitBytes h).subset hb)

/-- The pattern without the `/` at its beginning. -/
def unanchored (p : Bytes) : Bytes := if p.head? = some slash then p.tail else p

/-- The pattern without the `/` at its beginning and the one at its end. -/
def core (p : Bytes) : Bytes :=
  if (unanchored p).getLast? = some slash then (unanchored p).dropLast else unanchored p

/-- The paths that a pattern is documented to select. -/
def Selects (p path : Bytes) (isDir : Bool) : Prop :=
  ((unanchored p).getLast? = some slash → isDir = true ∧ path ≠ sentinel) ∧
    if slash ∈ core p ∨ p.head? = some slash then path ∈ simpleLanguage (core p)
    else ∃ part, Component part path ∧ part ∈ simpleLanguage (core p)

theorem new_pattern (p : Bytes) : (PatternMatcher.new p).pattern = core p := by
  cases p with
  | nil => rfl
  | cons c p => simp [PatternMatcher.new, core, unanchored]

theorem new_anchored (p : Bytes) : (PatternMatcher.new p).anchored = (p.head? == some slash) := rfl

theorem new_dirOnly (p : Bytes) :
    (PatternMatcher.new p).dirOnly = ((unanchored p).getLast? == some slash) := by
  cases p with
  | nil => rfl
  | cons c p => simp [PatternMatcher.new, unanchored]

theorem unanchored_sublist (p : Bytes) : unanchored p <:+: p := by
  unfold unanchored
  split
  · exact (List.tail_suffix p).isInfix
  · exact List.infix_rfl

theorem core_within (p : Bytes) : core p <:+: p := by
  unfold core
  split
  · exact (List.dropLast_prefix _).isInfix.trans (unanchored_sublist p)
  · exact unanchored_sublist p

theorem hasDoubleStar_append_left {p q : Bytes} (h : hasDoubleStar (p ++ q) = false) :
    hasDoubleStar p = false := by
  induction p with
  | nil => rfl
  | cons a p ih =>
    cases p with
    | nil => rfl
    | cons b p =>
      rw [List.cons_append, List.cons_append, hasDoubleStar, Bool.or_eq_false_iff] at h
      rw [hasDoubleStar, Bool.or_eq_false_iff]
      exact ⟨h.1, ih h.2⟩

theorem hasDoubleStar_append_right {p q : Bytes} (h : hasDoubleStar (p ++ q) = false) :
    hasDoubleStar q = false := by
  induction p with
  | nil => exact h
  | cons a p ih => exact ih (hasDoubleStar_cons h).1

theorem hasDoubleStar_within {p q : Bytes} (h : q <:+: p) (hp : hasDoubleStar p = false) :
    hasDoubleStar q = false := by
  obtain ⟨a, b, rfl⟩ := h
  exact hasDoubleStar_append_right (hasDoubleStar_append_left hp)

theorem globMatch_single (h : hasDoubleStar p = false) : globMatch p s = simpleGlob p s := by
  unfold globMatch
  rw [if_neg, if_pos]
  · simp [h]
  · intro hstars
    rw [eq_of_beq hstars] at h
    exact nomatch h

/-- `is_match` after its tests for directories. -/
def matched (p path : Bytes) : Option Bool :=
  if slash ∈ core p ∨ p.head? = some slash then globMatch (core p) path
  else anyComponent (core p) (splitBytes path)

theorem anyComponent_decides {parts : List Bytes} {L : Language UInt8}
    (h : ∀ part ∈ parts, Decides (globMatch p part) (part ∈ L)) :
    Decides (anyComponent p parts) (∃ part ∈ parts, part ∈ L) := by
  induction parts with
  | nil => exact .of_false nofun
  | cons part parts ih =>
    obtain ⟨found, hfound, hiff⟩ := h part List.mem_cons_self
    simp only [anyComponent, hfound, Option.bind_eq_bind, Option.bind_some]
    cases found with
    | true => exact .of_true ⟨part, List.mem_cons_self, hiff.1 rfl⟩
    | false =>
      have hno : part ∉ L := fun hmem => nomatch hiff.2 hmem
      refine (ih fun x hx => h x (List.mem_cons_of_mem _ hx)).congr ?_
      simp [hno]

theorem isMatch_of_false {isDir : Bool} (hslash : (unanchored p).getLast? = some slash)
    (h : ¬ (isDir = true ∧ path ≠ sentinel)) :
    (PatternMatcher.new p).isMatch path isDir = some false := by
  have hdir : (PatternMatcher.new p).dirOnly = true := by
    rw [new_dirOnly, hslash]
    rfl
  unfold PatternMatcher.isMatch
  rw [hdir]
  cases isDir with
  | false => rfl
  | true =>
    have hpath : path = sentinel := not_not.1 fun hne => h ⟨rfl, hne⟩
    simp [hpath]

theorem isMatch_of_true {isDir : Bool}
    (h : (unanchored p).getLast? = some slash → isDir = true ∧ path ≠ sentinel) :
    (PatternMatcher.new p).isMatch path isDir = matched p path := by
  unfold PatternMatcher.isMatch matched
  rw [new_pattern, new_dirOnly, new_anchored]
  by_cases hslash : (unanchored p).getLast? = some slash
  · obtain ⟨rfl, hpath⟩ := h hslash
    simp [hslash, hpath]
  · simp [hslash]

theorem matched_decides {L : Language UInt8}
    (h : ∀ s, Ascii s → Decides (globMatch (core p) s) (s ∈ L)) (hpath : Ascii path) :
    Decides (matched p path)
      (if slash ∈ core p ∨ p.head? = some slash then path ∈ L
        else ∃ part, Component part path ∧ part ∈ L) := by
  unfold matched
  split
  · exact h path hpath
  · refine (anyComponent_decides fun part hpart => h part (hpath.component hpart)).congr ?_
    simp only [mem_splitBytes]

/-- The matcher decides the language of a pattern, and the selection by it. -/
theorem single_star_matching (pattern : Bytes) (hdouble : hasDoubleStar pattern = false)
    (hbracket : opening ∉ pattern) (hascii : Ascii pattern) :
    (∀ path, Ascii path → Decides (simpleGlob pattern path) (path ∈ simpleLanguage pattern)) ∧
    ∀ path isDir, Ascii path →
      Decides ((PatternMatcher.new pattern).isMatch path isDir) (Selects pattern path isDir) := by
  refine ⟨fun path hpath => simpleGlob_decides hdouble hbracket hascii hpath, ?_⟩
  intro path isDir hpath
  have hcore : hasDoubleStar (core pattern) = false :=
    hasDoubleStar_within (core_within pattern) hdouble
  have hsub : ∀ b ∈ core pattern, b ∈ pattern := fun b hb => (core_within pattern).subset hb
  have hglob : ∀ s, Ascii s →
      Decides (globMatch (core pattern) s) (s ∈ simpleLanguage (core pattern)) := by
    intro s hs
    rw [globMatch_single hcore]
    exact simpleGlob_decides hcore (fun h => hbracket (hsub _ h))
      (fun b hb => hascii b (hsub b hb)) hs
  by_cases hslash : (unanchored pattern).getLast? = some slash
  · by_cases hdir : isDir = true ∧ path ≠ sentinel
    · rw [isMatch_of_true (fun _ => hdir)]
      exact (matched_decides hglob hpath).congr ⟨fun h => ⟨fun _ => hdir, h⟩, And.right⟩
    · rw [isMatch_of_false hslash hdir]
      exact .of_false fun h => hdir (h.1 hslash)
  · rw [isMatch_of_true (fun h => absurd h hslash)]
    exact (matched_decides hglob hpath).congr ⟨fun h => ⟨fun h => absurd h hslash, h⟩, And.right⟩

theorem single_star_matching_txt : Decides
    ((PatternMatcher.new (utf8 "/logs/*.txt")).isMatch (utf8 "logs/a.txt") false)
    (Selects (utf8 "/logs/*.txt") (utf8 "logs/a.txt") false) := by
  refine (single_star_matching (utf8 "/logs/*.txt") ?_ ?_ ?_).2 (utf8 "logs/a.txt") false ?_
  · decide +kernel
  · decide +kernel
  · decide +kernel
  · decide +kernel

end Purgery.Client
