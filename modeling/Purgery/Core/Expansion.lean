import Mathlib.Data.List.TakeWhile
import Purgery.Core.Transform

namespace Purgery.TransformDefinition

/-- A piece of a template: a character outside of braces, the text from a brace
to the first one that closes it, or what follows a brace that is never closed. -/
inductive Piece where
  | literal (c : Char)
  | token (body : List Char)
  | unclosed (rest : List Char)
deriving DecidableEq

namespace Piece

def text : Piece → List Char
  | literal c => [c]
  | token body => '\x7b' :: (body ++ ['\x7d'])
  | unclosed rest => '\x7b' :: rest

/-- A token that the lookup knows is replaced, everything else is copied. -/
def value (lookup : String → Option String) : Piece → List Char
  | token body =>
    match lookup (String.ofList (token body).text) with
    | some value => value.toList
    | none => (token body).text
  | p => p.text

end Piece

/-- The text is cut into these pieces. -/
inductive Pieces : List Char → List Piece → Prop where
  | nil : Pieces [] []
  | literal {c : Char} {cs : List Char} {ps : List Piece} (hc : c ≠ '\x7b') (h : Pieces cs ps) :
      Pieces (c :: cs) (.literal c :: ps)
  | token {body cs : List Char} {ps : List Piece} (hbody : '\x7d' ∉ body) (h : Pieces cs ps) :
      Pieces ('\x7b' :: (body ++ '\x7d' :: cs)) (.token body :: ps)
  | unclosed {rest : List Char} (hrest : '\x7d' ∉ rest) :
      Pieces ('\x7b' :: rest) [.unclosed rest]

section Cutting

variable {cs body rest : List Char} {ps qs : List Piece}

variable (rest) in
theorem closing_split (hbody : '\x7d' ∉ body) :
    (body ++ '\x7d' :: rest).takeWhile (· != '\x7d') = body ∧
      (body ++ '\x7d' :: rest).dropWhile (· != '\x7d') = '\x7d' :: rest := by
  have hall : ∀ c ∈ body, (c != '\x7d') = true := fun c hc =>
    bne_iff_ne.2 fun heq => hbody (heq ▸ hc)
  rw [List.takeWhile_append_of_pos hall, List.dropWhile_append_of_pos hall]
  simp

theorem closing_absent (hrest : '\x7d' ∉ rest) : rest.dropWhile (· != '\x7d') = [] :=
  List.dropWhile_eq_nil_iff.2 fun _ hc => bne_iff_ne.2 fun heq => hrest (heq ▸ hc)

theorem Pieces.text (h : Pieces cs ps) : ps.flatMap Piece.text = cs := by
  induction h with
  | nil => rfl
  | literal hc h ih => simp [Piece.text, ih]
  | token hbody h ih => simp [Piece.text, ih]
  | unclosed hrest => simp [Piece.text]

theorem Pieces.unique (h : Pieces cs ps) (h' : Pieces cs qs) : ps = qs := by
  induction h generalizing qs with
  | nil => cases h'; rfl
  | literal hc h ih =>
    cases h' with
    | literal hc' h' => rw [ih h']
    | token hbody h' => exact absurd rfl hc
    | unclosed hrest => exact absurd rfl hc
  | @token body cs ps hbody h ih =>
    generalize htext : '\x7b' :: (body ++ '\x7d' :: cs) = text at h'
    cases h' with
    | nil => exact nomatch htext
    | literal hc' h' => exact absurd (List.cons.inj htext).1.symm hc'
    | @token body' cs' ps' hbody' h' =>
      have hsame := (List.cons.inj htext).2
      have hbodies : body = body' := by
        rw [← (closing_split cs hbody).1, hsame, (closing_split cs' hbody').1]
      subst hbodies
      have htails := List.append_cancel_left hsame
      rw [(List.cons.inj htails).2] at ih
      rw [ih h']
    | unclosed hrest =>
      exact absurd ((List.cons.inj htext).2 ▸ List.mem_append_right body (.head cs)) hrest
  | @unclosed rest hrest =>
    generalize htext : '\x7b' :: rest = text at h'
    cases h' with
    | nil => exact nomatch htext
    | literal hc' h' => exact absurd (List.cons.inj htext).1.symm hc'
    | @token body' cs' ps' hbody' h' =>
      exact absurd ((List.cons.inj htext).2 ▸ List.mem_append_right body' (.head cs')) hrest
    | unclosed hrest' => rw [(List.cons.inj htext).2]

/-- The pieces of a text that is no longer than the fuel. -/
def piecesFrom : Nat → List Char → List Piece
  | 0, _ => []
  | _ + 1, [] => []
  | fuel + 1, c :: cs =>
    if c ≠ '\x7b' then .literal c :: piecesFrom fuel cs
    else
      match cs.dropWhile (· != '\x7d') with
      | [] => [.unclosed cs]
      | _ :: rest => .token (cs.takeWhile (· != '\x7d')) :: piecesFrom fuel rest

def pieces (cs : List Char) : List Piece := piecesFrom cs.length cs

theorem piecesFrom_spec (fuel : Nat) (hfuel : cs.length ≤ fuel) : Pieces cs (piecesFrom fuel cs) := by
  induction fuel generalizing cs with
  | zero =>
    obtain rfl : cs = [] := List.length_eq_zero_iff.1 (by omega)
    exact .nil
  | succ fuel ih =>
    cases cs with
    | nil => exact .nil
    | cons c cs =>
      rw [List.length_cons] at hfuel
      rw [piecesFrom]
      split
      · rename_i hc
        exact .literal hc (ih (by omega))
      · rename_i hc
        obtain rfl := not_not.1 hc
        have hsplit := List.takeWhile_append_dropWhile (p := (· != '\x7d')) (l := cs)
        have hbody : '\x7d' ∉ cs.takeWhile (· != '\x7d') := fun hmem =>
          absurd (List.mem_takeWhile_imp hmem) (by simp)
        split
        · rename_i hdrop
          rw [hdrop, List.append_nil] at hsplit
          rw [hsplit] at hbody
          exact .unclosed hbody
        · rename_i d rest hdrop
          have hlength := congrArg List.length hsplit
          rw [hdrop, List.length_append, List.length_cons] at hlength
          obtain rfl : d = '\x7d' := by
            have hhead := List.head?_dropWhile_not (· != '\x7d') cs
            simpa [hdrop] using hhead
          have hpieces := Pieces.token hbody (@ih rest (by omega))
          rwa [← hdrop, hsplit] at hpieces

theorem pieces_spec (cs : List Char) : Pieces cs (pieces cs) := piecesFrom_spec _ (Nat.le_refl _)

end Cutting

section Expanding

variable {lookup : String → Option String} {cs body rest : List Char} {ps : List Piece}

theorem expandFrom_literal {c : Char} (hc : c ≠ '\x7b') (fuel : Nat) :
    expandFrom lookup fuel (c :: cs) = c :: expandFrom lookup fuel cs := by
  cases fuel with
  | zero => rfl
  | succ fuel =>
    have hc' : (c != '\x7b') = true := bne_iff_ne.2 hc
    simp only [expandFrom, List.takeWhile_cons, List.dropWhile_cons, hc', if_true]
    split
    · rfl
    · split <;> rfl

theorem expandFrom_token (hbody : '\x7d' ∉ body) (fuel : Nat) :
    expandFrom lookup (fuel + 1) ('\x7b' :: (body ++ '\x7d' :: cs)) =
      (Piece.token body).value lookup ++ expandFrom lookup fuel cs := by
  have hopen : (('\x7b' : Char) != '\x7d') = true := rfl
  have hself : (('\x7b' : Char) != '\x7b') = false := rfl
  simp only [expandFrom, List.takeWhile_cons, List.dropWhile_cons, hopen, hself, if_true,
    Bool.false_eq_true, if_false, (closing_split cs hbody).1,
    (closing_split cs hbody).2, List.nil_append]
  refine congrArg (· ++ _) ?_
  unfold Piece.value Piece.text
  rw [List.cons_append]
  cases hvalue : lookup (String.ofList ('\x7b' :: (body ++ ['\x7d']))) with
  | none => simp only [hvalue, Option.getD_none, String.toList_ofList]
  | some value => simp only [hvalue, Option.getD_some]

theorem expandFrom_unclosed (hrest : '\x7d' ∉ rest) (fuel : Nat) :
    expandFrom lookup fuel ('\x7b' :: rest) = '\x7b' :: rest := by
  cases fuel with
  | zero => rfl
  | succ fuel =>
    simp [expandFrom, closing_absent hrest]

/-- Expansion replaces the pieces one by one. -/
theorem expandFrom_pieces (h : Pieces cs ps) {fuel : Nat} (hfuel : cs.length ≤ fuel) :
    expandFrom lookup fuel cs = ps.flatMap (Piece.value lookup) := by
  induction h generalizing fuel with
  | nil => cases fuel <;> rfl
  | literal hc h ih =>
    rw [List.length_cons] at hfuel
    rw [expandFrom_literal hc, ih (by omega)]
    rfl
  | token hbody h ih =>
    rw [List.length_cons, List.length_append, List.length_cons] at hfuel
    obtain ⟨fuel, rfl⟩ : ∃ n, fuel = n + 1 := ⟨fuel - 1, by omega⟩
    rw [expandFrom_token hbody, ih (by omega)]
    rfl
  | unclosed hrest =>
    rw [expandFrom_unclosed hrest]
    simp [Piece.value, Piece.text]

end Expanding

section Independence

variable {work work' : String} {target : ResolvedDestinationPlan} {pattern : String}

theorem isInfix_of_within {needle cs : List Char} (h : needle <:+: cs) :
    isInfix needle cs = true := by
  obtain ⟨a, b, rfl⟩ := h
  induction a with
  | nil =>
    cases needle with
    | nil => cases b <;> rfl
    | cons c needle => simp [isInfix]
  | cons c a ih =>
    rw [List.append_assoc] at ih
    rw [List.append_assoc, List.cons_append, isInfix, ih, Bool.or_true]

theorem validate_ok (h : validateExpectedOutputName pattern = .ok ()) :
    pattern ≠ "" ∧ isInfix "\x7binput\x7d".toList pattern.toList = false ∧
      isInfix "\x7bparent\x7d".toList pattern.toList = false := by
  unfold validateExpectedOutputName at h
  split at h
  · exact nomatch h
  · rename_i hempty
    split at h
    · exact nomatch h
    · split at h
      · exact nomatch h
      · split at h
        · exact nomatch h
        · rename_i habsent
          rw [Bool.or_eq_true, not_or, Bool.not_eq_true, Bool.not_eq_true] at habsent
          exact ⟨fun heq => hempty (by rw [heq]; rfl), habsent⟩

theorem placeholder_fileName (hname : Path.fileName work = Path.fileName work') {token : String}
    (hinput : token ≠ "\x7binput\x7d") (hparent : token ≠ "\x7bparent\x7d") :
    placeholder work target token = placeholder work' target token := by
  have hstem : Path.fileStem work = Path.fileStem work' := by
    unfold Path.fileStem
    rw [hname]
  have hinput' : (token == "\x7binput\x7d") = false := beq_eq_false_iff_ne.2 hinput
  have hparent' : (token == "\x7bparent\x7d") = false := beq_eq_false_iff_ne.2 hparent
  simp only [placeholder, hinput', hparent', hname, hstem, Bool.false_eq_true, if_false]

theorem token_within {p : Piece} (h : p ∈ pieces pattern.toList) : p.text <:+: pattern.toList := by
  obtain ⟨before, after, heq⟩ := List.append_of_mem h
  refine ⟨before.flatMap Piece.text, after.flatMap Piece.text, ?_⟩
  rw [← (pieces_spec pattern.toList).text, heq]
  simp

theorem token_ne {p : Piece} (h : p ∈ pieces pattern.toList) {name : String}
    (habsent : isInfix name.toList pattern.toList = false) : String.ofList p.text ≠ name := by
  rintro rfl
  rw [String.toList_ofList, isInfix_of_within (token_within h)] at habsent
  exact nomatch habsent

theorem expandPlaceholders_pieces (template : String) :
    (expandPlaceholders work target template).toList =
      (pieces template.toList).flatMap (Piece.value (placeholder work target)) := by
  unfold expandPlaceholders
  rw [String.toList_ofList, expandFrom_pieces (pieces_spec _) (Nat.le_refl _)]

/-- A validated pattern has no use for the directory of the work path. -/
theorem expandPlaceholders_fileName (h : validateExpectedOutputName pattern = .ok ())
    (hname : Path.fileName work = Path.fileName work') :
    expandPlaceholders work target pattern = expandPlaceholders work' target pattern := by
  obtain ⟨-, hinput, hparent⟩ := validate_ok h
  have hvalue : ∀ p ∈ pieces pattern.toList,
      p.value (placeholder work target) = p.value (placeholder work' target) := by
    intro p hp
    cases p with
    | literal c => rfl
    | unclosed rest => rfl
    | token body =>
      simp only [Piece.value, placeholder_fileName hname (token_ne hp hinput) (token_ne hp hparent)]
  apply String.toList_inj.1
  rw [expandPlaceholders_pieces, expandPlaceholders_pieces]
  exact List.flatMap_congr hvalue

/-- Where the output of a pattern is looked for. -/
def outputPath (work : String) (target : ResolvedDestinationPlan) (pattern : String) : String :=
  if Path.isAbsolute (expandPlaceholders work target pattern) then
    expandPlaceholders work target pattern
  else Path.join target.targetDirectory (expandPlaceholders work target pattern)

theorem resolve_valid {d : TransformDefinition}
    (h : ∀ output ∈ d.expectedOutputs, validateExpectedOutputName output = .ok ()) :
    d.resolveExpectedOutputsForTarget work target =
      .ok (d.expectedOutputs.map (outputPath work target)) := by
  unfold resolveExpectedOutputsForTarget
  generalize d.expectedOutputs = outputs at h ⊢
  induction outputs with
  | nil => rfl
  | cons pattern outputs ih =>
    rw [List.mapM_cons, ih fun output hmem => h output (.tail _ hmem), h pattern (.head _)]
    rfl

def samplePlan : ResolvedDestinationPlan :=
  ⟨⟨"/d/", "/d/", .trailingSlash⟩, "/d/a", "/d", .directoryTarget⟩

def sampleOutputs : TransformDefinition :=
  ⟨"t", .subprocess, "p", [], ["\x7bfile_name\x7d.out"]⟩

end Independence

end Purgery.TransformDefinition
