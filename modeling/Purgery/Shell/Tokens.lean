import Mathlib.Data.List.Basic

namespace Purgery.Shell

/-! How a POSIX shell cuts a command into words and operators. -/

/-- A word, each of its characters with whether it is quoted. -/
abbrev Word := List (Char × Bool)

/-- An operator of several characters comes as several tokens. -/
inductive Token where
  | word (w : Word)
  | operator (c : Char)
deriving DecidableEq

def Token.quoted (cs : List Char) : Token := .word (cs.map fun c => (c, true))

def Token.bare (cs : List Char) : Token := .word (cs.map fun c => (c, false))

def blank (c : Char) : Bool := c == ' ' || c == '\t'

def operatorChar (c : Char) : Bool := ['&', '|', ';', '<', '>', '(', ')', '\n'].contains c

/-- The characters that begin an expansion, and the quotes in which expansions
take place: a command with one of them outside single quotes is not read here. -/
def expands (c : Char) : Bool := ['$', '\x60', '"'].contains c

/-- The characters that stand for themselves in a word, though not all of them
may begin one. -/
def bareChar (c : Char) : Bool :=
  !blank c && !operatorChar c && !expands c && c != '\'' && c != '\\'

/-- Where the reader stands: `plain` and `escape` have the word that has begun,
if one has. -/
inductive Mode where
  | plain (current : Option Word)
  | escape (current : Option Word)
  | quoted (current : Word)
  | comment

def flush (current : Option Word) : List Token := (current.map Token.word).toList

def extend (current : Option Word) (w : Word) : Option Word := some (current.getD [] ++ w)

/-- The tokens of the rest of the command; `none` if a quote is not closed or
something is to be expanded. -/
def scan : Mode → List Char → Option (List Token)
  | .plain current, [] => some (flush current)
  | .escape _, [] => none
  | .quoted _, [] => none
  | .comment, [] => some []
  | .plain current, c :: cs =>
    if c == '\'' then scan (.quoted (current.getD [])) cs
    else if c == '\\' then scan (.escape current) cs
    else if blank c then (scan (.plain none) cs).map (flush current ++ ·)
    else if operatorChar c then
      (scan (.plain none) cs).map (flush current ++ .operator c :: ·)
    else if c == '#' && current.isNone then scan .comment cs
    else if expands c then none
    else scan (.plain (extend current [(c, false)])) cs
  | .escape current, c :: cs =>
    if c == '\n' then scan (.plain current) cs
    else scan (.plain (extend current [(c, true)])) cs
  | .quoted current, c :: cs =>
    if c == '\'' then scan (.plain (some current)) cs
    else scan (.quoted (current ++ [(c, true)])) cs
  | .comment, c :: cs =>
    if c == '\n' then (scan (.plain none) cs).map (.operator c :: ·)
    else scan .comment cs

def tokens (command : List Char) : Option (List Token) := scan (.plain none) command

/-- The words of a command of blanks and plain characters. -/
def bareWords : Option (List Char) → List Char → List (List Char)
  | current, [] => current.toList
  | current, c :: cs =>
    if blank c then current.toList ++ bareWords none cs
    else bareWords (some (current.getD [] ++ [c])) cs

section Quoting

variable {current : Option Word} {w : Word} {rest : List Char}

theorem scan_blank {c : Char} (hc : blank c = true) :
    scan (.plain current) (c :: rest) = (scan (.plain none) rest).map (flush current ++ ·) := by
  have hquote : (c == '\'') = false := by
    rw [beq_eq_false_iff_ne]
    rintro rfl
    exact nomatch hc
  have hslash : (c == '\\') = false := by
    rw [beq_eq_false_iff_ne]
    rintro rfl
    exact nomatch hc
  simp [scan, hquote, hslash, hc]

theorem scan_bare {c : Char} (hc : bareChar c = true) (hword : current = none → c ≠ '#') :
    scan (.plain current) (c :: rest) = scan (.plain (extend current [(c, false)])) rest := by
  simp only [bareChar, Bool.and_eq_true, Bool.not_eq_true', bne_iff_ne] at hc
  obtain ⟨⟨⟨⟨hblank, hop⟩, hexp⟩, hquote⟩, hslash⟩ := hc
  have hcomment : (c == '#' && current.isNone) = false := by
    cases current with
    | none => simpa using hword rfl
    | some w => simp
  simp [scan, hblank, hop, hexp, hquote, hslash, hcomment]

/-- The word that has begun is the first one. -/
theorem bareWords_some (w cs : List Char) :
    ∃ w' ws, bareWords (some w) cs = (w ++ w') :: ws := by
  induction cs generalizing w with
  | nil => exact ⟨[], [], by simp [bareWords]⟩
  | cons c cs ih =>
    by_cases hc : blank c = true
    · exact ⟨[], bareWords none cs, by simp [bareWords, hc]⟩
    · obtain ⟨w', ws, hws⟩ := ih (w ++ [c])
      exact ⟨c :: w', ws, by simp [bareWords, hc, hws]⟩

/-- The rest of a command at whose beginning a word is over. -/
def EndsWord (rest : List Char) : Prop :=
  ∀ current, scan (.plain current) rest = (scan (.plain none) rest).map (flush current ++ ·)

theorem endsWord_nil : EndsWord [] := fun current => by simp [scan, flush]

theorem endsWord_blank : EndsWord (' ' :: rest) := by
  intro current
  rw [scan_blank rfl, scan_blank rfl, Option.map_map]
  simp [flush, Function.comp_def]

/-- A command of plain words, and what stands after it. -/
theorem scan_words {command : List Char} (h : ∀ c ∈ command, bareChar c = true ∨ blank c = true)
    (hrest : EndsWord rest) (word : Option (List Char))
    (hwords : ∀ w ∈ bareWords word command, w.head? ≠ some '#') :
    scan (.plain (word.map fun cs => cs.map fun c => (c, false))) (command ++ rest) =
      (tokens rest).map ((bareWords word command).map Token.bare ++ ·) := by
  induction command generalizing word with
  | nil =>
    have hflush : flush (word.map fun cs => cs.map fun c => (c, false)) =
        (bareWords word []).map Token.bare := by cases word <;> rfl
    rw [List.nil_append, hrest, hflush]
    rfl
  | cons c command ih =>
    have hcommand : ∀ c ∈ command, bareChar c = true ∨ blank c = true :=
      fun c hc => h c (List.mem_cons_of_mem _ hc)
    obtain hc | hc := h c List.mem_cons_self
    · have hblank : blank c = false := by
        simp only [bareChar, Bool.and_eq_true, Bool.not_eq_true'] at hc
        exact hc.1.1.1.1
      have hsame : bareWords word (c :: command) =
          bareWords (some (word.getD [] ++ [c])) command := by simp [bareWords, hblank]
      rw [hsame] at hwords
      have hbegins : (word.map fun cs => cs.map fun c => (c, false)) = none → c ≠ '#' := by
        intro hnone
        obtain ⟨w', ws, hws⟩ := bareWords_some (word.getD [] ++ [c]) command
        have hhead := hwords _ (hws ▸ List.mem_cons_self)
        cases word with
        | none => simpa using hhead
        | some w => exact nomatch hnone
      have hext : extend (word.map fun cs => cs.map fun c => (c, false)) [(c, false)] =
          (some (word.getD [] ++ [c])).map fun cs => cs.map fun c => (c, false) := by
        cases word <;> simp [extend]
      rw [List.cons_append, scan_bare hc hbegins, hext, ih hcommand _ hwords, hsame]
    · have hflush : flush (word.map fun cs => cs.map fun c => (c, false)) =
          word.toList.map Token.bare := by cases word <;> rfl
      have hsplit : bareWords word (c :: command) = word.toList ++ bareWords none command := by
        simp [bareWords, hc]
      have hword := ih hcommand none fun w hw => hwords w (by simp [hsplit, hw])
      rw [Option.map_none] at hword
      rw [List.cons_append, scan_blank hc, hword, hflush, hsplit, Option.map_map]
      simp [Function.comp_def]

end Quoting

end Purgery.Shell
