import Mathlib.Data.List.Basic

namespace Purgery.Client

/-! Matching of split patterns. A `str` is the list of its bytes, and a place in
it is given by the bytes that follow. `none` is the panic of a slice that cuts
a character. -/

abbrev Bytes := List UInt8

def utf8 (s : String) : Bytes := s.toList.flatMap String.utf8EncodeChar

abbrev slash : UInt8 := '/'.toUInt8
abbrev star : UInt8 := '*'.toUInt8
abbrev query : UInt8 := '?'.toUInt8
abbrev opening : UInt8 := '['.toUInt8
abbrev closing : UInt8 := ']'.toUInt8
abbrev dash : UInt8 := '-'.toUInt8
abbrev bang : UInt8 := '!'.toUInt8

/-- The bytes with which no character begins. -/
def continuation (b : UInt8) : Bool := 128 ≤ b && b < 192

/-- A `str` may be cut before these bytes. -/
def boundary : Bytes → Bool
  | [] => true
  | b :: _ => !continuation b

/-- `&s[i..]` -/
def sliceFrom (s : Bytes) (i : Nat) : Option Bytes :=
  if i ≤ s.length ∧ boundary (s.drop i) then some (s.drop i) else none

/-- `&s[..i]` -/
def sliceTo (s : Bytes) (i : Nat) : Option Bytes :=
  if i ≤ s.length ∧ boundary (s.drop i) then some (s.take i) else none

/-- `s.rfind('/')` -/
def rfindSlash : Bytes → Option Nat
  | [] => none
  | b :: s =>
    match rfindSlash s with
    | some i => some (i + 1)
    | none => if b = slash then some 0 else none

section Bracket

variable (ch : UInt8)

/-- The items of a bracket expression up to its `]`: whether they list `ch`, and
the pattern after them. -/
def bracketItems (matched : Bool) : Bytes → Option (Bool × Bytes)
  | [] => none
  | lo :: mid :: hi :: p =>
    if lo = closing then some (matched, mid :: hi :: p)
    else if mid = dash ∧ hi ≠ closing then bracketItems (matched || (lo ≤ ch && ch ≤ hi)) p
    else bracketItems (matched || lo == ch) (mid :: hi :: p)
  | c :: p => if c = closing then some (matched, p) else bracketItems (matched || c == ch) p

/-- A bracket expression after its `[`. -/
def bracket : Bytes → Option (Bool × Bytes)
  | [] => none
  | c :: p =>
    if c = bang then (bracketItems ch false p).map fun r => (!r.1, r.2)
    else bracketItems ch false (c :: p)

theorem bracketItems_length {matched : Bool} {p : Bytes} {r : Bool × Bytes}
    (h : bracketItems ch matched p = some r) : r.2.length < p.length := by
  fun_induction bracketItems ch matched p <;> grind

theorem bracket_length {p : Bytes} {r : Bool × Bytes} (h : bracket ch p = some r) :
    r.2.length < p.length := by
  cases p with
  | nil => exact nomatch h
  | cons c p =>
    simp only [bracket] at h
    split at h
    · obtain ⟨r', hr', rfl⟩ := Option.map_eq_some_iff.1 h
      have hlt := bracketItems_length ch hr'
      exact Nat.lt_succ_of_lt hlt
    · exact bracketItems_length ch h

end Bracket

section SimpleGlob

/-- Try the rest of the pattern at every place up to the next `/`. -/
def starLoop (attempt : Bytes → Option Bool) : Bytes → Option Bool
  | [] => some false
  | b :: s => do
    if ← attempt (b :: s) then some true
    else if b = slash then some false
    else starLoop attempt s

/-- The two answers of `simple_glob` before its loop. -/
def shortcut (pattern path : Bytes) (loop : Option Bool) : Option Bool :=
  if pattern == path then some true
  else if !pattern.contains star && !pattern.contains query && !pattern.contains opening then
    some (pattern == path)
  else loop

/-- The loop of `simple_glob`. -/
def globLoop (pattern path : Bytes) : Option Bool :=
  match pattern with
  | [] => some path.isEmpty
  | c :: p =>
    if c = star then
      if p.isEmpty then if boundary path then some (!path.contains slash) else none
      else
        starLoop (fun s =>
          if boundary p && boundary s then shortcut p s (globLoop p s) else none) path
    else
      match path with
      | [] => some false
      | b :: s =>
        if c = query then if b = slash then some false else globLoop p s
        else if c = opening then
          if b = slash then some false
          else
            match _ : bracket b p with
            | some (true, p') => globLoop p' s
            | _ => some false
        else if b = c then globLoop p s
        else some false
termination_by pattern.length
decreasing_by
  · exact Nat.lt_succ_self _
  · exact Nat.lt_succ_self _
  · exact Nat.lt_succ_of_lt (bracket_length b ‹_›)
  · exact Nat.lt_succ_self _

def simpleGlob (pattern path : Bytes) : Option Bool :=
  shortcut pattern path (globLoop pattern path)

end SimpleGlob

section FirstMatch

/-- Try the rest of the pattern at every place before the next `/`. -/
def firstStarLoop (attempt : Bytes → Nat → Option (Option Nat)) :
    Bytes → Nat → Option (Option Nat)
  | [], _ => some none
  | b :: s, si =>
    if b = slash then some none
    else do
      match ← attempt (b :: s) si with
      | some len => some (some len)
      | none => firstStarLoop attempt s (si + 1)

/-- `first_match_len` at the place `si` of a path that goes on with `path`. -/
def firstMatchLen (pattern path : Bytes) (si : Nat) : Option (Option Nat) :=
  match pattern with
  | [] => some (some si)
  | c :: p =>
    if c = star then
      if p.isEmpty then
        if boundary path then some (some (si + (path.takeWhile (· ≠ slash)).length)) else none
      else firstStarLoop (fun s si => if boundary p then firstMatchLen p s si else none) path si
    else
      match path with
      | [] => some none
      | b :: s =>
        if c = query then if b = slash then some none else firstMatchLen p s (si + 1)
        else if c = opening then
          if b = slash then some none
          else
            match _ : bracket b p with
            | some (true, p') => firstMatchLen p' s (si + 1)
            | _ => some none
        else if b = c then firstMatchLen p s (si + 1)
        else some none
termination_by pattern.length
decreasing_by
  · exact Nat.lt_succ_self _
  · exact Nat.lt_succ_self _
  · exact Nat.lt_succ_of_lt (bracket_length b ‹_›)
  · exact Nat.lt_succ_self _

end FirstMatch

section GlobMatch

/-- `pattern.contains("**")` -/
def hasDoubleStar : Bytes → Bool
  | a :: b :: p => (a == star && b == star) || hasDoubleStar (b :: p)
  | _ => false

/-- `pattern.split("**")` -/
def splitDoubleStar : Bytes → List Bytes
  | [] => [[]]
  | [c] => [[c]]
  | a :: b :: p =>
    if a = star ∧ b = star then [] :: splitDoubleStar p
    else
      match splitDoubleStar (b :: p) with
      | [] => [[a]]
      | part :: parts => (a :: part) :: parts

/-- A part after `**` without its leading `/`. -/
def stripLeadingSlash : Bytes → Option Bytes
  | [] => some []
  | c :: p => if c = slash then sliceFrom (c :: p) 1 else some (c :: p)

def segmentsOf : List Bytes → Option (List Bytes)
  | [] => some []
  | first :: parts => (parts.mapM stripLeadingSlash).map (first :: ·)

theorem rfindSlash_lt {s : Bytes} {i : Nat} (h : rfindSlash s = some i) : i < s.length := by
  induction s generalizing i with
  | nil => exact nomatch h
  | cons b s ih =>
    simp only [rfindSlash] at h
    split at h
    · cases h
      exact Nat.succ_lt_succ (ih ‹_›)
    · split at h
      · cases h
        exact Nat.succ_pos _
      · exact nomatch h

theorem sliceTo_length {s before : Bytes} {i : Nat} (h : sliceTo s i = some before) :
    before.length = i := by
  simp only [sliceTo] at h
  split at h
  · rename_i hi
    cases h
    exact List.length_take_of_le hi.1
  · exact nomatch h

/-- The last segment is tried at the places after a `/`, from right to left. -/
def suffixLoop (segment path : Bytes) (searchStart suffixStart : Nat) : Option Bool := do
  let suffix ← sliceFrom path suffixStart
  if ← simpleGlob segment suffix then some true
  else if h : suffixStart ≤ searchStart then some false
  else
    match hbefore : sliceTo path (suffixStart - 1) with
    | none => none
    | some before =>
      match hpos : rfindSlash before with
      | some pos => suffixLoop segment path searchStart (pos + 1)
      | none => suffixLoop segment path searchStart searchStart
termination_by suffixStart
decreasing_by
  · have hlt := rfindSlash_lt hpos
    rw [sliceTo_length hbefore] at hlt
    omega
  · omega

/-- The last segment, which a suffix of the path has to match. -/
def lastSegment (segment path : Bytes) (searchStart : Nat) : Option Bool := do
  let rest ← sliceFrom path searchStart
  suffixLoop segment path searchStart
    (match rfindSlash rest with
    | some pos => searchStart + pos + 1
    | none => searchStart)

/-- A middle segment is tried at every byte of the rest of the path. -/
def middleLoop (segment : Bytes) : Bytes → Nat → Option (Option Nat)
  | [], pos => attempt [] pos (some none)
  | b :: rest, pos => attempt (b :: rest) pos (middleLoop segment rest (pos + 1))
where
  attempt (rest : Bytes) (pos : Nat) (next : Option (Option Nat)) : Option (Option Nat) :=
    if !boundary rest then none
    else do
      if ← simpleGlob segment rest then
        match ← firstMatchLen segment rest 0 with
        | some len => some (some (pos + len))
        | none => next
      else next

def middleSegment (segment path : Bytes) (searchStart : Nat) : Option (Option Nat) :=
  if searchStart ≤ path.length then middleLoop segment (path.drop searchStart) searchStart
  else some none

/-- The segments that are not empty, each with its index; `last` is the index
of the last segment of all. -/
def matchSegments (path : Bytes) (last : Nat) :
    Bool → List (Bytes × Nat) → Nat → Option Bool
  | _, [], _ => some true
  | first, (segment, index) :: rest, searchStart => do
    if first && index == 0 then
      match ← firstMatchLen segment path 0 with
      | some len => matchSegments path last false rest len
      | none => some false
    else if rest.isEmpty && index == last then
      if ← lastSegment segment path searchStart then matchSegments path last false rest searchStart
      else some false
    else
      match ← middleSegment segment path searchStart with
      | some found => matchSegments path last false rest found
      | none => some false

def globMatch (pattern path : Bytes) : Option Bool :=
  if pattern == [star, star] then some true
  else if !hasDoubleStar pattern then simpleGlob pattern path
  else do
    let segments ← segmentsOf (splitDoubleStar pattern)
    matchSegments path (segments.length - 1) true
      (segments.zipIdx.filter fun s => !s.1.isEmpty) 0

end GlobMatch

section Matcher

structure PatternMatcher where
  pattern : Bytes
  anchored : Bool
  dirOnly : Bool

def PatternMatcher.new (pattern : Bytes) : PatternMatcher :=
  let anchored := pattern.head? == some slash
  let p := if anchored then pattern.drop 1 else pattern
  let dirOnly := p.getLast? == some slash
  ⟨if dirOnly then p.dropLast else p, anchored, dirOnly⟩

/-- `path.split('/')` -/
def splitBytes : Bytes → List Bytes
  | [] => [[]]
  | b :: s =>
    if b = slash then [] :: splitBytes s
    else
      match splitBytes s with
      | [] => [[b]]
      | part :: parts => (b :: part) :: parts

def anyComponent (pattern : Bytes) : List Bytes → Option Bool
  | [] => some false
  | c :: rest => do
    if ← globMatch pattern c then some true
    else anyComponent pattern rest

/-- The path of SOURCE itself. -/
def sentinel : Bytes := [46]

def PatternMatcher.isMatch (m : PatternMatcher) (path : Bytes) (isDir : Bool) : Option Bool :=
  if m.dirOnly && !isDir then some false
  else if m.dirOnly && path == sentinel then some false
  else if m.pattern.contains slash || m.anchored then globMatch m.pattern path
  else anyComponent m.pattern (splitBytes path)

def trimSlashes (s : Bytes) : Bytes := (s.reverse.dropWhile (· == slash)).reverse

def validateSplitPattern (pattern : String) : Except String Unit :=
  if pattern.isEmpty then .error "split pattern must not be empty"
  else
    let stripped := trimSlashes (utf8 pattern)
    let stripped := if stripped.head? == some slash then stripped.drop 1 else stripped
    if stripped.isEmpty then
      .error ("split pattern \"" ++ pattern ++ "\" consists only of path separators")
    else .ok ()

end Matcher

end Purgery.Client
