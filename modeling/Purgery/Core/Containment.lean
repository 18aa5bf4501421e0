import Purgery.Core.Names

namespace Purgery

namespace Path

theorem splitSlash_ne_nil (cs : List Char) : splitSlash cs ≠ [] := by
  unfold splitSlash
  split
  · simp
  · simp
  · split <;> simp

theorem splitSlash_cons {c : Char} (hc : c ≠ '/') (cs : List Char) :
    ∃ s rest, splitSlash cs = s :: rest ∧ splitSlash (c :: cs) = (c :: s) :: rest := by
  cases h : splitSlash cs with
  | nil => exact absurd h (splitSlash_ne_nil cs)
  | cons s rest =>
    refine ⟨s, rest, rfl, ?_⟩
    rw [splitSlash]
    · rw [h]
    · exact hc

theorem splitSlash_plain {cs : List Char} (h : '/' ∉ cs) : splitSlash cs = [cs] := by
  induction cs with
  | nil => rfl
  | cons c cs ih =>
    rw [List.mem_cons, not_or] at h
    obtain ⟨s, rest, hs, hcons⟩ := splitSlash_cons (Ne.symm h.1) cs
    have hcs := hs.symm.trans (ih h.2)
    cases hcs
    exact hcons

theorem splitSlash_append (a s : List Char) :
    splitSlash (a ++ '/' :: s) = splitSlash a ++ splitSlash s := by
  induction a with
  | nil => rfl
  | cons c a ih =>
    by_cases hc : c = '/'
    · subst hc
      exact congrArg ([] :: ·) ih
    · obtain ⟨p, rest, hp, hcons⟩ := splitSlash_cons hc (a ++ '/' :: s)
      obtain ⟨q, rest', hq, hcons'⟩ := splitSlash_cons hc a
      have hpq := hp.symm.trans ih
      rw [hq] at hpq
      cases hpq
      rw [List.cons_append, hcons, hcons']
      rfl

/-- The segments that name something. -/
def names (cs : List Char) : List String :=
  ((splitSlash cs).map String.ofList).filter fun s => s != "" && s != "."

theorem names_append (a s : List Char) : names (a ++ '/' :: s) = names a ++ names s := by
  unfold names
  rw [splitSlash_append, List.map_append, List.filter_append]

theorem components_absolute {p : String} (hp : isAbsolute p = true) :
    components p = names p.toList := by
  simp [components, names, hp]

theorem isAbsolute_join {p s : String} (hp : isAbsolute p = true) :
    isAbsolute (join p s) = true := by
  obtain ⟨cs, hcs⟩ : ∃ cs, p.toList = '/' :: cs := by
    cases h : p.toList with
    | nil => simp [isAbsolute, h] at hp
    | cons c cs =>
      have hc : c = '/' := by simpa [isAbsolute, h] using hp
      exact ⟨cs, by rw [hc]⟩
  unfold join
  split
  · assumption
  · split <;> simp [isAbsolute, hcs]

theorem isAbsolute_of_plain {s : String} (hs : '/' ∉ s.toList) : isAbsolute s = false := by
  cases h : s.toList with
  | nil => simp [isAbsolute, h]
  | cons c cs =>
    have hc : c ≠ '/' := by
      rintro rfl
      exact hs (by rw [h]; exact List.mem_cons_self)
    simp [isAbsolute, h, hc]

/-- A relative path is appended to the text of an absolute one. -/
theorem join_text {p s : String} (hp : isAbsolute p = true) (hs : isAbsolute s = false) :
    ∃ a, (join p s).toList = a ++ '/' :: s.toList ∧ names a = names p.toList := by
  have hne : (p == "") = false := by
    rw [beq_eq_false_iff_ne]
    rintro rfl
    exact absurd hp (by decide)
  by_cases hlast : p.toList.getLast? = some '/'
  · obtain ⟨a, ha⟩ := List.getLast?_eq_some_iff.1 hlast
    have hempty : names (a ++ ['/']) = names a := by
      rw [names_append]
      simp [names, splitSlash]
    refine ⟨a, ?_, ?_⟩
    · simp [join, hs, ha]
    · rw [ha, hempty]
  · refine ⟨p.toList, ?_, rfl⟩
    simp [join, hs, hlast, hne]

theorem names_join {p s : String} (hp : isAbsolute p = true) (hs : isAbsolute s = false) :
    names (join p s).toList = names p.toList ++ names s.toList := by
  obtain ⟨a, hjoin, ha⟩ := join_text hp hs
  rw [hjoin, names_append, ha]

theorem components_join {p s : String} (hp : isAbsolute p = true) (hs : '/' ∉ s.toList) :
    components (join p s) = components p ++ names s.toList := by
  rw [components_absolute hp, components_absolute (isAbsolute_join hp)]
  exact names_join hp (isAbsolute_of_plain hs)

/-- The directory that a component leads to from one that is reached from the
root by `dir`: `..` leads to the parent, and from the root to the root. -/
def follow (dir : List String) (c : String) : List String :=
  if c = ".." then dir.dropLast else if c = "." then dir else dir ++ [c]

/-- The directory that an absolute path names when `.` and `..` are resolved
without a look at the filesystem. -/
def normalize (p : String) : List String := (components p).foldl follow []

theorem normalize_join {p s : String} (hp : isAbsolute p = true) (hs : '/' ∉ s.toList) :
    normalize (join p s) = (names s.toList).foldl follow (normalize p) := by
  rw [normalize, components_join hp hs, List.foldl_append]
  rfl

theorem names_plain {s : String} (hs : '/' ∉ s.toList) :
    names s.toList = if s = "" ∨ s = "." then [] else [s] := by
  rw [names, splitSlash_plain hs]
  by_cases h : s = "" ∨ s = "."
  · obtain rfl | rfl := h <;> rfl
  · have h' := not_or.1 h
    simp [h', h]

/-- A name that leads to a child of the directory. -/
def Plain (s : String) : Prop := s ≠ "." ∧ s ≠ ".."

instance (s : String) : Decidable (Plain s) := inferInstanceAs (Decidable (_ ∧ _))

theorem normalize_join_child {p s : String} (hp : isAbsolute p = true) (hs : '/' ∉ s.toList)
    (hne : s ≠ "") (hplain : Plain s) : normalize (join p s) = normalize p ++ [s] := by
  rw [normalize_join hp hs, names_plain hs, if_neg (not_or.2 ⟨hne, hplain.1⟩)]
  simp [follow, hplain.1, hplain.2]

theorem length_normalize_join {p s : String} (hp : isAbsolute p = true) (hs : '/' ∉ s.toList)
    (hdots : ¬Plain s) : (normalize (join p s)).length ≤ (normalize p).length := by
  rw [normalize_join hp hs, names_plain hs]
  by_cases hdot : s = "."
  · simp [hdot]
  · have hdd : s = ".." := by simpa [Plain, hdot] using hdots
    subst hdd
    simp [follow]

end Path

theorem nicknameChar_ne {c : Char} (h : nicknameChar c = true) : c ≠ '/' ∧ c ≠ '.' := by
  constructor <;> rintro rfl <;> exact absurd h (by decide)

theorem runIdChar_ne {c : Char} (h : runIdChar c = true) : c ≠ '/' := by
  rintro rfl
  exact absurd h (by decide)

theorem Nickname.noSlash (n : Nickname) : '/' ∉ n.asStr.toList := fun h =>
  (nicknameChar_ne (List.all_eq_true.1 n.valid.2 _ h)).1 rfl

theorem Nickname.plain (n : Nickname) : Path.Plain n.asStr := by
  have hdot : '.' ∉ n.asStr.toList := fun h =>
    (nicknameChar_ne (List.all_eq_true.1 n.valid.2 _ h)).2 rfl
  constructor <;> intro h <;> exact hdot (by simp [h])

theorem Nickname.ne_empty (n : Nickname) : n.asStr ≠ "" := fun h => n.valid.1 (by simp [h])

theorem RunId.noSlash (r : RunId) : '/' ∉ r.asStr.toList := fun h =>
  runIdChar_ne (List.all_eq_true.1 r.valid.2 _ h) rfl

theorem RunId.ne_empty (r : RunId) : r.asStr ≠ "" := fun h => r.valid.1 (by simp [h])

theorem RunPhase.noSlash (ph : RunPhase) : '/' ∉ ph.asStr.toList := by
  cases ph <;> decide

theorem RunPhase.asStr_plain (ph : RunPhase) : ph.asStr ≠ "" ∧ Path.Plain ph.asStr := by
  cases ph <;> decide

theorem RunPhase.asStr_injective {ph ph' : RunPhase} (h : ph.asStr = ph'.asStr) : ph = ph' := by
  cases ph <;> cases ph' <;> first | rfl | exact absurd h (by decide)

namespace ServerWorkDir

variable (w : ServerWorkDir) (k : RunKey) (ph : RunPhase)

/-- The directory that holds the runs of a nickname in a phase. -/
def phaseDir (n : Nickname) : String := Path.join (w.nicknameDir n) ph.asStr

theorem nicknameDir_absolute (n : Nickname) : Path.isAbsolute (w.nicknameDir n) = true :=
  Path.isAbsolute_join w.absolute

theorem phaseDir_absolute (n : Nickname) : Path.isAbsolute (w.phaseDir ph n) = true :=
  Path.isAbsolute_join (w.nicknameDir_absolute n)

theorem normalize_phaseDir (n : Nickname) :
    Path.normalize (w.phaseDir ph n) = Path.normalize w.path ++ [n.asStr, ph.asStr] := by
  have hn := Path.normalize_join_child w.absolute n.noSlash n.ne_empty n.plain
  have hp := Path.normalize_join_child (w.nicknameDir_absolute n) ph.noSlash ph.asStr_plain.1
    ph.asStr_plain.2
  calc Path.normalize (w.phaseDir ph n)
      = Path.normalize (w.nicknameDir n) ++ [ph.asStr] := hp
    _ = (Path.normalize w.path ++ [n.asStr]) ++ [ph.asStr] := congrArg (· ++ [ph.asStr]) hn
    _ = Path.normalize w.path ++ [n.asStr, ph.asStr] := List.append_assoc ..

theorem normalize_runDir {k : RunKey} (h : Path.Plain k.runId.asStr) :
    Path.normalize (w.runDir k ph) =
      Path.normalize w.path ++ [k.nickname.asStr, ph.asStr, k.runId.asStr] := by
  have hr := Path.normalize_join_child (w.phaseDir_absolute ph k.nickname) k.runId.noSlash
    k.runId.ne_empty h
  calc Path.normalize (w.runDir k ph)
      = Path.normalize (w.phaseDir ph k.nickname) ++ [k.runId.asStr] := hr
    _ = (Path.normalize w.path ++ [k.nickname.asStr, ph.asStr]) ++ [k.runId.asStr] :=
      congrArg (· ++ [k.runId.asStr]) (w.normalize_phaseDir ph k.nickname)
    _ = _ := List.append_assoc ..

/-- The directory of the run is a child of the phase's directory, which is
below the nickname's, and is called after the run id. -/
structure Contained : Prop where
  phase : Path.normalize (w.phaseDir ph k.nickname) =
    Path.normalize w.path ++ [k.nickname.asStr, ph.asStr]
  child : Path.normalize (w.runDir k ph) =
    Path.normalize (w.phaseDir ph k.nickname) ++ [k.runId.asStr]

/-- Neither directory is the other or contains it. -/
def Apart (k k' : RunKey) (ph ph' : RunPhase) : Prop :=
  ¬Path.normalize (w.runDir k ph) <+: Path.normalize (w.runDir k' ph') ∧
    ¬Path.normalize (w.runDir k' ph') <+: Path.normalize (w.runDir k ph)

theorem contained_iff : w.Contained k ph ↔ Path.Plain k.runId.asStr := by
  constructor
  · intro h
    by_contra hdots
    have hlen := Path.length_normalize_join (w.phaseDir_absolute ph k.nickname) k.runId.noSlash
      hdots
    have hchild := congrArg List.length h.child
    rw [List.length_append] at hchild
    simp only [List.length_singleton] at hchild
    have hsame : w.runDir k ph = Path.join (w.phaseDir ph k.nickname) k.runId.asStr := rfl
    rw [hsame] at hchild
    omega
  · intro h
    refine ⟨w.normalize_phaseDir ph k.nickname, ?_⟩
    rw [w.normalize_runDir ph h, w.normalize_phaseDir ph k.nickname, List.append_assoc]
    rfl

variable {k ph}

theorem not_prefix {k' : RunKey} {ph' : RunPhase} (h : Path.Plain k.runId.asStr)
    (h' : Path.Plain k'.runId.asStr) (hne : (k, ph) ≠ (k', ph')) :
    ¬Path.normalize (w.runDir k ph) <+: Path.normalize (w.runDir k' ph') := by
  intro hpre
  rw [w.normalize_runDir ph h, w.normalize_runDir ph' h'] at hpre
  have heq := ((List.prefix_append_right_inj _).1 hpre).eq_of_length rfl
  simp only [List.cons.injEq, and_true] at heq
  obtain ⟨hn, hp, hr⟩ := heq
  have hk : k = k' := by
    obtain ⟨⟨n, _⟩, ⟨r, _⟩⟩ := k
    obtain ⟨⟨n', _⟩, ⟨r', _⟩⟩ := k'
    cases hn
    cases hr
    rfl
  exact hne (Prod.ext hk (RunPhase.asStr_injective hp))

/-- The directories of two runs are contained and disjoint just when neither
run id is `.` or `..`. -/
theorem run_directories_contained (k k' : RunKey) (ph ph' : RunPhase) :
    (w.Contained k ph ∧ w.Contained k' ph' ∧ ((k, ph) ≠ (k', ph') → w.Apart k k' ph ph')) ↔
      Path.Plain k.runId.asStr ∧ Path.Plain k'.runId.asStr := by
  rw [w.contained_iff, w.contained_iff]
  constructor
  · rintro ⟨h, h', _⟩
    exact ⟨h, h'⟩
  · rintro ⟨h, h'⟩
    exact ⟨h, h', fun hne => ⟨w.not_prefix h h' hne, w.not_prefix h' h (Ne.symm hne)⟩⟩

/-- The validator accepts the run id `..`, whose directory is the nickname's. -/
theorem run_directories_escape :
    ∃ k : RunKey, RunId.new ".." = .ok k.runId ∧
      ¬(ServerWorkDir.mk "/w" (by decide)).Contained k .ready ∧
      Path.normalize ((ServerWorkDir.mk "/w" (by decide)).runDir k .ready) =
        Path.normalize ((ServerWorkDir.mk "/w" (by decide)).nicknameDir k.nickname) := by
  refine ⟨⟨⟨"laptop", by decide⟩, ⟨"..", by decide⟩⟩, by decide, ?_, by decide⟩
  rw [contained_iff]
  decide

end ServerWorkDir

end Purgery
