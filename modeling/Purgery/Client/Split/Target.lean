import Purgery.Core.Placement

namespace Purgery.Client

open Purgery.Path

/-! Where the entries of a split are sent. -/

structure RemoteDestination where
  host : String
  path : DestinationPath
  deriving DecidableEq

/-- The parts before and after the last `:`. -/
def rsplitColon : List Char → Option (List Char × List Char)
  | [] => none
  | c :: cs =>
    match rsplitColon cs with
    | some (host, path) => some (c :: host, path)
    | none => if c = ':' then some ([], cs) else none

def parseDestination (destination : String) : Except String RemoteDestination :=
  match rsplitColon destination.toList with
  | none => .error "destination must be in format USER@HOST:PATH or HOST:PATH"
  | some (host, path) =>
    if host.isEmpty || path.isEmpty then
      .error "destination host and path must not be empty"
    else
      match DestinationPath.new (String.ofList path) with
      | .error _ => .error ("invalid destination path: " ++ String.ofList path)
      | .ok p => .ok ⟨String.ofList host, p⟩

/-- The suffix of the destination for a root of a split. -/
def splitTargetSuffix (source root : String) : String :=
  if root = source then ""
  else
    match stripPrefix root source with
    | none => ""
    | some relative =>
      let parent := (parent relative).getD ""
      if parent = "" then "/" else "/" ++ parent ++ "/"

def splitDestination (destination source root : String) : String :=
  destination ++ splitTargetSuffix source root

section Colon

variable {cs ds host path : List Char}

theorem rsplitColon_none : rsplitColon cs = none ↔ ':' ∉ cs := by
  induction cs with
  | nil => simp [rsplitColon]
  | cons c cs ih =>
    rw [List.mem_cons, not_or, ← ih, rsplitColon]
    cases rsplitColon cs with
    | some parts => simp
    | none => simp [eq_comm]

/-- Text without `:` goes to the path. -/
theorem rsplitColon_append_plain (h : rsplitColon cs = some (host, path)) (hds : ':' ∉ ds) :
    rsplitColon (cs ++ ds) = some (host, path ++ ds) := by
  induction cs generalizing host path with
  | nil => exact nomatch h
  | cons c cs ih =>
    rw [List.cons_append, rsplitColon]
    rw [rsplitColon] at h
    cases hcs : rsplitColon cs with
    | some parts =>
      rw [hcs] at h
      cases h
      rw [ih hcs]
    | none =>
      have hnone : rsplitColon (cs ++ ds) = none := by
        rw [rsplitColon_none, List.mem_append, not_or]
        exact ⟨rsplitColon_none.1 hcs, hds⟩
      rw [hcs] at h
      rw [hnone]
      simp only at h ⊢
      split at h
      · rename_i hc
        cases h
        rw [if_pos hc]
      · exact nomatch h

/-- Text with a `:` goes to the host. -/
theorem rsplitColon_append_colon (cs : List Char) (hds : ':' ∈ ds) : ∃ host path,
    rsplitColon (cs ++ ds) = some (cs ++ host, path) := by
  induction cs with
  | nil =>
    obtain ⟨parts, hparts⟩ := Option.ne_none_iff_exists'.1 fun h => rsplitColon_none.1 h hds
    exact ⟨parts.1, parts.2, hparts⟩
  | cons c cs ih =>
    obtain ⟨host, path, h⟩ := ih
    exact ⟨host, path, by rw [List.cons_append, rsplitColon, h]; rfl⟩

theorem rsplitColon_length (h : rsplitColon cs = some (host, path)) : host.length < cs.length := by
  induction cs generalizing host path with
  | nil => exact nomatch h
  | cons c cs ih =>
    rw [rsplitColon] at h
    cases hcs : rsplitColon cs with
    | some parts =>
      rw [hcs] at h
      cases h
      exact Nat.succ_lt_succ (ih hcs)
    | none =>
      rw [hcs] at h
      simp only at h
      split at h
      · cases h
        exact Nat.succ_pos _
      · exact nomatch h

end Colon

section Operand

variable {raw source : String} {ns : List String}

theorem parseDestination_ok {destination : String} {target : RemoteDestination} :
    parseDestination destination = .ok target ↔ ∃ host path p,
      rsplitColon destination.toList = some (host, path) ∧ host ≠ [] ∧ path ≠ [] ∧
      DestinationPath.new (String.ofList path) = .ok p ∧ target = ⟨String.ofList host, p⟩ := by
  unfold parseDestination
  constructor
  · intro h
    split at h
    · exact nomatch h
    · rename_i host path hsplit
      split at h
      · exact nomatch h
      · rename_i hempty
        split at h
        · exact nomatch h
        · rename_i p hp
          cases h
          simp only [Bool.or_eq_true, List.isEmpty_iff, not_or] at hempty
          exact ⟨host, path, p, hsplit, hempty.1, hempty.2, hp, rfl⟩
  · rintro ⟨host, path, p, hsplit, hhost, hpath, hp, rfl⟩
    simp [hsplit, hhost, hpath, hp]

/-- The suffix for what is below the source. -/
def suffixText (parents : List String) : String :=
  if parents = [] then "/" else "/" ++ joinSlash parents ++ "/"

/-- `root` is reached from `source` by these names. -/
structure Below (source root : String) (ns : List String) : Prop where
  nonempty : ns ≠ []
  entries : ∀ n ∈ ns, EntryName n
  components : Path.components root = Path.components source ++ ns
  absolute : isAbsolute root = isAbsolute source

theorem below_join (hne : ns ≠ []) (h : ∀ n ∈ ns, EntryName n) :
    Below source (join source (joinSlash ns)) ns where
  nonempty := hne
  entries := h
  components := (components_below source hne h).1
  absolute := (components_below source hne h).2

theorem Below.parents {root : String} (h : Below source root ns) :
    ∀ n ∈ ns.dropLast, EntryName n :=
  fun n hn => h.entries n ((List.dropLast_prefix ns).subset hn)

theorem splitTargetSuffix_below {root : String} (h : Below source root ns) :
    splitTargetSuffix source root = suffixText ns.dropLast := by
  have hparent : parent (joinSlash ns) = some (joinSlash ns.dropLast) := by
    rw [parent, components_joinSlash h.nonempty h.entries,
      isAbsolute_joinSlash h.nonempty h.entries, ← List.dropLast_append_getLast h.nonempty]
    simp
  have hroot : root ≠ source := by
    rintro rfl
    exact h.nonempty (List.append_right_eq_self.1 h.components.symm)
  have hstrip : stripPrefix root source = some (joinSlash ns) := by
    simp [stripPrefix, startsWith, h.absolute, h.components]
  rw [splitTargetSuffix, if_neg hroot, hstrip]
  simp only [hparent, Option.getD_some, suffixText]
  by_cases hparents : ns.dropLast = []
  · rw [hparents]
    rfl
  · rw [if_neg hparents, if_neg (joinSlash_ne_empty hparents h.parents)]

theorem colon_mem_joinSlash : ':' ∈ (joinSlash ns).toList ↔ ∃ n ∈ ns, ':' ∈ n.toList := by
  induction ns with
  | nil => simp [joinSlash]
  | cons n ns ih =>
    cases ns with
    | nil => simp [joinSlash]
    | cons m ns =>
      have hjoin : joinSlash (n :: m :: ns) = n ++ "/" ++ joinSlash (m :: ns) := rfl
      rw [hjoin, String.toList_append, String.toList_append, List.mem_append, List.mem_append, ih]
      simp

theorem colon_mem_suffixText : ':' ∈ (suffixText ns).toList ↔ ∃ n ∈ ns, ':' ∈ n.toList := by
  unfold suffixText
  split
  · rename_i hns
    subst hns
    simp
  · rw [← colon_mem_joinSlash]
    simp

theorem names_suffixText (h : ∀ n ∈ ns, EntryName n) (cs : List Char) :
    names (cs ++ (suffixText ns).toList) = names cs ++ ns := by
  have hnil : names [] = [] := rfl
  unfold suffixText
  split
  · rename_i hns
    subst hns
    exact (names_append cs []).trans (by rw [hnil])
  · rename_i hne
    have htext : ("/" ++ joinSlash ns ++ "/").toList = '/' :: ((joinSlash ns).toList ++ ['/']) := by
      simp
    rw [htext, names_append, names_append, names_joinSlash hne h, hnil, List.append_nil]

end Operand

/-- The destination of a root is below the destination of the split, unless a
directory between the source and the root has a `:` in its name. -/
theorem split_destination (destination source : String) (target : RemoteDestination)
    (ns : List String) (hparse : parseDestination destination = .ok target) (hne : ns ≠ [])
    (h : ∀ n ∈ ns, EntryName n) :
    (∃ p, parseDestination (splitDestination destination source (join source (joinSlash ns))) =
        .ok ⟨target.host, p⟩ ∧
      p.operand = target.path.operand ++ splitTargetSuffix source (join source (joinSlash ns))) ↔
    ∀ n ∈ ns.dropLast, ':' ∉ n.toList := by
  have hnames : ∀ n ∈ ns.dropLast, EntryName n :=
      fun n hn => h n ((List.dropLast_prefix ns).subset hn)
  rw [splitDestination, splitTargetSuffix_below (below_join hne h)]
  have htext : (destination ++ suffixText ns.dropLast).toList =
      destination.toList ++ (suffixText ns.dropLast).toList := String.toList_append
  have hcolon : (∀ n ∈ ns.dropLast, ':' ∉ n.toList) ↔ ':' ∉ (suffixText ns.dropLast).toList := by
    rw [colon_mem_suffixText]
    simp
  rw [hcolon]
  obtain ⟨host, path, p, hsplit, hhost, hpath, hp, rfl⟩ := parseDestination_ok.1 hparse
  constructor
  · rintro ⟨q, hq, -⟩ hmem
    obtain ⟨host', path', q', hsplit', -, -, -, htarget⟩ := parseDestination_ok.1 hq
    obtain ⟨more, rest, hmore⟩ := rsplitColon_append_colon destination.toList hmem
    have hlen := rsplitColon_length hsplit
    rw [htext, hmore] at hsplit'
    cases hsplit'
    have hsame : String.ofList host = String.ofList (destination.toList ++ more) :=
      congrArg RemoteDestination.host htarget
    rw [String.ofList_inj.1 hsame, List.length_append] at hlen
    omega
  · intro hplain
    have hsuffix := rsplitColon_append_plain hsplit hplain
    obtain ⟨hraw, hdots⟩ := DestinationPath.new_ok_iff.1 ⟨p, hp⟩
    have hnew : String.ofList (path ++ (suffixText ns.dropLast).toList) ≠ "" ∧
        ".." ∉ names (String.ofList (path ++ (suffixText ns.dropLast).toList)).toList := by
      rw [String.toList_ofList] at hdots ⊢
      rw [names_suffixText hnames, List.mem_append, not_or]
      refine ⟨by simp [hpath], hdots, fun hmem => (hnames _ hmem).plain.2 rfl⟩
    obtain ⟨q, hq⟩ := DestinationPath.new_ok_iff.2 hnew
    refine ⟨q, parseDestination_ok.2 ⟨host, _, q, htext ▸ hsuffix, hhost, ?_, hq, rfl⟩, ?_⟩
    · exact List.append_ne_nil_of_left_ne_nil hpath _
    · rw [DestinationPath.operand_of_new hq, DestinationPath.operand_of_new hp, String.ofList_append,
        String.ofList_toList]

theorem split_destination_nested :
    (∃ p, parseDestination (splitDestination "u@host:/archive" "/src"
        (join "/src" (joinSlash ["a", "b"]))) = .ok ⟨"u@host", p⟩ ∧
      p.operand = "/archive" ++ splitTargetSuffix "/src" (join "/src" (joinSlash ["a", "b"]))) ↔
    ∀ n ∈ ["a", "b"].dropLast, ':' ∉ n.toList :=
  split_destination "u@host:/archive" "/src"
    ⟨"u@host", ⟨"/archive", "/archive", .exactOrExistingDirectory⟩⟩ ["a", "b"] (by decide +kernel)
    (by decide) (by decide)

/-- A directory name with a `:` becomes a part of the host. -/
theorem split_destination_moves_host :
    parseDestination "host:/archive" =
        .ok ⟨"host", ⟨"/archive", "/archive", .exactOrExistingDirectory⟩⟩ ∧
    ¬ ∃ p, parseDestination (splitDestination "host:/archive" "/src" "/src/a:b/c") =
        .ok ⟨"host", p⟩ ∧
      p.operand = "/archive" ++ splitTargetSuffix "/src" "/src/a:b/c" := by
  constructor
  · decide +kernel
  · rintro ⟨p, hp, -⟩
    have hother : parseDestination (splitDestination "host:/archive" "/src" "/src/a:b/c") =
        .ok ⟨"host:/archive/a", ⟨"b", "b/", .trailingSlash⟩⟩ := by decide +kernel
    rw [hother] at hp
    exact absurd hp (by simp)

end Purgery.Client
