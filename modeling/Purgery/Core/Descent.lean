import Purgery.Core.Containment

namespace Purgery

namespace Path

/-! Paths below a directory. -/

/-- A name that a directory can hold. -/
structure EntryName (s : String) : Prop where
  ne_empty : s ≠ ""
  no_slash : '/' ∉ s.toList
  plain : Plain s

instance : DecidablePred EntryName := fun s =>
  decidable_of_iff (s ≠ "" ∧ '/' ∉ s.toList ∧ Plain s)
    ⟨fun h => ⟨h.1, h.2.1, h.2.2⟩, fun h => ⟨h.ne_empty, h.no_slash, h.plain⟩⟩

/-- The components of `base` begin those of `p`. -/
def startsWith (p base : String) : Bool :=
  isAbsolute p == isAbsolute base && (components base).isPrefixOf (components p)

/-- The rest of `p` after the components of `base`. -/
def stripPrefix (p base : String) : Option String :=
  if startsWith p base then some (joinSlash ((components p).drop (components base).length))
  else none

variable {source : String} {ns ms : List String}

theorem splitSlash_joinSlash (hne : ns ≠ []) (h : ∀ n ∈ ns, EntryName n) :
    splitSlash (joinSlash ns).toList = ns.map String.toList := by
  induction ns with
  | nil => exact absurd rfl hne
  | cons n ns ih =>
    have hn := splitSlash_plain (h n List.mem_cons_self).no_slash
    cases ns with
    | nil => exact hn
    | cons m ns =>
      have hrest := ih (List.cons_ne_nil m ns) fun x hx => h x (List.mem_cons_of_mem _ hx)
      have hjoin : (joinSlash (n :: m :: ns)).toList =
          n.toList ++ '/' :: (joinSlash (m :: ns)).toList := by
        simp [joinSlash]
      rw [hjoin, splitSlash_append, hn, hrest]
      rfl

theorem names_joinSlash (hne : ns ≠ []) (h : ∀ n ∈ ns, EntryName n) :
    names (joinSlash ns).toList = ns := by
  rw [names, splitSlash_joinSlash hne h, List.map_map]
  have hmap : ns.map (String.ofList ∘ String.toList) = ns := by
    conv_rhs => rw [← List.map_id ns]
    exact List.map_congr_left fun n _ => String.ofList_toList
  rw [hmap, List.filter_eq_self]
  intro n hn
  simp [(h n hn).ne_empty, (h n hn).plain.1]

theorem isAbsolute_joinSlash (hne : ns ≠ []) (h : ∀ n ∈ ns, EntryName n) :
    isAbsolute (joinSlash ns) = false := by
  obtain ⟨n, ns, rfl⟩ := List.exists_cons_of_ne_nil hne
  have hn := h n List.mem_cons_self
  have hhead : (joinSlash (n :: ns)).toList.head? = n.toList.head? := by
    have hempty : n.toList ≠ [] := by simpa using hn.ne_empty
    cases ns with
    | nil => rfl
    | cons m ns => simp [joinSlash, List.head?_append_of_ne_nil _ hempty]
  rw [isAbsolute, hhead]
  cases hs : n.toList with
  | nil => rfl
  | cons c cs =>
    have hc : c ≠ '/' := fun hc => hn.no_slash (by simp [hs, hc])
    simpa using hc

/-- The `.` that begins a relative path. -/
def leadingDot (p : String) : Bool :=
  !isAbsolute p && ((splitSlash p.toList).map String.ofList).head? == some "."

theorem components_eq (p : String) :
    components p = if leadingDot p then "." :: names p.toList else names p.toList := rfl

theorem head_splitSlash (a s t : List Char) :
    (splitSlash (a ++ '/' :: s)).head? = (splitSlash (a ++ '/' :: t)).head? := by
  obtain ⟨first, rest, h⟩ := List.exists_cons_of_ne_nil (splitSlash_ne_nil a)
  rw [splitSlash_append, splitSlash_append, h]
  rfl

theorem leadingDot_append {p q : String} {a s t : List Char} (hp : p.toList = a ++ '/' :: s)
    (hq : q.toList = a ++ '/' :: t) : leadingDot p = leadingDot q := by
  have habs : isAbsolute p = isAbsolute q := by
    rw [isAbsolute, isAbsolute, hp, hq]
    cases a <;> rfl
  rw [leadingDot, leadingDot, habs, List.head?_map, List.head?_map, hp, hq,
    head_splitSlash a s t]

theorem leadingDot_joinSlash (hne : ns ≠ []) (h : ∀ n ∈ ns, EntryName n) :
    leadingDot (joinSlash ns) = false := by
  obtain ⟨n, rest, rfl⟩ := List.exists_cons_of_ne_nil hne
  have hn : n ≠ "." := (h n List.mem_cons_self).plain.1
  rw [leadingDot, splitSlash_joinSlash hne h]
  simp [hn]

/-- The path from a directory to what is below it. -/
theorem join_below (hne : ns ≠ []) (h : ∀ n ∈ ns, EntryName n) :
    join source (joinSlash ns) =
      if source.toList.getLast? = some '/' ∨ source = "" then source ++ joinSlash ns
      else source ++ "/" ++ joinSlash ns := by
  simp [join, isAbsolute_joinSlash hne h]

theorem components_below_slash {a : List Char} {p : String} (hsource : source.toList = a ++ ['/'])
    (hp : p.toList = a ++ '/' :: (joinSlash ns).toList) (hne : ns ≠ [])
    (h : ∀ n ∈ ns, EntryName n) :
    components p = components source ++ ns ∧ isAbsolute p = isAbsolute source := by
  constructor
  · have hempty : names [] = [] := rfl
    rw [components_eq, components_eq, leadingDot_append hp hsource, hp, hsource, names_append,
      names_append, names_joinSlash hne h, hempty, List.append_nil]
    split <;> rfl
  · rw [isAbsolute, isAbsolute, hp, hsource]
    cases a <;> rfl

theorem components_below_plain {p : String} (hsource : source ≠ "")
    (hp : p.toList = source.toList ++ '/' :: (joinSlash ns).toList) (hne : ns ≠ [])
    (h : ∀ n ∈ ns, EntryName n) :
    components p = components source ++ ns ∧ isAbsolute p = isAbsolute source := by
  have hchars : source.toList ≠ [] := by simpa using hsource
  have habs : isAbsolute p = isAbsolute source := by
    rw [isAbsolute, isAbsolute, hp, List.head?_append_of_ne_nil _ hchars]
  refine ⟨?_, habs⟩
  have hhead : (splitSlash p.toList).head? = (splitSlash source.toList).head? := by
    rw [hp, splitSlash_append]
    exact List.head?_append_of_ne_nil _ (splitSlash_ne_nil _)
  have hdot : leadingDot p = leadingDot source := by
    rw [leadingDot, leadingDot, habs, List.head?_map, List.head?_map, hhead]
  rw [components_eq, components_eq, hdot, hp, names_append, names_joinSlash hne h]
  split <;> rfl

/-- What is below a directory has the components of the directory first. -/
theorem components_below (source : String) (hne : ns ≠ []) (h : ∀ n ∈ ns, EntryName n) :
    components (join source (joinSlash ns)) = components source ++ ns ∧
      isAbsolute (join source (joinSlash ns)) = isAbsolute source := by
  rw [join_below hne h]
  by_cases hlast : source.toList.getLast? = some '/'
  · obtain ⟨a, ha⟩ := List.getLast?_eq_some_iff.1 hlast
    rw [if_pos (.inl hlast)]
    exact components_below_slash ha (by simp [ha]) hne h
  · by_cases hempty : source = ""
    · subst hempty
      rw [if_pos (.inr rfl), String.empty_append, components_eq, leadingDot_joinSlash hne h,
        names_joinSlash hne h]
      exact ⟨rfl, isAbsolute_joinSlash hne h⟩
    · rw [if_neg (not_or.2 ⟨hlast, hempty⟩)]
      exact components_below_plain hempty (by simp) hne h

theorem startsWith_base (hne : ns ≠ []) (h : ∀ n ∈ ns, EntryName n) :
    startsWith (join source (joinSlash ns)) source = true := by
  obtain ⟨hcomponents, habs⟩ := components_below source hne h
  simp [startsWith, habs, hcomponents]

theorem startsWith_self (p : String) : startsWith p p = true := by simp [startsWith]

theorem stripPrefix_below (hne : ns ≠ []) (h : ∀ n ∈ ns, EntryName n) :
    stripPrefix (join source (joinSlash ns)) source = some (joinSlash ns) := by
  rw [stripPrefix, if_pos (startsWith_base hne h), (components_below source hne h).1,
    List.drop_left]

theorem below_ne (hne : ns ≠ []) (h : ∀ n ∈ ns, EntryName n) :
    join source (joinSlash ns) ≠ source := by
  intro heq
  have hcomponents := (components_below source hne h).1
  rw [heq] at hcomponents
  exact hne (List.append_right_eq_self.1 hcomponents.symm)

theorem below_injective (hns : ns ≠ []) (hms : ms ≠ []) (h : ∀ n ∈ ns, EntryName n)
    (h' : ∀ n ∈ ms, EntryName n) (heq : join source (joinSlash ns) = join source (joinSlash ms)) :
    ns = ms := by
  have hcomponents := (components_below source hns h).1
  rw [heq, (components_below source hms h').1] at hcomponents
  exact (List.append_cancel_left hcomponents).symm

theorem startsWith_below (hns : ns ≠ []) (hms : ms ≠ []) (h : ∀ n ∈ ns, EntryName n)
    (h' : ∀ n ∈ ms, EntryName n) :
    startsWith (join source (joinSlash ns)) (join source (joinSlash ms)) = true ↔ ms <+: ns := by
  obtain ⟨hcomponents, habs⟩ := components_below source hns h
  obtain ⟨hcomponents', habs'⟩ := components_below source hms h'
  simp [startsWith, habs, habs', hcomponents, hcomponents', List.prefix_append_right_inj]

end Path

end Purgery
