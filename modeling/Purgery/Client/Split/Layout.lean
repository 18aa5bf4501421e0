import Purgery.Client.Split.Target

namespace Purgery.Client

open Purgery.Path

variable {source base root root' : String} {ns ns' : List String}
variable {operand : DestinationPath} {plan plan' : ResolvedDestinationPlan}

/-- A plan for a root of a split, made for the operand with the suffix. -/
structure SplitPlan (source base root : String) (ns : List String)
    (plan : ResolvedDestinationPlan) : Prop where
  below : Below source root ns
  planned : ∃ q entry kind empty state, fileName root = some entry.asStr ∧
    DestinationPath.new (base ++ splitTargetSuffix source root) = .ok q ∧
    resolveDestination q entry kind empty state = .ok plan

theorem Below.fileName (h : Below source root ns) :
    fileName root = some (ns.getLast h.nonempty) := by
  have hlast : (Path.components root).getLast? = some (ns.getLast h.nonempty) := by
    rw [h.components, List.getLast?_append_of_ne_nil _ h.nonempty,
      List.getLast?_eq_some_getLast h.nonempty]
  have hplain := (h.entries _ (List.getLast_mem h.nonempty)).plain
  unfold Path.fileName
  rw [hlast]
  split
  · rename_i heq
    exact absurd (Option.some.inj heq) hplain.2
  · rename_i heq
    exact absurd (Option.some.inj heq) hplain.1
  · rfl

theorem lastPart_suffixText (cs : List Char) (ns : List String) :
    lastPart (cs ++ (suffixText ns).toList) = [] := by
  rw [DestinationPath.lastPart_eq_nil]
  refine .inr (List.getLast?_eq_some_iff.2 ?_)
  unfold suffixText
  split
  · exact ⟨cs, rfl⟩
  · exact ⟨cs ++ ("/" ++ joinSlash ns).toList, by simp⟩

/-- What the operand of a root becomes. -/
theorem new_suffixed (hbase : DestinationPath.new base = .ok operand) (h : Below source root ns)
    {q : DestinationPath}
    (hq : DestinationPath.new (base ++ splitTargetSuffix source root) = .ok q) :
    q.intent ≠ .exactOrExistingDirectory ∧ isAbsolute q.path = isAbsolute operand.path ∧
      names q.path.toList = names operand.path.toList ++ ns.dropLast := by
  rw [splitTargetSuffix_below h] at hq
  obtain ⟨hne, -, hoperand⟩ := DestinationPath.of_new hq
  obtain ⟨hbase', -, -⟩ := DestinationPath.of_new hbase
  have htext : (base ++ suffixText ns.dropLast).toList =
      base.toList ++ (suffixText ns.dropLast).toList := String.toList_append
  refine ⟨?_, ?_, ?_⟩
  · have hlexical : DestinationPath.NamesDirectory (base ++ suffixText ns.dropLast) :=
      .inl (by rw [htext]; exact lastPart_suffixText _ _)
    rw [hoperand]
    exact (DestinationPath.intentOf_forced hne).2 hlexical
  · rw [(DestinationPath.components_of_new hq).2, (DestinationPath.components_of_new hbase).2,
      isAbsolute, isAbsolute, htext, List.head?_append_of_ne_nil _ (by simpa using hbase')]
  · rw [DestinationPath.names_of_new hq, DestinationPath.names_of_new hbase, htext,
      names_suffixText h.parents]

theorem names_join (p : String) (hne : ns ≠ []) (h : ∀ n ∈ ns, EntryName n) :
    names (join p (joinSlash ns)).toList = names p.toList ++ ns := by
  have hfilter : ns.filter (· != ".") = ns := by
    rw [List.filter_eq_self]
    intro n hn
    simpa using (h n hn).plain.1
  rw [← names_components, (components_below p hne h).1, List.filter_append, names_components,
    hfilter]

theorem SplitPlan.placed (hbase : DestinationPath.new base = .ok operand)
    (h : SplitPlan source base root ns plan) :
    plan.placement = .directoryTarget ∧ isAbsolute plan.targetPath = isAbsolute operand.path ∧
      names plan.targetPath.toList = names (join operand.path (joinSlash ns)).toList := by
  obtain ⟨q, entry, kind, empty, state, hentry, hq, hplan⟩ := h.planned
  obtain ⟨hintent, habs, hnames⟩ := new_suffixed hbase h.below hq
  obtain ⟨hplacement, htarget⟩ := resolveDestination_directory hintent hplan
  have hlast : entry.asStr = joinSlash [ns.getLast h.below.nonempty] :=
    Option.some.inj (hentry.symm.trans h.below.fileName)
  have hsingle : ∀ n ∈ [ns.getLast h.below.nonempty], EntryName n := by
    intro n hn
    rw [List.mem_singleton] at hn
    exact hn ▸ h.below.entries _ (List.getLast_mem _)
  refine ⟨hplacement, ?_, ?_⟩
  · rw [htarget, hlast, (components_below q.path (List.cons_ne_nil _ _) hsingle).2, habs]
  · rw [htarget, hlast, names_join _ (List.cons_ne_nil _ _) hsingle, hnames, List.append_assoc,
      List.dropLast_append_getLast, names_join _ h.below.nonempty h.below.entries]

/-- Every root of a split is placed under the destination as it is under the
source, and two roots never in one place. -/
theorem split_layout (source base : String) (operand : DestinationPath)
    (hbase : DestinationPath.new base = .ok operand) :
    (∀ root ns plan, SplitPlan source base root ns plan →
      plan.placement = .directoryTarget ∧ isAbsolute plan.targetPath = isAbsolute operand.path ∧
        names plan.targetPath.toList = names (join operand.path (joinSlash ns)).toList) ∧
    ∀ root root' ns ns' plan plan', SplitPlan source base root ns plan →
      SplitPlan source base root' ns' plan' → components root ≠ components root' →
      plan.targetPath ≠ plan'.targetPath := by
  refine ⟨fun root ns plan h => h.placed hbase, ?_⟩
  intro root root' ns ns' plan plan' h h' hne hsame
  have hnames := (h.placed hbase).2.2
  rw [hsame, (h'.placed hbase).2.2, names_join _ h.below.nonempty h.below.entries,
    names_join _ h'.below.nonempty h'.below.entries] at hnames
  apply hne
  rw [h.below.components, h'.below.components, List.append_cancel_left hnames]

/-- Two files of one name keep their directories. -/
theorem split_layout_pair :
    ∃ plan plan', SplitPlan "/src" "/dst/." "/src/a/x" ["a", "x"] plan ∧
      SplitPlan "/src" "/dst/." "/src/b/x" ["b", "x"] plan' ∧
      plan.targetPath ≠ plan'.targetPath := by
  have hplan : SplitPlan "/src" "/dst/." "/src/a/x" ["a", "x"]
      ⟨⟨"/dst/a", "/dst/./a/", .trailingSlash⟩, "/dst/a/x", "/dst/a", .directoryTarget⟩ := by
    refine ⟨⟨by decide, by decide, by decide, by decide⟩, ⟨"/dst/a", "/dst/./a/", .trailingSlash⟩,
      ⟨"x", "x", by decide⟩, .regularFile, false, .missing, ?_, ?_, ?_⟩ <;> decide +kernel
  have hplan' : SplitPlan "/src" "/dst/." "/src/b/x" ["b", "x"]
      ⟨⟨"/dst/b", "/dst/./b/", .trailingSlash⟩, "/dst/b/x", "/dst/b", .directoryTarget⟩ := by
    refine ⟨⟨by decide, by decide, by decide, by decide⟩, ⟨"/dst/b", "/dst/./b/", .trailingSlash⟩,
      ⟨"x", "x", by decide⟩, .regularFile, false, .missing, ?_, ?_, ?_⟩ <;> decide +kernel
  exact ⟨_, _, hplan, hplan', (split_layout "/src" "/dst/." ⟨"/dst", "/dst/.", .terminalDot⟩
    (by decide +kernel)).2 _ _ _ _ _ _ hplan hplan' (by decide)⟩

end Purgery.Client
