import Purgery.Server.Step

namespace Purgery.Server

def RunEntry.isTree : RunEntry → Bool
  | .tree _ => true
  | _ => false

namespace RunDir

variable {d : RunDir} {e e' : RunEntry}

theorem allFiles_complete (f : FileName) : f ∈ allFiles := by cases f <;> decide

theorem mem_entries (h : d.has e = true) : e ∈ d.leaves ∨ e ∈ d.subtrees := by
  cases e with
  | file f =>
    exact .inl (by simp [leaves, h, allFiles_complete])
  | tmp f => exact .inl (by simp [leaves, h, allFiles_complete])
  | lock => exact .inl (by simp [leaves, h])
  | inTree t p =>
    refine .inl ?_
    cases ht : d.tree t with
    | none => simp [has, ht] at h
    | some xs =>
      have hp : ∃ n, (p, n) ∈ xs := by simpa [has, ht] using h
      cases t <;> simp [leaves, ht, hp]
  | tree t => exact .inr (by cases t <;> simp [subtrees, h])

theorem mem_listing (h : d.has e = true) (order : List RunEntry) : e ∈ d.listing order := by
  obtain h | h := mem_entries h
  · by_cases ho : e ∈ order <;> simp [listing, h, ho]
  · simp [listing, h]

theorem leaves_not_tree (h : e ∈ d.leaves) : e.isTree = false := by
  simp only [leaves, List.mem_append, List.mem_filter, List.mem_map, List.mem_singleton] at h
  obtain (⟨(⟨_, _, rfl⟩ | ⟨_, _, rfl⟩) | rfl, _⟩ | ⟨_, _, rfl⟩) | ⟨_, _, rfl⟩ := h <;> rfl

theorem subtrees_tree (h : e ∈ d.subtrees) : e.isTree = true := by
  simp only [subtrees, List.mem_filter, List.mem_cons, List.not_mem_nil, or_false] at h
  obtain ⟨rfl | rfl, _⟩ := h <;> rfl

/-- In the order of a removal, only directories come after a directory. -/
theorem listing_ordered (order : List RunEntry) :
    (d.listing order).Pairwise fun a b => a.isTree = true → b.isTree = true := by
  have hleaves : ∀ a ∈ order.filter (fun e => d.leaves.contains e) ++
      d.leaves.filter (fun e => !order.contains e), a.isTree = false := by
    intro a ha
    obtain h | h := List.mem_append.1 ha
    · exact leaves_not_tree (by simpa using (List.mem_filter.1 h).2)
    · exact leaves_not_tree (List.mem_filter.1 h).1
  refine List.pairwise_append.2 ⟨?_, ?_, fun a ha b hb _ => subtrees_tree hb⟩
  · exact List.pairwise_of_forall_mem_list fun a ha b _ ht => absurd (hleaves a ha) (by simp [ht])
  · exact List.pairwise_of_forall_mem_list fun a _ b hb _ => subtrees_tree hb

/-- What is left after an entry was removed. -/
theorem has_without (h : (d.without e).has e' = true) : d.has e' = true ∧ e' ≠ e := by
  cases e with
  | file f =>
    cases e' with
    | file f' =>
      by_cases hf : f' = f
      · subst hf
        simp [without, setFile, has, FileState.isMissing] at h
      · exact ⟨by simpa [without, setFile, has, hf] using h, by simpa using hf⟩
    | _ => exact ⟨h, by rintro ⟨⟩⟩
  | tmp f =>
    cases e' with
    | tmp f' =>
      by_cases hf : f' = f
      · subst hf
        simp [without, setTmp, has, FileState.isMissing] at h
      · exact ⟨by simpa [without, setTmp, has, hf] using h, by simpa using hf⟩
    | _ => exact ⟨h, by rintro ⟨⟩⟩
  | lock =>
    cases e' with
    | lock => simp [without, setLock, has] at h
    | _ => exact ⟨h, by rintro ⟨⟩⟩
  | inTree t p =>
    cases e' with
    | inTree t' p' =>
      by_cases ht : t' = t
      · subst ht
        cases hd : d.tree t' with
        | none => simp [without, setTree, has, hd] at h
        | some xs =>
          simp only [without, setTree, has, hd, Option.map_some, Function.update_self,
            Option.any_some, List.any_eq_true, List.mem_filter, bne_iff_ne, beq_iff_eq] at h ⊢
          obtain ⟨x, ⟨hx, hne⟩, rfl⟩ := h
          exact ⟨⟨x, hx, rfl⟩, by simpa using hne⟩
      · exact ⟨by simpa [without, setTree, has, ht] using h, by simp [ht]⟩
    | tree t' =>
      refine ⟨?_, by rintro ⟨⟩⟩
      by_cases ht : t' = t
      · subst ht
        simpa [without, setTree, has] using h
      · simpa [without, setTree, has, ht] using h
    | _ => exact ⟨h, by rintro ⟨⟩⟩
  | tree t =>
    cases e' with
    | inTree t' p' =>
      by_cases ht : t' = t
      · subst ht
        simp [without, setTree, has] at h
      · exact ⟨by simpa [without, setTree, has, ht] using h, by rintro ⟨⟩⟩
    | tree t' =>
      by_cases ht : t' = t
      · subst ht
        simp [without, setTree, has] at h
      · exact ⟨by simpa [without, setTree, has, ht] using h, by simpa using ht⟩
    | _ => exact ⟨h, by rintro ⟨⟩⟩

theorem sweep_id (e : RunEntry) (now : Nat) : (d.sweep e now).id = d.id := by
  cases e <;> rfl

theorem has_sweep {now : Nat} (h : (d.sweep e now).has e' = true) : d.has e' = true ∧ e' ≠ e :=
  has_without h

/-- A directory that still holds something holds an object of the subtree. -/
theorem has_of_holdsMore (h : d.holdsMore e = true) :
    ∃ t p, e = .tree t ∧ d.has (.inTree t p) = true := by
  cases e with
  | tree t =>
    cases ht : d.tree t with
    | none => simp [holdsMore, ht] at h
    | some xs =>
      cases xs with
      | nil => simp [holdsMore, ht] at h
      | cons x xs => exact ⟨t, x.1, rfl, by simp [has, ht]⟩
  | _ => simp [holdsMore] at h

theorem entries_empty (h : ∀ e, d.has e = false) : d.entries = [] := by
  have hleaves : ∀ e, e ∈ d.leaves → d.has e = true := by
    intro e he
    simp only [leaves, List.mem_append, List.mem_filter, List.mem_map] at he
    obtain (⟨_, he⟩ | ⟨x, hx, rfl⟩) | ⟨x, hx, rfl⟩ := he
    · exact he
    · cases ht : d.tree .files with
      | none => simp [ht] at hx
      | some xs =>
        simp only [ht, Option.getD_some] at hx
        simp only [has, ht, Option.any_some, List.any_eq_true]
        exact ⟨x, hx, by simp⟩
    · cases ht : d.tree .work with
      | none => simp [ht] at hx
      | some xs =>
        simp only [ht, Option.getD_some] at hx
        simp only [has, ht, Option.any_some, List.any_eq_true]
        exact ⟨x, hx, by simp⟩
  refine List.eq_nil_iff_forall_not_mem.2 fun e he => ?_
  have hhas : d.has e = true := by
    obtain he | he := List.mem_append.1 he
    · exact hleaves e he
    · exact (List.mem_filter.1 he).2
  exact absurd ((h e).symm.trans hhas) (by simp)

end RunDir

end Purgery.Server
