import Mathlib.Data.List.Nodup

namespace Purgery

/-! Association lists in which every key comes once. -/

variable {α β : Type} [BEq α] [LawfulBEq α] {xs : List (α × β)} {a : α} {b : β}

theorem mem_of_lookup (h : xs.lookup a = some b) : (a, b) ∈ xs := by
  obtain ⟨before, after, rfl, -⟩ := List.lookup_eq_some_iff.1 h
  exact List.mem_append_right _ List.mem_cons_self

theorem lookup_of_mem (hnodup : (xs.map Prod.fst).Nodup) (h : (a, b) ∈ xs) :
    xs.lookup a = some b := by
  obtain ⟨before, after, rfl⟩ := List.append_of_mem h
  refine List.lookup_eq_some_iff.2 ⟨before, after, rfl, fun e he => bne_iff_ne.2 ?_⟩
  rintro rfl
  rw [List.map_append] at hnodup
  exact (List.nodup_append.1 hnodup).2.2 _ (List.mem_map_of_mem he) _ List.mem_cons_self rfl

theorem lookup_filter_ne [DecidableEq α] (a' : α) :
    (xs.filter fun e => e.1 != a').lookup a = if a = a' then none else xs.lookup a := by
  induction xs with
  | nil => simp
  | cons e xs ih =>
    obtain ⟨a₁, b₁⟩ := e
    by_cases h₁ : a₁ = a'
    · rw [List.filter_cons_of_neg (by simpa using h₁), ih, List.lookup_cons]
      by_cases ha : a = a'
      · rw [if_pos ha, if_pos ha]
      · rw [if_neg ha, if_neg ha, h₁, beq_false_of_ne ha]
    · rw [List.filter_cons_of_pos (by simpa using h₁), List.lookup_cons, List.lookup_cons, ih]
      by_cases ha : a = a₁
      · subst ha
        simp [h₁]
      · rw [beq_false_of_ne ha]

end Purgery
