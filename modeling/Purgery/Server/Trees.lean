import Mathlib.Data.String.Basic
import Purgery.Core.Lookup
import Purgery.Core.Subpaths
import Purgery.Server.Step

namespace Purgery.Server

open Path

namespace Tree

variable {t : Tree} {p q : String} {n : Node}

theorem find_insert : (t.insert p n).find q = if q = p then some n else t.find q := by
  unfold Tree.insert Tree.find
  rw [List.lookup_append, lookup_filter_ne, List.lookup_cons]
  by_cases hq : q = p
  · rw [if_pos hq, if_pos hq, beq_iff_eq.2 hq, Option.none_or]
  · rw [if_neg hq, if_neg hq, beq_false_of_ne hq]
    exact Option.or_none

theorem mem_of_find (h : t.find p = some n) : (p, n) ∈ t := mem_of_lookup h

theorem find_of_mem (hnodup : (t.map Prod.fst).Nodup) (h : (p, n) ∈ t) : t.find p = some n :=
  lookup_of_mem hnodup h

theorem find_createDirs (paths : List String) : (paths.foldl (fun t p =>
    if (t.find p).isSome then t else t.insert p .dir) t).find q =
      if (t.find q).isSome then t.find q else if q ∈ paths then some .dir else none := by
  induction paths generalizing t with
  | nil => cases h : t.find q <;> simp [h]
  | cons p paths ih =>
    rw [List.foldl_cons, ih]
    by_cases hp : (t.find p).isSome = true
    · rw [if_pos hp]
      by_cases hq : q = p
      · subst hq
        simp [hp]
      · simp [hq]
    · rw [if_neg hp]
      by_cases hq : q = p
      · subst hq
        simp [find_insert, hp]
      · simp [find_insert, hq]

end Tree

section Ancestors

variable {as bs cs : List String} {p : String} {t : Tree} {n : Node}

theorem ancestors_joinSlash (hne : cs ≠ []) (h : Names cs) :
    ancestors (joinSlash cs) = (List.range cs.dropLast.length).map fun n =>
      joinSlash (cs.dropLast.take (n + 1)) := by
  rw [ancestors, components_joinSlash hne h]

theorem mem_ancestors (hne : cs ≠ []) (h : Names cs) : p ∈ ancestors (joinSlash cs) ↔
    ∃ as bs, as ≠ [] ∧ bs ≠ [] ∧ cs = as ++ bs ∧ p = joinSlash as := by
  rw [ancestors_joinSlash hne h, List.mem_map]
  constructor
  · rintro ⟨n, hn, rfl⟩
    rw [List.mem_range, List.length_dropLast] at hn
    refine ⟨cs.take (n + 1), cs.drop (n + 1), ?_, ?_, (List.take_append_drop _ _).symm, ?_⟩
    · simpa using hne
    · rw [Ne, List.drop_eq_nil_iff]
      omega
    · rw [List.dropLast_eq_take, List.take_take, Nat.min_eq_left (by omega)]
  · rintro ⟨as, bs, ha, hb, rfl, rfl⟩
    have hlen := List.length_pos_iff.2 ha
    have hlen' := List.length_pos_iff.2 hb
    refine ⟨as.length - 1, ?_, ?_⟩
    · rw [List.mem_range, List.length_dropLast, List.length_append]
      omega
    · rw [Nat.sub_add_cancel hlen, List.dropLast_append_of_ne_nil hb, List.take_left]

/-- What is at a path or below it is no directory on the way to it. -/
theorem below_not_mem_ancestors (hne : as ≠ []) (h : Names (as ++ bs)) :
    joinSlash (as ++ bs) ∉ ancestors (joinSlash as) := by
  rw [mem_ancestors hne h.left]
  rintro ⟨ms, ns, -, hns, rfl, heq⟩
  have hlen := congrArg List.length (joinSlash_injective h h.left.left heq)
  have hpos := List.length_pos_iff.2 hns
  simp only [List.length_append] at hlen
  omega

theorem parentOf_ok (habove : ∀ p ∈ ancestors (joinSlash cs), t.find p = some .dir) :
    t.parentOf (joinSlash cs) = .ok () := by
  unfold Tree.parentOf
  cases hlast : (ancestors (joinSlash cs)).getLast? with
  | none => rfl
  | some p =>
    have hp := habove p (List.mem_of_getLast? hlast)
    simp [hp, Node.kind]

theorem find_insert_above (hne : cs ≠ []) (h : Names cs)
    (habove : ∀ p ∈ ancestors (joinSlash cs), t.find p = some .dir) :
    ∀ p ∈ ancestors (joinSlash cs), (t.insert (joinSlash cs) n).find p = some .dir := by
  intro p hp
  have hother : p ≠ joinSlash cs := by
    rintro rfl
    have hnot : joinSlash (cs ++ []) ∉ ancestors (joinSlash cs) :=
      below_not_mem_ancestors hne (by simpa using h)
    rw [List.append_nil] at hnot
    exact hnot hp
  rw [Tree.find_insert, if_neg hother, habove p hp]

end Ancestors

section Order

variable {as bs cs : List String}

theorem componentsLe_refl (as : List String) : componentsLe as as = true := by
  induction as with
  | nil => rfl
  | cons a as ih => simpa [componentsLe] using ih

theorem componentsLe_total (as bs : List String) :
    componentsLe as bs = true ∨ componentsLe bs as = true := by
  induction as generalizing bs with
  | nil => exact .inl (by cases bs <;> rfl)
  | cons a as ih =>
    cases bs with
    | nil => exact .inr rfl
    | cons b bs =>
      by_cases h : a = b
      · subst h
        simpa [componentsLe] using ih bs
      · have h' : b ≠ a := fun heq => h heq.symm
        simpa [componentsLe, h, h'] using lt_or_gt_of_ne h

theorem componentsLe_trans (hab : componentsLe as bs = true) (hbc : componentsLe bs cs = true) :
    componentsLe as cs = true := by
  induction as generalizing bs cs with
  | nil => cases cs <;> rfl
  | cons a as ih =>
    cases bs with
    | nil => exact nomatch hab
    | cons b bs =>
      cases cs with
      | nil => exact nomatch hbc
      | cons c cs =>
        unfold componentsLe at hab hbc ⊢
        split at hab
        · rename_i h
          subst h
          split at hbc
          · rename_i h
            subst h
            simpa using ih hab hbc
          · rename_i h
            simpa [h] using hbc
        · rename_i h
          split at hbc
          · rename_i h'
            subst h'
            simpa [h] using hab
          · have hac := lt_trans (of_decide_eq_true hab) (of_decide_eq_true hbc)
            simpa [hac.ne] using hac

/-- A directory comes before what is below it, and not after. -/
theorem componentsLe_append (hb : bs ≠ []) : componentsLe (as ++ bs) as = false := by
  induction as with
  | nil =>
    obtain ⟨b, bs, rfl⟩ := List.exists_cons_of_ne_nil hb
    rfl
  | cons a as ih => simpa [componentsLe] using ih

/-- In a walk the directories on the way to an object come before it. -/
theorem walkOrder_before {paths pre post : List String} (ha : as ≠ []) (hb : bs ≠ [])
    (h : Names (as ++ bs)) (hwalk : walkOrder paths = pre ++ joinSlash (as ++ bs) :: post)
    (hmem : joinSlash as ∈ paths) : joinSlash as ∈ pre := by
  let le := fun p q => componentsLe (Path.components p) (Path.components q) = true
  have htotal : Std.Total le := ⟨fun p q => componentsLe_total _ _⟩
  have htrans : IsTrans String le := ⟨fun p q r => componentsLe_trans⟩
  have hsorted : (walkOrder paths).Pairwise le := List.pairwise_insertionSort _ _
  have hin : joinSlash as ∈ walkOrder paths := (List.mem_insertionSort _).2 hmem
  rw [hwalk] at hsorted hin
  obtain hin | hin := List.mem_append.1 hin
  · exact hin
  have hafter : componentsLe (as ++ bs) as = true := by
    obtain hin | hin := List.mem_cons.1 hin
    · rw [← joinSlash_injective h.left h hin]
      exact componentsLe_refl _
    · have hle := List.rel_of_pairwise_cons (List.pairwise_append.1 hsorted).2.1 hin
      simpa only [le, components_joinSlash ha h.left,
        components_joinSlash (List.append_ne_nil_of_left_ne_nil ha bs) h] using hle
  rw [componentsLe_append hb] at hafter
  exact nomatch hafter

end Order

end Purgery.Server
