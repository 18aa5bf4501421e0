import Mathlib.Computability.Language

namespace Purgery.Glob

/-! The languages of glob patterns over names that `sep` separates. -/

variable {α : Type}

inductive Element (α : Type) where
  | literal (c : α)
  | one
  | run
  | tree
  | all

def Element.language (sep : α) : Element α → Language α
  | .literal c => {[c]}
  | .one => {s | ∃ b, b ≠ sep ∧ s = [b]}
  | .run => {s | sep ∉ s}
  | .tree => {s | s = [] ∨ s.getLast? = some sep}
  | .all => {_s | True}

/-- The strings that can be cut into pieces which the elements match in order. -/
def language (sep : α) (es : List (Element α)) : Language α := (es.map (Element.language sep)).prod

variable {sep : α} {es es' : List (Element α)} {s : List α}

theorem mem_nil : s ∈ language sep [] ↔ s = [] := Iff.rfl

theorem mem_cons {e : Element α} :
    s ∈ language sep (e :: es) ↔ ∃ u ∈ e.language sep, ∃ t ∈ language sep es, u ++ t = s := by
  rw [language, List.map_cons, List.prod_cons, Language.mem_mul]
  rfl

theorem mem_append :
    s ∈ language sep (es ++ es') ↔
      ∃ u ∈ language sep es, ∃ t ∈ language sep es', u ++ t = s := by
  rw [language, List.map_append, List.prod_append, Language.mem_mul]
  rfl

theorem mem_literal {c : α} :
    s ∈ language sep (.literal c :: es) ↔ ∃ t ∈ language sep es, s = c :: t := by
  rw [mem_cons]
  constructor
  · rintro ⟨u, rfl, t, ht, rfl⟩
    exact ⟨t, ht, rfl⟩
  · rintro ⟨t, ht, rfl⟩
    exact ⟨[c], rfl, t, ht, rfl⟩

theorem mem_one :
    s ∈ language sep (.one :: es) ↔ ∃ b, b ≠ sep ∧ ∃ t ∈ language sep es, s = b :: t := by
  rw [mem_cons]
  constructor
  · rintro ⟨u, ⟨b, hb, rfl⟩, t, ht, rfl⟩
    exact ⟨b, hb, t, ht, rfl⟩
  · rintro ⟨b, hb, t, ht, rfl⟩
    exact ⟨[b], ⟨b, hb, rfl⟩, t, ht, rfl⟩

theorem mem_run :
    s ∈ language sep (.run :: es) ↔ ∃ u, sep ∉ u ∧ ∃ t ∈ language sep es, u ++ t = s :=
  mem_cons

theorem mem_run_nil : s ∈ language sep [.run] ↔ sep ∉ s := by
  rw [mem_run]
  constructor
  · rintro ⟨u, hu, t, rfl, rfl⟩
    rwa [List.append_nil]
  · exact fun h => ⟨s, h, [], rfl, List.append_nil s⟩

/-- A run is over, or it takes one more symbol. -/
theorem mem_run_step {b : α} :
    b :: s ∈ language sep (.run :: es) ↔
      b :: s ∈ language sep es ∨ b ≠ sep ∧ s ∈ language sep (.run :: es) := by
  constructor
  · intro h
    obtain ⟨u, hu, t, ht, hs⟩ := mem_run.1 h
    cases u with
    | nil => exact .inl (hs ▸ ht)
    | cons c u =>
      rw [List.mem_cons, not_or] at hu
      obtain ⟨rfl, rfl⟩ := List.cons.inj hs
      exact .inr ⟨Ne.symm hu.1, mem_run.2 ⟨u, hu.2, t, ht, rfl⟩⟩
  · rintro (h | ⟨hb, h⟩)
    · exact mem_run.2 ⟨[], List.not_mem_nil, _, h, rfl⟩
    · obtain ⟨u, hu, t, ht, rfl⟩ := mem_run.1 h
      refine mem_run.2 ⟨b :: u, ?_, t, ht, rfl⟩
      rw [List.mem_cons, not_or]
      exact ⟨Ne.symm hb, hu⟩

theorem mem_all : s ∈ language sep [.all] := mem_cons.2 ⟨s, trivial, [], rfl, List.append_nil s⟩

theorem mem_tree_of_mem (h : s ∈ language sep es) : s ∈ language sep (.tree :: es) :=
  mem_cons.2 ⟨[], .inl rfl, s, h, rfl⟩

/-- Two trees are a tree. -/
theorem mem_tree_tree :
    s ∈ language sep (.tree :: .tree :: es) ↔ s ∈ language sep (.tree :: es) := by
  refine ⟨fun h => ?_, mem_tree_of_mem⟩
  obtain ⟨u, hu, rest, hrest, rfl⟩ := mem_cons.1 h
  obtain ⟨v, hv, t, ht, rfl⟩ := mem_cons.1 hrest
  refine mem_cons.2 ⟨u ++ v, ?_, t, ht, List.append_assoc u v t⟩
  obtain rfl | hv := hv
  · rwa [List.append_nil]
  · exact .inr (by rw [List.getLast?_append, hv]; rfl)

theorem mem_trees (k : Nat) :
    s ∈ language sep (List.replicate k .tree ++ .tree :: es) ↔ s ∈ language sep (.tree :: es) := by
  induction k with
  | zero => exact Iff.rfl
  | succ k ih =>
    cases k with
    | zero => exact mem_tree_tree
    | succ k =>
      rw [← ih, List.replicate_succ, List.replicate_succ]
      exact mem_tree_tree

theorem mem_trees_all (k : Nat) : s ∈ language sep (List.replicate k .tree ++ [.all]) := by
  induction k with
  | zero => exact mem_all
  | succ k ih => exact mem_tree_of_mem ih

section Decidable

variable [DecidableEq α]

theorem one_iff : s.length = 1 ∧ sep ∉ s ↔ s ∈ Element.one.language sep := by
  constructor
  · rintro ⟨hlen, hsep⟩
    obtain ⟨b, rfl⟩ := List.length_eq_one_iff.1 hlen
    exact ⟨b, fun hb => hsep (by simp [hb]), rfl⟩
  · rintro ⟨b, hb, rfl⟩
    exact ⟨rfl, by simpa using Ne.symm hb⟩

instance decidableMemElement (e : Element α) (s : List α) : Decidable (s ∈ e.language sep) :=
  match e with
  | .literal c => inferInstanceAs (Decidable (s = [c]))
  | .one => decidable_of_iff _ one_iff
  | .run => inferInstanceAs (Decidable (sep ∉ s))
  | .tree => inferInstanceAs (Decidable (s = [] ∨ s.getLast? = some sep))
  | .all => .isTrue trivial

theorem mem_cons_take {e : Element α} :
    (∃ i < s.length + 1, s.take i ∈ e.language sep ∧ s.drop i ∈ language sep es) ↔
      s ∈ language sep (e :: es) := by
  rw [mem_cons]
  constructor
  · rintro ⟨i, -, hu, ht⟩
    exact ⟨_, hu, _, ht, List.take_append_drop i s⟩
  · rintro ⟨u, hu, t, ht, rfl⟩
    refine ⟨u.length, by rw [List.length_append]; omega, ?_⟩
    rw [List.take_left, List.drop_left]
    exact ⟨hu, ht⟩

instance decidableMem : (es : List (Element α)) → (s : List α) → Decidable (s ∈ language sep es)
  | [], _ => decidable_of_iff _ mem_nil.symm
  | _ :: es, _ =>
    have := decidableMem es
    decidable_of_iff _ mem_cons_take

end Decidable

end Purgery.Glob
