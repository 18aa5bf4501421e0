import Purgery.Core.Placement

namespace Purgery

namespace Path

/-! Relative paths by the names on them. -/

/-- The names of a path, as many as there are. -/
def Names (ns : List String) : Prop := ∀ n ∈ ns, EntryName n

instance : DecidablePred Names := fun ns => inferInstanceAs (Decidable (∀ n ∈ ns, EntryName n))

variable {as bs cs : List String} {p : String}

theorem Names.append (ha : Names as) (hb : Names bs) : Names (as ++ bs) :=
  List.forall_mem_append.2 ⟨ha, hb⟩

theorem Names.left (h : Names (as ++ bs)) : Names as := (List.forall_mem_append.1 h).1

theorem Names.right (h : Names (as ++ bs)) : Names bs := (List.forall_mem_append.1 h).2

theorem joinSlash_cons (a : String) (hne : as ≠ []) :
    joinSlash (a :: as) = a ++ "/" ++ joinSlash as := by
  cases as with
  | nil => exact absurd rfl hne
  | cons b as => rfl

theorem joinSlash_append (ha : as ≠ []) (hb : bs ≠ []) :
    joinSlash (as ++ bs) = joinSlash as ++ "/" ++ joinSlash bs := by
  induction as with
  | nil => exact absurd rfl ha
  | cons a as ih =>
    cases as with
    | nil => exact joinSlash_cons a hb
    | cons a' as =>
      have hrest := ih (List.cons_ne_nil a' as)
      rw [List.cons_append, joinSlash_cons a (by simp), hrest, joinSlash_cons a (by simp)]
      simp [String.append_assoc]

theorem toList_joinSlash_append (ha : as ≠ []) (hb : bs ≠ []) :
    (joinSlash (as ++ bs)).toList = (joinSlash as).toList ++ '/' :: (joinSlash bs).toList := by
  simp [joinSlash_append ha hb]

theorem joinSlash_injective (ha : Names as) (hb : Names bs) (h : joinSlash as = joinSlash bs) :
    as = bs := by
  have hnames : ∀ ns, Names ns → names (joinSlash ns).toList = ns := by
    intro ns hns
    cases ns with
    | nil => rfl
    | cons n ns => exact names_joinSlash (List.cons_ne_nil n ns) hns
  rw [← hnames as ha, ← hnames bs hb, h]

/-- What is joined to a path comes after its names. -/
theorem join_joinSlash (ha : as ≠ []) (hb : bs ≠ []) (has : Names as) (hbs : Names bs) :
    join (joinSlash as) (joinSlash bs) = joinSlash (as ++ bs) := by
  have hlast : ¬((joinSlash as).toList.getLast? = some '/' ∨ joinSlash as = "") := by
    rintro (hlast | hempty)
    · have hpart := DestinationPath.lastPart_eq_nil.2 (.inr hlast)
      rw [lastPart_joinSlash ha has] at hpart
      have hmem := has _ (List.getLast_mem ha)
      exact hmem.ne_empty (by simpa using hpart)
    · exact joinSlash_ne_empty ha has hempty
  rw [join_below hb hbs, if_neg hlast, joinSlash_append ha hb]

/-- The names after those of a directory. -/
theorem drop_joinSlash (ha : as ≠ []) (hb : bs ≠ []) :
    String.ofList ((joinSlash (as ++ bs)).toList.drop ((joinSlash as).length + 1)) =
      joinSlash bs := by
  have hlen : (joinSlash as).length + 1 = ((joinSlash as).toList ++ ['/']).length := by
    simp [String.length_toList]
  have hsplit : (joinSlash (as ++ bs)).toList =
      ((joinSlash as).toList ++ ['/']) ++ (joinSlash bs).toList := by
    simp [toList_joinSlash_append ha hb]
  rw [hsplit, hlen, List.drop_left, String.ofList_toList]

/-- The text of a directory and a slash begin the text of what is below it. -/
theorem below_joinSlash (ha : as ≠ []) (has : Names as) (hc : cs ≠ []) (hcs : Names cs) :
    (joinSlash as ++ "/").toList.isPrefixOf (joinSlash cs).toList = true ↔
      ∃ bs, bs ≠ [] ∧ cs = as ++ bs := by
  constructor
  · intro h
    obtain ⟨rest, hrest⟩ := List.isPrefixOf_iff_prefix.1 h
    have htext : (joinSlash cs).toList = (joinSlash as).toList ++ '/' :: rest := by
      rw [← hrest]
      simp
    have hnames := splitSlash_joinSlash hc hcs
    rw [htext, splitSlash_append, splitSlash_joinSlash ha has] at hnames
    refine ⟨(splitSlash rest).map String.ofList, ?_, ?_⟩
    · simpa using splitSlash_ne_nil rest
    · have hmap := congrArg (List.map String.ofList) hnames
      simpa [Function.comp_def] using hmap.symm
  · rintro ⟨bs, hb, rfl⟩
    refine List.isPrefixOf_iff_prefix.2 ⟨(joinSlash bs).toList, ?_⟩
    simp [toList_joinSlash_append ha hb]

end Path

end Purgery
