import Purgery.Client.Split.SingleStar

namespace Purgery.Client

/-! Where the bytes of a string can be cut. -/

variable {p s t : Bytes} {b : UInt8} {i : Nat}

/-- A string may be cut after each of its ASCII bytes. -/
def Clean (s : Bytes) : Prop := ∀ u b v, s = u ++ b :: v → b < 128 → boundary v = true

theorem clean_cons : Clean (b :: s) ↔ (b < 128 → boundary s = true) ∧ Clean s := by
  constructor
  · intro h
    refine ⟨h [] b s rfl, fun u c v hs => h (b :: u) c v ?_⟩
    rw [hs, List.cons_append]
  · rintro ⟨hhead, htail⟩ u c v hs hc
    cases u with
    | nil =>
      obtain ⟨rfl, rfl⟩ := List.cons.inj hs
      exact hhead hc
    | cons d u => exact htail u c v (List.cons.inj hs).2 hc

theorem boundary_of_append (h : boundary (s ++ t) = true) : boundary s = true := by
  cases s with
  | nil => rfl
  | cons b s => exact h

theorem Clean.within (h : Clean s) (ht : t <:+: s) : Clean t := by
  intro u b v hv hb
  obtain ⟨x, y, rfl⟩ := ht
  have hcut := h (x ++ u) b (v ++ y) (by simp [hv]) hb
  exact boundary_of_append hcut

theorem Ascii.clean (h : Ascii s) : Clean s := by
  rintro u b v rfl -
  have hv : Ascii v := fun c hc => h c (by simp [hc])
  exact hv.boundary

theorem Ascii.within (h : Ascii s) (ht : t <:+: s) : Ascii t := fun b hb => h b (ht.subset hb)

theorem Ascii.sliceFrom (hs : Ascii s) (hi : i ≤ s.length) : sliceFrom s i = some (s.drop i) :=
  if_pos ⟨hi, (hs.within (List.drop_suffix i s).isInfix).boundary⟩

theorem Ascii.sliceTo (hs : Ascii s) (hi : i ≤ s.length) : sliceTo s i = some (s.take i) :=
  if_pos ⟨hi, (hs.within (List.drop_suffix i s).isInfix).boundary⟩

theorem clean_append (hs : ∀ b ∈ s, 128 ≤ b) : Clean (s ++ t) ↔ Clean t := by
  induction s with
  | nil => exact Iff.rfl
  | cons b s ih =>
    have hb : ¬ b < 128 := UInt8.not_lt.2 (hs b List.mem_cons_self)
    rw [List.cons_append, clean_cons, ih fun c hc => hs c (List.mem_cons_of_mem _ hc)]
    exact ⟨And.right, fun h => ⟨fun h' => absurd h' hb, h⟩⟩

theorem continuation_le (h : continuation b = true) : 128 ≤ b := by
  rw [continuation, Bool.and_eq_true, decide_eq_true_eq] at h
  exact h.1

/-- A character is one ASCII byte, or a leading byte and some that continue it. -/
theorem utf8EncodeChar_bytes (c : Char) :
    (∃ b, b < 128 ∧ String.utf8EncodeChar c = [b]) ∨
    ∃ b x rest, String.utf8EncodeChar c = b :: x :: rest ∧ 192 ≤ b ∧ continuation x = true ∧
      ∀ y ∈ rest, 128 ≤ y := by
  have hcont : ∀ n : Nat, continuation (UInt8.ofNat (n % 64 + 128)) = true := by
    intro n
    simp only [continuation, Bool.and_eq_true, decide_eq_true_eq, UInt8.le_iff_toNat_le,
      UInt8.lt_iff_toNat_lt, UInt8.toNat_ofNat', UInt8.toNat_ofNat]
    omega
  have hlow : ∀ n : Nat, 128 ≤ UInt8.ofNat (n % 64 + 128) := fun n => continuation_le (hcont n)
  have hlead : ∀ n : Nat, 192 ≤ n → n < 256 → 192 ≤ UInt8.ofNat n := by
    intro n h1 h2
    simp only [UInt8.le_iff_toNat_le, UInt8.toNat_ofNat', UInt8.toNat_ofNat]
    omega
  unfold String.utf8EncodeChar
  generalize c.val.toNat = v
  simp only
  split
  · refine .inl ⟨_, ?_, rfl⟩
    simp only [UInt8.lt_iff_toNat_lt, UInt8.toNat_ofNat', UInt8.toNat_ofNat]
    omega
  · refine .inr ?_
    split
    · refine ⟨_, _, _, rfl, hlead _ (by omega) (by omega), hcont _, by rintro _ ⟨⟩⟩
    · split
      · refine ⟨_, _, _, rfl, hlead _ (by omega) (by omega), hcont _, ?_⟩
        simp only [List.mem_singleton, forall_eq]
        exact hlow _
      · refine ⟨_, _, _, rfl, hlead _ (by omega) (by omega), hcont _, ?_⟩
        simp only [List.mem_cons, List.not_mem_nil, or_false, forall_eq_or_imp, forall_eq]
        exact ⟨hlow _, hlow _⟩

theorem boundary_of_lead (hb : 192 ≤ b) : boundary (b :: s) = true := by
  have h : ¬ b < 192 := UInt8.not_lt.2 hb
  simp [boundary, continuation, h]

theorem boundary_utf8 (s : String) : boundary (utf8 s) = true := by
  unfold utf8
  cases s.toList with
  | nil => rfl
  | cons c cs =>
    rw [List.flatMap_cons]
    obtain ⟨b, hb, hc⟩ | ⟨b, x, rest, hc, hb, -⟩ := utf8EncodeChar_bytes c
    · have hb : ¬ 128 ≤ b := UInt8.not_le.2 hb
      simp [hc, boundary, continuation, hb]
    · rw [hc]
      exact boundary_of_lead hb

theorem clean_utf8 (s : String) : Clean (utf8 s) := by
  unfold utf8
  generalize hcs : s.toList = cs
  clear hcs
  induction cs with
  | nil => exact fun u b v h => absurd h (by simp)
  | cons c cs ih =>
    rw [List.flatMap_cons]
    obtain ⟨b, -, hc⟩ | ⟨b, x, rest, hc, hb, hx, hrest⟩ := utf8EncodeChar_bytes c
    · rw [hc, List.singleton_append, clean_cons]
      exact ⟨fun _ => by simpa [utf8] using boundary_utf8 (String.ofList cs), ih⟩
    · rw [hc, clean_append]
      · exact ih
      · have hb : 128 ≤ b := UInt8.le_trans (by decide) hb
        have hx : 128 ≤ x := continuation_le hx
        simp only [List.mem_cons, forall_eq_or_imp]
        exact ⟨hb, hx, hrest⟩

/-- A string that is not ASCII has a place where it cannot be cut. -/
theorem exists_continuation {s : String} (h : ¬ Ascii (utf8 s)) :
    ∃ b ∈ utf8 s, continuation b = true := by
  unfold utf8 at h ⊢
  generalize s.toList = cs at h ⊢
  induction cs with
  | nil => exact absurd (fun b hb => absurd hb List.not_mem_nil) h
  | cons c cs ih =>
    rw [List.flatMap_cons] at h ⊢
    obtain ⟨b, hb, hc⟩ | ⟨b, x, rest, hc, -, hx, -⟩ := utf8EncodeChar_bytes c
    · obtain ⟨y, hy, hcont⟩ := ih fun hcs => h fun y hy => by
        rw [hc, List.singleton_append, List.mem_cons] at hy
        obtain rfl | hy := hy
        · exact hb
        · exact hcs y hy
      exact ⟨y, List.mem_append_right _ hy, hcont⟩
    · exact ⟨x, by simp [hc], hx⟩

theorem splitDoubleStar_ne_nil (p : Bytes) : splitDoubleStar p ≠ [] := by
  fun_induction splitDoubleStar p <;> exact List.cons_ne_nil _ _

theorem splitDoubleStar_within (p : Bytes) : ∃ first parts,
    splitDoubleStar p = first :: parts ∧ first <+: p ∧ ∀ part ∈ parts, part <:+: p := by
  fun_induction splitDoubleStar p with
  | case1 => exact ⟨[], [], rfl, List.nil_prefix, nofun⟩
  | case2 c => exact ⟨[c], [], rfl, List.prefix_rfl, nofun⟩
  | case3 a b p hstars ih =>
    obtain ⟨first, parts, hp, hfirst, hparts⟩ := ih
    have hsuffix : p <:+: a :: b :: p := ⟨[a, b], [], by simp⟩
    refine ⟨[], first :: parts, by rw [hp], List.nil_prefix, ?_⟩
    simp only [List.mem_cons, forall_eq_or_imp]
    exact ⟨hfirst.isInfix.trans hsuffix, fun part h => (hparts part h).trans hsuffix⟩
  | case4 a b p hstars hnil ih => exact absurd hnil (splitDoubleStar_ne_nil _)
  | case5 a b p hstars part parts hp ih =>
    obtain ⟨first, parts', hp', hfirst, hparts⟩ := ih
    rw [hp] at hp'
    obtain ⟨rfl, rfl⟩ := List.cons.inj hp'
    refine ⟨a :: part, parts, rfl, (List.prefix_cons_inj a).2 hfirst, fun x hx => ?_⟩
    exact (hparts x hx).trans (List.suffix_cons a _).isInfix

end Purgery.Client
