import Purgery.Client.Split.Encoding
import Purgery.Client.Split.Selection

namespace Purgery.Client

/-! On which paths the matcher never cuts a character. -/

variable {p s t path segment : Bytes} {i len : Nat}

section Suffixes

theorem bracketItems_suffix {ch : UInt8} {matched : Bool} {r : Bool × Bytes}
    (h : bracketItems ch matched p = some r) : r.2 <:+ p := by
  fun_induction bracketItems ch matched p with
  | case1 => cases h
  | case2 =>
    cases h
    exact List.suffix_cons _ _
  | case3 matched lo mid hi p hlo hmid ih =>
    have hp : p <:+ lo :: mid :: hi :: p := ⟨[lo, mid, hi], rfl⟩
    exact (ih h).trans hp
  | case4 matched lo mid hi p hlo hmid ih => exact (ih h).trans (List.suffix_cons _ _)
  | case5 =>
    cases h
    exact List.suffix_cons _ _
  | case6 matched c p hshort hc ih => exact (ih h).trans (List.suffix_cons _ _)

theorem bracket_suffix {ch : UInt8} {r : Bool × Bytes} (h : bracket ch p = some r) :
    r.2 <:+ p := by
  cases p with
  | nil => exact nomatch h
  | cons c p =>
    simp only [bracket] at h
    split at h
    · obtain ⟨r', hr', rfl⟩ := Option.map_eq_some_iff.1 h
      exact (bracketItems_suffix hr').trans (List.suffix_cons _ _)
    · exact bracketItems_suffix h

theorem Clean.tail {c : UInt8} (h : Clean (c :: p)) : Clean p := (clean_cons.1 h).2

theorem Clean.bracket {ch : UInt8} {r : Bool × Bytes} (hp : Clean p)
    (h : bracket ch p = some r) : Clean r.2 := hp.within (bracket_suffix h).isInfix

theorem Clean.star (h : Clean (star :: p)) : boundary p = true := (clean_cons.1 h).1 (by decide)

end Suffixes

section Returns

theorem shortcut_returns {loop : Option Bool} (h : ∃ found, loop = some found) :
    ∃ found, shortcut p s loop = some found := by
  unfold shortcut
  split
  · exact ⟨_, rfl⟩
  · split
    · exact ⟨_, rfl⟩
    · exact h

theorem starLoop_returns {attempt : Bytes → Option Bool}
    (h : ∀ t, Ascii t → ∃ found, attempt t = some found) (hs : Ascii s) :
    ∃ found, starLoop attempt s = some found := by
  induction s with
  | nil => exact ⟨_, rfl⟩
  | cons b s ih =>
    obtain ⟨found, hfound⟩ := h _ hs
    rw [starLoop, hfound]
    cases found with
    | true => exact ⟨_, rfl⟩
    | false =>
      by_cases hb : b = slash
      · exact ⟨false, by simp [hb]⟩
      · obtain ⟨found, hrest⟩ := ih hs.tail
        exact ⟨found, by simp [hb, hrest]⟩

theorem globLoop_returns (hp : Clean p) (hs : Ascii s) : ∃ found, globLoop p s = some found := by
  induction hn : p.length using Nat.strong_induction_on generalizing p s with
  | _ n ih =>
    subst hn
    cases p with
    | nil => exact ⟨_, by rw [globLoop]⟩
    | cons c p =>
      by_cases hstar : c = star
      · subst hstar
        cases p with
        | nil => exact ⟨!s.contains slash, by simp [globLoop.eq_def, hs.boundary]⟩
        | cons d p =>
          rw [globLoop_star (List.cons_ne_nil d p)]
          refine starLoop_returns (fun t ht => ?_) hs
          rw [if_pos (by rw [hp.star, ht.boundary]; rfl)]
          exact shortcut_returns (ih _ (Nat.lt_succ_self _) hp.tail ht rfl)
      · have ih : ∀ {q t : Bytes}, q.length ≤ p.length → Clean q → Ascii t →
            ∃ found, globLoop q t = some found :=
          fun hq hclean ht => ih _ (Nat.lt_succ_of_le hq) hclean ht rfl
        rw [globLoop.eq_def]
        simp only [if_neg hstar]
        cases s with
        | nil => exact ⟨_, rfl⟩
        | cons b s =>
          simp only
          split
          · split
            · exact ⟨_, rfl⟩
            · exact ih le_rfl hp.tail hs.tail
          · split
            · split
              · exact ⟨_, rfl⟩
              · split
                · rename_i hbracket
                  have hlen := bracket_length b hbracket
                  exact ih hlen.le (hp.tail.bracket hbracket) hs.tail
                · exact ⟨_, rfl⟩
            · split
              · exact ih le_rfl hp.tail hs.tail
              · exact ⟨_, rfl⟩

theorem simpleGlob_returns (hp : Clean p) (hs : Ascii s) : ∃ found, simpleGlob p s = some found :=
  shortcut_returns (globLoop_returns hp hs)

theorem firstStarLoop_returns {attempt : Bytes → Nat → Option (Option Nat)}
    (h : ∀ t si, Ascii t → ∃ found, attempt t si = some found) (hs : Ascii s) (si : Nat) :
    ∃ found, firstStarLoop attempt s si = some found := by
  induction s generalizing si with
  | nil => exact ⟨_, rfl⟩
  | cons b s ih =>
    rw [firstStarLoop]
    split
    · exact ⟨_, rfl⟩
    · obtain ⟨found, hfound⟩ := h _ si hs
      rw [hfound]
      cases found with
      | some len => exact ⟨_, rfl⟩
      | none => exact ih hs.tail (si + 1)

theorem firstMatchLen_returns (hp : Clean p) (hs : Ascii s) (si : Nat) :
    ∃ found, firstMatchLen p s si = some found := by
  induction hn : p.length using Nat.strong_induction_on generalizing p s si with
  | _ n ih =>
    subst hn
    cases p with
    | nil => exact ⟨_, by rw [firstMatchLen]⟩
    | cons c p =>
      have next : ∀ {q t : Bytes} (si : Nat), q.length ≤ p.length → Clean q → Ascii t →
          ∃ found, firstMatchLen q t si = some found :=
        fun si hq hclean ht => ih _ (Nat.lt_succ_of_le hq) hclean ht si rfl
      rw [firstMatchLen.eq_def]
      by_cases hstar : c = star
      · subst hstar
        simp only [if_true]
        split
        · exact ⟨_, if_pos hs.boundary⟩
        · refine firstStarLoop_returns (fun t si ht => ?_) hs si
          rw [if_pos hp.star]
          exact next si le_rfl hp.tail ht
      · simp only [if_neg hstar]
        cases s with
        | nil => exact ⟨_, rfl⟩
        | cons b s =>
          simp only
          split
          · split
            · exact ⟨_, rfl⟩
            · exact next _ le_rfl hp.tail hs.tail
          · split
            · split
              · exact ⟨_, rfl⟩
              · split
                · rename_i hbracket
                  have hlen := bracket_length b hbracket
                  exact next _ hlen.le (hp.tail.bracket hbracket) hs.tail
                · exact ⟨_, rfl⟩
            · split
              · exact next _ le_rfl hp.tail hs.tail
              · exact ⟨_, rfl⟩

theorem firstStarLoop_le {attempt : Bytes → Nat → Option (Option Nat)}
    (h : ∀ t si len, attempt t si = some (some len) → len ≤ si + t.length) {si : Nat}
    (hlen : firstStarLoop attempt s si = some (some len)) : len ≤ si + s.length := by
  induction s generalizing si with
  | nil => exact nomatch hlen
  | cons b s ih =>
    rw [firstStarLoop] at hlen
    split at hlen
    · exact nomatch hlen
    · cases hattempt : attempt (b :: s) si with
      | none =>
        rw [hattempt] at hlen
        exact nomatch hlen
      | some found =>
        rw [hattempt] at hlen
        cases found with
        | some len' =>
          cases hlen
          exact h _ _ _ hattempt
        | none =>
          have hle := ih hlen
          rw [List.length_cons]
          omega

/-- A match ends inside the path. -/
theorem firstMatchLen_le {si : Nat} (h : firstMatchLen p s si = some (some len)) :
    len ≤ si + s.length := by
  induction hn : p.length using Nat.strong_induction_on generalizing p s si len with
  | _ n ih =>
    subst hn
    cases p with
    | nil =>
      rw [firstMatchLen] at h
      cases h
      exact Nat.le_add_right _ _
    | cons c p =>
      have next : ∀ {q t : Bytes} {si len : Nat}, q.length ≤ p.length →
          firstMatchLen q t si = some (some len) → len ≤ si + t.length :=
        fun hq hcall => ih _ (Nat.lt_succ_of_le hq) hcall rfl
      rw [firstMatchLen.eq_def] at h
      by_cases hstar : c = star
      · subst hstar
        simp only [if_true] at h
        split at h
        · split at h
          · cases h
            have hle := (List.takeWhile_prefix (l := s) (· ≠ slash)).length_le
            omega
          · cases h
        · refine firstStarLoop_le (fun t si len hattempt => ?_) h
          split at hattempt
          · exact next le_rfl hattempt
          · cases hattempt
      · simp only [if_neg hstar] at h
        cases s with
        | nil => cases h
        | cons b s =>
          have hnext : ∀ {q : Bytes}, q.length ≤ p.length →
              firstMatchLen q s (si + 1) = some (some len) → len ≤ si + (b :: s).length := by
            intro q hq hcall
            have hle := next hq hcall
            rw [List.length_cons]
            omega
          simp only at h
          split at h
          · split at h
            · cases h
            · exact hnext le_rfl h
          · split at h
            · split at h
              · cases h
              · split at h
                · rename_i hbracket
                  exact hnext (bracket_length b hbracket).le h
                · cases h
            · split at h
              · exact hnext le_rfl h
              · cases h

theorem suffixLoop_returns (hp : Clean segment) (hpath : Ascii path)
    {searchStart suffixStart : Nat} (hlen : suffixStart ≤ path.length) :
    ∃ found, suffixLoop segment path searchStart suffixStart = some found := by
  induction hn : suffixStart using Nat.strong_induction_on generalizing suffixStart with
  | _ n ih =>
    subst hn
    obtain ⟨found, hfound⟩ :=
      simpleGlob_returns hp (hpath.within (List.drop_suffix suffixStart path).isInfix)
    rw [suffixLoop, hpath.sliceFrom hlen]
    simp only [Option.bind_eq_bind, Option.bind_some, hfound]
    split
    · exact ⟨_, rfl⟩
    · split
      · exact ⟨_, rfl⟩
      · rename_i hstart
        have hbefore := hpath.sliceTo (i := suffixStart - 1) (by omega)
        split
        · rename_i hnone
          rw [hbefore] at hnone
          cases hnone
        · rename_i before hsome
          have hshort := sliceTo_length hsome
          split
          · rename_i pos hpos
            have hlt := rfindSlash_lt hpos
            exact ih (pos + 1) (by omega) (by omega) rfl
          · exact ih searchStart (by omega) (by omega) rfl

theorem lastSegment_returns (hp : Clean segment) (hpath : Ascii path) {searchStart : Nat}
    (hlen : searchStart ≤ path.length) :
    ∃ found, lastSegment segment path searchStart = some found := by
  rw [lastSegment, hpath.sliceFrom hlen]
  refine suffixLoop_returns hp hpath ?_
  split
  · rename_i pos hpos
    have hlt := rfindSlash_lt hpos
    rw [List.length_drop] at hlt
    omega
  · exact hlen

theorem attempt_returns (hp : Clean segment) (hs : Ascii s) {pos : Nat}
    {next : Option (Option Nat)}
    (hnext : ∃ found, next = some found ∧ ∀ len, found = some len → len ≤ pos + s.length) :
    ∃ found, middleLoop.attempt segment s pos next = some found ∧
      ∀ len, found = some len → len ≤ pos + s.length := by
  obtain ⟨matched, hmatched⟩ := simpleGlob_returns hp hs
  obtain ⟨found, hfound⟩ := firstMatchLen_returns hp hs 0
  unfold middleLoop.attempt
  simp only [hs.boundary, hmatched, hfound, Option.bind_eq_bind, Option.bind_some]
  cases matched with
  | false => exact hnext
  | true =>
    cases found with
    | none => exact hnext
    | some len =>
      have hle := firstMatchLen_le hfound
      refine ⟨some (pos + len), rfl, ?_⟩
      rintro _ ⟨⟩
      omega

theorem middleLoop_returns (hp : Clean segment) (hs : Ascii s) (pos : Nat) :
    ∃ found, middleLoop segment s pos = some found ∧
      ∀ len, found = some len → len ≤ pos + s.length := by
  induction s generalizing pos with
  | nil => exact attempt_returns hp hs ⟨none, rfl, nofun⟩
  | cons b s ih =>
    obtain ⟨found, hfound, hle⟩ := ih hs.tail (pos + 1)
    refine attempt_returns hp hs ⟨found, hfound, fun len hlen => ?_⟩
    have h := hle len hlen
    rw [List.length_cons]
    omega

theorem matchSegments_returns {segments : List (Bytes × Nat)} (hp : ∀ s ∈ segments, Clean s.1)
    (hpath : Ascii path) (last : Nat) (first : Bool) {searchStart : Nat}
    (hlen : searchStart ≤ path.length) :
    ∃ found, matchSegments path last first segments searchStart = some found := by
  induction segments generalizing first searchStart with
  | nil => exact ⟨_, rfl⟩
  | cons entry rest ih =>
    obtain ⟨segment, index⟩ := entry
    have hsegment : Clean segment := hp _ List.mem_cons_self
    have ih : ∀ {searchStart}, searchStart ≤ path.length →
        ∃ found, matchSegments path last false rest searchStart = some found :=
      fun hle => ih (fun s hs => hp s (List.mem_cons_of_mem _ hs)) false hle
    rw [matchSegments]
    split
    · obtain ⟨found, hfound⟩ := firstMatchLen_returns hsegment hpath 0
      rw [hfound]
      cases found with
      | none => exact ⟨_, rfl⟩
      | some len =>
        have hle := firstMatchLen_le hfound
        exact ih (by omega)
    · split
      · obtain ⟨found, hfound⟩ := lastSegment_returns hsegment hpath hlen
        rw [hfound]
        cases found with
        | false => exact ⟨_, rfl⟩
        | true => exact ih hlen
      · obtain ⟨found, hfound, hle⟩ := middleLoop_returns hsegment
          (hpath.within (List.drop_suffix searchStart path).isInfix) searchStart
        rw [middleSegment, if_pos hlen, hfound]
        cases found with
        | none => exact ⟨_, rfl⟩
        | some len =>
          have h := hle len rfl
          rw [List.length_drop] at h
          exact ih (by omega)

end Returns

section Parts

theorem clean_parts (hp : Clean p) : ∀ part ∈ splitDoubleStar p, Clean part := by
  obtain ⟨first, parts, hsplit, hfirst, hparts⟩ := splitDoubleStar_within p
  rw [hsplit]
  simp only [List.mem_cons, forall_eq_or_imp]
  exact ⟨hp.within hfirst.isInfix, fun part h => hp.within (hparts part h)⟩

theorem stripLeadingSlash_returns (hp : Clean p) :
    ∃ q, stripLeadingSlash p = some q ∧ Clean q := by
  cases p with
  | nil => exact ⟨[], rfl, hp⟩
  | cons c p =>
    rw [stripLeadingSlash]
    split
    · rename_i hc
      subst hc
      have hcut : boundary p = true := (clean_cons.1 hp).1 (by decide)
      exact ⟨p, by simp [sliceFrom, hcut], hp.tail⟩
    · exact ⟨_, rfl, hp⟩

theorem stripped_returns {parts : List Bytes} (h : ∀ part ∈ parts, Clean part) :
    ∃ segments, parts.mapM stripLeadingSlash = some segments ∧
      ∀ segment ∈ segments, Clean segment := by
  induction parts with
  | nil => exact ⟨[], rfl, nofun⟩
  | cons part parts ih =>
    obtain ⟨q, hq, hclean⟩ := stripLeadingSlash_returns (h part List.mem_cons_self)
    obtain ⟨segments, hs, hsegments⟩ := ih fun x hx => h x (List.mem_cons_of_mem _ hx)
    refine ⟨q :: segments, by simp [List.mapM_cons, hq, hs], ?_⟩
    simp only [List.mem_cons, forall_eq_or_imp]
    exact ⟨hclean, hsegments⟩

theorem segmentsOf_returns {parts : List Bytes} (h : ∀ part ∈ parts, Clean part) :
    ∃ segments, segmentsOf parts = some segments ∧ ∀ segment ∈ segments, Clean segment := by
  cases parts with
  | nil => exact ⟨[], rfl, nofun⟩
  | cons first parts =>
    obtain ⟨segments, hs, hsegments⟩ := stripped_returns fun x hx => h x (List.mem_cons_of_mem _ hx)
    refine ⟨first :: segments, by simp [segmentsOf, hs], ?_⟩
    simp only [List.mem_cons, forall_eq_or_imp]
    exact ⟨h first List.mem_cons_self, hsegments⟩

theorem globMatch_returns (hp : Clean p) (hs : Ascii s) : ∃ found, globMatch p s = some found := by
  unfold globMatch
  split
  · exact ⟨_, rfl⟩
  · split
    · exact simpleGlob_returns hp hs
    · obtain ⟨segments, hsegments, hclean⟩ := segmentsOf_returns (clean_parts hp)
      rw [hsegments]
      refine matchSegments_returns (fun entry hentry => ?_) hs _ true (Nat.zero_le _)
      have hmem := List.mem_of_mem_filter hentry
      exact hclean _ (List.fst_mem_of_mem_zipIdx hmem)

theorem anyComponent_returns {parts : List Bytes} (hp : Clean p) (h : ∀ part ∈ parts, Ascii part) :
    ∃ found, anyComponent p parts = some found := by
  induction parts with
  | nil => exact ⟨_, rfl⟩
  | cons part parts ih =>
    obtain ⟨found, hfound⟩ := globMatch_returns hp (h part List.mem_cons_self)
    rw [anyComponent, hfound]
    cases found with
    | true => exact ⟨_, rfl⟩
    | false => exact ih fun x hx => h x (List.mem_cons_of_mem _ hx)

theorem matched_returns (hp : Clean p) (hpath : Ascii path) :
    ∃ found, matched p path = some found := by
  have hcore : Clean (core p) := hp.within (core_within p)
  unfold matched
  split
  · exact globMatch_returns hcore hpath
  · exact anyComponent_returns hcore fun part h => hpath.component h

theorem isMatch_returns (hp : Clean p) (hpath : Ascii path) (isDir : Bool) :
    ∃ found, (PatternMatcher.new p).isMatch path isDir = some found := by
  by_cases h : (unanchored p).getLast? = some slash → isDir = true ∧ path ≠ sentinel
  · rw [isMatch_of_true h]
    exact matched_returns hp hpath
  · rw [Classical.not_imp] at h
    exact ⟨false, isMatch_of_false h.1 h.2⟩

end Parts

section Cuts

/-- A `*` before a literal that is too long for the path to end with. -/
def reaching (n : Nat) : Bytes := star :: List.replicate (n + 1) 97

theorem plain_simpleGlob (hstar : star ∉ p) (hquery : query ∉ p) (hopening : opening ∉ p) :
    simpleGlob p s = some (p == s) := by
  unfold simpleGlob shortcut
  cases h : p == s <;> simp [hstar, hquery, hopening]

theorem starLoop_cut {attempt : Bytes → Option Bool}
    (h : ∀ t, t <:+ s → attempt t = if boundary t then some false else none) (hs : slash ∉ s) :
    starLoop attempt s = if ∃ b ∈ s, continuation b = true then none else some false := by
  induction s with
  | nil => simp [starLoop]
  | cons b s ih =>
    rw [List.mem_cons, not_or] at hs
    have ih := ih (fun t ht => h t (ht.trans (List.suffix_cons b s))) hs.2
    rw [starLoop, h _ List.suffix_rfl]
    cases hb : continuation b with
    | true => simp [boundary, hb]
    | false => simp [boundary, hb, Ne.symm hs.1, ih]

theorem reaching_single (n : Nat) : hasDoubleStar (reaching n) = false := by
  induction n with
  | zero => rfl
  | succ n ih =>
    have hrest : hasDoubleStar (List.replicate (n + 1) 97) = false := (hasDoubleStar_cons ih).1
    have hstar : (97 : UInt8) ≠ star := by decide
    simpa [reaching, List.replicate_succ, hasDoubleStar, hstar] using hrest

theorem globMatch_reaching {n : Nat} (hlen : s.length ≤ n) (hs : slash ∉ s) :
    globMatch (reaching n) s = if ∃ b ∈ s, continuation b = true then none else some false := by
  have hne : (reaching n == s) = false := by
    rw [beq_eq_false_iff_ne]
    intro h
    have hlength : (reaching n).length = s.length := congrArg List.length h
    rw [reaching, List.length_cons, List.length_replicate] at hlength
    omega
  have hstar : (reaching n).contains star = true := by simp [reaching]
  rw [globMatch_single (reaching_single n), simpleGlob, shortcut, hne, hstar, reaching,
    globLoop_star (by simp)]
  refine starLoop_cut (fun t ht => ?_) hs
  have hliteral : (List.replicate (n + 1) 97 == t) = false := by
    rw [beq_eq_false_iff_ne]
    rintro rfl
    have hle := ht.length_le
    rw [List.length_replicate] at hle
    omega
  rw [plain_simpleGlob (by simp; decide) (by simp; decide) (by simp; decide), hliteral]
  simp [List.replicate_succ, boundary, continuation]

theorem anyComponent_reaching {n : Nat} {parts : List Bytes}
    (h : ∀ part ∈ parts, part.length ≤ n ∧ slash ∉ part)
    (hcut : ∃ part ∈ parts, ∃ b ∈ part, continuation b = true) :
    anyComponent (reaching n) parts = none := by
  induction parts with
  | nil => obtain ⟨part, hpart, -⟩ := hcut; exact nomatch hpart
  | cons part parts ih =>
    obtain ⟨hlen, hslash⟩ := h part List.mem_cons_self
    rw [anyComponent, globMatch_reaching hlen hslash]
    by_cases hpart : ∃ b ∈ part, continuation b = true
    · rw [if_pos hpart]
      rfl
    · rw [if_neg hpart]
      refine ih (fun x hx => h x (List.mem_cons_of_mem _ hx)) ?_
      obtain ⟨x, hx, hb⟩ := hcut
      obtain rfl | hx := List.mem_cons.1 hx
      · exact absurd hb hpart
      · exact ⟨x, hx, hb⟩

theorem unanchored_reaching (n : Nat) : unanchored (reaching n) = reaching n := by
  have hstar : star ≠ slash := by decide
  simp [unanchored, reaching, hstar]

theorem last_reaching (n : Nat) : (reaching n).getLast? ≠ some slash := by
  have hlast : (97 : UInt8) ≠ slash := by decide
  simp [reaching, List.getLast?_cons, List.getLast?_replicate, hlast]

/-- On a path that is not ASCII some pattern cuts a character. -/
theorem isMatch_reaching {n : Nat} (hlen : path.length ≤ n)
    (hcut : ∃ b ∈ path, continuation b = true) (isDir : Bool) :
    (PatternMatcher.new (reaching n)).isMatch path isDir = none := by
  have hcore : core (reaching n) = reaching n := by
    rw [core, unanchored_reaching, if_neg (last_reaching n)]
  have hslash : slash ≠ star ∧ slash ≠ 97 := by decide
  rw [isMatch_of_true fun h => absurd (unanchored_reaching n ▸ h) (last_reaching n), matched,
    hcore, if_neg]
  · refine anyComponent_reaching (fun part hpart => ?_) ?_
    · have hle := (within_of_mem_splitBytes hpart).length_le
      exact ⟨hle.trans hlen, slash_not_mem_of_mem_splitBytes hpart⟩
    · obtain ⟨b, hb, hcont⟩ := hcut
      obtain ⟨part, hpart, hmem⟩ := exists_part hb (by rintro rfl; cases hcont)
      exact ⟨part, hpart, b, hmem, hcont⟩
  · simp [reaching, hslash, Ne.symm hslash.1]

end Cuts

def reachingPattern (n : Nat) : String := String.ofList ('*' :: List.replicate (n + 1) 'a')

theorem utf8_reaching (n : Nat) : utf8 (reachingPattern n) = reaching n := by
  have hletters : ∀ k,
      (List.replicate k 'a').flatMap String.utf8EncodeChar = List.replicate k 97 := by
    intro k
    induction k with
    | zero => rfl
    | succ k ih => rw [List.replicate_succ, List.flatMap_cons, ih, List.replicate_succ]; rfl
  rw [utf8, reachingPattern, String.toList_ofList, List.flatMap_cons, hletters]
  rfl

theorem trimSlashes_of_last {s : Bytes} (h : s.getLast? ≠ some slash) : trimSlashes s = s := by
  rw [trimSlashes]
  cases hs : s.reverse with
  | nil => simpa using hs
  | cons b rest =>
    rw [← List.head?_reverse, hs] at h
    have hb : b ≠ slash := fun hb => h (congrArg some hb)
    rw [List.dropWhile_cons_of_neg (by simpa using hb), ← hs, List.reverse_reverse]

theorem reaching_accepted (n : Nat) : validateSplitPattern (reachingPattern n) = .ok () := by
  have hempty : (reachingPattern n).isEmpty = false := by
    simp [reachingPattern, String.isEmpty]
  have hstar : star ≠ slash := by decide
  rw [validateSplitPattern, hempty, utf8_reaching, trimSlashes_of_last (last_reaching n)]
  simp [reaching, hstar]

end Purgery.Client
