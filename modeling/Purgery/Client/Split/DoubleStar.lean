import Purgery.Client.Split.Encoding
import Purgery.Client.Split.Selection

namespace Purgery.Client

open Purgery.Glob

/-! Which patterns with `**` match their language. -/

variable {p s t path first part last : Bytes} {parts : List Bytes}

section Units

/-- The elements of a pattern: `**/` is a tree, every other `**` matches all. -/
def elements : Bytes → List (Element UInt8)
  | a :: b :: p =>
    if a = star ∧ b = star then
      match p with
      | [] => [.all]
      | c :: q => if c = slash then .tree :: elements q else .all :: elements (c :: q)
    else single a :: elements (b :: p)
  | [c] => [single c]
  | [] => []

def patternLanguage (p : Bytes) : Language UInt8 := language slash (elements p)

/-- The patterns of literals, `?`, `*` and `**`. -/
structure Plain (p : Bytes) : Prop where
  ascii : Ascii p
  bracket : opening ∉ p
  runs : ¬ [star, star, star] <:+: p

/-- A part of a pattern with the `**` before it. -/
def unit (part : Bytes) : List (Element UInt8) :=
  if part.head? = some slash then .tree :: part.tail.map single else .all :: part.map single

theorem single_slash : single slash = .literal slash := single_literal (by decide) (by decide)

theorem elements_step {a b : UInt8} (h : ¬ (a = star ∧ b = star)) (p : Bytes) :
    elements (a :: b :: p) = single a :: elements (b :: p) := by
  rw [elements.eq_def]
  simp only [if_neg h]

theorem elements_cons {c : UInt8} (hc : c ≠ star) (p : Bytes) :
    elements (c :: p) = single c :: elements p := by
  cases p with
  | nil => rfl
  | cons b p => exact elements_step (fun h => hc h.1) p

theorem splitDoubleStar_cons {c : UInt8} (hc : c ≠ star) (p : Bytes) : ∃ first parts,
    splitDoubleStar p = first :: parts ∧ splitDoubleStar (c :: p) = (c :: first) :: parts := by
  cases p with
  | nil => exact ⟨[], [], rfl, rfl⟩
  | cons b p =>
    obtain ⟨first, parts, hp⟩ := List.exists_cons_of_ne_nil (splitDoubleStar_ne_nil (b :: p))
    refine ⟨first, parts, hp, ?_⟩
    rw [splitDoubleStar, if_neg fun h => hc h.1, hp]

/-- The elements of a pattern are those of its parts. -/
theorem elements_split (hruns : ¬ [star, star, star] <:+: p)
    (hsplit : splitDoubleStar p = first :: parts) :
    elements p = first.map single ++ parts.flatMap unit := by
  fun_induction splitDoubleStar p generalizing first parts with
  | case1 =>
    cases hsplit
    rfl
  | case2 c =>
    cases hsplit
    rfl
  | case3 a b p hstars ih =>
    obtain ⟨rfl, rfl⟩ := hstars
    have hp : ¬ [star, star, star] <:+: p :=
      fun h => hruns (h.trans ⟨[star, star], [], by simp⟩)
    obtain ⟨rfl, rfl⟩ := List.cons.inj hsplit
    cases p with
    | nil => rfl
    | cons c q =>
      have hc : c ≠ star := by
        rintro rfl
        exact hruns ⟨[], q, rfl⟩
      obtain ⟨first, parts, -, hcq⟩ := splitDoubleStar_cons hc q
      have hq := ih hp hcq
      rw [hcq, List.flatMap_cons]
      by_cases hslash : c = slash
      · subst hslash
        rw [elements_cons hc, List.map_cons, List.cons_append] at hq
        simp [elements, unit, (List.cons.inj hq).2]
      · simp [elements, unit, hslash, hq]
  | case4 a b p hstars hnil ih => exact absurd hnil (splitDoubleStar_ne_nil _)
  | case5 a b p hstars part parts' hp ih =>
    obtain ⟨rfl, rfl⟩ := List.cons.inj hsplit
    have hq := ih (fun h => hruns (h.trans (List.suffix_cons a _).isInfix)) hp
    rw [elements_step hstars, hq]
    rfl

theorem parts_single (hsplit : splitDoubleStar p = parts) (h : part ∈ parts) :
    hasDoubleStar part = false := by
  fun_induction splitDoubleStar p generalizing part parts with
  | case1 =>
    subst hsplit
    obtain rfl := List.mem_singleton.1 h
    rfl
  | case2 c =>
    subst hsplit
    obtain rfl := List.mem_singleton.1 h
    rfl
  | case3 a b p hstars ih =>
    subst hsplit
    obtain rfl | h := List.mem_cons.1 h
    · rfl
    · exact ih rfl h
  | case4 a b p hstars hnil ih => exact absurd hnil (splitDoubleStar_ne_nil _)
  | case5 a b p hstars first rest hp ih =>
    subst hsplit
    obtain rfl | h := List.mem_cons.1 h
    · have hfirst := ih hp List.mem_cons_self
      obtain ⟨first', rest', hp', hunder, -⟩ := splitDoubleStar_within (b :: p)
      rw [hp] at hp'
      obtain ⟨rfl, rfl⟩ := List.cons.inj hp'
      cases first with
      | nil => rfl
      | cons d first =>
        obtain ⟨rest', hrest⟩ := hunder
        obtain ⟨rfl, -⟩ := List.cons.inj hrest
        rw [hasDoubleStar, hfirst, Bool.or_false]
        simpa using hstars
    · exact ih hp (List.mem_cons_of_mem _ h)

end Units

section First

/-- The call returns, and finds a match if `φ` holds and only then. -/
def Finds (call : Option (Option Nat)) (φ : Prop) : Prop :=
  ∃ found, call = some found ∧ (found.isSome = true ↔ φ)

variable {φ ψ : Prop} {si len : Nat}

theorem Finds.of_some (h : φ) : Finds (some (some len)) φ := ⟨_, rfl, by simpa using h⟩

theorem Finds.of_none (h : ¬ φ) : Finds (some none) φ := ⟨_, rfl, by simpa using h⟩

theorem Finds.congr {call : Option (Option Nat)} (h : Finds call φ) (hiff : φ ↔ ψ) :
    Finds call ψ := by
  obtain ⟨found, hfound, hφ⟩ := h
  exact ⟨found, hfound, hφ.trans hiff⟩

/-- The paths that go on after a match of the pattern. -/
def prefixLanguage (p : Bytes) : Language UInt8 := language slash (p.map single ++ [.all])

theorem mem_prefixLanguage : s ∈ prefixLanguage p ↔ ∃ u ∈ simpleLanguage p, u <+: s := by
  rw [prefixLanguage, mem_append]
  constructor
  · rintro ⟨u, hu, t, -, rfl⟩
    exact ⟨u, hu, List.prefix_append u t⟩
  · rintro ⟨u, hu, t, rfl⟩
    exact ⟨u, hu, t, mem_cons.2 ⟨t, trivial, [], rfl, List.append_nil t⟩, rfl⟩

theorem nil_not_mem_prefixLanguage {c : UInt8} (hc : c ≠ star) : [] ∉ prefixLanguage (c :: p) := by
  intro h
  obtain ⟨u, hu, hnil⟩ := mem_prefixLanguage.1 h
  rw [List.prefix_nil.1 hnil] at hu
  exact nil_not_mem_simpleLanguage hc hu

theorem slash_not_mem_prefixLanguage {c : UInt8} (hstar : c ≠ star) (hslash : c ≠ slash) :
    slash :: t ∉ prefixLanguage (c :: p) := by
  intro h
  obtain ⟨u, hu, hunder⟩ := mem_prefixLanguage.1 h
  obtain ⟨b, hb, s, rfl⟩ : ∃ b, b ≠ slash ∧ ∃ s, u = b :: s := by
    by_cases hquery : c = query
    · subst hquery
      obtain ⟨b, hb, s, -, rfl⟩ := simpleLanguage_query.1 hu
      exact ⟨b, hb, s, rfl⟩
    · obtain ⟨s, -, rfl⟩ := (simpleLanguage_literal hstar hquery).1 hu
      exact ⟨c, hslash, s, rfl⟩
  exact hb (List.cons_prefix_cons.1 hunder).1

theorem firstStarLoop_finds {attempt : Bytes → Nat → Option (Option Nat)}
    {es : List (Element UInt8)} (hnil : [] ∉ language slash es)
    (hslash : ∀ t, slash :: t ∉ language slash es)
    (h : ∀ t si, Ascii t → Finds (attempt t si) (t ∈ language slash es)) (hs : Ascii s) (si : Nat) :
    Finds (firstStarLoop attempt s si) (s ∈ language slash (.run :: es)) := by
  induction s generalizing si with
  | nil =>
    refine .of_none fun hrun => ?_
    obtain ⟨u, -, t, ht, happ⟩ := mem_run.1 hrun
    rw [(List.append_eq_nil_iff.1 happ).2] at ht
    exact hnil ht
  | cons b s ih =>
    rw [firstStarLoop]
    split
    · rename_i hb
      subst hb
      refine .of_none fun hrun => ?_
      exact (mem_run_step.1 hrun).elim (hslash s) fun h => h.1 rfl
    · rename_i hb
      obtain ⟨found, hfound, hiff⟩ := h _ si hs
      rw [hfound]
      cases found with
      | some len => exact .of_some (mem_run_step.2 (.inl (hiff.1 rfl)))
      | none =>
        have hno : b :: s ∉ language slash es := fun hmem => nomatch hiff.2 hmem
        refine (ih hs.tail (si + 1)).congr ?_
        rw [mem_run_step]
        exact ⟨fun hrun => .inr ⟨hb, hrun⟩, fun hrun => (hrun.resolve_left hno).2⟩

theorem firstMatchLen_finds (hdouble : hasDoubleStar p = false) (hbracket : opening ∉ p)
    (hslash : ¬ [star, slash] <:+: p) (hp : Ascii p) (hs : Ascii s) (si : Nat) :
    Finds (firstMatchLen p s si) (s ∈ prefixLanguage p) := by
  induction p generalizing s si with
  | nil =>
    rw [firstMatchLen]
    exact .of_some (mem_prefixLanguage.2 ⟨[], mem_nil.2 rfl, List.nil_prefix⟩)
  | cons c p ih =>
    rw [List.mem_cons, not_or] at hbracket
    obtain ⟨htail, hhead⟩ := hasDoubleStar_cons hdouble
    have hwithin : ¬ [star, slash] <:+: p :=
      fun h => hslash (h.trans (List.suffix_cons c p).isInfix)
    have ih : ∀ {t} si, Ascii t → Finds (firstMatchLen p t si) (t ∈ prefixLanguage p) :=
      fun si ht => ih htail hbracket.2 hwithin hp.tail ht si
    rw [firstMatchLen.eq_def]
    by_cases hstar : c = star
    · subst hstar
      cases p with
      | nil =>
        simp only [if_true, List.isEmpty_nil, hs.boundary]
        exact .of_some (mem_run.2 ⟨[], List.not_mem_nil, s, mem_prefixLanguage.2
          ⟨[], mem_nil.2 rfl, List.nil_prefix⟩, rfl⟩)
      | cons d p =>
        have hd : d ≠ star := fun h => hhead rfl (by rw [h]; rfl)
        have hd' : d ≠ slash := by
          rintro rfl
          exact hslash ⟨[], p, rfl⟩
        simp only [if_true, List.isEmpty_cons, Bool.false_eq_true, if_false]
        refine firstStarLoop_finds (nil_not_mem_prefixLanguage hd)
          (fun t => slash_not_mem_prefixLanguage hd hd') (fun t si ht => ?_) hs si
        rw [if_pos hp.tail.boundary]
        exact ih si ht
    · simp only [if_neg hstar]
      cases s with
      | nil => exact .of_none (nil_not_mem_prefixLanguage hstar)
      | cons b s =>
        by_cases hquery : c = query
        · subst hquery
          simp only [if_true]
          split
          · rename_i hb
            subst hb
            exact .of_none (slash_not_mem_prefixLanguage hstar (by decide))
          · rename_i hb
            refine (ih (si + 1) hs.tail).congr ?_
            constructor
            · exact fun h => mem_one.2 ⟨b, hb, s, h, rfl⟩
            · intro h
              obtain ⟨b', -, t, ht, hts⟩ := mem_one.1 h
              exact (List.cons.inj hts).2 ▸ ht
        · have hlanguage : ∀ t,
              t ∈ prefixLanguage (c :: p) ↔ ∃ u ∈ prefixLanguage p, t = c :: u := by
            intro t
            rw [prefixLanguage, List.map_cons, single_literal hstar hquery]
            exact mem_literal
          simp only [if_neg hquery, if_neg (Ne.symm hbracket.1)]
          split
          · rename_i hb
            subst hb
            refine (ih (si + 1) hs.tail).congr ?_
            rw [hlanguage]
            refine ⟨fun h => ⟨s, h, rfl⟩, ?_⟩
            rintro ⟨t, ht, hts⟩
            exact (List.cons.inj hts).2 ▸ ht
          · rename_i hb
            refine .of_none fun h => ?_
            obtain ⟨t, -, hts⟩ := (hlanguage _).1 h
            exact hb (List.cons.inj hts).1

theorem length_of_mem_simpleLanguage (hstar : star ∉ p) (h : t ∈ simpleLanguage p) :
    t.length = p.length := by
  induction p generalizing t with
  | nil => rw [mem_nil.1 h]
  | cons c p ih =>
    rw [List.mem_cons, not_or] at hstar
    by_cases hquery : c = query
    · subst hquery
      obtain ⟨b, -, s, hs, rfl⟩ := simpleLanguage_query.1 h
      rw [List.length_cons, List.length_cons, ih hstar.2 hs]
    · obtain ⟨s, hs, rfl⟩ := (simpleLanguage_literal (Ne.symm hstar.1) hquery).1 h
      rw [List.length_cons, List.length_cons, ih hstar.2 hs]

theorem firstMatchLen_length (hstar : star ∉ p) (hbracket : opening ∉ p)
    (h : firstMatchLen p s si = some (some len)) : len = si + p.length := by
  induction p generalizing s si with
  | nil =>
    rw [firstMatchLen] at h
    cases h
    rfl
  | cons c p ih =>
    rw [List.mem_cons, not_or] at hstar hbracket
    rw [firstMatchLen.eq_def] at h
    simp only [if_neg (Ne.symm hstar.1), if_neg (Ne.symm hbracket.1)] at h
    cases s with
    | nil => cases h
    | cons b s =>
      have hnext : firstMatchLen p s (si + 1) = some (some len) := by
        simp only at h
        split at h
        · split at h
          · cases h
          · exact h
        · split at h
          · exact h
          · cases h
      have hlen := ih hstar.2 hbracket.2 hnext
      rw [List.length_cons]
      omega

end First

section Last

variable {i start : Nat}

theorem rfindSlash_none (h : rfindSlash s = none) (j : Nat) : s[j]? ≠ some slash := by
  induction s generalizing j with
  | nil => simp
  | cons b s ih =>
    simp only [rfindSlash] at h
    split at h
    · cases h
    · rename_i hnone
      split at h
      · cases h
      · rename_i hb
        cases j with
        | zero => simpa using hb
        | succ j => exact ih hnone j

theorem rfindSlash_some (h : rfindSlash s = some i) :
    s[i]? = some slash ∧ ∀ j, i < j → s[j]? ≠ some slash := by
  induction s generalizing i with
  | nil => cases h
  | cons b s ih =>
    simp only [rfindSlash] at h
    split at h
    · rename_i k hk
      cases h
      obtain ⟨hslash, hlast⟩ := ih hk
      refine ⟨hslash, fun j hj => ?_⟩
      obtain ⟨j, rfl⟩ := Nat.exists_eq_succ_of_ne_zero (Nat.ne_zero_of_lt hj)
      exact hlast j (Nat.lt_of_succ_lt_succ hj)
    · rename_i hnone
      split at h
      · rename_i hb
        cases h
        refine ⟨congrArg some hb, fun j hj => ?_⟩
        obtain ⟨j, rfl⟩ := Nat.exists_eq_succ_of_ne_zero (Nat.ne_zero_of_lt hj)
        exact rfindSlash_none hnone j
      · cases h

/-- The places where the last segment may begin. -/
def Cut (path : Bytes) (start i : Nat) : Prop :=
  i = start ∨ start < i ∧ path[i - 1]? = some slash

/-- From `start` on the places after a `/` are found from right to left. -/
def Rooted (path : Bytes) (start : Nat) : Prop :=
  start = 0 ∨ path[start - 1]? = some slash ∨ ∀ j < start, path[j]? ≠ some slash

/-- The next place to the left of a place after a `/`. -/
theorem cut_before {k : Nat} (hroot : Rooted path start) (hi : start < i) (hlen : i ≤ path.length)
    (h : rfindSlash (path.take (i - 1)) = some k) :
    start ≤ k + 1 ∧ k + 1 < i ∧ Cut path start (k + 1) ∧
      ∀ j < i, Cut path start j → j ≤ k + 1 := by
  obtain ⟨hslash, hlast⟩ := rfindSlash_some h
  rw [List.getElem?_take] at hslash
  have hk : k < i - 1 := by
    by_contra hk
    rw [if_neg hk] at hslash
    exact nomatch hslash
  rw [if_pos hk] at hslash
  have hright : ∀ j, k < j → j < i - 1 → path[j]? ≠ some slash := by
    intro j hkj hji
    have hj := hlast j hkj
    rwa [List.getElem?_take, if_pos hji] at hj
  have hstart : start ≤ k + 1 := by
    by_contra hlt
    obtain h0 | hbefore | hnone := hroot
    · omega
    · exact hright (start - 1) (by omega) (by omega) hbefore
    · exact hnone k (by omega) hslash
  refine ⟨hstart, by omega, ?_, ?_⟩
  · obtain heq | hlt := Nat.eq_or_lt_of_le hstart
    · exact .inl heq.symm
    · exact .inr ⟨hlt, by simpa using hslash⟩
  · rintro j hj (rfl | ⟨hlt, hcut⟩)
    · exact hstart
    · by_contra hkj
      exact hright (j - 1) (by omega) (by omega) hcut

theorem cut_none (h : rfindSlash (path.take (i - 1)) = none) {j : Nat} (hj : j < i)
    (hcut : Cut path start j) : j = start := by
  obtain hcut | ⟨hlt, hcut⟩ := hcut
  · exact hcut
  · have hnone := rfindSlash_none h (j - 1)
    rw [List.getElem?_take, if_pos (by omega)] at hnone
    exact absurd hcut hnone

theorem suffixLoop_decides (hdouble : hasDoubleStar p = false) (hbracket : opening ∉ p)
    (hp : Ascii p) (hpath : Ascii path) (hroot : Rooted path start) (hlen : i ≤ path.length)
    (hstart : start ≤ i) (hcut : Cut path start i) :
    Decides (suffixLoop p path start i)
      (∃ j ≤ i, Cut path start j ∧ path.drop j ∈ simpleLanguage p) := by
  induction hn : i using Nat.strong_induction_on generalizing i with
  | _ n ih =>
    subst hn
    obtain ⟨found, hfound, hiff⟩ := simpleGlob_decides hdouble hbracket hp
      (hpath.within (List.drop_suffix i path).isInfix)
    rw [suffixLoop, hpath.sliceFrom hlen]
    simp only [Option.bind_eq_bind, Option.bind_some, hfound]
    cases found with
    | true => exact .of_true ⟨i, le_rfl, hcut, hiff.1 rfl⟩
    | false =>
      have hno : path.drop i ∉ simpleLanguage p := fun h => by cases hiff.2 h
      simp only [Bool.false_eq_true, if_false]
      split
      · rename_i hle
        refine .of_false ?_
        rintro ⟨j, hji, hj, hmem⟩
        have hj : j = i := by
          obtain hj | ⟨hj, -⟩ := hj <;> omega
        exact hno (hj ▸ hmem)
      · rename_i hlt
        have hbefore := hpath.sliceTo (i := i - 1) (by omega)
        split
        · rename_i hnone
          rw [hbefore] at hnone
          cases hnone
        · rename_i before hsome
          rw [hbefore] at hsome
          cases hsome
          split
          · rename_i k hk
            obtain ⟨hstart', hki, hcut', hleft⟩ := cut_before hroot (by omega) hlen hk
            refine (ih (k + 1) hki (by omega) hstart' hcut' rfl).congr ?_
            constructor
            · rintro ⟨j, hj, h⟩
              exact ⟨j, by omega, h⟩
            · rintro ⟨j, hj, hjcut, hmem⟩
              have hji : j ≠ i := fun h => hno (h ▸ hmem)
              exact ⟨j, hleft j (by omega) hjcut, hjcut, hmem⟩
          · rename_i hk
            refine (ih start (by omega) (by omega) le_rfl (.inl rfl) rfl).congr ?_
            constructor
            · rintro ⟨j, hj, h⟩
              exact ⟨j, by omega, h⟩
            · rintro ⟨j, hj, hjcut, hmem⟩
              have hji : j ≠ i := fun h => hno (h ▸ hmem)
              exact ⟨j, (cut_none hk (by omega) hjcut).le, hjcut, hmem⟩

theorem lastSegment_decides (hdouble : hasDoubleStar p = false) (hbracket : opening ∉ p)
    (hp : Ascii p) (hpath : Ascii path) (hroot : Rooted path start) (hlen : start ≤ path.length) :
    Decides (lastSegment p path start)
      (∃ j ≤ path.length, Cut path start j ∧ path.drop j ∈ simpleLanguage p) := by
  rw [lastSegment, hpath.sliceFrom hlen]
  simp only [Option.bind_eq_bind, Option.bind_some]
  cases h : rfindSlash (path.drop start) with
  | none =>
    refine (suffixLoop_decides hdouble hbracket hp hpath hroot hlen le_rfl (.inl rfl)).congr ?_
    constructor
    · rintro ⟨j, hj, h⟩
      exact ⟨j, by omega, h⟩
    · rintro ⟨j, hj, hcut, hmem⟩
      refine ⟨j, ?_, hcut, hmem⟩
      obtain rfl | ⟨hlt, hslash⟩ := hcut
      · exact le_rfl
      · have hnone := rfindSlash_none h (j - 1 - start)
        rw [List.getElem?_drop, Nat.add_sub_cancel' (by omega)] at hnone
        exact absurd hslash hnone
  | some k =>
    have hk := rfindSlash_lt h
    rw [List.length_drop] at hk
    obtain ⟨hslash, hlast⟩ := rfindSlash_some h
    rw [List.getElem?_drop] at hslash
    have hcut : Cut path start (start + k + 1) := .inr ⟨by omega, hslash⟩
    refine (suffixLoop_decides hdouble hbracket hp hpath hroot (i := start + k + 1) (by omega)
      (by omega) hcut).congr ?_
    constructor
    · rintro ⟨j, hj, h⟩
      exact ⟨j, by omega, h⟩
    · rintro ⟨j, hj, hcut, hmem⟩
      refine ⟨j, ?_, hcut, hmem⟩
      obtain rfl | ⟨hlt, hslash⟩ := hcut
      · omega
      · by_contra hgt
        have hnone := hlast (j - 1 - start) (by omega)
        rw [List.getElem?_drop, Nat.add_sub_cancel' (by omega)] at hnone
        exact hnone hslash

theorem mem_tree_iff (es : List (Element UInt8)) (hlen : start ≤ path.length) :
    path.drop start ∈ language slash (.tree :: es) ↔
      ∃ j ≤ path.length, Cut path start j ∧ path.drop j ∈ language slash es := by
  rw [mem_cons]
  constructor
  · rintro ⟨u, hu, t, ht, happ⟩
    have hpath : path = path.take start ++ (u ++ t) := by rw [happ, List.take_append_drop]
    have hstart : (path.take start).length = start := List.length_take_of_le hlen
    have hsum := congrArg List.length hpath
    simp only [List.length_append, hstart] at hsum
    refine ⟨start + u.length, by omega, ?_, ?_⟩
    · obtain rfl | hlast := hu
      · exact .inl (Nat.add_zero start)
      · have hpos : u ≠ [] := by
          rintro rfl
          exact nomatch hlast
        have hpos := List.length_pos_iff.2 hpos
        refine .inr ⟨by omega, ?_⟩
        rw [List.getLast?_eq_getElem?] at hlast
        rw [hpath, List.getElem?_append_right (by omega), hstart,
          List.getElem?_append_left (by omega), ← hlast]
        congr 1
        omega
    · have hdrop : path.drop (start + u.length) = t := by
        rw [← List.drop_drop, ← happ, List.drop_left]
      exact hdrop ▸ ht
  · rintro ⟨j, hj, hcut, hmem⟩
    have hle : start ≤ j := by
      obtain rfl | ⟨hlt, -⟩ := hcut
      · exact le_rfl
      · omega
    refine ⟨(path.drop start).take (j - start), ?_, path.drop j, hmem, ?_⟩
    · obtain rfl | ⟨hlt, hslash⟩ := hcut
      · exact .inl (by simp)
      · refine .inr ?_
        rw [List.getLast?_eq_getElem?, List.length_take_of_le (by rw [List.length_drop]; omega),
          List.getElem?_take, if_pos (by omega), List.getElem?_drop, ← hslash]
        congr 1
        omega
    · have hdrop : path.drop j = (path.drop start).drop (j - start) := by
        rw [List.drop_drop, Nat.add_sub_cancel' hle]
      rw [hdrop, List.take_append_drop]

end Last

end Purgery.Client
