import Purgery.Client.Split.Glob
import Purgery.Glob.Language

namespace Purgery.Client

open Purgery.Glob

/-- The element that a byte of a pattern stands for. -/
def single (c : UInt8) : Element UInt8 :=
  if c = star then .run else if c = query then .one else .literal c

/-- The language of a pattern without `**` and brackets. -/
def simpleLanguage (pattern : Bytes) : Language UInt8 := language slash (pattern.map single)

def Ascii (s : Bytes) : Prop := ∀ b ∈ s, b < 128

instance : DecidablePred Ascii := fun s => inferInstanceAs (Decidable (∀ b ∈ s, b < 128))

/-- The call returns, and tells whether `φ` holds. -/
def Decides (call : Option Bool) (φ : Prop) : Prop := ∃ b, call = some b ∧ (b = true ↔ φ)

variable {p s t : Bytes} {c : UInt8} {φ ψ : Prop}

theorem Decides.of_true (h : φ) : Decides (some true) φ := ⟨true, rfl, by simpa using h⟩

theorem Decides.of_false (h : ¬ φ) : Decides (some false) φ := ⟨false, rfl, by simpa using h⟩

theorem Decides.congr {call : Option Bool} (h : Decides call φ) (hiff : φ ↔ ψ) :
    Decides call ψ := by
  obtain ⟨b, hb, hφ⟩ := h
  exact ⟨b, hb, hφ.trans hiff⟩

theorem Ascii.tail (h : Ascii (c :: s)) : Ascii s := fun b hb => h b (List.mem_cons_of_mem _ hb)

theorem Ascii.boundary (h : Ascii s) : boundary s = true := by
  cases s with
  | nil => rfl
  | cons b s =>
    have hb : ¬ (128 ≤ b) := by simpa using h b List.mem_cons_self
    simp [Client.boundary, continuation, hb]

theorem simpleLanguage_star : t ∈ simpleLanguage (star :: p) ↔
    t ∈ language slash (.run :: p.map single) := Iff.rfl

theorem simpleLanguage_query : t ∈ simpleLanguage (query :: p) ↔
    ∃ b, b ≠ slash ∧ ∃ s ∈ simpleLanguage p, t = b :: s := mem_one

theorem single_literal (hstar : c ≠ star) (hquery : c ≠ query) : single c = .literal c := by
  simp [single, hstar, hquery]

theorem simpleLanguage_literal (hstar : c ≠ star) (hquery : c ≠ query) :
    t ∈ simpleLanguage (c :: p) ↔ ∃ s ∈ simpleLanguage p, t = c :: s := by
  rw [simpleLanguage, List.map_cons, single_literal hstar hquery]
  exact mem_literal

/-- A pattern matches itself. -/
theorem self_mem_simpleLanguage (p : Bytes) : p ∈ simpleLanguage p := by
  induction p with
  | nil => exact mem_nil.2 rfl
  | cons c p ih =>
    by_cases hstar : c = star
    · subst hstar
      exact mem_run.2 ⟨[star], by decide, p, ih, rfl⟩
    by_cases hquery : c = query
    · subst hquery
      exact simpleLanguage_query.2 ⟨query, by decide, p, ih, rfl⟩
    · exact (simpleLanguage_literal hstar hquery).2 ⟨p, ih, rfl⟩

/-- A pattern without wildcards matches nothing else. -/
theorem simpleLanguage_plain (hstar : star ∉ p) (hquery : query ∉ p) :
    t ∈ simpleLanguage p ↔ t = p := by
  induction p generalizing t with
  | nil => exact mem_nil
  | cons c p ih =>
    rw [List.mem_cons, not_or] at hstar hquery
    rw [simpleLanguage_literal (Ne.symm hstar.1) (Ne.symm hquery.1)]
    constructor
    · rintro ⟨s, hs, rfl⟩
      rw [(ih hstar.2 hquery.2).1 hs]
    · rintro rfl
      exact ⟨p, (ih hstar.2 hquery.2).2 rfl, rfl⟩

/-- Only runs match nothing. -/
theorem nil_not_mem_simpleLanguage (hc : c ≠ star) : [] ∉ simpleLanguage (c :: p) := by
  intro h
  by_cases hquery : c = query
  · subst hquery
    obtain ⟨b, -, s, -, hs⟩ := simpleLanguage_query.1 h
    exact nomatch hs
  · obtain ⟨s, -, hs⟩ := (simpleLanguage_literal hc hquery).1 h
    exact nomatch hs

theorem shortcut_decides {call : Option Bool} (h : Decides call (t ∈ simpleLanguage p))
    (hbracket : opening ∉ p) :
    Decides (shortcut p t call) (t ∈ simpleLanguage p) := by
  unfold shortcut
  by_cases heq : p = t
  · subst heq
    rw [if_pos (by simp)]
    exact .of_true (self_mem_simpleLanguage p)
  · rw [if_neg (by simpa using heq)]
    split
    · rename_i hplain
      have hstar : star ∉ p ∧ query ∉ p := by
        simp only [Bool.and_eq_true, Bool.not_eq_true', List.contains_eq_mem,
          decide_eq_false_iff_not] at hplain
        exact hplain.1
      have hne : (p == t) = false := by simpa using heq
      rw [hne]
      refine .of_false fun ht => heq ?_
      exact ((simpleLanguage_plain hstar.1 hstar.2).1 ht).symm
    · exact h

theorem starLoop_decides {attempt : Bytes → Option Bool} {es : List (Element UInt8)}
    (hnil : [] ∉ language slash es)
    (h : ∀ t, Ascii t → Decides (attempt t) (t ∈ language slash es)) (hs : Ascii s) :
    Decides (starLoop attempt s) (s ∈ language slash (.run :: es)) := by
  induction s with
  | nil =>
    refine .of_false fun hrun => ?_
    obtain ⟨u, -, t, ht, happ⟩ := mem_run.1 hrun
    rw [(List.append_eq_nil_iff.1 happ).2] at ht
    exact hnil ht
  | cons b s ih =>
    obtain ⟨found, hfound, hiff⟩ := h _ hs
    rw [starLoop, hfound]
    cases found with
    | true => exact .of_true (mem_run_step.2 (.inl (hiff.1 rfl)))
    | false =>
      have hno : b :: s ∉ language slash es := fun hmem => nomatch hiff.2 hmem
      change Decides (if b = slash then some false else starLoop attempt s) _
      split
      · rename_i hb
        refine .of_false fun hrun => ?_
        exact (mem_run_step.1 hrun).elim hno fun h => h.1 hb
      · rename_i hb
        refine (ih hs.tail).congr ?_
        rw [mem_run_step]
        exact ⟨fun hrun => .inr ⟨hb, hrun⟩, fun hrun => (hrun.resolve_left hno).2⟩

theorem globLoop_star (hp : p ≠ []) : globLoop (star :: p) s =
    starLoop (fun t => if boundary p && boundary t then simpleGlob p t else none) s := by
  rw [globLoop.eq_def]
  simp [hp, simpleGlob]

theorem hasDoubleStar_cons {p : Bytes} (h : hasDoubleStar (c :: p) = false) :
    hasDoubleStar p = false ∧ (c = star → p.head? ≠ some star) := by
  cases p with
  | nil => exact ⟨rfl, fun _ => nofun⟩
  | cons d p =>
    simp only [hasDoubleStar, Bool.or_eq_false_iff, Bool.and_eq_false_iff] at h
    refine ⟨h.2, fun hc hd => ?_⟩
    have hd : d = star := by simpa using hd
    simp [hc, hd] at h

theorem globLoop_decides (hdouble : hasDoubleStar p = false) (hbracket : opening ∉ p)
    (hp : Ascii p) (hs : Ascii s) : Decides (globLoop p s) (s ∈ simpleLanguage p) := by
  induction p generalizing s with
  | nil =>
    rw [globLoop]
    cases s with
    | nil => exact .of_true (mem_nil.2 rfl)
    | cons b s => exact .of_false fun h => by cases mem_nil.1 h
  | cons c p ih =>
    rw [List.mem_cons, not_or] at hbracket
    obtain ⟨htail, hhead⟩ := hasDoubleStar_cons hdouble
    have ih : ∀ {t}, Ascii t → Decides (globLoop p t) (t ∈ simpleLanguage p) :=
      fun ht => ih htail hbracket.2 hp.tail ht
    by_cases hstar : c = star
    · subst hstar
      cases p with
      | nil =>
        rw [globLoop.eq_def]
        simp only [if_true, List.isEmpty_nil, hs.boundary]
        refine ⟨!s.contains slash, rfl, ?_⟩
        rw [simpleLanguage_star, List.map_nil, mem_run_nil]
        simp
      | cons d p =>
        have hd : d ≠ star := fun h => hhead rfl (by rw [h]; rfl)
        rw [globLoop_star (List.cons_ne_nil d p), simpleLanguage_star]
        refine starLoop_decides (nil_not_mem_simpleLanguage hd) (fun t ht => ?_) hs
        rw [if_pos (by rw [hp.tail.boundary, ht.boundary]; rfl)]
        exact shortcut_decides (ih ht) hbracket.2
    · have hopening : c ≠ opening := Ne.symm hbracket.1
      cases s with
      | nil =>
        have hloop : globLoop (c :: p) [] = some false := by
          rw [globLoop]
          simp [hstar]
        rw [hloop]
        exact .of_false (nil_not_mem_simpleLanguage hstar)
      | cons b s =>
        by_cases hquery : c = query
        · subst hquery
          have hloop : globLoop (query :: p) (b :: s) =
              if b = slash then some false else globLoop p s := by
            rw [globLoop]
            simp [hstar]
          rw [hloop]
          split
          · rename_i hb
            refine .of_false fun h => ?_
            obtain ⟨b', hb', t, -, ht⟩ := simpleLanguage_query.1 h
            exact hb' ((List.cons.inj ht).1 ▸ hb)
          · rename_i hb
            refine (ih hs.tail).congr ⟨fun h => simpleLanguage_query.2 ⟨b, hb, s, h, rfl⟩, ?_⟩
            intro h
            obtain ⟨b', -, t, ht, hts⟩ := simpleLanguage_query.1 h
            exact (List.cons.inj hts).2 ▸ ht
        · have hloop : globLoop (c :: p) (b :: s) = if b = c then globLoop p s else some false := by
            rw [globLoop]
            simp [hstar, hquery, hopening]
          rw [hloop]
          split
          · rename_i hb
            subst hb
            refine (ih hs.tail).congr ?_
            rw [simpleLanguage_literal hstar hquery]
            refine ⟨fun h => ⟨s, h, rfl⟩, ?_⟩
            rintro ⟨t, ht, hts⟩
            exact (List.cons.inj hts).2 ▸ ht
          · rename_i hb
            refine .of_false fun h => ?_
            obtain ⟨t, -, ht⟩ := (simpleLanguage_literal hstar hquery).1 h
            exact hb (List.cons.inj ht).1

/-- The single-star matcher decides the language of its pattern. -/
theorem simpleGlob_decides (hdouble : hasDoubleStar p = false) (hbracket : opening ∉ p)
    (hp : Ascii p) (hs : Ascii s) : Decides (simpleGlob p s) (s ∈ simpleLanguage p) :=
  shortcut_decides (globLoop_decides hdouble hbracket hp hs) hbracket

end Purgery.Client
