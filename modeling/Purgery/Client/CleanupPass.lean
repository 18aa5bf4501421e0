import Purgery.Client.Cleaning

namespace Purgery.Client

open Purgery.Path
open Purgery.Interleaving
open Purgery.Server (FileKind IoError)

section Calm

/-- Calls that do not fail for reasons of their own. -/
def CleanupOp.calm : (o : CleanupOp) → o.Choice → Prop
  | .read _, x => x = none
  | .openTmp _, x => x.1 = none
  | .write _ _, x => x = none
  | .publish _, x => x = none
  | .clean _, x => ∀ o : FileOp, o.calm (x o)
  | .readDir path, x => (FileOp.readDir path).calm x
  | .removeDir path, x => (FileOp.removeDir path).calm x

def calmCleanup (sha : List UInt8 → String) :
    Alone CleanupOp CleanupOp.Res CleanupOp.Choice ClientFiles where
  step o x w := o.step sha x w
  admits o x := o.calm x
  sound _ _ := True

variable {sha : List UInt8 → String} {I : ClientFiles → Prop} {w : ClientFiles}

theorem cleanup_lift {ε : Type} {o : CleanupOp} {Q : o.Res → ClientFiles → Prop}
    (h : ∀ x, o.calm x → I (o.step sha x w).2 ∧ Q (o.step sha x w).1 (o.step sha x w).2) :
    ((calmCleanup sha).guarded I).Succeeds (ExceptT.lift (cleanup o) : ExceptT ε CleanupCall _)
      Q w :=
  .lift fun x hx => h x hx

theorem cleanup_adapt {ε ε' α : Type} {c : CleanupCall (Except ε' α)} {f : ε' → ε}
    {P : α → ClientFiles → Prop}
    (h : ((calmCleanup sha).guarded I).wp c (fun r w => ∃ a, r = .ok a ∧ P a w) w) :
    ((calmCleanup sha).guarded I).Succeeds (ExceptT.adapt f (ExceptT.mk c)) P w :=
  .adapt h

end Calm

section Ledger

variable {sha : List UInt8 → String} {t T T' : LocalTree} {spec : SourceSpec}
variable {captured entries passed rest : List CleanupEntry} {state : DurableCleanupState}
variable {path : String} {w : ClientFiles} {e : CleanupEntry} {ns : List String} {n : LocalNode}

/-- The captured entries, all imported; what is marked as cleaned is gone. -/
structure Marked (captured : List CleanupEntry) (T : LocalTree) (entries : List CleanupEntry) :
    Prop where
  same : entries.map CleanupEntry.unmarked = captured.map CleanupEntry.confirm
  gone : ∀ e ∈ entries, e.cleaned = true → T.find e.localPath = none

/-- A cleanup has come this far, on disk as well. -/
structure Held (t : LocalTree) (spec : SourceSpec) (captured : List CleanupEntry) (path : String)
    (entries : List CleanupEntry) (w : ClientFiles) : Prop where
  remains : Remains t spec w.tree
  marked : Marked captured w.tree entries
  ledger : ∃ state, w.ledger path = .text (Doc.ofValue state) ∧ state.entries = entries ∧
    state.purgeryVersion = currentPurgeryVersion

/-- A cleanup that has been cut off, at whatever point. -/
def Resumable (t : LocalTree) (spec : SourceSpec) (captured : List CleanupEntry) (path : String)
    (w : ClientFiles) : Prop :=
  ∃ entries, Held t spec captured path entries w

theorem Captured.entry (h : Captured sha spec t captured) (hmarked : Marked captured T entries)
    (he : e ∈ entries) :
    ∃ ns n, t.lookup (spec.at ns) = some n ∧ e.unmarked = (spec.entryOf sha ns n).confirm := by
  have hmem : e.unmarked ∈ captured.map CleanupEntry.confirm := by
    rw [← hmarked.same]
    exact List.mem_map_of_mem he
  obtain ⟨c, hc, heq⟩ := List.mem_map.1 hmem
  obtain ⟨ns, n, hn, rfl⟩ := (h.all c).1 hc
  exact ⟨ns, n, hn, heq.symm⟩

theorem Captured.covered (h : Captured sha spec t captured) (hmarked : Marked captured T entries)
    (hn : t.lookup (spec.at ns) = some n) :
    ∃ e ∈ entries, e.unmarked = (spec.entryOf sha ns n).confirm := by
  have hmem : (spec.entryOf sha ns n).confirm ∈ entries.map CleanupEntry.unmarked := by
    rw [hmarked.same]
    exact List.mem_map_of_mem ((h.all _).2 ⟨ns, n, hn, rfl⟩)
  obtain ⟨e, he, heq⟩ := List.mem_map.1 hmem
  exact ⟨e, he, heq⟩

theorem Marked.less (h : Marked captured T entries)
    (hless : ∀ l, T.lookup l = none → T'.lookup l = none) : Marked captured T' entries :=
  ⟨h.same, fun e he hcleaned => hless _ (h.gone e he hcleaned)⟩

theorem Marked.mark (h : Marked captured T (passed ++ e :: rest)) (hgone : T.find e.localPath = none) :
    Marked captured T (passed ++ e.markCleaned :: rest) where
  same := by
    rw [← h.same]
    simp [CleanupEntry.unmarked, CleanupEntry.markCleaned]
  gone e' he' hcleaned := by
    obtain he' | he' := List.mem_append.1 he'
    · exact h.gone e' (List.mem_append_left _ he') hcleaned
    · obtain rfl | he' := List.mem_cons.1 he'
      · exact hgone
      · exact h.gone e' (List.mem_append_right _ (List.mem_cons_of_mem _ he')) hcleaned

/-- The ledger is replaced, and is the old one or the new one all the time. -/
theorem write_calm (h : Held t spec captured path entries w) {marked : List CleanupEntry}
    (hmarked : Marked captured w.tree marked)
    (hversion : state.purgeryVersion = currentPurgeryVersion) :
    ((calmCleanup sha).guarded (Resumable t spec captured path)).Succeeds
      (writeCleanupStateAtomic path { state with entries := marked })
      (fun _ w' => w'.tree = w.tree ∧ Held t spec captured path marked w') w := by
  have hresumable : Resumable t spec captured path w := ⟨entries, h⟩
  have hopen : ((calmCleanup sha).guarded (Resumable t spec captured path)).Succeeds
      (ExceptT.adapt (fun _ => "failed to write cleanup state: " ++ path ++ ".tmp")
        (ExceptT.mk (cleanup (.openTmp path))))
      (fun _ w' => w'.tree = w.tree ∧ w'.ledger = w.ledger) w := by
    refine cleanup_adapt fun x hx => ?_
    obtain ⟨fault, torn⟩ := x
    obtain rfl : fault = none := hx
    exact ⟨⟨entries, h.remains, h.marked, h.ledger⟩, (), rfl, rfl, rfl⟩
  refine hopen.bind fun _ w₁ ⟨htree₁, hledger₁⟩ => ?_
  have hwrite : ((calmCleanup sha).guarded (Resumable t spec captured path)).Succeeds
      (ExceptT.adapt (fun _ => "failed to write cleanup state: " ++ path ++ ".tmp")
        (ExceptT.mk (cleanup (.write path (Doc.ofValue { state with entries := marked })))))
      (fun _ w' => w'.tree = w.tree ∧ w'.ledger = w.ledger ∧
        w'.tmp path = .text (Doc.ofValue { state with entries := marked })) w₁ := by
    refine cleanup_adapt fun x hx => ?_
    obtain rfl : x = none := hx
    refine ⟨⟨entries, ?_, ?_, ?_⟩, (), rfl, htree₁, hledger₁, Function.update_self ..⟩
    · exact htree₁ ▸ h.remains
    · exact htree₁ ▸ h.marked
    · exact hledger₁ ▸ h.ledger
  refine hwrite.bind fun _ w₂ ⟨htree₂, hledger₂, htmp⟩ => ?_
  refine cleanup_adapt fun x hx => ?_
  obtain rfl : x = none := hx
  have hheld : Held t spec captured path marked { w₂ with
      ledger := Function.update w₂.ledger path (.text (Doc.ofValue { state with entries := marked }))
      tmp := Function.update w₂.tmp path .missing } :=
    ⟨htree₂ ▸ h.remains, htree₂ ▸ hmarked, _, Function.update_self .., rfl, hversion⟩
  simp only [Alone.guarded, calmCleanup, CleanupOp.step, htmp]
  exact ⟨⟨marked, hheld⟩, (), rfl, htree₂, hheld⟩

end Ledger

section Directories

variable {sha : List UInt8 → String} {t T : LocalTree} {spec : SourceSpec}
variable {captured entries passed rest : List CleanupEntry} {e e' : CleanupEntry}
variable {ns ms : List String} {p : String}

theorem Source.pathOf_append (h : Source t spec) (hnames : Names (ns ++ ms)) (hms : ms ≠ []) :
    spec.pathOf (ns ++ ms) = spec.pathOf ns ++ "/" ++ joinSlash ms := by
  have hbelow : ∀ cs, cs ≠ [] → Names cs →
      spec.pathOf cs = spec.operationPath ++ "/" ++ joinSlash cs := by
    intro cs hcs hnames
    have hlast : ¬(spec.operationPath.toList.getLast? = some '/' ∨ spec.operationPath = "") := by
      intro hends
      have hnil : lastPart spec.operationPath.toList = [] := by
        rw [DestinationPath.lastPart_eq_nil]
        exact hends.symm.imp_left fun hempty => by rw [hempty]; rfl
      rw [h.operand] at hnil
      exact h.name.ne_empty (by simpa using hnil)
    rw [SourceSpec.pathOf, if_neg hcs, join_below hcs hnames, if_neg hlast]
  by_cases hns : ns = []
  · subst hns
    exact hbelow ms hms hnames
  · rw [hbelow _ (List.append_ne_nil_of_left_ne_nil hns ms) hnames, hbelow ns hns hnames.left,
      joinSlash_append hns hms]
    simp [String.append_assoc]

theorem Source.lastPart_pathOf (h : Source t spec) (hns : Names ns) :
    lastPart (spec.pathOf ns).toList ≠ [] ∧ lastPart (spec.pathOf ns).toList ≠ ['.'] := by
  have hname : ∀ s, EntryName s → s.toList ≠ [] ∧ s.toList ≠ ['.'] := by
    intro s hs
    refine ⟨fun hnil => hs.ne_empty (by simpa using hnil), fun hdot => hs.plain.1 ?_⟩
    rw [← String.ofList_toList (s := s), hdot]
  have hroot : spec.pathOf [] = spec.operationPath := if_pos rfl
  by_cases hnil : ns = []
  · subst hnil
    rw [hroot, h.operand]
    exact hname _ h.name
  · have hpath : (spec.pathOf ns).toList =
        spec.operationPath.toList ++ '/' :: (joinSlash ns).toList := by
      have happend : spec.pathOf ([] ++ ns) = spec.pathOf [] ++ "/" ++ joinSlash ns :=
        h.pathOf_append hns hnil
      rw [List.nil_append, hroot] at happend
      rw [happend]
      simp
    rw [hpath, lastPart_append, lastPart_joinSlash hnil hns]
    exact hname _ (hns _ (List.getLast_mem hnil))

/-- What is below a directory has more slashes on its path. -/
theorem depth_lt (hbelow : (e.localPath ++ "/").toList <+: e'.localPath.toList) :
    e.depth < e'.depth := by
  obtain ⟨rest, hrest⟩ := hbelow
  rw [CleanupEntry.depth, CleanupEntry.depth, ← hrest]
  simp only [String.toList_append, List.count_append]
  have hslash : List.count '/' "/".toList = 1 := rfl
  omega

theorem Marked.sorted (h : Marked captured T entries) (hcaptured : Captured sha spec t captured) :
    entries.Pairwise fun a b => b.depth ≤ a.depth := by
  have hdepths : entries.map CleanupEntry.depth = captured.map CleanupEntry.depth := by
    have hsame := congrArg (List.map CleanupEntry.depth) h.same
    rw [List.map_map, List.map_map] at hsame
    exact hsame
  have hsorted : (captured.map CleanupEntry.depth).Pairwise fun a b => b ≤ a :=
    List.pairwise_map.2 hcaptured.sorted
  rw [← hdepths] at hsorted
  exact List.pairwise_map.1 hsorted

/-- When its turn comes, a directory has nothing in it any more. -/
theorem Marked.leaf (h : Marked captured T (passed ++ e :: rest)) (hremains : Remains t spec T)
    (hsource : Source t spec) (hcaptured : Captured sha spec t captured)
    (hfiles : ∀ e' ∈ passed ++ e :: rest, e'.kind ≠ .directory → e'.cleaned = true)
    (hpassed : ∀ e' ∈ passed, e'.cleaned = true) (hpath : e.localPath = spec.pathOf ns) (m : String) :
    T.lookup (spec.at (ns ++ [m])) = none := by
  refine Option.eq_none_iff_forall_ne_some.2 fun k hk => ?_
  have hbelow : t.lookup (spec.at (ns ++ [m])) = some k := by
    obtain hnone | hsame := hremains.below (ns ++ [m])
    · rw [hnone] at hk
      exact nomatch hk
    · rw [← hsame, hk]
  have hnames := hsource.names _ (by rw [hbelow]; rfl)
  obtain ⟨e', he', heq⟩ := hcaptured.covered h hbelow
  have hpath' := localPath_entryOf heq
  have hcleaned : e'.cleaned = true := by
    by_cases hkind : e'.kind = .directory
    · obtain hin | hin := List.mem_append.1 he'
      · exact hpassed e' hin
      · have hdeeper : e.depth < e'.depth := by
          refine depth_lt ⟨(joinSlash [m]).toList, ?_⟩
          rw [hpath', hsource.pathOf_append hnames (List.cons_ne_nil m []), hpath]
          simp
        have hsorted := (List.pairwise_append.1 (h.sorted hcaptured)).2.1
        obtain rfl | hin := List.mem_cons.1 hin
        · exact absurd hdeeper (Nat.lt_irrefl _)
        · exact absurd hdeeper (Nat.not_lt.2 ((List.pairwise_cons.1 hsorted).1 e' hin))
    · exact hfiles e' he' hkind
  have hgone := h.gone e' he' hcleaned
  rw [hpath', find_pathOf hnames, hk] at hgone
  exact nomatch hgone

theorem children_eq_nil (h : Remains t spec T) (hns : Names ns)
    (hleaf : ∀ m, T.lookup (spec.at (ns ++ [m])) = none) : T.children (spec.pathOf ns) = [] := by
  have hplace : locate (spec.pathOf ns) = spec.at ns := locate_pathOf hns
  obtain ⟨habs, hcomponents⟩ := Prod.mk.inj hplace
  refine List.eq_nil_iff_forall_not_mem.2 fun m hm => ?_
  rw [mem_children h.nodup, habs, hcomponents, List.append_assoc] at hm
  have hnone := hleaf m
  rw [SourceSpec.at] at hnone
  rw [hnone] at hm
  cases hm

end Directories

end Purgery.Client
