import Purgery.Client.CleanupPass

namespace Purgery.Client

open Purgery.Path
open Purgery.Interleaving
open Purgery.Server (FileKind IoError)

section Steps

variable {sha : List UInt8 → String} {t T : LocalTree} {spec : SourceSpec}
variable {captured entries passed rest : List CleanupEntry}
variable {path : String} {w : ClientFiles} {e : CleanupEntry} {ns : List String} {n : LocalNode}

theorem clean_calm {ε : Type} (h : Held t spec captured path entries w)
    (hsource : Source t spec) (hcaptured : Captured sha spec t captured) (he : e ∈ entries)
    (hdir : e.kind ≠ .directory) :
    ((calmCleanup sha).guarded (Resumable t spec captured path)).Succeeds
      (ExceptT.lift (cleanup (.clean e)) : ExceptT ε CleanupCall _)
      (fun cleaned w' => cleaned = true ∧ Held t spec captured path entries w' ∧
        w'.tree.find e.localPath = none) w := by
  obtain ⟨ns, n, hn, heq⟩ := hcaptured.entry h.marked he
  have hnode : n ≠ .dir := fun hn' => hdir ((kind_entryOf hsource hn heq).2 hn')
  refine cleanup_lift fun x hx => ?_
  obtain ⟨hcleaned, hremains, hgone, hless⟩ :=
    Alone.wp_solo (A := calmFile sha) x hx (tryCleanEntry_calm h.remains hsource hn hnode heq)
  have hheld : Held t spec captured path entries (CleanupOp.step sha (.clean e) x w).2 :=
    ⟨hremains, h.marked.less hless, h.ledger⟩
  exact ⟨⟨entries, hheld⟩, hcleaned, hheld, (localPath_entryOf heq).symm ▸ hgone⟩

/-- A directory that is still there is empty, and one that is gone is not found. -/
theorem Remains.readDir (h : Remains t spec T) (hsource : Source t spec)
    (hn : t.lookup (spec.at ns) = some .dir) (hleaf : ∀ m, T.lookup (spec.at (ns ++ [m])) = none)
    (x : (FileOp.readDir (spec.pathOf ns)).Choice)
    (hx : (FileOp.readDir (spec.pathOf ns)).calm x) (sha : List UInt8 → String) :
    ∃ r, (FileOp.readDir (spec.pathOf ns)).step sha x T = (r, T) ∧
      (r = .ok [] ∨ r = .error .notFound) := by
  have hnames := hsource.names ns (by rw [hn]; rfl)
  obtain ⟨fault, order, followed⟩ := x
  obtain rfl : fault = none := hx
  cases hfind : T.find (spec.pathOf ns) with
  | none =>
    refine ⟨.error .notFound, ?_, .inr rfl⟩
    simp [FileOp.step, FileOp.run, hfind, h.absent hsource hn]
  | some n =>
    obtain rfl := h.same hnames hn hfind
    refine ⟨.ok [], ?_, .inl rfl⟩
    simp [FileOp.step, FileOp.run, hfind, children_eq_nil h hnames hleaf, arrange]

theorem Remains.removeDir (h : Remains t spec T) (hsource : Source t spec)
    (hn : t.lookup (spec.at ns) = some .dir) (hleaf : ∀ m, T.lookup (spec.at (ns ++ [m])) = none)
    (x : (FileOp.removeDir (spec.pathOf ns)).Choice)
    (hx : (FileOp.removeDir (spec.pathOf ns)).calm x) (sha : List UInt8 → String) :
    ∃ r T', (FileOp.removeDir (spec.pathOf ns)).step sha x T = (r, T') ∧
      (r = .ok () ∨ r = .error .notFound) ∧ Remains t spec T' ∧
      T'.find (spec.pathOf ns) = none ∧ ∀ l, T.lookup l = none → T'.lookup l = none := by
  have hnames := hsource.names ns (by rw [hn]; rfl)
  obtain ⟨hlast, hdot⟩ := hsource.lastPart_pathOf hnames
  obtain ⟨fault, extra⟩ := x
  obtain rfl : fault = none := hx
  cases hfind : T.find (spec.pathOf ns) with
  | none =>
    refine ⟨.error .notFound, T, ?_, .inr rfl, h, hfind, fun _ => id⟩
    simp [FileOp.step, FileOp.run, DestinationPath.trimEndSlashes_self hlast, hdot, hfind,
      h.absent hsource hn]
  | some n =>
    obtain rfl := h.same hnames hn hfind
    refine ⟨.ok (), T.erase (spec.pathOf ns), ?_, .inl rfl, h.erase hnames hleaf, ?_, ?_⟩
    · simp [FileOp.step, FileOp.run, DestinationPath.trimEndSlashes_self hlast, hdot, hfind,
        children_eq_nil h hnames hleaf]
    · rw [LocalTree.find, lookup_erase, if_pos rfl]
    · intro l hl
      rw [lookup_erase, hl, ite_self]

theorem readDir_calm {ε : Type} (h : Held t spec captured path entries w)
    (hsource : Source t spec) (hn : t.lookup (spec.at ns) = some .dir)
    (hpath : e.localPath = spec.pathOf ns)
    (hleaf : ∀ m, w.tree.lookup (spec.at (ns ++ [m])) = none) :
    ((calmCleanup sha).guarded (Resumable t spec captured path)).Succeeds
      (ExceptT.lift (cleanup (.readDir e.localPath)) : ExceptT ε CleanupCall _)
      (fun r w' => (r = .ok [] ∨ r = .error .notFound) ∧ w' = w) w := by
  rw [hpath]
  refine cleanup_lift fun x hx => ?_
  obtain ⟨r, hstep, hr⟩ := h.remains.readDir hsource hn hleaf x hx sha
  simp only [CleanupOp.step, hstep]
  exact ⟨⟨entries, h⟩, hr, trivial⟩

theorem removeDir_calm {ε : Type} (h : Held t spec captured path entries w)
    (hsource : Source t spec) (hn : t.lookup (spec.at ns) = some .dir)
    (hpath : e.localPath = spec.pathOf ns)
    (hleaf : ∀ m, w.tree.lookup (spec.at (ns ++ [m])) = none) :
    ((calmCleanup sha).guarded (Resumable t spec captured path)).Succeeds
      (ExceptT.lift (cleanup (.removeDir e.localPath)) : ExceptT ε CleanupCall _)
      (fun r w' => (r = .ok () ∨ r = .error .notFound) ∧
        Held t spec captured path entries w' ∧ w'.tree.find e.localPath = none) w := by
  rw [hpath]
  refine cleanup_lift fun x hx => ?_
  obtain ⟨r, T', hstep, hr, hremains, hgone, hless⟩ :=
    h.remains.removeDir hsource hn hleaf x hx sha
  have hheld : Held t spec captured path entries { w with tree := T' } :=
    ⟨hremains, h.marked.less hless, h.ledger⟩
  simp only [CleanupOp.step, hstep]
  exact ⟨⟨entries, hheld⟩, hr, hheld, hgone⟩

end Steps

section Loops

variable {sha : List UInt8 → String} {t : LocalTree} {spec : SourceSpec}
variable {captured entries passed rest : List CleanupEntry} {state : DurableCleanupState}
variable {path : String} {w : ClientFiles}

theorem cleanFiles_calm (hsource : Source t spec) (hcaptured : Captured sha spec t captured)
    (h : Held t spec captured path (passed ++ rest) w)
    (hpassed : ∀ e ∈ passed, e.kind ≠ .directory → e.cleaned = true)
    (hversion : state.purgeryVersion = currentPurgeryVersion) :
    ((calmCleanup sha).guarded (Resumable t spec captured path)).Succeeds
      (cleanFiles path state passed rest)
      (fun entries w' => Held t spec captured path entries w' ∧
        ∀ e ∈ entries, e.kind ≠ .directory → e.cleaned = true) w := by
  induction rest generalizing passed w with
  | nil =>
    rw [List.append_nil] at h
    exact .pure ⟨h, hpassed⟩
  | cons e rest ih =>
    have hmem : e ∈ passed ++ e :: rest := List.mem_append_right _ List.mem_cons_self
    obtain ⟨ns, n, hn, heq⟩ := hcaptured.entry h.marked hmem
    have happend : passed ++ e :: rest = (passed ++ [e]) ++ rest := by simp
    have hskip : (e.kind ≠ .directory → e.cleaned = true) →
        ((calmCleanup sha).guarded (Resumable t spec captured path)).Succeeds
          (cleanFiles path state (passed ++ [e]) rest)
          (fun entries w' => Held t spec captured path entries w' ∧
            ∀ e ∈ entries, e.kind ≠ .directory → e.cleaned = true) w := by
      intro hthis
      refine ih (happend ▸ h) (List.forall_mem_append.2 ⟨hpassed, ?_⟩)
      simpa using hthis
    unfold cleanFiles
    simp only [importConfirmed_entryOf heq, Bool.not_true, Bool.false_or]
    split
    · rename_i hcleaned
      exact hskip fun _ => hcleaned
    · split
      · rename_i hdir
        exact hskip fun hne => absurd hdir hne
      · rename_i hdir
        refine (clean_calm h hsource hcaptured hmem hdir).bind ?_
        rintro _ w₁ ⟨rfl, h₁, hgone⟩
        refine (write_calm h₁ (h₁.marked.mark hgone) hversion).bind fun _ w₂ ⟨_, h₂⟩ => ?_
        have happend' : passed ++ e.markCleaned :: rest = (passed ++ [e.markCleaned]) ++ rest := by
          simp
        refine ih (happend' ▸ h₂) (List.forall_mem_append.2 ⟨hpassed, ?_⟩)
        simp [CleanupEntry.markCleaned]

theorem cleanDirectories_calm (hsource : Source t spec) (hcaptured : Captured sha spec t captured)
    (h : Held t spec captured path (passed ++ rest) w)
    (hfiles : ∀ e ∈ passed ++ rest, e.kind ≠ .directory → e.cleaned = true)
    (hpassed : ∀ e ∈ passed, e.cleaned = true)
    (hversion : state.purgeryVersion = currentPurgeryVersion) :
    ((calmCleanup sha).guarded (Resumable t spec captured path)).Succeeds
      (cleanDirectories path state passed rest)
      (fun entries w' => Held t spec captured path entries w' ∧
        ∀ e ∈ entries, e.cleaned = true) w := by
  induction rest generalizing passed w with
  | nil =>
    rw [List.append_nil] at h
    exact .pure ⟨h, hpassed⟩
  | cons e rest ih =>
    have hmem : e ∈ passed ++ e :: rest := List.mem_append_right _ List.mem_cons_self
    obtain ⟨ns, n, hn, heq⟩ := hcaptured.entry h.marked hmem
    have happend : passed ++ e :: rest = (passed ++ [e]) ++ rest := by simp
    have hskip : e.cleaned = true →
        ((calmCleanup sha).guarded (Resumable t spec captured path)).Succeeds
          (cleanDirectories path state (passed ++ [e]) rest)
          (fun entries w' => Held t spec captured path entries w' ∧
            ∀ e ∈ entries, e.cleaned = true) w := by
      intro hthis
      refine ih (happend ▸ h) (happend ▸ hfiles) (List.forall_mem_append.2 ⟨hpassed, ?_⟩)
      simpa using hthis
    unfold cleanDirectories
    simp only [importConfirmed_entryOf heq, Bool.not_true, Bool.false_or]
    split
    · rename_i hcleaned
      exact hskip hcleaned
    · split
      · rename_i hdir
        exact hskip (hfiles e hmem hdir)
      · rename_i hdir
        obtain rfl := (kind_entryOf hsource hn heq).1 (not_not.1 hdir)
        have hpath := localPath_entryOf heq
        have hleaf := h.marked.leaf h.remains hsource hcaptured hfiles hpassed hpath
        refine (readDir_calm h hsource hn hpath hleaf).bind ?_
        rintro children _ ⟨hchildren, rfl⟩
        have hcan : canRemoveDirectory (passed ++ e :: rest) e children = true := by
          obtain rfl | rfl := hchildren <;> rfl
        simp only [hcan, Bool.not_true, Bool.false_eq_true, if_false]
        refine (removeDir_calm h hsource hn hpath hleaf).bind ?_
        rintro r w₁ ⟨hr, h₁, hgone⟩
        have hmark : ((calmCleanup sha).guarded (Resumable t spec captured path)).Succeeds
            (do
              writeCleanupStateAtomic path
                { state with entries := passed ++ e.markCleaned :: rest }
              cleanDirectories path state (passed ++ [e.markCleaned]) rest)
            (fun entries w' => Held t spec captured path entries w' ∧
              ∀ e ∈ entries, e.cleaned = true) w₁ := by
          refine (write_calm h₁ (h₁.marked.mark hgone) hversion).bind fun _ w₂ ⟨_, h₂⟩ => ?_
          have happend' :
              passed ++ e.markCleaned :: rest = (passed ++ [e.markCleaned]) ++ rest := by simp
          refine ih (happend' ▸ h₂) ?_ (List.forall_mem_append.2 ⟨hpassed, ?_⟩)
          · simp only [List.forall_mem_append, List.forall_mem_cons] at hfiles ⊢
            exact ⟨⟨hfiles.1, fun _ => rfl, by simp⟩, hfiles.2.2⟩
          · simp [CleanupEntry.markCleaned]
        obtain rfl | rfl := hr <;> exact hmark

/-- Nothing is left to do when everything is marked. -/
theorem cleanFiles_done (h : ∀ e ∈ rest, e.cleaned = true) :
    cleanFiles path state passed rest = pure (passed ++ rest) := by
  induction rest generalizing passed with
  | nil => rw [List.append_nil, cleanFiles]
  | cons e rest ih =>
    obtain ⟨he, hrest⟩ := List.forall_mem_cons.1 h
    simp [cleanFiles, he, ih hrest]

theorem cleanDirectories_done (h : ∀ e ∈ rest, e.cleaned = true) :
    cleanDirectories path state passed rest = pure (passed ++ rest) := by
  induction rest generalizing passed with
  | nil => rw [List.append_nil, cleanDirectories]
  | cons e rest ih =>
    obtain ⟨he, hrest⟩ := List.forall_mem_cons.1 h
    simp [cleanDirectories, he, ih hrest]

end Loops

section Process

variable {sha : List UInt8 → String} {t : LocalTree} {spec : SourceSpec}
variable {captured entries : List CleanupEntry} {state : DurableCleanupState}
variable {path : String} {w : ClientFiles} {I : ClientFiles → Prop}

theorem requireCompatible_ofValue {α : Type} [Document α] {a : α} (context : String)
    (h : Document.version? a = some currentPurgeryVersion) :
    requireCompatibleTomlVersion (Doc.ofValue a) context = .ok () := by
  simp [requireCompatibleTomlVersion, Document.probe, h, requireCompatible_current]

theorem readCleanupState_calm (hI : I w) (hledger : w.ledger path = .text (Doc.ofValue state))
    (hversion : state.purgeryVersion = currentPurgeryVersion) :
    ((calmCleanup sha).guarded I).Succeeds (readCleanupState path)
      (fun s w' => s = state ∧ w' = w) w := by
  unfold readCleanupState
  have hread : ((calmCleanup sha).guarded I).Succeeds
      (ExceptT.adapt (fun _ => "failed to read cleanup state: " ++ path)
        (ExceptT.mk (cleanup (.read path))))
      (fun d w' => d = Doc.ofValue state ∧ w' = w) w := by
    refine cleanup_adapt fun x hx => ?_
    obtain rfl : x = none := hx
    refine ⟨hI, Doc.ofValue state, ?_, rfl, rfl⟩
    change (w.ledger path).read = .ok (Doc.ofValue state)
    rw [hledger]
    rfl
  refine hread.bind ?_
  rintro _ _ ⟨rfl, rfl⟩
  have hcompatible : requireCompatibleTomlVersion (Doc.ofValue state) ("cleanup state " ++ path) =
      .ok () := requireCompatible_ofValue _ (congrArg some hversion)
  rw [hcompatible]
  exact ⟨state, rfl, rfl, rfl⟩

theorem process_calm (hsource : Source t spec) (hcaptured : Captured sha spec t captured)
    (h : Held t spec captured path entries w) :
    ((calmCleanup sha).guarded (Resumable t spec captured path)).Succeeds
      (processCleanupStateFile path)
      (fun outcome w' => outcome = .complete ∧ ∃ entries',
        Held t spec captured path entries' w' ∧ ∀ e ∈ entries', e.cleaned = true) w := by
  obtain ⟨state, hledger, rfl, hversion⟩ := h.ledger
  unfold processCleanupStateFile
  refine (readCleanupState_calm ⟨_, h⟩ hledger hversion).bind ?_
  rintro _ _ ⟨rfl, rfl⟩
  have hnone : ∀ e ∈ ([] : List CleanupEntry), e.kind ≠ .directory → e.cleaned = true := nofun
  refine (cleanFiles_calm hsource hcaptured h hnone hversion).bind
    fun entries₁ w₁ ⟨h₁, hfiles⟩ => ?_
  have hnone' : ∀ e ∈ ([] : List CleanupEntry), e.cleaned = true := nofun
  refine (cleanDirectories_calm hsource hcaptured h₁ hfiles hnone' hversion).bind
    fun entries₂ w₂ ⟨h₂, hall⟩ => ?_
  exact .pure ⟨if_pos (List.all_eq_true.2 hall), entries₂, h₂, hall⟩

/-- A second pass finds nothing to do. -/
theorem process_done (h : Held t spec captured path entries w)
    (hall : ∀ e ∈ entries, e.cleaned = true) :
    ((calmCleanup sha).guarded (Resumable t spec captured path)).Succeeds
      (processCleanupStateFile path) (fun outcome w' => outcome = .complete ∧ w' = w) w := by
  obtain ⟨state, hledger, rfl, hversion⟩ := h.ledger
  unfold processCleanupStateFile
  refine (readCleanupState_calm ⟨_, h⟩ hledger hversion).bind ?_
  rintro _ _ ⟨rfl, rfl⟩
  simp only [cleanFiles_done hall, cleanDirectories_done hall, List.nil_append, pure_bind]
  exact .pure ⟨if_pos (List.all_eq_true.2 hall), rfl⟩

/-- The source is gone, and nothing else. -/
structure Removed (t : LocalTree) (spec : SourceSpec) (T : LocalTree) : Prop where
  gone : ∀ ns, T.lookup (spec.at ns) = none
  others : ∀ l, (∀ ns, l ≠ spec.at ns) → T.lookup l = t.lookup l

theorem Held.removed (h : Held t spec captured path entries w) (hsource : Source t spec)
    (hcaptured : Captured sha spec t captured) (hall : ∀ e ∈ entries, e.cleaned = true) :
    Removed t spec w.tree where
  gone ns := by
    obtain hnone | hsame := h.remains.below ns
    · exact hnone
    · rw [hsame]
      refine Option.eq_none_iff_forall_ne_some.2 fun n hn => ?_
      obtain ⟨e, he, heq⟩ := hcaptured.covered h.marked hn
      have hgone := h.marked.gone e he (hall e he)
      rw [localPath_entryOf heq, find_pathOf (hsource.names ns (by rw [hn]; rfl)), hsame, hn]
        at hgone
      exact nomatch hgone
  others := h.remains.outside

end Process

section Interrupted

variable {sha : List UInt8 → String} {t : LocalTree} {spec : SourceSpec} {path : String}
variable {captured : List CleanupEntry} {w₀ w : ClientFiles}

/-- Passes that were cut off, each at any step. -/
inductive Interrupted (sha : List UInt8 → String) (path : String) (w₀ : ClientFiles) :
    ClientFiles → Prop where
  | start : Interrupted sha path w₀ w₀
  | pass {w w' : ClientFiles} : Interrupted sha path w₀ w →
      (calmCleanup sha).Cut (processCleanupStateFile path).run w w' → Interrupted sha path w₀ w'

theorem Interrupted.resumable (h : Interrupted sha path w₀ w) (hsource : Source t spec)
    (hcaptured : Captured sha spec t captured) (h₀ : Resumable t spec captured path w₀) :
    Resumable t spec captured path w := by
  induction h with
  | start => exact h₀
  | pass _ hcut ih =>
    obtain ⟨entries, hheld⟩ := ih
    exact Alone.cut_guarded (process_calm hsource hcaptured hheld) ⟨entries, hheld⟩ hcut

/-- What is below a directory comes before it. -/
def ChildrenFirst (entries : List CleanupEntry) : Prop :=
  ∀ before dir after, entries = before ++ dir :: after → ∀ e ∈ entries,
    (dir.localPath ++ "/").toList <+: e.localPath.toList → e ∈ before

theorem Captured.childrenFirst (h : Captured sha spec t captured) : ChildrenFirst captured := by
  rintro before dir after rfl e he hbelow
  have hdeeper := depth_lt hbelow
  obtain he | he := List.mem_append.1 he
  · exact he
  · have hsorted := (List.pairwise_append.1 h.sorted).2.1
    obtain rfl | he := List.mem_cons.1 he
    · exact absurd hdeeper (Nat.lt_irrefl _)
    · exact absurd hdeeper (Nat.not_lt.2 ((List.pairwise_cons.1 hsorted).1 e he))

theorem Captured.start {nickname operationId : String} (h : Captured sha spec t captured)
    (hsource : Source t spec) (htree : w.tree = t)
    (hledger : w.ledger path = .text (Doc.ofValue
      ⟨currentPurgeryVersion, nickname, operationId, captured.map CleanupEntry.confirm⟩)) :
    Held t spec captured path (captured.map CleanupEntry.confirm) w where
  remains := htree ▸ hsource.remains
  marked := by
    have hall : ∀ e ∈ captured, e.cleaned = false := by
      intro e he
      obtain ⟨ns, n, -, rfl⟩ := (h.all e).1 he
      cases n <;> rfl
    refine ⟨?_, fun e he hcleaned => ?_⟩
    · rw [List.map_map]
      refine List.map_congr_left fun e he => ?_
      rw [Function.comp_apply, CleanupEntry.unmarked, CleanupEntry.confirm, hall e he]
    · obtain ⟨c, hc, rfl⟩ := List.mem_map.1 he
      rw [CleanupEntry.confirm, hall c hc] at hcleaned
      cases hcleaned
  ledger := ⟨_, hledger, rfl, rfl⟩

/-- A captured source whose import is confirmed is removed by one pass, whatever passes
were cut off before it, and the pass after it changes nothing. -/
theorem cleanup_completes (sha : List UInt8 → String) (path nickname operationId : String)
    (hsource : Source t spec) :
    (calmFile sha).Succeeds (captureCleanupIdentity spec) (fun entries t' => t' = t ∧
      ChildrenFirst entries ∧ ∀ w₀ w : ClientFiles, w₀.tree = t →
        w₀.ledger path = .text (Doc.ofValue
          ⟨currentPurgeryVersion, nickname, operationId, entries.map CleanupEntry.confirm⟩) →
        Interrupted sha path w₀ w →
        (calmCleanup sha).Succeeds (processCleanupStateFile path) (fun outcome w' =>
          outcome = .complete ∧ Removed t spec w'.tree ∧
          (calmCleanup sha).Succeeds (processCleanupStateFile path)
            (fun outcome w'' => outcome = .complete ∧ w'' = w') w') w) t := by
  refine (captureCleanupIdentity_calm hsource).mono ?_
  rintro entries _ ⟨rfl, hcaptured⟩
  refine ⟨rfl, hcaptured.childrenFirst, fun w₀ w htree hledger hinterrupted => ?_⟩
  obtain ⟨marked, hheld⟩ := hinterrupted.resumable hsource hcaptured
    ⟨_, hcaptured.start hsource htree hledger⟩
  refine Alone.Succeeds.mono (Alone.wp_of_guarded (fun _ _ => trivial)
    (process_calm hsource hcaptured hheld)) ?_
  rintro outcome w' ⟨rfl, entries', hheld', hall⟩
  exact ⟨rfl, hheld'.removed hsource hcaptured hall,
    Alone.wp_of_guarded (fun _ _ => trivial) (process_done hheld' hall)⟩

def sampleNodes : List (List String × LocalNode) :=
  [([], .dir), (["cat"], .file [1, 2, 3] 1000), (["old"], .dir),
    (["old", "latest"], .symlink "../cat")]

def sampleTree : LocalTree := sampleNodes.map fun e => ((false, "photos" :: e.1), e.2)

def sampleSpec : SourceSpec := ⟨"photos", "photos", "photos", .directory⟩

theorem sampleSource : Source sampleTree sampleSpec := by
  have hat : ∀ ns, sampleSpec.at ns = (false, "photos" :: ns) := fun _ => rfl
  have hnodes : ∀ ns n, sampleTree.lookup (sampleSpec.at ns) = some n → (ns, n) ∈ sampleNodes := by
    intro ns n hn
    have hmem := mem_of_lookup hn
    rw [hat] at hmem
    simpa [sampleTree, sampleNodes] using hmem
  have hnames : ∀ e ∈ sampleNodes, Names e.1 := by decide
  have hparent : ∀ e ∈ sampleNodes,
      e.1 = [] ∨ sampleTree.lookup (sampleSpec.at e.1.dropLast) = some .dir := by decide
  have hother : ∀ e ∈ sampleNodes, e.2 ≠ .other := by decide
  refine ⟨by decide, by decide, by decide, by decide, by decide, ?_, ?_, ?_⟩
  · intro ns hsome
    obtain ⟨n, hn⟩ := Option.isSome_iff_exists.1 hsome
    exact hnames _ (hnodes ns n hn)
  · intro ns m hsome
    obtain ⟨n, hn⟩ := Option.isSome_iff_exists.1 hsome
    obtain hnil | hdir := hparent _ (hnodes _ n hn)
    · simp at hnil
    · simpa using hdir
  · exact fun ns hn => hother _ (hnodes ns _ hn) rfl

/-- A directory with a file, and with a directory that holds a symlink. -/
theorem cleanup_completes_photos :
    (calmFile fun _ => "sha").Succeeds (captureCleanupIdentity sampleSpec) (fun entries t' =>
      t' = sampleTree ∧ ChildrenFirst entries ∧ ∀ w₀ w : ClientFiles, w₀.tree = sampleTree →
        w₀.ledger "ledger" = .text (Doc.ofValue
          ⟨currentPurgeryVersion, "laptop", "op", entries.map CleanupEntry.confirm⟩) →
        Interrupted (fun _ => "sha") "ledger" w₀ w →
        (calmCleanup fun _ => "sha").Succeeds (processCleanupStateFile "ledger")
          (fun outcome w' => outcome = .complete ∧ Removed sampleTree sampleSpec w'.tree ∧
            (calmCleanup fun _ => "sha").Succeeds (processCleanupStateFile "ledger")
              (fun outcome w'' => outcome = .complete ∧ w'' = w') w') w) sampleTree :=
  cleanup_completes _ _ _ _ sampleSource

end Interrupted

end Purgery.Client
