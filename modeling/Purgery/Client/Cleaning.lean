import Purgery.Client.Captured
import Purgery.Client.Cleanup

namespace Purgery.Client

open Purgery.Path
open Purgery.Interleaving
open Purgery.Server (FileKind IoError)

section Remains

variable {t T : LocalTree} {spec : SourceSpec} {ns ms : List String} {n : LocalNode} {p : String}
variable {l : Location}

/-- Some of the source is left, and all that is beside it. -/
structure Remains (t : LocalTree) (spec : SourceSpec) (T : LocalTree) : Prop where
  nodup : (T.map Prod.fst).Nodup
  outside : ∀ l, (∀ ns, l ≠ spec.at ns) → T.lookup l = t.lookup l
  below : ∀ ns, T.lookup (spec.at ns) = none ∨ T.lookup (spec.at ns) = t.lookup (spec.at ns)
  closed : ∀ ns m, (T.lookup (spec.at (ns ++ [m]))).isSome = true →
    T.lookup (spec.at ns) = some .dir

theorem Source.remains (h : Source t spec) : Remains t spec t :=
  ⟨h.nodup, fun _ _ => rfl, fun _ => .inr rfl, h.parent⟩

theorem Remains.erase (h : Remains t spec T) (hns : Names ns)
    (hleaf : ∀ m, T.lookup (spec.at (ns ++ [m])) = none) :
    Remains t spec (T.erase (spec.pathOf ns)) where
  nodup := List.Nodup.sublist (List.filter_sublist.map _) h.nodup
  outside l hl := by
    rw [lookup_erase, locate_pathOf hns, if_neg (hl ns), h.outside l hl]
  below ms := by
    rw [lookup_erase]
    split
    · exact .inl rfl
    · exact h.below ms
  closed ms m hsome := by
    rw [lookup_erase, locate_pathOf hns] at hsome ⊢
    split at hsome
    · exact nomatch hsome
    · have hdir := h.closed ms m hsome
      have hne : spec.at ms ≠ spec.at ns := by
        intro heq
        rw [at_injective heq, hleaf m] at hsome
        exact nomatch hsome
      rw [if_neg hne, hdir]

theorem Remains.same {m : LocalNode} (h : Remains t spec T) (hns : Names ns)
    (hn : t.lookup (spec.at ns) = some n) (hm : T.find (spec.pathOf ns) = some m) : m = n := by
  rw [find_pathOf hns] at hm
  obtain hnone | hsame := h.below ns
  · rw [hnone] at hm
    exact nomatch hm
  · rw [hsame, hn] at hm
    exact (Option.some_inj.1 hm).symm

theorem absent_iff : T.absent p = .notFound ↔
    ∀ as bs, components p = as ++ bs → bs ≠ [] → ∀ n, T.lookup (isAbsolute p, as) = some n →
      n.blocks = false := by
  have hany : ((List.range (components p).length).any fun i =>
      (T.lookup (isAbsolute p, (components p).take i)).any LocalNode.blocks) = false ↔
      ∀ as bs, components p = as ++ bs → bs ≠ [] → ∀ n, T.lookup (isAbsolute p, as) = some n →
        n.blocks = false := by
    rw [List.any_eq_false]
    constructor
    · intro h as bs heq hbs n hn
      have hlen := List.length_pos_iff.2 hbs
      have hnot := h as.length (List.mem_range.2 (by rw [heq, List.length_append]; omega))
      rw [heq, List.take_left, hn] at hnot
      simpa using hnot
    · intro h i hi
      have hlt := List.mem_range.1 hi
      cases hn : T.lookup (isAbsolute p, (components p).take i) with
      | none => simp
      | some n =>
        have hrest : (components p).drop i ≠ [] := by
          rw [Ne, List.drop_eq_nil_iff]
          omega
        simp [h _ _ (List.take_append_drop i _).symm hrest n hn]
  rw [← hany, LocalTree.absent]
  split
  · rename_i htrue
    simp [htrue]
  · rename_i hfalse
    simpa using hfalse

/-- What is gone from the source is not found any more. -/
theorem Remains.absent (h : Remains t spec T) (hsource : Source t spec)
    (hn : t.lookup (spec.at ns) = some n) : T.absent (spec.pathOf ns) = .notFound := by
  have hnames := hsource.names ns (by rw [hn]; rfl)
  have hplace : locate (spec.pathOf ns) = spec.at ns := locate_pathOf hnames
  obtain ⟨habs, hcomponents⟩ := Prod.mk.inj hplace
  rw [absent_iff, habs, hcomponents]
  intro as bs heq hbs m hm
  have hinside : ∀ cs, ns = cs ++ bs → T.lookup (spec.at cs) = some m → m.blocks = false := by
    intro cs hcs hm
    have hdir : t.lookup (spec.at cs) = some .dir := hsource.dir_above (by rw [← hcs, hn]; rfl) hbs
    obtain hnone | hsame := h.below cs
    · rw [hnone] at hm
      exact nomatch hm
    · rw [hsame, hdir] at hm
      rw [← Option.some_inj.1 hm]
      rfl
  obtain ⟨cs, rfl, hns⟩ | ⟨cs, hop, hns⟩ := List.append_eq_append_iff.1 heq
  · exact hinside cs hns hm
  · by_cases hcs : cs = []
    · subst hcs
      rw [List.append_nil] at hop
      exact hinside [] hns.symm (by simpa [SourceSpec.at, hop] using hm)
    · have houtside : ∀ ms, (isAbsolute spec.operationPath, as) ≠ spec.at ms := by
        intro ms hms
        have hlen := congrArg List.length (Prod.mk.inj hms).2
        have hpos := List.length_pos_iff.2 hcs
        rw [hop] at hlen
        simp only [List.length_append] at hlen
        omega
      rw [h.outside _ houtside] at hm
      exact absent_iff.1 hsource.way as cs hop hcs m hm

/-- What is not there is not found, and what cannot be reached neither. -/
theorem Remains.find_none (h : Remains t spec T) (hsource : Source t spec)
    (hn : t.lookup (spec.at ns) = some n) (hgone : T.find (spec.pathOf ns) = none)
    (x : (FileOp.symlinkMetadata (spec.pathOf ns)).Choice)
    (hx : (FileOp.symlinkMetadata (spec.pathOf ns)).calm x) (sha : List UInt8 → String) :
    (FileOp.symlinkMetadata (spec.pathOf ns)).step sha x T = (.error .notFound, T) := by
  obtain ⟨fault, x⟩ := x
  obtain rfl : fault = none := hx
  simp [FileOp.step, FileOp.run, hgone, h.absent hsource hn]

theorem calm_removeFile (hn : T.find p = some n) (hdir : n ≠ .dir) (x : (FileOp.removeFile p).Choice)
    (hx : (FileOp.removeFile p).calm x) (sha : List UInt8 → String) :
    (FileOp.removeFile p).step sha x T = (.ok (), T.erase p) := by
  obtain ⟨fault, x⟩ := x
  obtain rfl : fault = none := hx
  cases n with
  | dir => exact absurd rfl hdir
  | _ => simp [FileOp.step, FileOp.run, hn]

theorem calmFile_call {β : Type} {sha : List UInt8 → String} {o : FileOp} {f : o.Res → FileCall β}
    {Q : β → LocalTree → Prop} {r : o.Res} {T' : LocalTree}
    (hstep : ∀ x, o.calm x → o.step sha x T = (r, T')) (h : (calmFile sha).wp (f r) Q T') :
    (calmFile sha).wp (file o >>= f) Q T := by
  refine Alone.wp_bind.2 fun x hx => ⟨trivial, ?_⟩
  change (calmFile sha).wp (f (o.step sha x T).1) Q (o.step sha x T).2
  rw [hstep x hx]
  exact h

variable {sha : List UInt8 → String} {e : CleanupEntry}

def CleanupEntry.unmarked (e : CleanupEntry) : CleanupEntry := { e with cleaned := false }

theorem localPath_entryOf (h : e.unmarked = (spec.entryOf sha ns n).confirm) :
    e.localPath = spec.pathOf ns := by
  have hpath := congrArg CleanupEntry.localPath h
  cases n <;> exact hpath

theorem importConfirmed_entryOf (h : e.unmarked = (spec.entryOf sha ns n).confirm) :
    e.importConfirmed = true := congrArg CleanupEntry.importConfirmed h

theorem kind_entryOf (hsource : Source t spec) (hn : t.lookup (spec.at ns) = some n)
    (h : e.unmarked = (spec.entryOf sha ns n).confirm) : e.kind = .directory ↔ n = .dir := by
  have hkind := congrArg CleanupEntry.kind h
  change e.kind = (spec.entryOf sha ns n).kind at hkind
  rw [hkind]
  cases n with
  | other => exact absurd hn (hsource.supported ns)
  | dir => exact ⟨fun _ => rfl, fun _ => rfl⟩
  | _ => exact ⟨nofun, nofun⟩

/-- A file or a symlink that is still what it was is removed, and one that is gone
counts as removed. -/
theorem tryCleanEntry_calm (h : Remains t spec T) (hsource : Source t spec)
    (hn : t.lookup (spec.at ns) = some n) (hdir : n ≠ .dir)
    (he : e.unmarked = (spec.entryOf sha ns n).confirm) :
    (calmFile sha).wp (tryCleanEntry e) (fun cleaned T' => cleaned = true ∧
      Remains t spec T' ∧ T'.find (spec.pathOf ns) = none ∧
      ∀ l, T.lookup l = none → T'.lookup l = none) T := by
  have hnames := hsource.names ns (by rw [hn]; rfl)
  unfold tryCleanEntry
  rw [localPath_entryOf he]
  cases hfind : T.find (spec.pathOf ns) with
  | none =>
    refine calmFile_call (fun x hx => h.find_none hsource hn hfind x hx sha) ?_
    exact ⟨rfl, h, hfind, fun _ => id⟩
  | some m =>
    obtain rfl : m = n := h.same hnames hn hfind
    have herase : Remains t spec (T.erase (spec.pathOf ns)) := by
      refine h.erase hnames fun k => Option.not_isSome_iff_eq_none.1 fun hsome => hdir ?_
      have hparent := h.closed ns k hsome
      rw [← find_pathOf hnames, hfind] at hparent
      exact Option.some_inj.1 hparent
    have hgone : (T.erase (spec.pathOf ns)).find (spec.pathOf ns) = none := by
      rw [LocalTree.find, lookup_erase, if_pos rfl]
    have hless : ∀ l, T.lookup l = none → (T.erase (spec.pathOf ns)).lookup l = none := by
      intro l hl
      rw [lookup_erase, hl, ite_self]
    have hremove := fun x hx => calm_removeFile hfind hdir x hx sha
    refine calmFile_call (calm_symlinkMetadata hfind) ?_
    cases m with
    | dir => exact absurd rfl hdir
    | file bytes modified =>
      have hkind : e.kind = .regularFile := congrArg CleanupEntry.kind he
      have hsize : e.size = bytes.length := congrArg CleanupEntry.size he
      have hmtime : e.mtimeNs = mtimeNs modified := congrArg CleanupEntry.mtimeNs he
      have hsha : e.sha256 = some (sha bytes) := congrArg CleanupEntry.sha256 he
      simp only [hkind, LocalNode.metadata, ne_self_iff_false, if_false]
      refine calmFile_call (calm_metadata hfind) ?_
      simp only [hsize, hmtime, hsha, ne_self_iff_false, if_false]
      refine calmFile_call (calm_sha256 hfind) ?_
      simp only [ne_self_iff_false, if_false]
      exact calmFile_call hremove ⟨rfl, herase, hgone, hless⟩
    | symlink target =>
      have hkind : e.kind = .symlink := congrArg CleanupEntry.kind he
      have htarget : e.linkTarget = some target := congrArg CleanupEntry.linkTarget he
      simp only [hkind, htarget, LocalNode.metadata, ne_self_iff_false, if_false]
      refine calmFile_call (calm_readLink hfind) ?_
      simp only [ne_self_iff_false, if_false]
      exact calmFile_call hremove ⟨rfl, herase, hgone, hless⟩
    | other => exact absurd hn (hsource.supported ns)

end Remains

end Purgery.Client
