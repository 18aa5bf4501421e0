import Purgery.Client.Histories

namespace Purgery.Client

open Purgery.Path
open Purgery.Interleaving
open Purgery.Server (FileKind IoError)

/-! What the calls of a client do to the local files. -/

section Files

variable {sha : List UInt8 → String} {t : LocalTree} {p : String} {n : LocalNode}

def FileOp.reads : FileOp → Bool
  | removeFile _ | removeDir _ => false
  | symlinkMetadata _ | metadata _ | readLink _ | sha256 _ | walk _ | readDir _ => true

theorem FileOp.step_reads {o : FileOp} (h : o.reads = true) (x : o.Choice) :
    (o.step sha x t).2 = t := by
  obtain ⟨fault, x⟩ := x
  cases fault with
  | some message => rfl
  | none =>
    cases o with
    | removeFile p => exact nomatch h
    | removeDir p => exact nomatch h
    | walk p => rfl
    | symlinkMetadata p =>
      simp only [FileOp.step, FileOp.run]
      split <;> rfl
    | metadata p =>
      simp only [FileOp.step, FileOp.run]
      split <;> rfl
    | readLink p =>
      simp only [FileOp.step, FileOp.run]
      split <;> rfl
    | sha256 p =>
      simp only [FileOp.step, FileOp.run]
      split <;> rfl
    | readDir p =>
      simp only [FileOp.step, FileOp.run]
      split <;> rfl

theorem symlinkMetadata_ok {x : (FileOp.symlinkMetadata p).Choice} {m : LocalMeta}
    (h : ((FileOp.symlinkMetadata p).step sha x t).1 = .ok m) :
    ∃ n, t.find p = some n ∧ n.metadata = m := by
  obtain ⟨fault, x⟩ := x
  cases fault with
  | some message => exact nomatch h
  | none =>
    simp only [FileOp.step, FileOp.run] at h
    split at h
    · exact nomatch h
    · rename_i n hn
      exact ⟨n, hn, Except.ok.inj h⟩

theorem metadata_ok {x : (FileOp.metadata p).Choice} {m : LocalMeta} {bytes : List UInt8}
    {modified : Int} (hn : t.find p = some (.file bytes modified))
    (h : ((FileOp.metadata p).step sha x t).1 = .ok m) :
    m = ⟨.regularFile, bytes.length, modified⟩ := by
  obtain ⟨fault, x⟩ := x
  cases fault with
  | some message => exact nomatch h
  | none =>
    simp only [FileOp.step, FileOp.run, hn] at h
    exact (Except.ok.inj h).symm

theorem sha256_ok {x : (FileOp.sha256 p).Choice} {digest : String} {bytes : List UInt8}
    {modified : Int} (hn : t.find p = some (.file bytes modified))
    (h : ((FileOp.sha256 p).step sha x t).1 = .ok digest) : digest = sha bytes := by
  obtain ⟨fault, x⟩ := x
  cases fault with
  | some message => exact nomatch h
  | none =>
    simp only [FileOp.step, FileOp.run, hn] at h
    exact (Except.ok.inj h).symm

theorem readLink_ok {x : (FileOp.readLink p).Choice} {current target : String}
    (hn : t.find p = some (.symlink target))
    (h : ((FileOp.readLink p).step sha x t).1 = .ok current) : current = target := by
  obtain ⟨fault, x⟩ := x
  cases fault with
  | some message => exact nomatch h
  | none =>
    simp only [FileOp.step, FileOp.run, hn] at h
    exact (Except.ok.inj h).symm

variable (sha t) in
theorem removeFile_tree (x : (FileOp.removeFile p).Choice) :
    ((FileOp.removeFile p).step sha x t).2 = t ∨
      ((FileOp.removeFile p).step sha x t).2 = t.erase p := by
  obtain ⟨fault, x⟩ := x
  cases fault with
  | some message => exact .inl rfl
  | none =>
    simp only [FileOp.step, FileOp.run]
    split
    · exact .inl rfl
    · exact .inl rfl
    · exact .inr rfl

variable (sha t) in
theorem removeDir_tree (x : (FileOp.removeDir p).Choice) :
    ((FileOp.removeDir p).step sha x t).2 = t ∨
      t.find p = some .dir ∧ ((FileOp.removeDir p).step sha x t).2 = t.erase p := by
  obtain ⟨fault, x⟩ := x
  cases fault with
  | some message => exact .inl rfl
  | none =>
    simp only [FileOp.step, FileOp.run]
    split
    · exact .inl rfl
    · split
      · exact .inl rfl
      · split
        · exact .inr ⟨‹_›, rfl⟩
        · exact .inl rfl
      · exact .inl rfl

variable {e : CleanupEntry} {outcomes : (o : FileOp) → o.Choice} {α : Type}

/-- The code changes nothing, or removes the object that the entry describes. -/
def Harmless (sha : List UInt8 → String) (outcomes : (o : FileOp) → o.Choice) (e : CleanupEntry)
    (t : LocalTree) (c : FileCall α) : Prop :=
  (c.solo (fun o => o.step sha (outcomes o)) t).2 = t ∨
    ∃ n, t.find e.localPath = some n ∧ e.Describes sha n ∧
      (c.solo (fun o => o.step sha (outcomes o)) t).2 = t.erase e.localPath

theorem Harmless.read {o : FileOp} {f : o.Res → FileCall α} (ho : o.reads = true)
    (h : Harmless sha outcomes e t (f (o.step sha (outcomes o) t).1)) :
    Harmless sha outcomes e t (file o >>= f) := by
  unfold Harmless file at *
  simp only [Prog.solo_bind, Prog.solo_perform, FileOp.step_reads ho]
  exact h

theorem Harmless.remove (hn : t.find e.localPath = some n) (hdescribes : e.Describes sha n) :
    Harmless sha outcomes e t
      (do return (← file (.removeFile e.localPath)).isOk : FileCall Bool) := by
  unfold Harmless file
  simp only [Prog.solo_bind, Prog.solo_perform]
  obtain hsame | hgone := removeFile_tree sha t (outcomes (.removeFile e.localPath))
  · exact .inl hsame
  · exact .inr ⟨n, hn, hdescribes, hgone⟩

variable (sha t e outcomes) in
/-- A file or a symlink is removed only while it is what the entry describes. -/
theorem tryCleanEntry_harmless : Harmless sha outcomes e t (tryCleanEntry e) := by
  unfold tryCleanEntry
  refine .read rfl ?_
  split
  · exact .inl rfl
  · exact .inl rfl
  · rename_i symmeta hmeta
    obtain ⟨n, hn, rfl⟩ := symlinkMetadata_ok hmeta
    split
    · exact .inl rfl
    · rename_i hkind
      split
      · exact .inl rfl
      · rename_i hlink
        split
        · exact .inl rfl
        · rename_i expected htarget
          obtain ⟨target, rfl⟩ : ∃ target, n = .symlink target := by
            cases n with
            | symlink target => exact ⟨target, rfl⟩
            | _ => exact absurd nofun hlink
          refine .read rfl ?_
          split
          · exact .inl rfl
          · rename_i current hcurrent
            split
            · exact .inl rfl
            · rename_i hsame
              refine .remove hn ?_
              rw [readLink_ok hn hcurrent, not_not] at hsame
              simp [CleanupEntry.Describes, hkind, htarget, hsame]
    · rename_i hkind
      split
      · exact .inl rfl
      · rename_i hfile
        obtain ⟨bytes, modified, rfl⟩ : ∃ bytes modified, n = .file bytes modified := by
          cases n with
          | file bytes modified => exact ⟨bytes, modified, rfl⟩
          | _ => exact absurd nofun hfile
        refine .read rfl ?_
        split
        · exact .inl rfl
        · rename_i found hfound
          obtain rfl := metadata_ok hn hfound
          split
          · exact .inl rfl
          · rename_i hsize
            split
            · exact .inl rfl
            · rename_i htime
              split
              · exact .inl rfl
              · rename_i expected hdigest
                refine .read rfl ?_
                split
                · exact .inl rfl
                · rename_i actual hactual
                  split
                  · exact .inl rfl
                  · rename_i hsame
                    refine .remove hn ?_
                    rw [sha256_ok hn hactual, not_not] at hsame
                    rw [not_not] at hsize htime
                    simp [CleanupEntry.Describes, hkind, hsize.symm, htime.symm, hdigest, hsame]

end Files

section Allowed

variable {sha : List UInt8 → String} {h : List SyncEvent} {t t' : LocalTree} {e : CleanupEntry}
variable {n : LocalNode}

theorem allowed_erase (hn : t.find e.localPath = some n) (hdescribes : e.Describes sha n)
    (he : Deletable h e) : Allowed sha h t (t.erase e.localPath) := by
  intro l
  have herase : (t.erase e.localPath).lookup l =
      if l = locate e.localPath then none else t.lookup l := lookup_filter_ne (locate e.localPath)
  rw [herase]
  by_cases hl : l = locate e.localPath
  · subst hl
    rw [if_pos rfl]
    refine .inr ⟨rfl, fun m hm => ⟨e, rfl, ?_, he⟩⟩
    have hsame : some m = some n := hm.symm.trans hn
    exact Option.some_inj.1 hsame ▸ hdescribes
  · rw [if_neg hl]
    exact .inl rfl

theorem allowed_clean (outcomes : (o : FileOp) → o.Choice) (he : Deletable h e) :
    Allowed sha h t
      ((tryCleanEntry e).solo (fun o => o.step sha (outcomes o)) t).2 := by
  obtain hsame | ⟨n, hn, hdescribes, hgone⟩ :=
    tryCleanEntry_harmless sha t e outcomes
  · rw [hsame]
    exact .refl t
  · rw [hgone]
    exact allowed_erase hn hdescribes he

theorem allowed_removeDir (x : (FileOp.removeDir e.localPath).Choice) (hkind : e.kind = .directory)
    (he : Deletable h e) :
    Allowed sha h t ((FileOp.removeDir e.localPath).step sha x t).2 := by
  obtain hsame | ⟨hn, hgone⟩ := removeDir_tree sha t x
  · rw [hsame]
    exact .refl t
  · rw [hgone]
    exact allowed_erase hn (by simp [CleanupEntry.Describes, hkind]) he

end Allowed

end Purgery.Client
