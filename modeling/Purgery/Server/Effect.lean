import Purgery.Server.Exclusion.View

namespace Purgery.Server

/-- What a call changes in a run directory at `ph`. -/
structure Edit (o : RunOp) (ph : RunPhase) (d d' : RunDir) : Prop where
  id : d'.id = d.id
  touched : d'.touched = d.touched
  file : ∀ f, d'.file f = d.file f ∨
    o = .publish ph f ∧ d'.file f = d.tmp f ∧ d.has (.tmp f) = true ∨
    o = .removeFile ph f ∧ d'.file f = .missing
  tmp : ∀ f, d'.tmp f = d.tmp f ∨ o = .openTmp ph f ∨
    (∃ dir doc, o = .writeTmp dir f doc ∧ d'.tmp f = .text doc) ∨
    o = .publish ph f ∨ o = .removeTmp ph f
  lock : d'.lock = d.lock ∨ o = .openLock ph ∧ d.lock = none ∨ o = .removeLock ph
  staged : d'.tree .files = d.tree .files ∨ o = .breakTree ph .files ∨ o = .removeTree ph .files

/-- What a call does to the phase directories of a run. -/
inductive Effect {Tid : Type} (o : RunOp) (w w' : RunWorld Tid) : Prop where
  | same (h : w'.dirs = w.dirs)
  | edit (ph : RunPhase) (d d' : RunDir) (hd : w.dirs ph = some d) (he : Edit o ph d d')
    (h : w'.dirs = Function.update w.dirs ph (some d'))
  | move (src dst : RunPhase) (d : RunDir) (ho : o = .move src dst) (hd : w.dirs src = some d)
    (hfree : w.dirs dst = none)
    (h : w'.dirs = Function.update (Function.update w.dirs src none) dst (some d))
  | create (d : RunDir) (ho : o = .createWork ∨ ∃ path, o = .createWorkParent path)
    (hfree : w.dirs .processing = none)
    (h : w'.dirs = Function.update w.dirs .processing (some d))

namespace Edit

variable {o : RunOp} {ph : RunPhase} {d d' : RunDir}

theorem refl (o : RunOp) (ph : RunPhase) (d : RunDir) : Edit o ph d d where
  id := rfl
  touched := rfl
  file _ := .inl rfl
  tmp _ := .inl rfl
  lock := .inl rfl
  staged := .inl rfl

theorem work (x : Option Tree) : Edit o ph d (d.setTree .work x) :=
  { refl o ph d with staged := .inl (by simp [RunDir.setTree]) }

theorem openTmp (f : FileName) (torn : Except String (Doc f.Content)) (now : Nat) :
    Edit (.openTmp ph f) ph d (d.openTmp f torn now) := by
  have htmp : ∀ f', Function.update d.tmp f (FileState.ofTorn torn) f' = d.tmp f' ∨
      RunOp.openTmp ph f = .openTmp ph f' := by
    intro f'
    by_cases hf : f' = f
    · exact .inr (hf ▸ rfl)
    · exact .inl (by simp [hf])
  unfold RunDir.openTmp
  split
  · exact { refl _ ph d with tmp := fun f' => (htmp f').imp_right .inl }
  · exact { refl _ ph d with tmp := fun f' => (htmp f').imp_right .inl }

theorem writeTmp (dir : Nat) (f : FileName) (doc : Doc f.Content) (now : Nat) :
    Edit (.writeTmp dir f doc) ph d
      (if d.has (.tmp f) then { d.setTmp f (.text doc) with tmpMtime := now } else d) := by
  split
  · refine { refl _ ph d with tmp := fun f' => ?_ }
    by_cases hf : f' = f
    · subst hf
      exact .inr (.inr (.inl ⟨dir, doc, rfl, by simp [RunDir.setTmp]⟩))
    · exact .inl (by simp [RunDir.setTmp, hf])
  · exact refl _ ph d

theorem publish (f : FileName) (now : Nat) (h : d.has (.tmp f) = true) :
    Edit (.publish ph f) ph d (d.publish f now) := by
  have hsame : ∀ d₀ : RunDir, d₀.id = d.id → d₀.touched = d.touched → d₀.lock = d.lock →
      d₀.tree = d.tree → d₀.file = Function.update d.file f (d.tmp f) →
      d₀.tmp = Function.update d.tmp f .missing → Edit (.publish ph f) ph d d₀ := by
    intro d₀ hid ht hl htree hfile htmp
    refine ⟨hid, ht, fun f' => ?_, fun f' => ?_, .inl hl, .inl (by rw [htree])⟩
    · by_cases hf : f' = f
      · subst hf
        exact .inr (.inl ⟨rfl, by simp [hfile], h⟩)
      · exact .inl (by simp [hfile, hf])
    · by_cases hf : f' = f
      · exact .inr (.inr (.inr (.inl (hf ▸ rfl))))
      · exact .inl (by simp [htmp, hf])
  cases f <;> exact hsame _ rfl rfl rfl rfl rfl rfl

theorem removeEntry {e : RunEntry} {now : Nat} (h : d.removeEntry e now = .ok d')
    (hfile : ∀ f, e = .file f → o = .removeFile ph f) (htmp : ∀ f, e = .tmp f → o = .removeTmp ph f)
    (hlock : e = .lock → o = .removeLock ph)
    (htree : ∀ s, e = .tree s → o = .removeTree ph s) (hin : ∀ s p, e ≠ .inTree s p) :
    Edit o ph d d' := by
  unfold RunDir.removeEntry at h
  split at h
  · cases h
    cases e with
    | file f =>
      refine { refl o ph d with file := fun f' => ?_ }
      by_cases hf : f' = f
      · subst hf
        exact .inr (.inr ⟨hfile _ rfl, by simp [RunDir.without, RunDir.stamp, RunDir.setFile]⟩)
      · exact .inl (by simp [RunDir.without, RunDir.stamp, RunDir.setFile, hf])
    | tmp f =>
      refine { refl o ph d with tmp := fun f' => ?_ }
      by_cases hf : f' = f
      · subst hf
        exact .inr (.inr (.inr (.inr (htmp _ rfl))))
      · exact .inl (by simp [RunDir.without, RunDir.stamp, RunDir.setTmp, hf])
    | lock => exact { refl o ph d with lock := .inr (.inr (hlock rfl)) }
    | inTree s p => exact absurd rfl (hin s p)
    | tree s =>
      cases s with
      | files => exact { refl o ph d with staged := .inr (.inr (htree _ rfl)) }
      | work => exact { refl o ph d with staged := .inl (by simp [RunDir.without, RunDir.stamp, RunDir.setTree]) }
  · exact nomatch h

end Edit

namespace Effect

variable {Tid : Type} {o : RunOp} {w w' : RunWorld Tid} {ph : RunPhase}

theorem refl (o : RunOp) (w : RunWorld Tid) : Effect o w w := .same rfl

theorem of_dirs {w'' : RunWorld Tid} (h : Effect o w w') (hd : w''.dirs = w'.dirs) :
    Effect o w w'' := by
  cases h with
  | same h => exact .same (hd.trans h)
  | edit ph d d' hdir he h => exact .edit ph d d' hdir he (hd.trans h)
  | move src dst d ho hdir hfree h => exact .move src dst d ho hdir hfree (hd.trans h)
  | create d ho hfree h => exact .create d ho hfree (hd.trans h)

theorem setDir {d d' : RunDir} (hd : w.dirs ph = some d) (he : Edit o ph d d') :
    Effect o w (w.setDir ph (some d')) := .edit ph d d' hd he rfl

theorem map {f : RunDir → RunDir} (hf : ∀ d, Edit o ph d (f d)) :
    Effect o w (w.setDir ph ((w.dirs ph).map f)) := by
  cases hd : w.dirs ph with
  | none => exact .same (Function.update_eq_self_iff.2 hd.symm)
  | some d => exact setDir hd (hf d)

theorem change {f : RunDir → Except IoError RunDir} (hf : ∀ d d', f d = .ok d' → Edit o ph d d') :
    Effect o w (w.change ph f).2 := by
  unfold RunWorld.change
  split
  · exact refl o w
  · split
    · exact refl o w
    · exact setDir ‹_› (hf _ _ ‹_›)

theorem inWork {f : Tree → Except IoError Tree} : Effect o w (w.inWork f).2 := by
  unfold RunWorld.inWork
  split
  · exact refl o w
  · split
    · exact refl o w
    · split
      · exact refl o w
      · exact setDir ‹_› (.work _)

theorem createWorkDirs {now : Nat} {paths : List String}
    (ho : o = .createWork ∨ ∃ path, o = .createWorkParent path) :
    Effect o w (w.createWorkDirs now paths) := by
  unfold RunWorld.createWorkDirs
  split
  · exact setDir ‹_› (.work _)
  · exact .create _ ho ‹_› rfl

variable [DecidableEq Tid] {t : Tid}

theorem doom (h : Effect o w w') (b : Bool) : Effect o w (RunOp.doom t ph b w') := by
  unfold RunOp.doom
  split
  · exact h.of_dirs rfl
  · exact h

omit [DecidableEq Tid] in
theorem tryFlock (ino : Nat) : Effect o w (RunOp.tryFlock t ph ino w).2 := by
  unfold RunOp.tryFlock
  split <;> exact .same rfl

end Effect

variable {Tid : Type} [DecidableEq Tid]

/-- The calls other than those of a removal. -/
theorem RunOp.run_effect (host : Host) (t : Tid) {o : RunOp} (ho : o.removes = false)
    (x : o.Extra) (now : Nat) (w : RunWorld Tid) : Effect o w (o.run host t x now w).2 := by
  cases o with
  | lockExists ph sweep | readLease dooms => exact (Effect.refl _ w).doom _
  | modified ph dooms =>
    simp only [RunOp.run]
    split
    · exact .refl _ w
    · exact (Effect.refl _ w).doom _
  | openTmp ph f =>
    simp only [RunOp.run]
    split
    · exact .refl _ w
    · exact .setDir ‹_› (.openTmp f x now)
  | writeTmp dir f doc =>
    simp only [RunOp.run]
    split
    · exact .refl _ w
    · exact .map fun d => .writeTmp dir f doc now
  | publish ph f =>
    simp only [RunOp.run]
    split
    · exact .refl _ w
    · rename_i d hd
      split
      · rename_i h
        exact (Effect.setDir hd (.publish f now h)).of_dirs rfl
      · exact .refl _ w
  | removeFile ph f => exact .change fun d d' h => .removeEntry h (by simp) nofun nofun nofun nofun
  | removeTmp ph f => exact .change fun d d' h => .removeEntry h nofun (by simp) nofun nofun nofun
  | removeLock ph => exact .change fun d d' h => .removeEntry h nofun nofun (by simp) nofun nofun
  | removeTree ph s => exact .change fun d d' h => .removeEntry h nofun nofun nofun (by simp) nofun
  | breakTree ph s =>
    refine .change fun d d' h => ?_
    split at h
    · exact nomatch h
    · cases h
      cases s with
      | files => exact { Edit.refl _ ph d with staged := .inr (.inl rfl) }
      | work => exact .work _
  | move src dst =>
    simp only [RunOp.run]
    split
    · exact .refl _ w
    · exact .refl _ w
    · exact .move src dst _ rfl ‹_› ‹_› rfl
  | openLock ph =>
    simp only [RunOp.run]
    split
    · exact .refl _ w
    · rename_i d hd
      split
      · exact .refl _ w
      · rename_i hl
        have he : Edit (.openLock ph) ph d ((d.setLock (some w.nextIno)).stamp now) :=
          { Edit.refl _ ph d with lock := .inr (.inl ⟨rfl, hl⟩) }
        exact (Effect.setDir hd he).of_dirs rfl
  | openLockReadonly ph sweep =>
    simp only [RunOp.run]
    split
    · exact .refl _ w
    · split
      · exact .refl _ w
      · exact (Effect.refl _ w).doom _
  | flock ph ino => exact .tryFlock ino
  | probeFlock ph ino sweep => exact (Effect.tryFlock ino).doom _
  | close ino => exact .same rfl
  | createWork => exact .createWorkDirs (.inl rfl)
  | createWorkParent path => exact .createWorkDirs (.inr ⟨path, rfl⟩)
  | createWorkDir path | openWorkFile path | linkInWork path target => exact .inWork
  | copyToWork source path =>
    simp only [RunOp.run]
    split
    · exact .refl _ w
    · exact .inWork
  | spawn c =>
    simp only [RunOp.run]
    split
    · exact .refl _ w
    · rename_i d hd
      exact .edit .processing d _ hd (.work _) rfl
  | reap =>
    have hwork : Effect .reap w (w.setDir .processing
        ((w.dirs .processing).map fun d => d.setTree .work (some x.2.2))) :=
      .map fun d => .work _
    exact hwork.of_dirs rfl
  | openDir ph =>
    simp only [RunOp.run]
    split <;> exact .same rfl
  | unlink dir e | rmdir ph => exact nomatch ho
  | _ => exact .refl _ w

theorem RunOp.step_effect (host : Host) (t : Tid) {o : RunOp} (ho : o.removes = false)
    (x : o.Choice) (now : Nat) (w : RunWorld Tid) : Effect o w (o.step host t x now w).2 := by
  unfold RunOp.step
  split
  · exact .same rfl
  · exact RunOp.run_effect host t ho x.2 now w

end Purgery.Server
