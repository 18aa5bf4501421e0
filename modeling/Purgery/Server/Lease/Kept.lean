import Purgery.Server.Exclusion.History
import Purgery.Server.Lease.Calls

namespace Purgery.Server

open Purgery.Interleaving

section Lease

variable (config : ServerConfig) (k : RunKey)

/-- The lease that a collection trusts. -/
def currentLease (s : FileState .lease) : Option LeaseFile :=
  s.read.toOption.bind (trustedLease k)

/-- The lease of an incoming run has run out, or there is none to trust and the
directory is past the retention of orphans. -/
def leaseOver (now : Nat) (lease : FileState .lease) (mtime : Nat) : Bool :=
  match currentLease k lease with
  | some l => decide (now ≥ l.expiresAtUnixSecs)
  | none => pastRetention now config.gc.orphanRetentionSecs mtime

variable {config k} {now clock : Nat} {lease : FileState .lease} {mtime : Nat}

theorem leaseOver_mono (h : now ≤ clock) (ho : leaseOver config k now lease mtime = true) :
    leaseOver config k clock lease mtime = true := by
  unfold leaseOver at ho ⊢
  split at ho
  · have := of_decide_eq_true ho
    exact decide_eq_true (by omega)
  · have := of_decide_eq_true ho
    exact decide_eq_true (by omega)

theorem leaseOver_of_expired (h : leaseExpired k now lease.read = true) :
    leaseOver config k now lease mtime = true := by
  unfold leaseExpired at h
  split at h
  · exact nomatch h
  · rename_i content hread
    obtain ⟨l, hl, hnow⟩ := (Option.any_eq_true _ _).1 h
    have hcur : currentLease k lease = some l := by
      simp [currentLease, hread, Except.toOption, hl]
    simpa [leaseOver, hcur] using hnow

theorem leaseOver_of_orphan (h : currentLease k lease = none)
    (hpast : pastRetention now config.gc.orphanRetentionSecs mtime = true) :
    leaseOver config k now lease mtime = true := by
  simp [leaseOver, h, hpast]

end Lease

section Kept

variable {Tid : Type} {config : ServerConfig} {k : RunKey} {clock : Nat} {w w' : RunWorld Tid}

/-- The history knows what the directory holds, until a removal starts. -/
def RunDir.Synced (d : RunDir) : Prop :=
  d.touched = false →
    d.shadow = ⟨d.file .lease, d.mtime, d.file .runConfig, d.file .manifest, d.tree .files⟩

/-- What holds of an incoming run: a collection that deletes it has a reason to
which nobody has objected. -/
structure Kept (config : ServerConfig) (k : RunKey) (clock : Nat) (w : RunWorld Tid) : Prop where
  synced : ∀ d, w.dirs .incoming = some d → d.Synced
  ended : ∀ t d, w.pass t = some .incoming → w.dirs .incoming = some d →
    leaseOver config k clock d.shadow.lease d.shadow.mtime = true

theorem Kept.same (h : Kept config k clock w) (hd : w'.dirs .incoming = w.dirs .incoming)
    (hp : ∀ u, w'.pass u = some .incoming → w.pass u = some .incoming) :
    Kept config k clock w' where
  synced d hd' := h.synced d (hd ▸ hd')
  ended t d ht hd' := h.ended t d (hp t ht) (hd ▸ hd')

theorem Kept.gone (hd : w'.dirs .incoming = none) : Kept config k clock w' where
  synced d hd' := nomatch hd.symm.trans hd'
  ended t d _ hd' := nomatch hd.symm.trans hd'

theorem Kept.setDir {ph : RunPhase} {d : Option RunDir} (h : Kept config k clock w)
    (hph : ph ≠ .incoming) : Kept config k clock (w.setDir ph d) :=
  h.same (by simp [RunWorld.setDir, hph.symm]) fun _ hp => hp

/-- The directory changes, and the history with it, or not at all. -/
theorem Kept.replace {d d' : RunDir} (h : Kept config k clock w) (hd : w.dirs .incoming = some d)
    (hsynced : d'.Synced) (hshadow : d'.shadow = d.shadow ∨ ∀ u, w.pass u = none) :
    Kept config k clock (w.setDir .incoming (some d')) where
  synced e he := by
    obtain rfl : d' = e := by simpa [RunWorld.setDir] using he
    exact hsynced
  ended t e ht he := by
    obtain rfl : d' = e := by simpa [RunWorld.setDir] using he
    obtain hs | hp := hshadow
    · rw [hs]
      exact h.ended t d ht hd
    · exact absurd ((hp t).symm.trans ht) (by simp)

theorem Kept.change {ph : RunPhase} {f : RunDir → Except IoError RunDir}
    (h : Kept config k clock w) (hph : ph ≠ .incoming) :
    Kept config k clock (w.change ph f).2 := by
  unfold RunWorld.change
  split
  · exact h
  · split
    · exact h
    · exact h.setDir hph

theorem Kept.inWork {f : Tree → Except IoError Tree} (h : Kept config k clock w) :
    Kept config k clock (w.inWork f).2 := by
  unfold RunWorld.inWork
  split
  · exact h
  · split
    · exact h
    · split
      · exact h
      · exact h.setDir nofun

theorem Kept.createWorkDirs {now : Nat} {paths : List String} (h : Kept config k clock w) :
    Kept config k clock (w.createWorkDirs now paths) := by
  unfold RunWorld.createWorkDirs
  split
  · exact h.setDir nofun
  · exact h.same (by simp [RunWorld.setDir]) fun _ hp => hp

theorem RunDir.Synced.openTmp {d : RunDir} (h : d.Synced) (f : FileName)
    (torn : Except String (Doc f.Content)) (now : Nat) : (d.openTmp f torn now).Synced := by
  intro ht
  rw [RunDir.openTmp_touched] at ht
  have hs := h ht
  unfold RunDir.openTmp
  split
  · simp [RunDir.setTmp, RunDir.stamp, hs]
  · simp [RunDir.setTmp, hs]

theorem RunDir.Synced.publish_lease {d : RunDir} (h : d.Synced) (now : Nat) :
    (d.publish .lease now).Synced := by
  intro ht
  have hs := h ht
  simp [RunDir.publish, RunDir.setFile, RunDir.setTmp, RunDir.stamp, hs]

theorem RunDir.Synced.upload {d : RunDir} (h : d.Synced) (now : Nat) (u : Upload) :
    (d.upload now u).Synced := by
  intro ht
  rw [show (d.upload now u).touched = d.touched from (RunDir.upload_core d now u).2] at ht
  have hs := h ht
  cases u <;> simp [RunDir.upload, RunDir.setFile, RunDir.setTree, RunDir.stamp, hs]

variable [DecidableEq Tid] {t : Tid}

theorem Kept.doom {ph : RunPhase} {b : Bool} (h : Kept config k clock w)
    (hph : ph = .incoming → b = false) : Kept config k clock (RunOp.doom t ph b w) := by
  unfold RunOp.doom
  split
  · rename_i hb
    refine h.same rfl fun u hu => ?_
    by_cases hut : u = t
    · have hinc : ph = .incoming := by simpa [RunWorld.setPass, hut] using hu
      simp [hph hinc] at hb
    · simpa [RunWorld.setPass, hut] using hu
  · exact h

/-- A decision on the incoming run, by a reason that holds. -/
theorem Kept.condemn {b : Bool} (h : Kept config k clock w)
    (hover : b = true → ∀ d, w.dirs .incoming = some d →
      leaseOver config k clock d.shadow.lease d.shadow.mtime = true) :
    Kept config k clock (RunOp.doom t .incoming b w) := by
  unfold RunOp.doom
  split
  · rename_i hb
    refine ⟨h.synced, fun u d hu hd => hover ?_ d hd⟩
    simp only [Bool.and_eq_true] at hb
    exact hb.1
  · exact h

theorem Kept.release (h : Kept config k clock w) : Kept config k clock (w.setPass t none) :=
  h.same rfl fun u hu => by
    by_cases hut : u = t
    · simp [RunWorld.setPass, hut] at hu
    · simpa [RunWorld.setPass, hut] using hu

omit [DecidableEq Tid] in
theorem Kept.tryFlock {ph : RunPhase} {ino : Nat} (h : Kept config k clock w) :
    Kept config k clock (RunOp.tryFlock t ph ino w).2 := by
  unfold RunOp.tryFlock
  split
  · exact h
  · exact h.same rfl fun _ hp => hp

end Kept

end Purgery.Server
