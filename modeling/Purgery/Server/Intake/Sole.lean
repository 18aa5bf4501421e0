import Purgery.Server.Contention
import Purgery.Server.Intake.Locking

namespace Purgery.Server

open Purgery.Interleaving

/-- What follows of a run from its directories, the lock files in them apart
from their holders. -/
def RunWorld.layout {Tid : Type} (w : RunWorld Tid) (ph : RunPhase) : Option (Option Nat) :=
  (w.dirs ph).map RunDir.lock

section

variable {Tid : Type} {t u : Tid} {w w' : RunWorld Tid} {o : RunOp} {ph : RunPhase}

theorem RunWorld.layout_isSome : (w.layout ph).isSome = (w.dirs ph).isSome := Option.isSome_map

/-- The run has a directory. -/
def RunWorld.Placed (w : RunWorld Tid) : Prop := ∃ ph, (w.layout ph).isSome = true

/-- Process `t` holds the first lock of the run. -/
def RunWorld.Holds (t : Tid) (w : RunWorld Tid) : Prop :=
  w.nextIno = 1 ∧ ∃ g ∈ w.locks, g.ino = 0 ∧ g.tid = t

/-- A run in one phase at most, with one lock file at most. -/
structure RunWorld.Sole (w : RunWorld Tid) : Prop where
  unique : ∀ ph ph', (w.layout ph).isSome = true → (w.layout ph').isSome = true → ph = ph'
  oneIno : w.nextIno ≤ 1
  incoming : (w.layout .incoming).isSome = true → w.nextIno = 0
  opened : (w.layout .processing).isSome = true → w.nextIno = 1
  placed : w.nextIno = 1 → w.Placed
  lockIno : ∀ ph i, ph.terminal = false → w.layout ph = some (some i) → i = 0 ∧ w.nextIno = 1
  queued : ∀ ph, ph.queued = true → (w.layout ph).isSome = true → w.nextIno = 1 →
    w.layout ph = some (some 0)
  oneGrip : ∀ g ∈ w.locks, ∀ g' ∈ w.locks, g.ino = 0 → g'.ino = 0 → g.tid = g'.tid

/-- What process `t` may rely on while it waits. -/
structure RunWorld.Spares (t : Tid) (w w' : RunWorld Tid) : Prop where
  opened : w.nextIno = 1 → w'.nextIno = 1
  holds : w.Holds t → w'.Holds t
  processing : w.Holds t → (w.layout .processing).isSome = true →
    (w'.layout .processing).isSome = true

namespace RunWorld

theorem Spares.refl (t : Tid) (w : RunWorld Tid) : w.Spares t w :=
  ⟨fun h => h, fun h => h, fun _ h => h⟩

theorem Spares.trans {w'' : RunWorld Tid} (h : w.Spares t w') (h' : w'.Spares t w'') :
    w.Spares t w'' where
  opened hw := h'.opened (h.opened hw)
  holds hw := h'.holds (h.holds hw)
  processing hw hp := h'.processing (h.holds hw) (h.processing hw hp)

/-- What keeps the directories in place, and the locks of the others. -/
theorem Spares.of_layout (hlayout : w'.layout = w.layout) (hino : w'.nextIno = w.nextIno)
    (hlocks : ∀ g ∈ w.locks, g.tid = t → g ∈ w'.locks) : w.Spares t w' where
  opened h := hino.trans h
  holds := fun ⟨h, g, hg, h0, ht⟩ => ⟨hino.trans h, g, hlocks g hg ht, h0, ht⟩
  processing _ h := by rwa [hlayout]

theorem layout_setDir {d : Option RunDir} :
    (w.setDir ph d).layout = Function.update w.layout ph (d.map RunDir.lock) := by
  funext ph'
  by_cases h : ph' = ph
  · subst h
    simp [layout, setDir]
  · simp [layout, setDir, h]

theorem layout_change {f : RunDir → Except IoError RunDir}
    (hf : ∀ d d', f d = .ok d' → d'.lock = d.lock) : (w.change ph f).2.layout = w.layout := by
  unfold change
  split
  · rfl
  · rename_i d hd
    split
    · rfl
    · rename_i d' hd'
      rw [layout_setDir, Function.update_eq_self_iff, layout, hd]
      exact congrArg some (hf d d' hd')

theorem nextIno_change {f : RunDir → Except IoError RunDir} :
    (w.change ph f).2.nextIno = w.nextIno := by
  unfold change
  split
  · rfl
  · split <;> rfl

theorem nextIno_inWork {f : Tree → Except IoError Tree} : (w.inWork f).2.nextIno = w.nextIno := by
  unfold inWork
  split
  · rfl
  · split
    · rfl
    · split <;> rfl

theorem nextIno_createWorkDirs {now : Nat} {paths : List String} :
    (w.createWorkDirs now paths).nextIno = w.nextIno := by
  unfold createWorkDirs
  split <;> rfl

variable [DecidableEq Tid]

theorem nextIno_doom {b : Bool} : (RunOp.doom t ph b w).nextIno = w.nextIno := by
  unfold RunOp.doom
  split <;> rfl

omit [DecidableEq Tid] in
theorem nextIno_tryFlock {ino : Nat} : (RunOp.tryFlock t ph ino w).2.nextIno = w.nextIno := by
  unfold RunOp.tryFlock
  split <;> rfl

end RunWorld

variable [DecidableEq Tid] (host : Host) (x : o.Choice) (now : Nat)

/-- Only the opening of a lock makes a new inode. -/
theorem RunOp.step_nextIno (ho : ∀ ph, o ≠ .openLock ph) :
    (o.step host t x now w).2.nextIno = w.nextIno := by
  unfold RunOp.step
  split
  · rfl
  · cases o with
    | openLock ph => exact absurd rfl (ho ph)
    | _ =>
      simp only [RunOp.run, RunWorld.nextIno_change, RunWorld.nextIno_inWork,
        RunWorld.nextIno_createWorkDirs, RunWorld.nextIno_doom, RunWorld.nextIno_tryFlock]
      repeat' split
      all_goals first
        | rfl
        | exact RunWorld.nextIno_doom
        | exact RunWorld.nextIno_inWork

/-- A lock is kept unless its holder drops it. -/
theorem RunOp.step_locks_kept {g : Grip Tid} (hg : g ∈ w.locks)
    (hkeep : g.tid ≠ t ∨ ∀ ino, o ≠ .close ino) : g ∈ (o.step host t x now w).2.locks := by
  unfold RunOp.step
  split
  · exact hg
  · have htry : ∀ ph ino, g ∈ (RunOp.tryFlock t ph ino w).2.locks := by
      intro ph ino
      unfold RunOp.tryFlock
      split
      · exact hg
      · exact List.mem_cons_of_mem _ hg
    cases o with
    | flock ph ino => exact htry ph ino
    | probeFlock ph ino sweep =>
      simp only [RunOp.run, RunOp.doom_locks]
      exact htry ph ino
    | close ino =>
      have hne : g.tid ≠ t := hkeep.resolve_right fun h => h ino rfl
      exact List.mem_filter.2 ⟨hg, by simp [hne]⟩
    | _ =>
      obtain hsame | ⟨ino, ho, -⟩ := RunOp.run_locks_eq host rfl x.2 now (w := w) (t := t)
      · rwa [hsame]
      · cases ho

theorem RunOp.step_oneGrip
    (hw : ∀ g ∈ w.locks, ∀ g' ∈ w.locks, g.ino = 0 → g'.ino = 0 → g.tid = g'.tid) :
    ∀ g ∈ (o.step host t x now w).2.locks, ∀ g' ∈ (o.step host t x now w).2.locks,
      g.ino = 0 → g'.ino = 0 → g.tid = g'.tid := by
  intro g hg g' hg' h0 h0'
  have hfree : ∀ {g g' : Grip Tid}, g' ∈ w.locks → g.ino = 0 → g'.ino = 0 →
      (w.locks.all fun g₁ => g₁.ino != g.ino) = true → False := by
    intro g g' hg' h0 h0' hall
    have hne := List.all_eq_true.1 hall g' hg'
    simp [h0, h0'] at hne
  obtain hg | ⟨-, ht, hall, -⟩ := RunOp.step_locks host o x now hg
  · obtain hg' | ⟨-, ht', hall', -⟩ := RunOp.step_locks host o x now hg'
    · exact hw g hg g' hg' h0 h0'
    · exact (hfree hg h0' h0 hall').elim
  · obtain hg' | ⟨-, ht', hall', -⟩ := RunOp.step_locks host o x now hg'
    · exact (hfree hg' h0 h0' hall).elim
    · exact ht.trans ht'.symm

namespace RunWorld.Sole

omit [DecidableEq Tid] in
/-- A change that leaves the directories where they are. -/
theorem of_layout (hw : w.Sole) (hlayout : w'.layout = w.layout) (hino : w'.nextIno = w.nextIno)
    (hgrip : ∀ g ∈ w'.locks, ∀ g' ∈ w'.locks, g.ino = 0 → g'.ino = 0 → g.tid = g'.tid) :
    w'.Sole where
  unique := by rw [hlayout]; exact hw.unique
  oneIno := by rw [hino]; exact hw.oneIno
  incoming := by rw [hlayout, hino]; exact hw.incoming
  opened := by rw [hlayout, hino]; exact hw.opened
  placed h := by
    obtain ⟨ph, hph⟩ := hw.placed (hino ▸ h)
    exact ⟨ph, by rwa [hlayout]⟩
  lockIno := by rw [hlayout, hino]; exact hw.lockIno
  queued := by rw [hlayout, hino]; exact hw.queued
  oneGrip := hgrip

omit [DecidableEq Tid] in
/-- The lock file of a finished run is removed. -/
theorem relock (hw : w.Sole) {i : Option Nat} (hph : ph.terminal = true)
    (hthere : (w.layout ph).isSome = true)
    (hlayout : w'.layout = Function.update w.layout ph (some i)) (hino : w'.nextIno = w.nextIno)
    (hgrip : ∀ g ∈ w'.locks, ∀ g' ∈ w'.locks, g.ino = 0 → g'.ino = 0 → g.tid = g'.tid) :
    w'.Sole := by
  have hsome : ∀ ph', (w'.layout ph').isSome = (w.layout ph').isSome := by
    intro ph'
    by_cases h : ph' = ph
    · subst h
      simp [hlayout, hthere]
    · simp [hlayout, h]
  have hother : ∀ ph', ph'.terminal = false → w'.layout ph' = w.layout ph' := by
    intro ph' h
    have hne : ph' ≠ ph := by
      rintro rfl
      simp [hph] at h
    simp [hlayout, hne]
  exact {
    unique := fun ph₁ ph₂ h₁ h₂ => hw.unique ph₁ ph₂ (hsome _ ▸ h₁) (hsome _ ▸ h₂)
    oneIno := by rw [hino]; exact hw.oneIno
    incoming := by rw [hsome, hino]; exact hw.incoming
    opened := by rw [hsome, hino]; exact hw.opened
    placed := fun h => ⟨ph, by rw [hsome, hthere]⟩
    lockIno := by
      intro ph' i h
      rw [hother ph' h, hino]
      exact hw.lockIno ph' i h
    queued := by
      intro ph' h
      have ht : ph'.terminal = false := by cases ph' <;> simp_all [RunPhase.queued, RunPhase.terminal]
      rw [hother ph' ht, hino]
      exact hw.queued ph' h
    oneGrip := hgrip }

omit [DecidableEq Tid] in
/-- The directory is renamed. -/
theorem move (hw : w.Sole) {src dst : RunPhase} (hd : (w.layout src).isSome = true)
    (hlead : LeadsTo src dst) (hown : src.queued = true → w.nextIno = 1)
    (hlayout : w'.layout = Function.update (Function.update w.layout src none) dst (w.layout src))
    (hino : w'.nextIno = w.nextIno)
    (hgrip : ∀ g ∈ w'.locks, ∀ g' ∈ w'.locks, g.ino = 0 → g'.ino = 0 → g.tid = g'.tid) :
    w'.Sole := by
  have hdst : w'.layout dst = w.layout src := by simp [hlayout]
  have hsole : ∀ ph, (w'.layout ph).isSome = true → ph = dst := by
    intro ph h
    by_contra hne
    by_cases hs : ph = src
    · subst hs
      simp [hlayout, hne] at h
    · simp only [hlayout, Function.update_of_ne hne, Function.update_of_ne hs] at h
      exact hs (hw.unique ph src h hd)
  have hincoming : dst ≠ .incoming := by
    rintro rfl
    cases src <;> exact hlead
  have hone : dst.queued = true → w.nextIno = 1 → w.layout src = some (some 0) := by
    intro hq h1
    cases src with
    | incoming => exact absurd ((hw.incoming hd).symm.trans h1) (by decide)
    | ready => exact hw.queued .ready rfl hd h1
    | processing => cases dst <;> first | exact hlead.elim | exact nomatch hq
    | done | failed => exact hlead.elim
  exact {
    unique := fun ph₁ ph₂ h₁ h₂ => (hsole ph₁ h₁).trans (hsole ph₂ h₂).symm
    oneIno := by rw [hino]; exact hw.oneIno
    incoming := fun h => absurd (hsole _ h).symm hincoming
    opened := by
      intro h
      obtain rfl := hsole _ h
      rw [hino]
      cases src with
      | ready => exact hown rfl
      | _ => exact hlead.elim
    placed := fun _ => ⟨dst, by rw [hdst, hd]⟩
    lockIno := by
      intro ph i ht h
      obtain rfl := hsole ph (by rw [h]; rfl)
      rw [hdst] at h
      have hsrc : src.terminal = false := by
        cases src <;> first | rfl | exact hlead.elim
      rw [hino]
      exact hw.lockIno src i hsrc h
    queued := by
      intro ph hq h h1
      obtain rfl := hsole ph h
      rw [hdst]
      exact hone hq (hino ▸ h1)
    oneGrip := hgrip }

omit [DecidableEq Tid] in
/-- The first lock file is created. -/
theorem openLock (hw : w.Sole) (hph : ph.queued = true) (hd : w.layout ph = some none)
    (hlayout : w'.layout = Function.update w.layout ph (some (some w.nextIno)))
    (hino : w'.nextIno = w.nextIno + 1)
    (hgrip : ∀ g ∈ w'.locks, ∀ g' ∈ w'.locks, g.ino = 0 → g'.ino = 0 → g.tid = g'.tid) :
    w.nextIno = 0 ∧ w'.Sole := by
  have hthere : (w.layout ph).isSome = true := by simp [hd]
  have h0 : w.nextIno = 0 := by
    by_contra hne
    have h1 : w.nextIno = 1 := by
      have := hw.oneIno
      omega
    exact nomatch hd.symm.trans (hw.queued ph hph hthere h1)
  have h1 : w'.nextIno = 1 := by rw [hino, h0]
  have hsole : ∀ ph', (w'.layout ph').isSome = true → ph' = ph := by
    intro ph' h
    by_contra hne
    rw [hlayout, Function.update_of_ne hne] at h
    exact hne (hw.unique ph' ph h hthere)
  have hzero : w'.layout ph = some (some 0) := by simp [hlayout, h0]
  refine ⟨h0, ?_⟩
  exact {
    unique := fun ph₁ ph₂ h₁ h₂ => (hsole ph₁ h₁).trans (hsole ph₂ h₂).symm
    oneIno := by rw [h1]
    incoming := by
      intro h
      obtain rfl := hsole _ h
      exact nomatch hph
    opened := fun _ => h1
    placed := fun _ => ⟨ph, by rw [hzero]; rfl⟩
    lockIno := by
      intro ph' i _ h
      obtain rfl := hsole ph' (by rw [h]; rfl)
      rw [hzero] at h
      cases h
      exact ⟨rfl, h1⟩
    queued := by
      intro ph' _ h _
      obtain rfl := hsole ph' h
      exact hzero
    oneGrip := hgrip }

end RunWorld.Sole

variable {host x now} {config : ServerConfig} {k : RunKey}

/-- What a call does to the place of a run. -/
structure RunWorld.Orderly (t : Tid) (o : RunOp) (w w' : RunWorld Tid) : Prop where
  sole : w'.Sole
  placed : w.Placed → w'.Placed
  opened : w.nextIno = 1 → w'.nextIno = 1
  holds : ∀ u, u ≠ t ∨ (∀ ino, o ≠ .close ino) → w.Holds u → w'.Holds u
  processing : ∀ u, u ≠ t ∨ (∀ dst, o ≠ .move .processing dst) → w.Holds u →
    (w.layout .processing).isSome = true → (w'.layout .processing).isSome = true

omit [DecidableEq Tid] in
theorem RunWorld.Orderly.spares (h : w.Orderly t o w') (hu : u ≠ t) : w.Spares u w' :=
  ⟨h.opened, h.holds u (.inl hu), h.processing u (.inl hu)⟩

section Step

variable (hw : w.Sole)

include hw

theorem RunOp.step_orderly (hopened : w.nextIno = 1 → (o.step host t x now w).2.nextIno = 1)
    (hplaced : w.Placed → (o.step host t x now w).2.Placed)
    (hprocessing : ∀ u, u ≠ t ∨ (∀ dst, o ≠ .move .processing dst) → w.Holds u →
      (w.layout .processing).isSome = true →
        ((o.step host t x now w).2.layout .processing).isSome = true)
    (hsole : (∀ g ∈ (o.step host t x now w).2.locks, ∀ g' ∈ (o.step host t x now w).2.locks,
      g.ino = 0 → g'.ino = 0 → g.tid = g'.tid) → (o.step host t x now w).2.Sole) :
    w.Orderly t o (o.step host t x now w).2 where
  sole := hsole (RunOp.step_oneGrip host x now hw.oneGrip)
  placed := hplaced
  opened := hopened
  holds u hu := by
    rintro ⟨h1, g, hg, h0, rfl⟩
    exact ⟨hopened h1, g, RunOp.step_locks_kept host x now hg hu, h0, rfl⟩
  processing := hprocessing

/-- A call that leaves the directories where they are. -/
theorem RunOp.step_stays (hlayout : (o.step host t x now w).2.layout = w.layout)
    (hino : (o.step host t x now w).2.nextIno = w.nextIno) :
    w.Orderly t o (o.step host t x now w).2 := by
  refine RunOp.step_orderly hw (fun h => hino.trans h) ?_ (fun _ _ _ h => by rwa [hlayout])
    (hw.of_layout hlayout hino)
  exact fun ⟨ph, h⟩ => ⟨ph, by rwa [hlayout]⟩

theorem RunOp.step_openLock {ph : RunPhase} {x : (RunOp.openLock ph).Choice}
    (hph : ph.queued = true) : w.Orderly t (.openLock ph) (RunOp.step host t (.openLock ph) x now w).2 := by
  obtain ⟨failure, x⟩ := x
  cases failure with
  | some m => exact RunOp.step_stays hw rfl rfl
  | none =>
    have hrun : RunOp.step host t (.openLock ph) (none, x) now w =
      RunOp.run host t (.openLock ph) x now w := rfl
    cases hd : w.dirs ph with
    | none => exact RunOp.step_stays hw (by simp [hrun, RunOp.run, hd]) (by simp [hrun, RunOp.run, hd])
    | some d =>
      cases hl : d.lock with
      | some i =>
        exact RunOp.step_stays hw (by simp [hrun, RunOp.run, hd, hl])
          (by simp [hrun, RunOp.run, hd, hl])
      | none =>
        have hlayout : (RunOp.step host t (.openLock ph) (none, x) now w).2.layout =
            Function.update w.layout ph (some (some w.nextIno)) := by
          simp only [hrun, RunOp.run, hd, hl, RunWorld.layout_setDir]
          rfl
        have hino : (RunOp.step host t (.openLock ph) (none, x) now w).2.nextIno = w.nextIno + 1 := by
          simp [hrun, RunOp.run, hd, hl, RunWorld.setDir]
        have hnone : w.layout ph = some none := by simp [RunWorld.layout, hd, hl]
        have hopen := hw.openLock hph hnone hlayout hino (RunOp.step_oneGrip host _ now hw.oneGrip)
        have h0 : w.nextIno ≠ 1 := by simp [hopen.1]
        exact RunOp.step_orderly hw (fun h => absurd h h0)
          (fun _ => ⟨ph, by simp [hlayout]⟩) (fun _ _ h => absurd h.1 h0) fun _ => hopen.2

/-- Code moves an accepted run and sets up its work area with the lock only. -/
theorem RunOp.step_sole (hi : o.Issued config k 0) (hr : o.removes = false)
    (hmove : ∀ src dst, o = .move src dst → src.queued = true → w.Holds t)
    (hcreate : (o = .createWork ∨ ∃ path, o = .createWorkParent path) →
      (w.layout .processing).isSome = true) : w.Orderly t o (o.step host t x now w).2 := by
  by_cases hopen : ∃ ph, o = .openLock ph
  · obtain ⟨ph, rfl⟩ := hopen
    exact RunOp.step_openLock hw hi
  have hino := RunOp.step_nextIno host x now (w := w) (t := t) fun ph ho => hopen ⟨ph, ho⟩
  cases RunOp.step_effect host t hr x now w with
  | same h => exact RunOp.step_stays hw (by funext ph; simp [RunWorld.layout, h]) hino
  | edit ph d d' hd he h =>
    have hlayout : (o.step host t x now w).2.layout =
        Function.update w.layout ph (some d'.lock) := by
      funext ph'
      by_cases hne : ph' = ph
      · subst hne
        simp [RunWorld.layout, h]
      · simp [RunWorld.layout, h, hne]
    have hthere : w.layout ph = some d.lock := by simp [RunWorld.layout, hd]
    obtain hl | ⟨ho, -⟩ | ho := he.lock
    · refine RunOp.step_stays hw ?_ hino
      rw [hlayout, hl, ← hthere, Function.update_eq_self]
    · exact absurd ⟨ph, ho⟩ hopen
    · subst ho
      refine RunOp.step_orderly hw (fun h => hino.trans h) (fun _ => ⟨ph, by simp [hlayout]⟩) ?_
        (hw.relock hi (by simp [hthere]) hlayout hino)
      intro u _ _ hp
      by_cases hne : RunPhase.processing = ph
      · simp [hlayout, hne]
      · simp [hlayout, hne, hp]
  | move src dst d ho hd hfree h =>
    subst ho
    have hthere : w.layout src = some d.lock := by simp [RunWorld.layout, hd]
    have hlayout : (RunOp.step host t (.move src dst) x now w).2.layout =
        Function.update (Function.update w.layout src none) dst (w.layout src) := by
      funext ph'
      by_cases hne : ph' = dst
      · subst hne
        simp [RunWorld.layout, h, hd]
      · by_cases hs : ph' = src
        · subst hs
          simp [RunWorld.layout, h, hne]
        · simp [RunWorld.layout, h, hne, hs]
    have hsome : (w.layout src).isSome = true := by simp [hthere]
    refine RunOp.step_orderly hw (fun h => hino.trans h) (fun _ => ⟨dst, by simp [hlayout, hthere]⟩)
      ?_ (hw.move hsome hi (fun hq => (hmove src dst rfl hq).1) hlayout hino)
    intro u hu hheld hp
    obtain rfl := hw.unique _ _ hp hsome
    obtain hu | hu := hu
    · obtain ⟨_, g, hg, h0, rfl⟩ := hheld
      obtain ⟨_, g', hg', h0', rfl⟩ := hmove .processing dst rfl rfl
      exact absurd (hw.oneGrip g hg g' hg' h0 h0') hu
    · exact absurd rfl (hu dst)
  | create d ho hfree h =>
    have hp := hcreate ho
    simp [RunWorld.layout, hfree] at hp

end Step

end

end Purgery.Server
