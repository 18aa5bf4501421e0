import Purgery.Interleaving.Alone
import Purgery.Server.Exclusion.Listing
import Purgery.Server.Gc
import Purgery.Server.Inodes

namespace Purgery.Server

open Purgery.Interleaving

section Clock

variable {Tid : Type} (config : ServerConfig) (k : RunKey)

/-- Somebody holds the lock of the directory. -/
def RunDir.busy (locks : List (Grip Tid)) (d : RunDir) : Bool :=
  d.lock.any fun ino => locks.any fun g => g.ino == ino

/-- Whether a collection at this time deletes the run directory. -/
def retentionOver (ph : RunPhase) (now : Nat) (locks : List (Grip Tid)) (d : RunDir) : Bool :=
  let orphan := pastRetention now config.gc.orphanRetentionSecs d.mtime
  match ph with
  | .incoming =>
    match (d.file .lease).read.toOption.bind (trustedLease k) with
    | some lease => decide (now ≥ lease.expiresAtUnixSecs)
    | none => orphan
  | .ready => pastRetention now config.gc.readyRetentionSecs d.mtime
  | .processing =>
    pastRetention now config.gc.processingRetentionSecs d.mtime && !d.busy locks
  | .done =>
    if classifyTerminalStatus k .done (d.file .status).read then
      pastRetention now config.gc.doneRetentionSecs d.statusMtime
    else orphan
  | .failed =>
    if classifyTerminalStatus k .failed (d.file .status).read then
      pastRetention now config.gc.failedRetentionSecs d.statusMtime
    else orphan

/-- What the clock of a terminal run is read from stays. -/
structure RunDir.SameStatus (d d' : RunDir) : Prop where
  id : d'.id = d.id
  file : d'.file .status = d.file .status
  statusMtime : d'.statusMtime = d.statusMtime

/-- What a collection may leave of a directory that it does not delete. -/
def Pruned (ph : RunPhase) (d d' : RunDir) : Prop :=
  d' = d ∨ ph = .done ∧ classifyTerminalStatus k .done (d.file .status).read = true ∧
    d.SameStatus d'

variable {config k} {ph : RunPhase} {now : Nat} {locks : List (Grip Tid)} {d d' d'' : RunDir}

theorem RunDir.SameStatus.refl (d : RunDir) : d.SameStatus d := ⟨rfl, rfl, rfl⟩

theorem RunDir.SameStatus.trans (h : d.SameStatus d') (h' : d'.SameStatus d'') :
    d.SameStatus d'' :=
  ⟨h'.id.trans h.id, h'.file.trans h.file, h'.statusMtime.trans h.statusMtime⟩

theorem Pruned.id (h : Pruned k ph d d') : d'.id = d.id := by
  obtain rfl | ⟨-, -, h⟩ := h
  · rfl
  · exact h.id

theorem Pruned.trans (h : Pruned k ph d d') (h' : Pruned k ph d' d'') : Pruned k ph d d'' := by
  obtain rfl | ⟨rfl, hvalid, hsame⟩ := h
  · exact h'
  · obtain rfl | ⟨-, -, hsame'⟩ := h'
    · exact .inr ⟨rfl, hvalid, hsame⟩
    · exact .inr ⟨rfl, hvalid, hsame.trans hsame'⟩

/-- Pruning does not touch the clock. -/
theorem Pruned.retentionOver (h : Pruned k ph d d') (locks : List (Grip Tid)) :
    retentionOver config k ph now locks d' = retentionOver config k ph now locks d := by
  obtain rfl | ⟨rfl, hvalid, hsame⟩ := h
  · rfl
  · simp only [Server.retentionOver, hsame.file, hvalid, if_true, hsame.statusMtime]

end Clock

section Calls

variable {Tid : Type} [DecidableEq Tid]

/-- The calls on a run that none of its own reasons makes fail. -/
def calmCall (host : Host) (t : Tid) (now : Nat) :
    Alone RunOp RunOp.Res RunOp.Extra (RunWorld Tid) where
  step o x w := o.run host t x now w
  admits _ _ := True
  sound _ _ := True

/-- The directories and the locks of a run are these. -/
structure Rests (D : RunPhase → Option RunDir) (locks : List (Grip Tid)) (w : RunWorld Tid) :
    Prop where
  dirs : w.dirs = D
  locks : w.locks = locks

variable {config : ServerConfig} {k : RunKey} {host : Host} {t : Tid} {now clock : Nat}
variable {ph : RunPhase} {D : RunPhase → Option RunDir} {locks : List (Grip Tid)}
variable {w : RunWorld Tid} {d : RunDir}

theorem calm_sys {o : RunOp} {Q : o.Res → RunWorld Tid → Prop}
    (h : ∀ x, Q (o.run host t x clock w).1 (o.run host t x clock w).2) :
    (calmCall host t clock).wp (sys o) Q w :=
  fun x _ => ⟨trivial, h x⟩

theorem calm_ask {ε : Type} {o : RunOp} {Q : o.Res → RunWorld Tid → Prop}
    (h : ∀ x, Q (o.run host t x clock w).1 (o.run host t x clock w).2) :
    (calmCall host t clock).Succeeds (ask o : ExceptT ε Call o.Res) Q w :=
  .lift (calm_sys h)

theorem calm_io {ε α : Type} {c : Call (Except IoError α)} {describe : IoError → ε}
    {P : α → RunWorld Tid → Prop}
    (h : (calmCall host t clock).wp c (fun r w => ∃ a, r = .ok a ∧ P a w) w) :
    (calmCall host t clock).Succeeds (io c describe) P w :=
  .adapt h

theorem Rests.doom (h : Rests D locks w) (b : Bool) : Rests D locks (RunOp.doom t ph b w) := by
  unfold RunOp.doom
  split <;> exact ⟨h.dirs, h.locks⟩

theorem calm_modified {ε : Type} {describe : IoError → ε} {dooms : Nat → Bool}
    (h : Rests D locks w) (hd : D ph = some d) :
    (calmCall host t clock).Succeeds (io (sys (.modified ph dooms)) describe)
      (fun mtime w => mtime = d.mtime ∧ Rests D locks w) w := by
  refine calm_io (calm_sys fun _ => ?_)
  simp only [RunOp.run, h.dirs, hd]
  exact ⟨_, rfl, rfl, h.doom _⟩

theorem calm_statusModified {ε : Type} {describe : IoError → ε} (h : Rests D locks w)
    (hd : D ph = some d) (hs : d.has (.file .status) = true) :
    (calmCall host t clock).Succeeds (io (sys (.statusModified ph)) describe)
      (fun mtime w => mtime = d.statusMtime ∧ Rests D locks w) w := by
  refine calm_io (calm_sys fun _ => ?_)
  simp only [RunOp.run, RunWorld.look, h.dirs, hd, hs, if_true]
  exact ⟨_, rfl, rfl, h⟩

theorem calm_read {ε : Type} {f : FileName} (h : Rests D locks w) (hd : D ph = some d) :
    (calmCall host t clock).Succeeds (ask (.read ph f) : ExceptT ε Call _)
      (fun content w => content = (d.file f).read ∧ Rests D locks w) w := by
  refine calm_ask fun _ => ?_
  simp only [RunOp.run, RunWorld.look, h.dirs, hd]
  exact ⟨trivial, h⟩

theorem calm_readLease {ε : Type} {dooms : Except IoError (Doc LeaseFile) → Bool}
    (h : Rests D locks w) (hd : D .incoming = some d) :
    (calmCall host t clock).Succeeds (ask (.readLease dooms) : ExceptT ε Call _)
      (fun content w => content = (d.file .lease).read ∧ Rests D locks w) w := by
  refine calm_ask fun _ => ?_
  simp only [RunOp.run, RunWorld.look, h.dirs, hd]
  exact ⟨trivial, h.doom _⟩

/-- A lock that is taken only to see whether it is free is given back. -/
theorem calm_probeFlock {ε : Type} {ino : Nat} {sweep : Bool} (h : Rests D locks w)
    (hown : ∀ g ∈ locks, g.tid ≠ t) :
    (calmCall host t clock).Succeeds (ask (.probeFlock ph ino sweep) : ExceptT ε Call _)
      (fun r w => r = .ok (!locks.any fun g => g.ino == ino) ∧
        Rests D locks (RunOp.run host t (.close ino) () clock w).2) w := by
  have hkept : locks.filter (fun g => !(g.ino == ino && g.tid == t)) = locks := by
    refine List.filter_eq_self.2 fun g hg => ?_
    simp [hown g hg]
  refine calm_ask fun _ => ?_
  simp only [RunOp.run]
  cases hheld : locks.any fun g => g.ino == ino with
  | true =>
    simp only [RunOp.tryFlock, h.locks, hheld, if_true]
    exact ⟨rfl, (h.doom _).dirs, by rw [(h.doom _).locks, hkept]⟩
  | false =>
    simp only [RunOp.tryFlock, h.locks, hheld, Bool.false_eq_true, if_false]
    have htaken : Rests D (⟨ino, t, ph, (w.dirs ph).any fun d => d.lock == some ino⟩ :: locks)
        { w with locks := ⟨ino, t, ph, (w.dirs ph).any fun d => d.lock == some ino⟩ :: locks } :=
      ⟨h.dirs, rfl⟩
    refine ⟨rfl, (htaken.doom _).dirs, ?_⟩
    rw [(htaken.doom _).locks]
    simpa using hkept

/-- The probe sees whether somebody else holds the lock, and leaves it so. -/
theorem calm_probe {sweep : Bool} (h : Rests D locks w) (hd : D ph = some d)
    (hown : ∀ g ∈ locks, g.tid ≠ t) :
    (calmCall host t clock).Succeeds (probeProcessorLockReadonly config k ph sweep)
      (fun found w => found = some (d.busy locks) ∧ Rests D locks w) w := by
  have hthere : (calmCall host t clock).Succeeds
      (ask (.probeDir ph sweep) : ExceptT String Call _)
      (fun r w => r = true ∧ Rests D locks w) w := by
    refine calm_ask fun _ => ?_
    simp only [RunOp.run, h.dirs, hd]
    exact ⟨rfl, h⟩
  refine hthere.bind ?_
  rintro _ w₁ ⟨rfl, h₁⟩
  have hlock : (calmCall host t clock).Succeeds
      (ask (.lockExists ph sweep) : ExceptT String Call _)
      (fun r w => r = d.lock.isSome ∧ Rests D locks w) w₁ := by
    refine calm_ask fun _ => ?_
    simp only [RunOp.run, h₁.dirs, hd]
    exact ⟨rfl, h₁.doom _⟩
  refine hlock.bind ?_
  rintro _ w₂ ⟨rfl, h₂⟩
  cases hino : d.lock with
  | none => exact .pure ⟨by simp [RunDir.busy, hino], h₂⟩
  | some ino =>
    have hopen : (calmCall host t clock).Succeeds
        (ask (.openLockReadonly ph sweep) : ExceptT String Call _)
        (fun r w => r = .ok ino ∧ Rests D locks w) w₂ := by
      refine calm_ask fun _ => ?_
      simp only [RunOp.run, h₂.dirs, hd, hino]
      exact ⟨trivial, h₂⟩
    refine hopen.bind ?_
    rintro _ w₃ ⟨rfl, h₃⟩
    refine (calm_probeFlock h₃ hown).bind ?_
    rintro _ w₄ ⟨rfl, h₄⟩
    have hclose : (calmCall host t clock).Succeeds (ask (.close ino) : ExceptT String Call _)
        (fun _ w => Rests D locks w) w₄ := calm_ask fun _ => h₄
    refine hclose.bind fun _ w₅ h₅ => ?_
    have hbusy : d.busy locks = locks.any fun g => g.ino == ino := by simp [RunDir.busy, hino]
    cases hheld : locks.any fun g => g.ino == ino with
    | true => exact .pure ⟨by rw [hbusy, hheld], h₅⟩
    | false => exact .pure ⟨by rw [hbusy, hheld], h₅⟩

omit [DecidableEq Tid] in
theorem phaseOf_inode {id : Nat} (hinodes : Inodes w.dirs) (hd : w.dirs ph = some d)
    (hid : d.id = id) : w.phaseOf id = some ph := by
  cases hfound : w.phaseOf id with
  | none =>
    have hall := List.find?_eq_none.1 hfound ph (by cases ph <;> decide)
    simp [hd, hid] at hall
  | some p =>
    have hp := List.find?_some hfound
    obtain ⟨d', hd', hid'⟩ : ∃ d', w.dirs p = some d' ∧ d'.id = id := by
      simpa [Option.any_eq_true] using hp
    rw [hinodes p ph d' d hd' hd (hid'.trans hid.symm)]

theorem unlinkEntries_calm (hinodes : Inodes D) (hd : D ph = some d) (entries : List RunEntry)
    {d' : RunDir} (hid : d'.id = d.id)
    (h : Rests (Function.update D ph (some d')) locks w)
    (hall : ∀ e, d'.has e = true → e ∈ entries)
    (hordered : entries.Pairwise fun a b => a.isTree = true → b.isTree = true) :
    (calmCall host t clock).Succeeds (unlinkEntries d.id entries) (fun _ w =>
      ∃ d', (∀ e, d'.has e = false) ∧ Rests (Function.update D ph (some d')) locks w) w := by
  induction entries generalizing d' w with
  | nil =>
    refine .pure ⟨d', fun e => ?_, h⟩
    rw [← Bool.not_eq_true]
    exact fun he => nomatch hall e he
  | cons e rest ih =>
    obtain ⟨hhead, hrest⟩ := List.pairwise_cons.1 hordered
    have hfound : w.dirs ph = some d' := by rw [h.dirs, Function.update_self]
    have hphase : w.phaseOf d.id = some ph :=
      phaseOf_inode (h.dirs ▸ hinodes.update hd hid) hfound hid
    -- whatever a directory holds comes before it
    have hempty : d'.holdsMore e = false := by
      rw [← Bool.not_eq_true]
      intro hmore
      obtain ⟨s, p, rfl, hp⟩ := RunDir.has_of_holdsMore hmore
      obtain hself | hlater := List.mem_cons.1 (hall _ hp)
      · exact nomatch hself
      · exact nomatch hhead _ hlater rfl
    have hunlink : (calmCall host t clock).Succeeds
        (io (sys (.unlink d.id e)) IoError.message) (fun _ w => ∃ d', d'.id = d.id ∧
          Rests (Function.update D ph (some d')) locks w ∧
          ∀ e', d'.has e' = true → e' ∈ rest) w := by
      refine calm_io (calm_sys fun _ => ?_)
      simp only [RunOp.run, hphase, hfound]
      cases hhas : d'.has e with
      | false =>
        refine ⟨_, rfl, d', hid, h, fun e' he' => ?_⟩
        refine (List.mem_cons.1 (hall e' he')).resolve_left ?_
        rintro rfl
        simp [hhas] at he'
      | true =>
        refine ⟨(), by simp [hempty], d'.sweep e clock, ?_, ?_, fun e' he' => ?_⟩
        · rw [RunDir.sweep_id, hid]
        · simp only [Bool.not_true, Bool.false_eq_true, if_false, hempty]
          exact ⟨by rw [RunWorld.setDir, h.dirs, Function.update_idem], h.locks⟩
        · obtain ⟨hold, hne⟩ := RunDir.has_sweep he'
          exact (List.mem_cons.1 (hall e' hold)).resolve_left hne
    refine hunlink.bind ?_
    rintro _ w₁ ⟨d₁, hid₁, h₁, hall₁⟩
    exact ih hid₁ h₁ hall₁ hrest

/-- A removal that nobody disturbs removes the directory. -/
theorem removeRun_calm (hinodes : Inodes D) (hd : D ph = some d) (h : Rests D locks w) :
    (calmCall host t clock).Succeeds (removeRun config k ph)
      (fun _ w => Rests (Function.update D ph none) locks w) w := by
  have hopen : (calmCall host t clock).Succeeds (io (sys (.openDir ph)) IoError.message)
      (fun r w => (∃ order, r = (d.id, d.listing order)) ∧ Rests D locks w) w := by
    refine calm_io (calm_sys fun order => ?_)
    simp only [RunOp.run, h.dirs, hd]
    exact ⟨_, rfl, ⟨order, rfl⟩, h⟩
  refine Alone.Succeeds.adapt (hopen.bind ?_)
  rintro _ w₁ ⟨⟨order, rfl⟩, h₁⟩
  have hself : Rests (Function.update D ph (some d)) locks w₁ :=
    ⟨by rw [h₁.dirs, ← hd, Function.update_eq_self], h₁.locks⟩
  refine (unlinkEntries_calm hinodes hd (d.listing order) rfl hself
    (fun e he => RunDir.mem_listing he order) (RunDir.listing_ordered order)).bind ?_
  rintro _ w₂ ⟨d₂, hempty, h₂⟩
  refine calm_io (calm_sys fun _ => ?_)
  have hfound : w₂.dirs ph = some d₂ := by rw [h₂.dirs, Function.update_self]
  have hentries : d₂.entries = [] := RunDir.entries_empty hempty
  simp only [RunOp.run, hfound, hentries, List.isEmpty_nil, if_true]
  refine ⟨(), trivial, ?_, h₂.locks⟩
  change (w₂.setDir ph none).dirs = _
  rw [RunWorld.setDir, h₂.dirs, Function.update_idem]

/-- What the pruning of `d` has come to. -/
def Pruning (D : RunPhase → Option RunDir) (locks : List (Grip Tid)) (ph : RunPhase) (d : RunDir)
    (φ : RunDir → Prop) (w : RunWorld Tid) : Prop :=
  ∃ d', d.SameStatus d' ∧ φ d' ∧ Rests (Function.update D ph (some d')) locks w

omit [DecidableEq Tid] in
theorem Pruning.mono {φ ψ : RunDir → Prop} (h : Pruning D locks ph d φ w)
    (hφ : ∀ d, φ d → ψ d) : Pruning D locks ph d ψ w := by
  obtain ⟨d', hsame, hd', hw⟩ := h
  exact ⟨d', hsame, hφ d' hd', hw⟩

omit [DecidableEq Tid] in
theorem Pruning.change {φ ψ : RunDir → Prop} {f : RunDir → Except IoError RunDir}
    (h : Pruning D locks ph d φ w)
    (hf : ∀ d, φ d → ∃ d', f d = .ok d' ∧ d.SameStatus d' ∧ ψ d') :
    (w.change ph f).1 = .ok () ∧ Pruning D locks ph d ψ (w.change ph f).2 := by
  obtain ⟨d₁, hsame₁, hd₁, hw⟩ := h
  obtain ⟨d₂, hok, hsame₂, hd₂⟩ := hf d₁ hd₁
  have hfound : w.dirs ph = some d₁ := by rw [hw.dirs, Function.update_self]
  simp only [RunWorld.change, hfound, hok]
  refine ⟨trivial, d₂, hsame₁.trans hsame₂, hd₂, ?_, hw.locks⟩
  rw [RunWorld.setDir, hw.dirs, Function.update_idem]

theorem removeEntry_same {e : RunEntry} (he : e ≠ .file .status) (hhas : d.has e = true)
    (now : Nat) : ∃ d', d.removeEntry e now = .ok d' ∧ d.SameStatus d' ∧
      ∀ f, .tmp f ≠ e → d.has (.tmp f) = true → d'.has (.tmp f) = true := by
  refine ⟨(d.without e).stamp now, by simp [RunDir.removeEntry, hhas], ?_, fun f hne hf => ?_⟩
  · cases e with
    | file f =>
      have hne : FileName.status ≠ f := fun heq => he (heq ▸ rfl)
      exact ⟨rfl, Function.update_of_ne hne _ _, rfl⟩
    | _ => exact ⟨rfl, rfl, rfl⟩
  · cases e with
    | tmp f' =>
      have hne' : f ≠ f' := fun heq => hne (heq ▸ rfl)
      simpa [RunDir.has, RunDir.without, RunDir.setTmp, RunDir.stamp, hne'] using hf
    | _ => exact hf

theorem pruneSubtree_calm (s : Subtree) (h : Pruning D locks ph d (fun _ => True) w) :
    (calmCall host t clock).Succeeds (pruneSubtree ph s)
      (fun _ => Pruning D locks ph d fun _ => True) w := by
  have hexists : (calmCall host t clock).Succeeds
      (ask (.treeExists ph s) : ExceptT String Call _)
      (fun r => Pruning D locks ph d fun d => r = d.has (.tree s)) w := by
    refine calm_ask fun _ => ?_
    obtain ⟨d', hsame, -, hw⟩ := h
    refine ⟨d', hsame, ?_, hw⟩
    simp [RunOp.run, hw.dirs]
  refine hexists.bind fun found w₁ h₁ => ?_
  cases found with
  | false => exact .pure (h₁.mono fun _ _ => trivial)
  | true =>
    have hbroken : (calmCall host t clock).Succeeds (io (sys (.breakTree ph s)) id)
        (fun _ => Pruning D locks ph d fun d => d.has (.tree s) = true) w₁ := by
      refine calm_io (calm_sys fun keep => ?_)
      refine ⟨(), h₁.change fun d' hd' => ?_⟩
      obtain ⟨xs, hxs⟩ := Option.isSome_iff_exists.1 hd'.symm
      refine ⟨d'.setTree s (some (xs.filter fun e => keep e.1)), by rw [hxs], ⟨rfl, rfl, rfl⟩, ?_⟩
      simp [RunDir.has, RunDir.setTree]
    have hremoved : ∀ w, (Pruning D locks ph d fun d => d.has (.tree s) = true) w →
        (calmCall host t clock).Succeeds (io (sys (.removeTree ph s)) id)
          (fun _ => Pruning D locks ph d fun _ => True) w := by
      intro w h
      refine calm_io (calm_sys fun _ => ?_)
      have hchange := h.change (f := fun d => d.removeEntry (.tree s) clock)
        (ψ := fun _ => True) fun d' hd' => ?_
      · exact ⟨(), hchange.1, hchange.2⟩
      · obtain ⟨d'', hok, hsame, -⟩ := removeEntry_same (e := .tree s) (by rintro ⟨⟩) hd' clock
        exact ⟨d'', hok, hsame, trivial⟩
    exact calm_io (hbroken.bind fun _ w₂ h₂ => hremoved w₂ h₂)

theorem pruneFile_calm {f : FileName} (hf : f ≠ .status)
    (h : Pruning D locks ph d (fun _ => True) w) :
    (calmCall host t clock).Succeeds (pruneFile ph f)
      (fun _ => Pruning D locks ph d fun _ => True) w := by
  have hexists : (calmCall host t clock).Succeeds
      (ask (.fileExists ph f) : ExceptT String Call _)
      (fun r => Pruning D locks ph d fun d => r = d.has (.file f)) w := by
    refine calm_ask fun _ => ?_
    obtain ⟨d', hsame, -, hw⟩ := h
    refine ⟨d', hsame, ?_, hw⟩
    simp [RunOp.run, hw.dirs]
  refine hexists.bind fun found w₁ h₁ => ?_
  cases found with
  | false => exact .pure (h₁.mono fun _ _ => trivial)
  | true =>
    refine calm_io (calm_sys fun _ => ?_)
    have hchange := h₁.change (f := fun d => d.removeEntry (.file f) clock)
      (ψ := fun _ => True) fun d' hd' => ?_
    · exact ⟨(), hchange.1, hchange.2⟩
    · obtain ⟨d'', hok, hsame, -⟩ := removeEntry_same (by simpa using hf) hd'.symm clock
      exact ⟨d'', hok, hsame, trivial⟩

theorem pruneTemporaries_calm (fs : List FileName) (hfs : fs.Nodup)
    (h : Pruning D locks ph d (fun d => ∀ f ∈ fs, d.has (.tmp f) = true) w) :
    (calmCall host t clock).Succeeds (pruneTemporaries ph fs)
      (fun _ => Pruning D locks ph d fun _ => True) w := by
  induction fs generalizing w with
  | nil => exact .pure (h.mono fun _ _ => trivial)
  | cons f fs ih =>
    obtain ⟨hnot, hfs⟩ := List.nodup_cons.1 hfs
    have hremoved : (calmCall host t clock).Succeeds
        (io (sys (.removeTmp ph f)) fun e => "failed to remove: " ++ e.message)
        (fun _ => Pruning D locks ph d fun d => ∀ f ∈ fs, d.has (.tmp f) = true) w := by
      refine calm_io (calm_sys fun _ => ?_)
      have hchange := h.change (f := fun d => d.removeEntry (.tmp f) clock)
        (ψ := fun d => ∀ f ∈ fs, d.has (.tmp f) = true) fun d' hd' => ?_
      · exact ⟨(), hchange.1, hchange.2⟩
      · obtain ⟨hhead, hrest⟩ := List.forall_mem_cons.1 hd'
        obtain ⟨d'', hok, hsame, hkept⟩ := removeEntry_same (e := .tmp f) nofun hhead clock
        refine ⟨d'', hok, hsame, fun f' hf' => hkept f' ?_ (hrest f' hf')⟩
        rintro ⟨⟩
        exact hnot hf'
    exact hremoved.bind fun _ w₁ h₁ => ih hfs h₁

/-- A pruning that nobody disturbs keeps the status. -/
theorem pruneSuccessTerminal_calm (hd : D ph = some d) (h : Rests D locks w) :
    (calmCall host t clock).Succeeds (pruneSuccessTerminal ph)
      (fun _ => Pruning D locks ph d fun _ => True) w := by
  have hstart : Pruning D locks ph d (fun _ => True) w :=
    ⟨d, .refl d, trivial, by rw [h.dirs, ← hd, Function.update_eq_self], h.locks⟩
  refine (pruneSubtree_calm .files hstart).bind fun _ w₁ h₁ => ?_
  refine (pruneSubtree_calm .work h₁).bind fun _ w₂ h₂ => ?_
  refine (pruneFile_calm (f := .lease) (by rintro ⟨⟩) h₂).bind fun _ w₃ h₃ => ?_
  refine (pruneFile_calm (f := .progress) (by rintro ⟨⟩) h₃).bind fun _ w₄ h₄ => ?_
  have htemporaries : ∀ w, Pruning D locks ph d (fun _ => True) w →
      (calmCall host t clock).Succeeds (do
          let temporaries ← io (sys (.listTmp ph)) IoError.message
          pruneTemporaries ph temporaries)
        (fun _ => Pruning D locks ph d fun _ => True) w := by
    intro w h
    have hlisted : (calmCall host t clock).Succeeds (io (sys (.listTmp ph)) IoError.message)
        (fun fs w => fs.Nodup ∧
          Pruning D locks ph d (fun d => ∀ f ∈ fs, d.has (.tmp f) = true) w) w := by
      refine calm_io (calm_sys fun _ => ?_)
      obtain ⟨d', hsame, -, hw⟩ := h
      have hfound : w.dirs ph = some d' := by rw [hw.dirs, Function.update_self]
      simp only [RunOp.run, RunWorld.look, hfound]
      refine ⟨_, rfl, ?_, d', hsame, fun f hf => (List.mem_filter.1 hf).2, hw⟩
      exact List.Nodup.filter _ (by decide)
    exact hlisted.bind fun fs w₁ h₁ => pruneTemporaries_calm fs h₁.1 h₁.2
  have hlock : (calmCall host t clock).Succeeds
      (ask (.lockExists ph false) : ExceptT String Call _)
      (fun r => Pruning D locks ph d fun d => r = d.has .lock) w₄ := by
    refine calm_ask fun _ => ?_
    obtain ⟨d', hsame, -, hw⟩ := h₄
    refine ⟨d', hsame, ?_, ?_⟩
    · simp [RunOp.run, hw.dirs]
    · simp only [RunOp.run]
      exact hw.doom _
  refine hlock.bind fun found w₅ h₅ => ?_
  cases found with
  | false => exact htemporaries w₅ (h₅.mono fun _ _ => trivial)
  | true =>
    have hremoved : (calmCall host t clock).Succeeds
        (io (sys (.removeLock ph)) fun e => "failed to remove: " ++ e.message)
        (fun _ => Pruning D locks ph d fun _ => True) w₅ := by
      refine calm_io (calm_sys fun _ => ?_)
      have hchange := h₅.change (f := fun d => d.removeEntry .lock clock)
        (ψ := fun _ => True) fun d' hd' => ?_
      · exact ⟨(), hchange.1, hchange.2⟩
      · obtain ⟨d'', hok, hsame, -⟩ := removeEntry_same (e := .lock) (by rintro ⟨⟩) hd'.symm clock
        exact ⟨d'', hok, hsame, trivial⟩
    exact hremoved.bind fun _ w₆ h₆ => htemporaries w₆ h₆

/-- A collection of a run at a phase: the directory is deleted when its retention
is over, and else at most pruned. -/
def Collected (config : ServerConfig) (k : RunKey) (ph : RunPhase) (now : Nat)
    (locks : List (Grip Tid)) (D : RunPhase → Option RunDir) (d : RunDir) (w : RunWorld Tid) :
    Prop :=
  if retentionOver config k ph now locks d then Rests (Function.update D ph none) locks w
  else ∃ d', Pruned k ph d d' ∧ Rests (Function.update D ph (some d')) locks w

omit [DecidableEq Tid] in
theorem Rests.collected (h : Rests D locks w) (hd : D ph = some d)
    (hover : retentionOver config k ph now locks d = false) :
    Collected config k ph now locks D d w := by
  rw [Collected, hover]
  exact ⟨d, .inl rfl, by rw [h.dirs, ← hd, Function.update_eq_self], h.locks⟩

theorem remove_collected (hinodes : Inodes D) (hd : D ph = some d) (gone : Bool)
    (hover : retentionOver config k ph now locks d = gone) (h : Rests D locks w) :
    (calmCall host t clock).Succeeds
      (if gone then removeRun config k ph else pure () : ExceptT String Call Unit)
      (fun _ => Collected config k ph now locks D d) w := by
  cases gone with
  | false => exact .pure (h.collected hd hover)
  | true =>
    refine (removeRun_calm hinodes hd h).mono fun _ w' hw' => ?_
    rwa [Collected, hover]

theorem expireByMtime_calm (hinodes : Inodes D) (hd : D ph = some d) {retention : Nat}
    (hover : retentionOver config k ph now locks d = pastRetention now retention d.mtime)
    (h : Rests D locks w) :
    (calmCall host t clock).Succeeds (expireByMtime config k ph now retention)
      (fun _ => Collected config k ph now locks D d) w := by
  refine (calm_modified h hd).bind ?_
  rintro _ w₁ ⟨rfl, h₁⟩
  exact remove_collected hinodes hd _ hover h₁

theorem collectIncoming_calm (hinodes : Inodes D) (hd : D .incoming = some d)
    (h : Rests D locks w) :
    (calmCall host t clock).Succeeds (collectIncoming config k now)
      (fun _ => Collected config k .incoming now locks D d) w := by
  refine (calm_readLease h hd).bind ?_
  rintro _ w₁ ⟨rfl, h₁⟩
  cases hread : (d.file .lease).read with
  | error e =>
    refine expireByMtime_calm hinodes hd ?_ h₁
    simp [retentionOver, hread, Except.toOption]
  | ok content =>
    have hclock : retentionOver config k .incoming now locks d = match trustedLease k content with
        | some lease => decide (now ≥ lease.expiresAtUnixSecs)
        | none => pastRetention now config.gc.orphanRetentionSecs d.mtime := by
      simp [retentionOver, hread, Except.toOption]
    cases hlease : trustedLease k content with
    | none =>
      simp only [hlease] at hclock ⊢
      exact expireByMtime_calm hinodes hd hclock h₁
    | some lease =>
      simp only [hlease] at hclock ⊢
      by_cases hexpired : now ≥ lease.expiresAtUnixSecs
      · rw [if_pos hexpired]
        exact remove_collected hinodes hd true (by simpa [hexpired] using hclock) h₁
      · rw [if_neg hexpired]
        exact .pure (h₁.collected hd (by simpa [hexpired] using hclock))

theorem collectProcessing_calm (hinodes : Inodes D) (hd : D .processing = some d)
    (hown : ∀ g ∈ locks, g.tid ≠ t) (h : Rests D locks w) :
    (calmCall host t clock).Succeeds (collectProcessing config k now)
      (fun _ => Collected config k .processing now locks D d) w := by
  refine (calm_modified h hd).bind ?_
  rintro _ w₁ ⟨rfl, h₁⟩
  refine (calm_probe h₁ hd hown).bind ?_
  rintro _ w₂ ⟨rfl, h₂⟩
  cases hbusy : d.busy locks with
  | true => exact .pure (h₂.collected hd (by simp [retentionOver, hbusy]))
  | false => exact remove_collected hinodes hd _ (by simp [retentionOver, hbusy]) h₂

omit [DecidableEq Tid] in
theorem classifyTerminalStatus_has (hvalid : classifyTerminalStatus k ph (d.file .status).read) :
    d.has (.file .status) = true := by
  cases hs : d.file .status with
  | missing => simp [hs, FileState.read, classifyTerminalStatus] at hvalid
  | unreadable message => simp [RunDir.has, hs, FileState.isMissing]
  | text doc => simp [RunDir.has, hs, FileState.isMissing]

theorem expiryForTerminal_calm {retention : Nat} (hd : D ph = some d) (h : Rests D locks w) :
    (calmCall host t clock).Succeeds (expiryForTerminal config k ph now retention)
      (fun gone w => (gone = if classifyTerminalStatus k ph (d.file .status).read then
          pastRetention now retention d.statusMtime
        else pastRetention now config.gc.orphanRetentionSecs d.mtime) ∧ Rests D locks w) w := by
  refine (calm_read h hd).bind ?_
  rintro _ w₁ ⟨rfl, h₁⟩
  by_cases hvalid : classifyTerminalStatus k ph (d.file .status).read = true
  · simp only [hvalid, if_true]
    refine (calm_statusModified h₁ hd (classifyTerminalStatus_has hvalid)).bind ?_
    rintro _ w₂ ⟨rfl, h₂⟩
    exact .pure ⟨rfl, h₂⟩
  · simp only [hvalid, Bool.false_eq_true, if_false]
    refine (calm_modified h₁ hd).bind ?_
    rintro _ w₂ ⟨rfl, h₂⟩
    exact .pure ⟨rfl, h₂⟩

theorem collectFailed_calm (hinodes : Inodes D) (hd : D .failed = some d)
    (h : Rests D locks w) :
    (calmCall host t clock).Succeeds (collectFailed config k now)
      (fun _ => Collected config k .failed now locks D d) w := by
  refine (expiryForTerminal_calm hd h).bind ?_
  rintro _ w₁ ⟨rfl, h₁⟩
  exact remove_collected hinodes hd _ rfl h₁

/-- Only what has a valid status is pruned. -/
theorem classifyTerminalStatus_of_prunable {content : Except IoError (Doc RunStatus)}
    (h : prunable k content = true) : classifyTerminalStatus k .done content = true := by
  cases content with
  | error e => exact nomatch h
  | ok doc =>
    cases hversion : checkTomlVersion doc with
    | compatible =>
      cases hparsed : RunStatus.fromToml doc with
      | error e => simp [prunable, hversion, hparsed] at h
      | ok status =>
        simp only [prunable, hversion, hparsed, Bool.and_eq_true] at h
        simp [classifyTerminalStatus, hversion, hparsed, h]
    | _ => simp [prunable, hversion] at h

theorem collectDone_calm (hinodes : Inodes D) (hd : D .done = some d) (h : Rests D locks w) :
    (calmCall host t clock).Succeeds (collectDone config k now)
      (fun _ => Collected config k .done now locks D d) w := by
  refine (expiryForTerminal_calm hd h).bind ?_
  rintro gone w₁ ⟨hover, h₁⟩
  cases gone with
  | true => exact remove_collected hinodes hd true hover.symm h₁
  | false =>
    refine (calm_read h₁ hd).bind ?_
    rintro _ w₂ ⟨rfl, h₂⟩
    cases hprune : prunable k (d.file .status).read with
    | false => exact .pure (h₂.collected hd hover.symm)
    | true =>
      have hvalid := classifyTerminalStatus_of_prunable hprune
      refine Alone.Succeeds.adapt ((pruneSuccessTerminal_calm hd h₂).mono ?_)
      rintro _ w₃ ⟨d', hsame, -, h₃⟩
      rw [Collected, show retentionOver config k .done now locks d = false from hover.symm]
      exact ⟨d', .inr ⟨rfl, hvalid, hsame⟩, h₃⟩

theorem collectRun_calm (hinodes : Inodes D) (hd : D ph = some d) (hown : ∀ g ∈ locks, g.tid ≠ t)
    (h : Rests D locks w) :
    (calmCall host t clock).Succeeds (collectRun config k ph now)
      (fun _ => Collected config k ph now locks D d) w := by
  cases ph with
  | incoming => exact collectIncoming_calm hinodes hd h
  | ready => exact expireByMtime_calm hinodes hd rfl h
  | processing => exact collectProcessing_calm hinodes hd hown h
  | done => exact collectDone_calm hinodes hd h
  | failed => exact collectFailed_calm hinodes hd h

end Calls

end Purgery.Server
