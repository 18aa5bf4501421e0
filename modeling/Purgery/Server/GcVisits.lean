import Purgery.Server.Isolation

namespace Purgery.Server.Walk

section Rounds

variable {config : ServerConfig} {faults : GcFaults} {now : Nat} {k : RunKey} {ph : RunPhase}
variable {n : Nickname} {top : OsName} {id : String} {path p : OsPath} {d : RunObject}
variable {modified retention : Nat} {context : String} {expired : Bool} {r : GcRound}

/-- Nothing is decided on the way. -/
def Quiet (r : GcRound) : Prop := ∀ p x, .decided p x ∉ r.events

/-- The decision is made, and a directory that is to go is removed. -/
def Settles (faults : GcFaults) (path : OsPath) (expired : Bool) (r : GcRound) : Prop :=
  ∃ (before : List GcEvent) (context : String), Quiet ⟨before, none⟩ ∧
    r = Round.andThen ⟨before, none⟩ (settle faults context path expired)

theorem Settles.here : Settles faults path expired (settle faults context path expired) :=
  ⟨[], context, nofun, rfl⟩

theorem Settles.keep : Settles faults path false (.event (.decided path false)) :=
  ⟨[], "", nofun, rfl⟩

theorem settle_removed (h : faults.removal path = none) :
    settle faults context path true = ⟨[.decided path true, .removed path], none⟩ := by
  rw [settle, removeAt, h]
  rfl

theorem settle_refused {message : String} (h : faults.removal path = some message) :
    settle faults context path true = ⟨[.decided path true], some (.failed context)⟩ := by
  rw [settle, removeAt, h]
  rfl

/-- What a decision makes of the round. -/
theorem Settles.cases (h : Settles faults path expired r) : ∃ before, Quiet ⟨before, none⟩ ∧
    (expired = false ∧ r = ⟨before ++ [.decided path false], none⟩ ∨
      expired = true ∧ faults.removal path = none ∧
        r = ⟨before ++ [.decided path true, .removed path], none⟩ ∨
      expired = true ∧ faults.removal path ≠ none ∧
        ∃ context, r = ⟨before ++ [.decided path true], some (.failed context)⟩) := by
  obtain ⟨before, context, hquiet, rfl⟩ := h
  refine ⟨before, hquiet, ?_⟩
  cases expired with
  | false => exact .inl ⟨rfl, rfl⟩
  | true =>
    cases hremoval : faults.removal path with
    | none => exact .inr (.inl ⟨rfl, rfl, by rw [settle_removed hremoval]; rfl⟩)
    | some message =>
      exact .inr (.inr ⟨rfl, nofun, context, by rw [settle_refused hremoval]; rfl⟩)

theorem Settles.decided (h : Settles faults path expired r) :
    .decided path expired ∈ r.events := by
  obtain ⟨before, -, ⟨rfl, rfl⟩ | ⟨rfl, -, rfl⟩ | ⟨rfl, -, context, rfl⟩⟩ := h.cases <;> simp

theorem Settles.only {x : Bool} (h : Settles faults path expired r)
    (hmem : .decided p x ∈ r.events) : p = path := by
  obtain ⟨before, hquiet, hr⟩ := h.cases
  have hbefore : .decided p x ∉ before := hquiet p x
  obtain ⟨rfl, rfl⟩ | ⟨rfl, -, rfl⟩ | ⟨rfl, -, context, rfl⟩ := hr <;>
    simp [hbefore] at hmem <;> exact hmem.1

theorem Settles.stop (h : Settles faults path expired r) :
    r.stop = none ↔ (expired = true → removable faults path = true) := by
  rw [removable, Option.isNone_iff_eq_none]
  obtain ⟨before, -, ⟨rfl, rfl⟩ | ⟨rfl, hnone, rfl⟩ | ⟨rfl, hsome, context, rfl⟩⟩ := h.cases
  · simp
  · simp [hnone]
  · simp [hsome]

theorem Settles.survives (h : Settles faults path expired r) : r.stop ≠ some .panicked := by
  obtain ⟨before, -, ⟨rfl, rfl⟩ | ⟨rfl, -, rfl⟩ | ⟨rfl, -, context, rfl⟩⟩ := h.cases <;> simp

theorem Settles.removed (h : Settles faults path true r) (hremoval : faults.removal path = none) :
    .removed path ∈ r.events := by
  obtain ⟨before, -, ⟨hfalse, -⟩ | ⟨-, -, rfl⟩ | ⟨-, hsome, -⟩⟩ := h.cases
  · exact nomatch hfalse
  · simp
  · exact absurd hremoval hsome

/-- The round ends without a decision. -/
def Breaks (r : GcRound) : Prop := Quiet r ∧ r.stop ≠ none

theorem mtimeSecs_readable (h : readable faults path = true) :
    mtimeSecs faults path modified = .ok modified := by
  rw [readable, Option.isNone_iff_eq_none] at h
  rw [mtimeSecs, h]

theorem mtimeSecs_unreadable (h : readable faults path = false) :
    ∃ s, mtimeSecs faults path modified = .error s := by
  cases hm : faults.metadata path with
  | none => simp [readable, hm] at h
  | some message => exact ⟨.failed message, by rw [mtimeSecs, hm]⟩

theorem expireAfter_settles (h : readable faults path = true) :
    Settles faults path (pastRetention now retention modified)
      (expireAfter faults now context path modified retention) := by
  rw [expireAfter, mtimeSecs_readable h]
  exact .here

theorem collectIncoming_settles (h : readable faults path = true) :
    Settles faults path (runExpired config faults now k .incoming path d)
      (collectIncoming config faults now k path d) := by
  unfold collectIncoming runExpired
  cases d.readLease with
  | error e => exact expireAfter_settles h
  | ok content =>
    simp only [Except.toOption, Option.bind_some]
    cases trustedLease k content with
    | none => exact expireAfter_settles h
    | some lease => exact .here

theorem probe_clear (h : readable faults path = true) (hclear : lockUnclear faults path d = false) :
    probeProcessorLockReadonly config faults k path d = .ok (some (lockHeld faults path d)) := by
  unfold lockUnclear at hclear
  rw [probeProcessorLockReadonly, lockHeld, h]
  cases hfind : d.find "processor.lock" with
  | none => rfl
  | some o =>
    rw [hfind, Option.any_some] at hclear
    simp only [Bool.not_true, Bool.false_eq_true, if_false, Option.any_some]
    cases hlock : readable faults (path ++ [.text "processor.lock"]) with
    | false => rfl
    | true =>
      simp only [hlock, Bool.true_and, Bool.or_eq_false_iff, beq_eq_false_iff_ne] at hclear
      obtain ⟨hkind, hok⟩ := hclear
      cases hheld : faults.lock (path ++ [.text "processor.lock"]) with
      | error e => simp [hheld, Except.isOk, Except.toBool] at hok
      | ok held => simp [hkind, Except.toOption]

theorem probe_unclear (h : readable faults path = true)
    (hunclear : lockUnclear faults path d = true) :
    ∃ s, probeProcessorLockReadonly config faults k path d = .error s := by
  rw [lockUnclear, Option.any_eq_true] at hunclear
  obtain ⟨o, hfind, hunclear⟩ := hunclear
  rw [Bool.and_eq_true, Bool.or_eq_true, beq_iff_eq] at hunclear
  obtain ⟨hlock, hunclear⟩ := hunclear
  rw [probeProcessorLockReadonly, h, hfind]
  simp only [hlock, Bool.not_true, Bool.false_eq_true, if_false]
  obtain hkind | hbad := hunclear
  · exact ⟨_, if_pos hkind⟩
  · split
    · exact ⟨_, rfl⟩
    · cases hheld : faults.lock (path ++ [.text "processor.lock"]) with
      | error e => exact ⟨_, rfl⟩
      | ok held => simp [hheld, Except.isOk, Except.toBool] at hbad

theorem collectProcessing_settles (h : readable faults path = true)
    (hclear : lockUnclear faults path d = false) :
    Settles faults path (runExpired config faults now k .processing path d)
      (collectProcessing config faults now k path d) := by
  rw [collectProcessing, mtimeSecs_readable h, runExpired]
  simp only [Round.attempt, probe_clear h hclear]
  cases lockHeld faults path d with
  | false =>
    rw [Bool.not_false, Bool.and_true]
    exact .here
  | true =>
    rw [Bool.not_true, Bool.and_false]
    exact .keep

theorem collectProcessing_breaks (h : readable faults path = true)
    (hunclear : lockUnclear faults path d = true) :
    Breaks (collectProcessing config faults now k path d) := by
  obtain ⟨s, hs⟩ : ∃ s, probeProcessorLockReadonly config faults k path d = .error s :=
    probe_unclear h hunclear
  rw [collectProcessing, mtimeSecs_readable h]
  simp only [Round.attempt, hs]
  exact ⟨nofun, nofun⟩

/-- The age of a terminal run is that of its status, or of the directory. -/
theorem expiryForTerminal_ok (h : readable faults path = true)
    (hread : statusUnread faults k ph path d = false) :
    expiryForTerminal config faults now k ph path d retention =
      .ok (terminalExpired config now k ph d retention) := by
  rw [expiryForTerminal, terminalExpired]
  cases hvalid : classifyTerminalStatus k ph d.readStatus with
  | false =>
    simp only [Bool.false_eq_true, if_false, mtimeSecs_readable h]
    rfl
  | true =>
    rw [statusUnread, hvalid, Bool.true_and, Bool.not_eq_false'] at hread
    cases hfind : d.find "status.toml" with
    | none => simp [RunObject.readStatus, hfind, classifyTerminalStatus] at hvalid
    | some o =>
      simp only [if_true, mtimeSecs_readable hread]
      rfl

theorem expiryForTerminal_error (hunread : statusUnread faults k ph path d = true) :
    ∃ s, expiryForTerminal config faults now k ph path d retention = .error s := by
  rw [statusUnread, Bool.and_eq_true, Bool.not_eq_true'] at hunread
  obtain ⟨hvalid, hunread⟩ := hunread
  rw [expiryForTerminal, if_pos hvalid]
  cases hfind : d.find "status.toml" with
  | none => exact ⟨_, rfl⟩
  | some o =>
    obtain ⟨s, hs⟩ :
        ∃ s, mtimeSecs faults (path ++ [.text "status.toml"]) o.modified = .error s :=
      mtimeSecs_unreadable hunread
    exact ⟨s, by simp only [hs]; rfl⟩

theorem collectFailed_settles (h : readable faults path = true)
    (hread : statusUnread faults k .failed path d = false) :
    Settles faults path (runExpired config faults now k .failed path d)
      (collectFailed config faults now k path d) := by
  rw [collectFailed, expiryForTerminal_ok h hread]
  exact .here

theorem attempt_breaks {α : Type} {a : Except GcStop α} {f : α → GcRound}
    (h : ∃ s, a = .error s) : Breaks (Round.attempt a f) := by
  obtain ⟨s, rfl⟩ := h
  exact ⟨nofun, nofun⟩

section Prune

variable {kind : FileKind} {name : String} {entry : OsName × FileObject} {a b : GcRound}

theorem Quiet.andThen (ha : Quiet a) (hb : Quiet b) : Quiet (a.andThen b) := fun p x h =>
  (Round.mem_andThen h).elim (ha p x) (hb p x)

theorem Quiet.each {α : Type} {f : α → GcRound} {xs : List α} (h : ∀ x ∈ xs, Quiet (f x)) :
    Quiet (Round.each f xs) := by
  intro p x hmem
  obtain ⟨before, y, after, ⟨rfl, -⟩, he⟩ := Round.mem_each.1 hmem
  exact h y (List.mem_append_right _ List.mem_cons_self) p x he

theorem removeAt_quiet : Quiet (removeAt faults path) := by
  unfold removeAt
  split <;> intro p x h <;> simp [Round.halt, Round.event] at h

theorem removeAt_stop : (removeAt faults path).stop = none ↔ removable faults path = true := by
  rw [removeAt, removable]
  cases faults.removal path <;> simp [Round.halt, Round.event]

theorem removeDirAll_quiet : Quiet (removeDirAll faults kind path) := by
  cases kind with
  | directory | symlink => exact removeAt_quiet
  | regularFile | other => exact nofun

theorem removeFile_quiet : Quiet (removeFile faults kind path) := by
  cases kind with
  | directory => exact nofun
  | symlink | regularFile | other => exact removeAt_quiet

theorem removeDirAll_stop : (removeDirAll faults kind path).stop = none ↔
    ((kind == .directory || kind == .symlink) && removable faults path) = true := by
  cases kind <;> simp [removeDirAll, removeAt_stop, Round.halt]

theorem removeFile_stop : (removeFile faults kind path).stop = none ↔
    (kind != .directory && removable faults path) = true := by
  cases kind <;> simp [removeFile, removeAt_stop, Round.halt]

theorem pruneIn_quiet {remove : FileKind → OsPath → GcRound} (h : ∀ kind p, Quiet (remove kind p)) :
    Quiet (pruneIn faults path d remove name) := by
  unfold pruneIn
  split
  · exact nofun
  · split
    · exact h _ _
    · exact nofun

theorem pruneTemporary_quiet : Quiet (pruneTemporary faults path entry) := by
  unfold pruneTemporary
  split
  · exact nofun
  · split
    · exact removeFile_quiet
    · exact nofun

theorem prune_quiet : Quiet (pruneSuccessTerminal faults path d) :=
  .andThen (.each fun _ _ => pruneIn_quiet fun _ _ => removeDirAll_quiet)
    (.andThen (.each fun _ _ => pruneIn_quiet fun _ _ => removeFile_quiet)
      (.each fun _ _ => pruneTemporary_quiet))

theorem pruneIn_stop {remove : FileKind → OsPath → GcRound} {able : FileKind → OsPath → Bool}
    (h : ∀ kind p, (remove kind p).stop = none ↔ able kind p = true) :
    (pruneIn faults path d remove name).stop = none ↔
      ((d.find name).any fun o => readable faults (path ++ [.text name]) &&
        !able o.kind (path ++ [.text name])) = false := by
  unfold pruneIn
  cases d.find name with
  | none => simp [Round.done]
  | some o =>
    cases readable faults (path ++ [.text name]) with
    | false => simp [Round.done]
    | true => simp [h]

theorem pruneTree_stop : (pruneIn faults path d (removeDirAll faults) name).stop = none ↔
    keepsTree faults path d name = false := pruneIn_stop fun _ _ => removeDirAll_stop

theorem pruneFile_stop : (pruneIn faults path d (removeFile faults) name).stop = none ↔
    keepsFile faults path d name = false := pruneIn_stop fun _ _ => removeFile_stop

theorem pruneTemporary_stop : (pruneTemporary faults path entry).stop = none ↔
    keepsTemporary faults path entry = false := by
  unfold pruneTemporary keepsTemporary
  cases entry.1.toStr with
  | none => simp [Round.halt]
  | some name =>
    simp only
    cases ".tmp".toList.isSuffixOf name.toList with
    | false => simp [Round.done]
    | true => simp only [if_true, removeFile_stop, Bool.true_and, Bool.not_eq_false']

theorem prune_stop : (pruneSuccessTerminal faults path d).stop = none ↔
    pruneFails faults path d = false := by
  rw [pruneSuccessTerminal, Round.andThen_stop, Round.andThen_stop, Round.each_stop_none,
    Round.each_stop_none, Round.each_stop_none, pruneFails, Bool.or_eq_false_iff,
    Bool.or_eq_false_iff, List.any_eq_false, List.any_eq_false, List.any_eq_false, and_assoc]
  simp only [pruneTree_stop, pruneFile_stop, pruneTemporary_stop, Bool.not_eq_true]

end Prune

theorem Settles.after {a : GcRound} (ha : Quiet a) (hstop : a.stop = none)
    (h : Settles faults path expired r) : Settles faults path expired (a.andThen r) := by
  obtain ⟨before, context, hbefore, rfl⟩ := h
  obtain ⟨events, stop⟩ := a
  obtain rfl : stop = none := hstop
  refine ⟨events ++ before, context, fun p x hmem => ?_, ?_⟩
  · exact (List.mem_append.1 hmem).elim (ha p x) (hbefore p x)
  · rw [← Round.andThen_assoc]
    rfl

theorem Breaks.andThen {a : GcRound} (h : Breaks a) : Breaks (a.andThen r) := by
  obtain ⟨s, hs⟩ := Option.ne_none_iff_exists'.1 h.2
  rwa [Round.andThen_of_some hs]

theorem collectDone_settles (h : readable faults path = true)
    (hdecidable : undecidable config faults now k .done path d = false) :
    Settles faults path (runExpired config faults now k .done path d)
      (collectDone config faults now k path d) := by
  rw [undecidable, Bool.or_eq_false_iff] at hdecidable
  obtain ⟨hread, hprune⟩ := hdecidable
  rw [collectDone, expiryForTerminal_ok h hread]
  change Settles faults path (terminalExpired config now k .done d config.gc.doneRetentionSecs) _
  rw [runExpired] at hprune
  simp only [Round.attempt]
  cases hexpired : terminalExpired config now k .done d config.gc.doneRetentionSecs with
  | true => exact .here
  | false =>
    rw [hexpired, Bool.not_false, Bool.true_and] at hprune
    simp only [Bool.false_eq_true, if_false]
    cases hprunable : prunable k d.readStatus with
    | false => exact .keep
    | true =>
      rw [hprunable, Bool.true_and] at hprune
      refine Settles.keep.after prune_quiet ?_
      simp [GcRound.withContext, Round.mapStop, prune_stop.2 hprune]

theorem collectDone_breaks (h : readable faults path = true)
    (hundecidable : undecidable config faults now k .done path d = true) :
    Breaks (collectDone config faults now k path d) := by
  cases hread : statusUnread faults k .done path d with
  | true => exact attempt_breaks (expiryForTerminal_error hread)
  | false =>
    rw [undecidable, hread, Bool.false_or, Bool.and_eq_true, Bool.and_eq_true,
      Bool.not_eq_true'] at hundecidable
    obtain ⟨⟨hkept, hprunable⟩, hfails⟩ := hundecidable
    rw [runExpired] at hkept
    rw [collectDone, expiryForTerminal_ok h hread, hkept]
    simp only [Round.attempt, Bool.false_eq_true, if_false, hprunable, if_true]
    refine Breaks.andThen ⟨prune_quiet, fun hstop => ?_⟩
    have hnone : (pruneSuccessTerminal faults path d).stop = none := by
      simpa [GcRound.withContext, Round.mapStop] using hstop
    rw [prune_stop, hfails] at hnone
    exact nomatch hnone

/-- A run is decided on, unless it is undecidable. -/
theorem collectRun_settles (h : readable faults path = true)
    (hdecidable : undecidable config faults now k ph path d = false) :
    Settles faults path (runExpired config faults now k ph path d)
      (collectRun config faults now k ph path d) := by
  cases ph with
  | incoming => exact collectIncoming_settles h
  | ready => exact expireAfter_settles h
  | processing => exact collectProcessing_settles h hdecidable
  | done => exact collectDone_settles h hdecidable
  | failed => exact collectFailed_settles h hdecidable

theorem collectRun_breaks (h : readable faults path = true)
    (hundecidable : undecidable config faults now k ph path d = true) :
    Breaks (collectRun config faults now k ph path d) := by
  cases ph with
  | incoming | ready => exact nomatch hundecidable
  | processing => exact collectProcessing_breaks h hundecidable
  | done => exact collectDone_breaks h hundecidable
  | failed => exact attempt_breaks (expiryForTerminal_error hundecidable)

end Rounds

end Purgery.Server.Walk
