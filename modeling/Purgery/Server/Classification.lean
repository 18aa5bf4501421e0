import Purgery.Server.Recover
import Purgery.Server.Report

namespace Purgery

open Server

/-- A text whose version check asks readers to leave it alone. -/
def Doc.Incompatible {α : Type} [Document α] (doc : Doc α) : Prop :=
  ∃ producer reason, checkTomlVersion doc = .incompatible producer reason

theorem requireCompatible_iff {v : String} (context : String) :
    requireCompatiblePurgeryVersion v context = .ok () ↔
      ∃ p, parsePurgeryVersion v = .ok p ∧ p.major = 0 ∧ p.minor = 1 := by
  have hcurrent : parsePurgeryVersion currentPurgeryVersion = .ok ⟨0, 1, 0⟩ := by decide
  unfold requireCompatiblePurgeryVersion versionsCompatible
  rw [hcurrent]
  cases hv : parsePurgeryVersion v with
  | error e => simp [bind, Except.bind]
  | ok p =>
    simp only [bind, Except.bind, pure, Except.pure, Bool.and_eq_true, beq_iff_eq, throw, throwThe,
      MonadExceptOf.throw]
    split <;> simp_all

namespace Doc

variable {α : Type} [Document α] {doc : Doc α}

theorem incompatible_of_version {v : String} (h : doc.probe = .ok v) :
    doc.Incompatible ↔ requireCompatiblePurgeryVersion v "status" ≠ .ok () := by
  have hcurrent : parsePurgeryVersion currentPurgeryVersion = .ok ⟨0, 1, 0⟩ := by decide
  rw [ne_eq, requireCompatible_iff]
  unfold Doc.Incompatible checkTomlVersion
  rw [h, hcurrent]
  cases hv : parsePurgeryVersion v with
  | error e => cases e <;> simp [hv]
  | ok p =>
    by_cases hp : p.major = 0 ∧ p.minor = 1
    · simp [hv, Except.toOption, hp.1, hp.2]
    · simp [hv, Except.toOption, hp]

theorem incompatible_of_missing (h : doc.probe = .error .missingVersion) : doc.Incompatible := by
  unfold Doc.Incompatible checkTomlVersion
  simp [h]

theorem not_incompatible_of_invalid {e : String} (h : doc.probe = .error (.invalidToml e)) :
    ¬ doc.Incompatible := by
  unfold Doc.Incompatible checkTomlVersion
  simp [h]

end Doc

end Purgery

namespace Purgery.Server

open Purgery.Interleaving

section Readers

variable {Tid : Type} [DecidableEq Tid] (config : ServerConfig) (k : RunKey) (host : Host) (t : Tid)
variable (ω : (o : RunOp) → o.Extra) (clock : Nat)

/-- The status of the terminal directory `ph` of `w` is ignored by run-state,
skipped by the status command, and recovery leaves the run of `w'` in place. -/
structure LeftAlone (w w' : RunWorld Tid) (ph : RunPhase) : Prop where
  runState : ((terminalPhaseResponse k ph clock).solo (undisturbed host t ω clock) w) = (none, w)
  status : ∀ rest, (readStatusIn config k (ph :: rest)).run.solo (undisturbed host t ω clock) w =
    (readStatusIn config k rest).run.solo (undisturbed host t ω clock) w
  recovery : ∃ message, (recoverOrProcessProcessingRun host config k).run.solo
    (undisturbed host t ω clock) w' = (.error (.incompatibleStatus message), w')

/-- None of the readers takes the status for one of another version. -/
structure TakenUp (w w' : RunWorld Tid) (ph : RunPhase) : Prop where
  runState : ((terminalPhaseResponse k ph clock).solo (undisturbed host t ω clock) w).1 ≠ none
  status : ∃ answer, ∀ rest, (readStatusIn config k (ph :: rest)).run.solo
    (undisturbed host t ω clock) w = (answer, w)
  recovery : ∀ message, ((recoverOrProcessProcessingRun host config k).run.solo
    (undisturbed host t ω clock) w').1 ≠ .error (.incompatibleStatus message)

variable {config k host t ω clock} {w w' : RunWorld Tid} {ph : RunPhase} {d d' : RunDir}
variable {doc : Doc RunStatus}

theorem tryReadStatus_incompatible :
    tryReadStatus k (.ok doc) = .incompatible ↔
      doc.Incompatible ∧ ((∃ st, doc.parsed = .ok st) ∨ doc.probe = .error .missingVersion) := by
  unfold tryReadStatus
  cases hst : RunStatus.fromToml doc with
  | ok st =>
    have hparsed : doc.parsed = .ok st := RunStatus.fromToml_ok.1 hst
    have hprobe : doc.probe = .ok st.purgeryVersion := doc.coherent st hparsed
    rw [Doc.incompatible_of_version hprobe]
    simp only [hparsed, Except.ok.injEq, exists_eq', true_or, and_true]
    cases hcompat : requireCompatiblePurgeryVersion st.purgeryVersion "status" with
    | error e => simp [hst, hcompat]
    | ok u =>
      simp only [hst, hcompat, ne_eq, not_true_eq_false, iff_false]
      split <;> exact TerminalStatusOutcome.noConfusion
  | error e =>
    have hparsed : ¬ ∃ st, doc.parsed = .ok st := fun ⟨st, h⟩ => by
      rw [RunStatus.fromToml_ok.2 h] at hst
      exact nomatch hst
    simp only [hparsed, false_or]
    by_cases hprobe : doc.probe = .error .missingVersion
    · simp [hst, hprobe, Doc.incompatible_of_missing hprobe]
    · simp [hst, hprobe]

variable (k host t ω clock) in
theorem terminalPhaseResponse_none (hd : w.dirs ph = some d) (hs : d.file .status = .text doc) :
    ((terminalPhaseResponse k ph clock).solo (undisturbed host t ω clock) w).1 = none ↔
      tryReadStatus k (.ok doc) = .incompatible := by
  obtain ⟨u, hsolo⟩ := terminalPhaseResponse_solo k host t ω clock w clock ph
  rw [hsolo]
  simp only [hd, hs, FileState.read]
  cases tryReadStatus k (.ok doc) <;> simp

theorem readStatusIn_taken (hd : w.dirs ph = some d) (hs : d.file .status = .text doc)
    (h : tryReadStatus k (.ok doc) ≠ .incompatible) :
    ∃ answer, ∀ rest, (readStatusIn config k (ph :: rest)).run.solo (undisturbed host t ω clock) w =
      (answer, w) := by
  have hhas : d.has (.file .status) = true := by simp [RunDir.has, hs, FileState.isMissing]
  refine ⟨?answer, fun rest => ?_⟩
  case answer =>
    exact ((RunStatus.fromToml doc).mapError fun e => "malformed status file '" ++
        filePath config k ph "status.toml" ++ "': " ++ e).bind fun status =>
      if status.nickname ≠ k.nickname ∨ status.runId ≠ k.runId then
        .error ("status envelope mismatch in '" ++ filePath config k ph "status.toml" ++
          "': expected " ++ runTitle k ++ ", got " ++ status.nickname.asStr ++ "/" ++
          status.runId.asStr)
      else .ok status
  rw [readStatusIn, fileExists_solo]
  simp only [hd, Option.any_some, hhas, Bool.not_true, Bool.false_eq_true, if_false]
  rw [io_solo _ (read_solo hd hs)]
  unfold tryReadStatus at h
  cases hst : RunStatus.fromToml doc with
  | ok st =>
    simp only [hst] at h ⊢
    cases hcompat : requireCompatiblePurgeryVersion st.purgeryVersion "status" with
    | error e => simp [hcompat] at h
    | ok u =>
      by_cases hne : st.nickname ≠ k.nickname ∨ st.runId ≠ k.runId
      · simp only [Except.mapError, Except.bind, if_pos hne]
        rfl
      · simp only [Except.mapError, Except.bind, if_neg hne]
        rfl
  | error e =>
    simp only [hst] at h ⊢
    split
    · rename_i hprobe
      simp [hprobe] at h
    · rfl

variable (config k) in
theorem classifyStatus_incompatible :
    (∃ message, classifyStatus config k doc = .incompatible message) ↔ doc.Incompatible := by
  unfold classifyStatus
  cases hprobe : doc.probe with
  | error e =>
    cases e with
    | missingVersion => simp [Doc.incompatible_of_missing hprobe]
    | invalidToml e => simp [Doc.not_incompatible_of_invalid hprobe]
  | ok v =>
    rw [Doc.incompatible_of_version hprobe]
    cases hcompat : requireCompatiblePurgeryVersion v "status" with
    | error e => simp [hcompat]
    | ok u =>
      simp only [hcompat, ne_eq, not_true_eq_false, iff_false, not_exists]
      intro message
      split
      · exact StatusVerdict.noConfusion
      · split <;> exact StatusVerdict.noConfusion

variable (host t ω clock w) in
/-- Errors of the writers are no verdict about the version. -/
theorem adapt_other (x : ExceptT String Call Unit) (message : String) :
    ((ExceptT.adapt RecoveryError.other x).run.solo (undisturbed host t ω clock) w).1 ≠
      .error (.incompatibleStatus message) := by
  have hadapt : (ExceptT.adapt RecoveryError.other x).run =
      x.run >>= fun r => pure (r.mapError RecoveryError.other) := rfl
  rw [hadapt, Prog.solo_bind]
  change Except.mapError _ _ ≠ _
  cases (x.run.solo (undisturbed host t ω clock) w).1 <;> simp [Except.mapError]

variable (config k host t ω clock) in
theorem recoverOrProcess_solo (hd : w.dirs .processing = some d) (hs : d.file .status = .text doc)
    (hlease : checkLease config k .processing (d.file .lease).read = .ok ()) :
    (recoverOrProcessProcessingRun host config k).run.solo (undisturbed host t ω clock) w =
      match classifyStatus config k doc with
      | .incompatible message => (.error (.incompatibleStatus message), w)
      | .replace message => (ExceptT.adapt RecoveryError.other
          (writeRunFailure config k message)).run.solo (undisturbed host t ω clock) w
      | .finalize state => (ExceptT.adapt RecoveryError.other
          (finalizeProcessingRun config k state)).run.solo (undisturbed host t ω clock) w := by
  have hvalidate : (ExceptT.adapt RecoveryError.ofProcessing
      (validateRunLeaseProtocol config k .processing)).run.solo (undisturbed host t ω clock) w =
      (.ok (), w) := by
    have hread : (validateRunLeaseProtocol config k .processing).run.solo
        (undisturbed host t ω clock) w = (checkLease config k .processing
          (w.look .processing fun d => (d.file .lease).read), w) := rfl
    rw [RunWorld.look, hd] at hread
    change ((validateRunLeaseProtocol config k .processing).run >>= _).solo _ w = _
    rw [Prog.solo_bind, hread, hlease]
    rfl
  unfold recoverOrProcessProcessingRun
  rw [Prog.solo_ok_bind hvalidate]
  have hask : (ask (.read .processing .status) : ExceptT RecoveryError Call _).run.solo
      (undisturbed host t ω clock) w = (.ok (.ok doc), w) := by
    change ((sys (.read .processing .status)) >>= _).solo _ w = _
    rw [Prog.solo_bind, read_solo hd hs]
    rfl
  rw [Prog.solo_ok_bind hask]
  simp only
  cases classifyStatus config k doc <;> rfl

/-- The run-state command and the status command read a document of another
version for what it is exactly if it has no version at all, or if it is a
status of today in all but the version. Recovery always does. -/
theorem status_classified (config : ServerConfig) (k : RunKey) (host : Host) (t : Tid)
    (ω : (o : RunOp) → o.Extra) (clock : Nat) {w w' : RunWorld Tid} {ph : RunPhase} {d d' : RunDir}
    {doc : Doc RunStatus} (hd : w.dirs ph = some d) (hs : d.file .status = .text doc)
    (hd' : w'.dirs .processing = some d') (hs' : d'.file .status = .text doc)
    (hlease : checkLease config k .processing (d'.file .lease).read = .ok ()) :
    ((doc.Incompatible → LeftAlone config k host t ω clock w w' ph) ∧
      (¬ doc.Incompatible → TakenUp config k host t ω clock w w' ph)) ↔
    (¬ doc.Incompatible ∨ (∃ st, doc.parsed = .ok st) ∨ doc.probe = .error .missingVersion) := by
  have hskip : ∀ rest, tryReadStatus k (.ok doc) = .incompatible →
      (readStatusIn config k (ph :: rest)).run.solo (undisturbed host t ω clock) w =
        (readStatusIn config k rest).run.solo (undisturbed host t ω clock) w := by
    intro rest htry
    apply readStatusIn_skip
    intro d₀ hd₀
    obtain rfl : d = d₀ := by simpa [hd] using hd₀
    rw [hs]
    exact htry
  have hrun := terminalPhaseResponse_none k host t ω clock hd hs
  have hrecover := recoverOrProcess_solo config k host t ω clock hd' hs' hlease
  have hworld : ((terminalPhaseResponse k ph clock).solo (undisturbed host t ω clock) w).2 = w := by
    obtain ⟨u, hsolo⟩ := terminalPhaseResponse_solo k host t ω clock w clock ph
    rw [hsolo]
  constructor
  · intro ⟨hleft, _⟩
    by_cases hdoc : doc.Incompatible
    · have htry := hrun.1 (congrArg Prod.fst (hleft hdoc).runState)
      exact .inr (tryReadStatus_incompatible.1 htry).2
    · exact .inl hdoc
  · intro hwhen
    refine ⟨fun hdoc => ?_, fun hdoc => ?_⟩
    · have htry : tryReadStatus k (.ok doc) = .incompatible :=
        tryReadStatus_incompatible.2 ⟨hdoc, hwhen.resolve_left (not_not.2 hdoc)⟩
      obtain ⟨message, hclass⟩ := (classifyStatus_incompatible config k).2 hdoc
      refine ⟨Prod.ext (hrun.2 htry) hworld, fun rest => hskip rest htry, message, ?_⟩
      rw [hrecover, hclass]
    · have htry : tryReadStatus k (.ok doc) ≠ .incompatible := fun htry =>
        hdoc (tryReadStatus_incompatible.1 htry).1
      refine ⟨fun hnone => htry (hrun.1 hnone), readStatusIn_taken hd hs htry, fun message => ?_⟩
      rw [hrecover]
      cases hclass : classifyStatus config k doc with
      | incompatible message => exact absurd ((classifyStatus_incompatible config k).1 ⟨message, hclass⟩) hdoc
      | replace message => exact adapt_other host t ω clock w' _ _
      | finalize state => exact adapt_other host t ω clock w' _ _

end Readers

section Sample

/-- The sample run with this status, at the given phase. -/
def runWith (doc : Doc RunStatus) (ph : RunPhase) : RunWorld Unit :=
  (worldWith Unit (sampleRun.setFile .status (.text doc)) 0 ph).runs sampleKey

def unversioned : Doc RunStatus := .unparsed (.error .missingVersion) "missing field"

theorem status_classified_unversioned :
    (unversioned.Incompatible → LeftAlone sampleConfig sampleKey sampleHost () (fun o => o.plain) 0
        (runWith unversioned .done) (runWith unversioned .processing) .done) ∧
      (¬ unversioned.Incompatible → TakenUp sampleConfig sampleKey sampleHost ()
        (fun o => o.plain) 0 (runWith unversioned .done) (runWith unversioned .processing) .done) :=
  Iff.mpr (status_classified sampleConfig sampleKey sampleHost () (fun o => o.plain) 0
    rfl rfl rfl rfl rfl) (.inr (.inr rfl))

/-- What a later version could write. -/
def laterStatus : Doc RunStatus := .unparsed (.ok "9.0.0") "unknown field"

/-- Recovery leaves the status of a later version in place, run-state calls it
corrupt and the status command fails on it. -/
theorem laterStatus_misread :
    (∃ producer reason, checkTomlVersion laterStatus = .incompatible producer reason) ∧
      ((terminalPhaseResponse sampleKey .done 0).solo
        (undisturbed sampleHost () (fun o => o.plain) 0) (runWith laterStatus .done)).1 =
        some (plainResponse "corrupt" false "done directory exists but status is malformed" 0 0) ∧
      ((readRunStatus sampleConfig sampleKey).run.solo
        (undisturbed sampleHost () (fun o => o.plain) 0) (runWith laterStatus .done)).1 =
        .error ("malformed status file '/w/laptop/done/r1/status.toml': " ++
          "failed to parse status TOML: unknown field") ∧
      ∃ message, ((recoverOrProcessProcessingRun sampleHost sampleConfig sampleKey).run.solo
        (undisturbed sampleHost () (fun o => o.plain) 0) (runWith laterStatus .processing)).1 =
        .error (.incompatibleStatus message) := by
  refine ⟨⟨_, _, rfl⟩, ?_, ?_, _, rfl⟩
  · decide +kernel
  · decide +kernel

end Sample

end Purgery.Server
