import Purgery.Client.Replies
import Purgery.Interleaving.Solo
import Purgery.Server.MutualExclusion

namespace Purgery.Server

open Purgery.Interleaving

section Status

variable (config : ServerConfig) (k : RunKey)

/-- An incompatible status is skipped, any other defect is reported. -/
def readStatusIn : List RunPhase → ExceptT String Call RunStatus
  | [] => throw ("no compatible status found for run " ++ runTitle k ++ " in done or failed")
  | ph :: rest => do
    let statusPath := filePath config k ph "status.toml"
    if !(← ask (.fileExists ph .status)) then readStatusIn rest
    else
      let content ← io (sys (.read ph .status)) fun _ =>
        "failed to read status from '" ++ statusPath ++ "'"
      match RunStatus.fromToml content with
      | .ok status =>
        match requireCompatiblePurgeryVersion status.purgeryVersion "status" with
        | .error _ => readStatusIn rest
        | .ok _ =>
          if status.nickname ≠ k.nickname ∨ status.runId ≠ k.runId then
            throw ("status envelope mismatch in '" ++ statusPath ++ "': expected " ++ runTitle k ++
              ", got " ++ status.nickname.asStr ++ "/" ++ status.runId.asStr)
          else return status
      | .error e =>
        match content.probe with
        | .error .missingVersion => readStatusIn rest
        | _ => throw ("malformed status file '" ++ statusPath ++ "': " ++ e)

/-- The `status` command. -/
def readRunStatus : ExceptT String Call RunStatus := readStatusIn config k [.done, .failed]

end Status

section Solo

variable {Tid : Type} [DecidableEq Tid]

/-- The calls of a process that nobody else disturbs, none of which fails. -/
def undisturbed (host : Host) (t : Tid) (ω : (o : RunOp) → o.Extra) (now : Nat) (o : RunOp)
    (w : RunWorld Tid) : o.Res × RunWorld Tid :=
  o.step host t (none, ω o) now w

variable {config : ServerConfig} {k : RunKey} {host : Host} {t : Tid}
variable {ω : (o : RunOp) → o.Extra} {clock now : Nat} {w : RunWorld Tid} {ph : RunPhase}

/-- A status that a client may read and trust. -/
structure Trusted (k : RunKey) (s : FileState .status) (st : RunStatus) : Prop where
  text : ∃ doc, s = .text doc ∧ doc.parsed = .ok st
  compatible : ∀ context, requireCompatiblePurgeryVersion st.purgeryVersion context = .ok ()
  nickname : st.nickname = k.nickname
  runId : st.runId = k.runId

theorem requireCompatible_context {v c : String}
    (h : requireCompatiblePurgeryVersion v c = .ok ()) (c' : String) :
    requireCompatiblePurgeryVersion v c' = .ok () := by
  unfold requireCompatiblePurgeryVersion at h ⊢
  cases hv : versionsCompatible v currentPurgeryVersion with
  | error e => simp [hv, bind, Except.bind] at h
  | ok b =>
    cases b with
    | true => rfl
    | false => simp [hv, bind, Except.bind, throw, throwThe, MonadExceptOf.throw] at h

theorem RunStatus.fromToml_ok {doc : Doc RunStatus} {st : RunStatus} :
    RunStatus.fromToml doc = .ok st ↔ doc.parsed = .ok st := by
  unfold RunStatus.fromToml
  cases doc.parsed <;> simp [Except.mapError]

theorem tryReadStatus_valid {s : FileState .status} (h : tryReadStatus k s.read = .valid) :
    ∃ st, Trusted k s st := by
  cases s with
  | missing => simp [FileState.read, tryReadStatus] at h
  | unreadable m => simp [FileState.read, tryReadStatus] at h
  | text doc =>
    simp only [FileState.read, tryReadStatus] at h
    split at h
    · rename_i st hst
      split at h
      · exact nomatch h
      · rename_i u hcompat
        split at h
        · exact nomatch h
        · rename_i henv
          rw [not_or, not_not, not_not] at henv
          exact ⟨st, ⟨doc, rfl, RunStatus.fromToml_ok.1 hst⟩,
            requireCompatible_context (by cases u; exact hcompat), henv.1, henv.2⟩
    · split at h <;> exact nomatch h

theorem solo_dirExists {α : Type} (f : Bool → Call α) :
    (sys (.dirExists ph) >>= f).solo (undisturbed host t ω clock) w =
      (f (w.dirs ph).isSome).solo (undisturbed host t ω clock) w := rfl

theorem solo_readStatus :
    (sys (.read ph .status)).solo (undisturbed host t ω clock) w =
      (w.look ph fun d => (d.file .status).read, w) := rfl

theorem dirModifiedAt_solo :
    ((dirModifiedAt ph).solo (undisturbed host t ω clock) w).2 = w := by
  have hmod : (sys (.modified ph fun _ => false)).solo (undisturbed host t ω clock) w =
      (w.look ph fun d => .ok d.mtime, w) := by
    unfold RunWorld.look
    cases hd : w.dirs ph <;> simp [sys, undisturbed, RunOp.step, RunOp.run, RunOp.doom, hd]
  unfold dirModifiedAt
  rw [Prog.solo_bind, hmod]
  split <;> rfl

variable (k host t ω clock w) in
/-- What the status of a terminal directory makes of the answer. -/
theorem terminalPhaseResponse_solo (now : Nat) (ph : RunPhase) :
    ∃ updatedAt, (terminalPhaseResponse k ph now).solo (undisturbed host t ω clock) w =
      (match w.dirs ph with
        | none => none
        | some d =>
          match tryReadStatus k (d.file .status).read with
          | .valid => some (plainResponse ph.asStr true ("run is " ++ ph.asStr) updatedAt now)
          | .incompatible => none
          | .malformed reason => some (plainResponse "corrupt" false
              (ph.asStr ++ " directory exists but status is " ++ reason) updatedAt now), w) := by
  unfold terminalPhaseResponse
  rw [solo_dirExists]
  cases hd : w.dirs ph with
  | none => exact ⟨0, rfl⟩
  | some d =>
    have hread : (sys (.read ph .status)).solo (undisturbed host t ω clock) w =
        ((d.file .status).read, w) := by
      rw [solo_readStatus, RunWorld.look, hd]
    simp only [Option.isSome_some, if_true]
    refine ⟨((dirModifiedAt ph).solo (undisturbed host t ω clock) w).1, ?_⟩
    rw [Prog.solo_bind, hread]
    cases tryReadStatus k (d.file .status).read with
    | valid => simp [dirModifiedAt_solo]
    | incompatible => rfl
    | malformed reason => simp [dirModifiedAt_solo]

theorem waitingResponse_terminal (s : RunWorld Tid) :
    ((waitingResponse ph now).solo (undisturbed host t ω clock) s).1.terminal = false := by
  simp [waitingResponse, plainResponse]

theorem readProgressFields_terminal (s : RunWorld Tid) :
    ((readProgressFields k now).solo (undisturbed host t ω clock) s).1.terminal = false := by
  unfold readProgressFields
  rw [Prog.solo_bind]
  split
  · simp [plainResponse]
  · split
    · split
      · simp [plainResponse]
      · split
        · rfl
        · simp [plainResponse]
    · split <;> simp [plainResponse]

variable (k host t ω clock w) in
/-- The answer of one terminal directory is terminal, or it is left to the next. -/
theorem terminalPhaseResponse_answer (now : Nat) (ph : RunPhase)
    {f : Option RunStateResponse → Call RunStateResponse} (hf : ∀ r, f (some r) = pure r) :
    let p := terminalPhaseResponse k ph now >>= f
    p.solo (undisturbed host t ω clock) w = (f none).solo (undisturbed host t ω clock) w ∧
        (∀ d, w.dirs ph = some d → tryReadStatus k (d.file .status).read = .incompatible) ∨
      ((p.solo (undisturbed host t ω clock) w).1.terminal = true →
        (p.solo (undisturbed host t ω clock) w).1.phase = ph.asStr ∧
          ∃ d st, w.dirs ph = some d ∧ Trusted k (d.file .status) st) := by
  intro p
  obtain ⟨u, hsolo⟩ := terminalPhaseResponse_solo k host t ω clock w now ph
  simp only [p, Prog.solo_bind, hsolo]
  cases hd : w.dirs ph with
  | none =>
    refine .inl ⟨rfl, fun d h => ?_⟩
    simp at h
  | some d =>
    cases hs : tryReadStatus k (d.file .status).read with
    | valid =>
      obtain ⟨st, hst⟩ := tryReadStatus_valid hs
      simp only [hs, hf]
      exact .inr fun _ => ⟨rfl, d, st, rfl, hst⟩
    | malformed reason =>
      simp only [hs, hf]
      exact .inr fun h => by simp [plainResponse] at h
    | incompatible =>
      simp only [hs]
      refine .inl ⟨trivial, fun d' hd' => ?_⟩
      obtain rfl : d = d' := by simpa using hd'
      exact hs

variable (config k host t ω clock) in
/-- A run that is in no earlier phase is looked for in the terminal ones. -/
theorem runState_solo (hincoming : w.dirs .incoming = none) (hready : w.dirs .ready = none)
    (hprocessing : w.dirs .processing = none) :
    ∃ f g : Option RunStateResponse → Call RunStateResponse,
      (∀ r, f (some r) = pure r) ∧ f none = terminalPhaseResponse k .failed clock >>= g ∧
      (∀ r, g (some r) = pure r) ∧
      g none = pure (plainResponse "not_found" false "no matching run found" 0 clock) ∧
      (runState config k).solo (undisturbed host t ω clock) w =
        (terminalPhaseResponse k .done clock >>= f).solo (undisturbed host t ω clock) w := by
  have hnow : ∀ f : Nat → Call RunStateResponse, (sys .unixNow >>= f).solo
      (undisturbed host t ω clock) w = (f clock).solo (undisturbed host t ω clock) w := fun _ => rfl
  refine ⟨?f, ?g, ?hf, ?hnext, ?hg, ?hnone, ?hrun⟩
  case hrun =>
    unfold runState
    rw [hnow, solo_dirExists, hincoming, if_neg (by simp), solo_dirExists, hready,
      if_neg (by simp), solo_dirExists, hprocessing, if_neg (by simp)]
  case hf => exact fun _ => rfl
  case hnext => rfl
  case hg => exact fun _ => rfl
  case hnone => rfl

theorem runState_early {r : RunStateResponse} {s : RunWorld Tid}
    (h : (runState config k).solo (undisturbed host t ω clock) w = (r, s))
    (hterminal : r.terminal = true) :
    w.dirs .incoming = none ∧ w.dirs .ready = none ∧ w.dirs .processing = none := by
  have hnow : ∀ f : Nat → Call RunStateResponse, (sys .unixNow >>= f).solo
      (undisturbed host t ω clock) w = (f clock).solo (undisturbed host t ω clock) w := fun _ => rfl
  have hfalse : ∀ q : RunStateResponse × RunWorld Tid, q = (r, s) → q.1.terminal = false → False :=
    fun q hq hf => by simp [hq, hterminal] at hf
  unfold runState at h
  rw [hnow, solo_dirExists] at h
  cases hincoming : w.dirs .incoming with
  | some d =>
    rw [hincoming, Option.isSome_some, if_pos rfl] at h
    exact (hfalse _ h (waitingResponse_terminal w)).elim
  | none =>
    rw [hincoming, if_neg (by simp), solo_dirExists] at h
    cases hready : w.dirs .ready with
    | some d =>
      rw [hready, Option.isSome_some, if_pos rfl] at h
      exact (hfalse _ h (waitingResponse_terminal w)).elim
    | none =>
      rw [hready, if_neg (by simp), solo_dirExists] at h
      cases hprocessing : w.dirs .processing with
      | some d =>
        rw [hprocessing, Option.isSome_some, if_pos rfl] at h
        refine (hfalse _ h ?_).elim
        simp [readProgressFields_terminal]
      | none => exact ⟨rfl, rfl, rfl⟩

/-- Where a terminal answer comes from: an earlier terminal directory that is
there has an incompatible status. -/
theorem runState_terminal
    (h : ((runState config k).solo (undisturbed host t ω clock) w).1.terminal = true) :
    ∃ ph d st, ((runState config k).solo (undisturbed host t ω clock) w).1.phase = ph.asStr ∧
      w.dirs ph = some d ∧ Trusted k (d.file .status) st ∧
      (ph = .done ∨ ph = .failed ∧ ∀ d', w.dirs .done = some d' →
        tryReadStatus k (d'.file .status).read = .incompatible) := by
  obtain ⟨hincoming, hready, hprocessing⟩ := runState_early rfl h
  obtain ⟨f, g, hf, hnext, hg, hnone, hrun⟩ := runState_solo config k host t ω clock
    hincoming hready hprocessing
  rw [hrun] at h ⊢
  obtain ⟨hskip, hdone⟩ | hdone :=
      terminalPhaseResponse_answer k host t ω clock w clock .done hf
  · rw [hskip, hnext] at h ⊢
    obtain ⟨hskip', -⟩ | hfailed :=
        terminalPhaseResponse_answer k host t ω clock w clock .failed hg
    · rw [hskip', hnone] at h
      exact nomatch h
    · obtain ⟨hph, d, st, hd, hst⟩ := hfailed h
      exact ⟨.failed, d, st, hph, hd, hst, .inr ⟨rfl, hdone⟩⟩
  · obtain ⟨hph, d, st, hd, hst⟩ := hdone h
    exact ⟨.done, d, st, hph, hd, hst, .inl rfl⟩

section Readers

variable {st : RunStatus} {d : RunDir} {ε : Type}

theorem checked_solo {α β : Type} {x : Except ε α} {a : α} (f : α → ExceptT ε Call β)
    (h : x = .ok a) : (ExceptT.mk (pure x) >>= f).run.solo (undisturbed host t ω clock) w =
      (f a).run.solo (undisturbed host t ω clock) w := by
  subst h
  exact Prog.solo_ok_bind rfl

theorem io_solo {α β : Type} {c : Call (Except IoError α)} {describe : IoError → ε} {a : α}
    {w' : RunWorld Tid} (f : α → ExceptT ε Call β)
    (h : c.solo (undisturbed host t ω clock) w = (.ok a, w')) :
    (io c describe >>= f).run.solo (undisturbed host t ω clock) w =
      (f a).run.solo (undisturbed host t ω clock) w' := by
  have hio : (io c describe).run.solo (undisturbed host t ω clock) w = (.ok a, w') := by
    change (c >>= _).solo _ w = _
    rw [Prog.solo_bind, h]
    rfl
  exact Prog.solo_ok_bind hio

theorem read_solo {f : FileName} {doc : Doc f.Content} (hd : w.dirs ph = some d)
    (hf : d.file f = .text doc) :
    (sys (.read ph f)).solo (undisturbed host t ω clock) w = (.ok doc, w) := by
  have hread : (sys (.read ph f)).solo (undisturbed host t ω clock) w =
      (w.look ph fun d => (d.file f).read, w) := rfl
  rw [hread, RunWorld.look, hd]
  simp only [hf, FileState.read]

theorem fileExists_solo {α : Type} (f : Bool → ExceptT String Call α) :
    (ask (.fileExists ph .status) >>= f).run.solo (undisturbed host t ω clock) w =
      (f ((w.dirs ph).any fun d => d.has (.file .status))).run.solo (undisturbed host t ω clock) w :=
  rfl

/-- The reader of the status passes over a directory that run-state skips. -/
theorem readStatusIn_skip {rest : List RunPhase}
    (h : ∀ d, w.dirs ph = some d → tryReadStatus k (d.file .status).read = .incompatible) :
    (readStatusIn config k (ph :: rest)).run.solo (undisturbed host t ω clock) w =
      (readStatusIn config k rest).run.solo (undisturbed host t ω clock) w := by
  rw [readStatusIn, fileExists_solo]
  cases hd : w.dirs ph with
  | none => rfl
  | some d =>
    have htry := h d hd
    cases hs : d.file .status with
    | missing => simp [hs, FileState.read, tryReadStatus] at htry
    | unreadable m => simp [hs, FileState.read, tryReadStatus] at htry
    | text doc =>
      have hhas : d.has (.file .status) = true := by simp [RunDir.has, hs, FileState.isMissing]
      simp only [Option.any_some, hhas, Bool.not_true, Bool.false_eq_true, if_false]
      rw [io_solo _ (read_solo hd hs)]
      simp only [hs, FileState.read, tryReadStatus] at htry
      cases hst : RunStatus.fromToml doc with
      | ok st =>
        simp only [hst] at htry ⊢
        split at htry
        · rename_i hcompat
          simp [hcompat]
        · split at htry <;> cases htry
      | error e =>
        simp only [hst] at htry ⊢
        split at htry
        · rename_i hprobe
          simp [hprobe]
        · cases htry

theorem readStatusIn_trusted {rest : List RunPhase} (hd : w.dirs ph = some d)
    (h : Trusted k (d.file .status) st) :
    (readStatusIn config k (ph :: rest)).run.solo (undisturbed host t ω clock) w = (.ok st, w) := by
  obtain ⟨doc, hs, hparsed⟩ := h.text
  have hst : RunStatus.fromToml doc = .ok st := RunStatus.fromToml_ok.2 hparsed
  have hhas : d.has (.file .status) = true := by simp [RunDir.has, hs, FileState.isMissing]
  rw [readStatusIn, fileExists_solo]
  simp only [hd, Option.any_some, hhas, Bool.not_true, Bool.false_eq_true, if_false]
  rw [io_solo _ (read_solo hd hs)]
  simp only [hst, h.compatible "status", h.nickname, h.runId, ne_eq, not_true_eq_false, or_self,
    if_false]
  rfl

theorem verifyStatus_trusted (h : Trusted k (d.file .status) st) :
    verifyStatus k ph (d.file .status).read = .ok st := by
  obtain ⟨doc, hs, hparsed⟩ := h.text
  have hst : RunStatus.fromToml doc = .ok st := RunStatus.fromToml_ok.2 hparsed
  simp [verifyStatus, hs, FileState.read, hst, h.compatible, h.nickname, h.runId]

theorem verifiedStatusIn_absent {otherwise : ExceptT String Call (Option (String × String))}
    (hd : w.dirs ph = none) :
    (verifiedStatusIn k ph otherwise).run.solo (undisturbed host t ω clock) w =
      otherwise.run.solo (undisturbed host t ω clock) w := by
  have hask : (verifiedStatusIn k ph otherwise).run.solo (undisturbed host t ω clock) w =
      (if (w.dirs ph).isSome = true then _ else otherwise).run.solo (undisturbed host t ω clock) w :=
    rfl
  rw [hask, hd]
  rfl

theorem verifiedStatusIn_trusted {otherwise : ExceptT String Call (Option (String × String))}
    (hd : w.dirs ph = some d) (h : Trusted k (d.file .status) st) :
    (verifiedStatusIn k ph otherwise).run.solo (undisturbed host t ω clock) w =
      (.ok (some (ph.asStr, st.state.asStr)), w) := by
  have hask : (verifiedStatusIn k ph otherwise).run.solo (undisturbed host t ω clock) w =
      (if (w.dirs ph).isSome = true then
        (ask (.read ph .status) >>= fun content =>
          ExceptT.mk (pure (verifyStatus k ph content)) >>= fun status =>
            (return some (ph.asStr, status.state.asStr) :
              ExceptT String Call (Option (String × String))))
        else otherwise).run.solo (undisturbed host t ω clock) w := rfl
  have hread : (ask (.read ph .status) : ExceptT String Call _).run.solo
      (undisturbed host t ω clock) w = (.ok (d.file .status).read, w) := by
    have hlook : (w.look ph fun d => (d.file .status).read) = (d.file .status).read := by
      simp [RunWorld.look, hd]
    rw [← hlook]
    rfl
  rw [hask, hd, Option.isSome_some, if_pos rfl, Prog.solo_ok_bind hread]
  have hverify : (ExceptT.mk (pure (verifyStatus k ph (d.file .status).read)) :
      ExceptT String Call RunStatus).run.solo (undisturbed host t ω clock) w = (.ok st, w) := by
    rw [verifyStatus_trusted h]
    rfl
  exact (Prog.solo_ok_bind hverify).trans rfl

end Readers

/-- If run-state calls the run terminal, the status command reads a status that
the client accepts, from the same phase, and a single terminal directory is a
verified one. -/
theorem terminal_report_readable (config : ServerConfig) (k : RunKey) (host : Host) (t : Tid)
    (ω : (o : RunOp) → o.Extra) (clock : Nat) (w : RunWorld Tid) :
    let report := ((runState config k).solo (undisturbed host t ω clock) w).1
    report.terminal = true → ∃ ph d st, report.phase = ph.asStr ∧ ph.terminal = true ∧
      w.dirs ph = some d ∧ Trusted k (d.file .status) st ∧
      (readRunStatus config k).run.solo (undisturbed host t ω clock) w = (.ok st, w) ∧
      Client.readStatus (Doc.ofValue st) = .ok st ∧
      ((w.dirs .done = none ∨ w.dirs .failed = none) →
        (verifiedTerminalStatus k).run.solo (undisturbed host t ω clock) w =
          (.ok (some (ph.asStr, st.state.asStr)), w)) := by
  intro report h
  obtain ⟨ph, d, st, hph, hd, hst, hfirst⟩ := runState_terminal h
  have hclient : Client.readStatus (Doc.ofValue st) = .ok st := by
    simp [Client.readStatus, RunStatus.fromToml, Except.mapError, hst.compatible]
  obtain rfl | ⟨rfl, hskip⟩ := hfirst
  · refine ⟨.done, d, st, hph, rfl, hd, hst, readStatusIn_trusted hd hst, hclient, fun _ => ?_⟩
    exact verifiedStatusIn_trusted hd hst
  · refine ⟨.failed, d, st, hph, rfl, hd, hst, ?_, hclient, fun hsole => ?_⟩
    · exact (readStatusIn_skip hskip).trans (readStatusIn_trusted hd hst)
    · have hdone : w.dirs .done = none := hsole.resolve_right (by simp [hd])
      exact (verifiedStatusIn_absent hdone).trans (verifiedStatusIn_trusted hd hst)

end Solo

section Sample

def sampleStatus (state : RunState) : RunStatus :=
  ⟨currentPurgeryVersion, sampleKey.runId, sampleKey.nickname, state, [], none⟩

/-- The sample run is over. -/
def finishedRun : RunWorld Unit :=
  (worldWith Unit (sampleRun.setFile .status (.text (Doc.ofValue (sampleStatus .done)))) 0
    .done).runs sampleKey

theorem terminal_report_readable_done : ∃ st : RunStatus,
    (readRunStatus sampleConfig sampleKey).run.solo
      (undisturbed sampleHost () (fun o => o.plain) 0) finishedRun = (.ok st, finishedRun) := by
  obtain ⟨ph, d, st, -, -, -, -, hread, -⟩ := terminal_report_readable sampleConfig sampleKey
    sampleHost () (fun o => o.plain) 0 finishedRun (by decide +kernel)
  exact ⟨st, hread⟩

end Sample

end Purgery.Server
