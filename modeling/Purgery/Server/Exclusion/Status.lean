import Purgery.Server.Exclusion.Moves

namespace Purgery.Server

variable {config : ServerConfig} {k : RunKey}

/-- What the server writes as the status of the run. -/
structure StatusOf (k : RunKey) (st : RunStatus) : Prop where
  version : st.purgeryVersion = currentPurgeryVersion
  key : st.key = k

theorem runFailure_statusOf (error : String) : StatusOf k (runFailure k error) := ⟨rfl, rfl⟩

theorem entryStatus_statusOf (outcome : EntryOutcome) : StatusOf k (entryStatus k outcome) :=
  ⟨rfl, rfl⟩

theorem RunState.phase_terminal (s : RunState) : (RunState.phase s).terminal = true := by
  cases s <;> rfl

theorem checkTomlVersion_of_require {α : Type} [Document α] {d : Doc α} {v context : String}
    (hp : d.probe = .ok v) (hv : requireCompatiblePurgeryVersion v context = .ok ()) :
    checkTomlVersion d = .compatible := by
  have hc : parsePurgeryVersion currentPurgeryVersion = .ok ⟨0, 1, 0⟩ := by decide
  unfold checkTomlVersion
  simp only [hp]
  unfold requireCompatiblePurgeryVersion versionsCompatible at hv
  cases hparse : parsePurgeryVersion v with
  | error e => simp [hparse, bind, Except.bind] at hv
  | ok p =>
    simp only [hparse, hc, bind, Except.bind, pure, Except.pure] at hv ⊢
    split at hv
    · rename_i h
      exact if_pos h
    · exact nomatch hv

/-- A status that names the run is what its terminal phase asks for. -/
theorem classifyTerminalStatus_state {d : Doc RunStatus} {st : RunStatus}
    (hc : checkTomlVersion d = .compatible) (hp : d.parsed = .ok st)
    (hn : st.nickname = k.nickname) (hr : st.runId = k.runId) :
    classifyTerminalStatus k (RunState.phase st.state) (.ok d) = true := by
  simp only [classifyTerminalStatus, hc, RunStatus.fromToml, hp, Except.mapError, hn, hr]
  cases st.state <;> simp [RunState.phase]

theorem StatusOf.classify {st : RunStatus} (h : StatusOf k st) :
    classifyTerminalStatus k (RunState.phase st.state) (.ok (Doc.ofValue st)) = true := by
  refine classifyTerminalStatus_state (checkTomlVersion_current ?_) rfl
    (congrArg RunKey.nickname h.key) (congrArg RunKey.runId h.key)
  simp [Doc.ofValue, Document.probe, Document.version?, h.version]

theorem classifyStatus_finalize {d : Doc RunStatus} {s : RunState}
    (h : classifyStatus config k d = .finalize s) :
    classifyTerminalStatus k (RunState.phase s) (.ok d) = true := by
  unfold classifyStatus at h
  split at h
  · exact nomatch h
  · exact nomatch h
  · rename_i v hp
    split at h
    · exact nomatch h
    · rename_i hv
      split at h
      · exact nomatch h
      · rename_i st hst
        split at h
        · exact nomatch h
        · rename_i hk
          simp only [not_or, not_not] at hk
          cases h
          have hparsed : d.parsed = .ok st := by
            unfold RunStatus.fromToml at hst
            cases hd : d.parsed with
            | error e => simp [hd, Except.mapError] at hst
            | ok s => simpa [hd, Except.mapError] using hst
          exact classifyTerminalStatus_state (checkTomlVersion_of_require hp hv) hparsed hk.1 hk.2

/-- Recovery takes a status that the server wrote for what it says. -/
theorem StatusOf.finalize {st : RunStatus} (h : StatusOf k st) :
    classifyStatus config k (Doc.ofValue st) = .finalize st.state := by
  have hn : st.nickname = k.nickname := congrArg RunKey.nickname h.key
  have hr : st.runId = k.runId := congrArg RunKey.runId h.key
  simp [classifyStatus, Doc.ofValue, Document.probe, Document.version?, h.version,
    requireCompatible_current, RunStatus.fromToml, Except.mapError, hn, hr]

end Purgery.Server
