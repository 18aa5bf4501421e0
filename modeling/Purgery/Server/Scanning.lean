import Purgery.Server.Outcome
import Purgery.Server.Polling

namespace Purgery.Server

open Purgery.Interleaving

section Claim

variable {Tid : Type} [DecidableEq Tid] {host : Host} {config : ServerConfig} {k : RunKey}
variable {bad : Fault Tid → Bool} {t : Tid} {w w' : RunWorld Tid}
variable {L : Log RunOp (fun o => o.Choice × Nat) (RunWorld Tid)} {r : ReadyClaimOutcome}

/-- A run that has left `ready` is found in the phase that it is in. -/
theorem recheckState_later
    (h : Overtaken (watchScene host config k bad t Clear) (recheckState k) w L r w')
    (hpast : w.view.Past .ready) (hp : w.Present) :
    r = .alreadyProcessing ∨ r = .alreadyTerminal ∧ w'.view.Past .processing := by
  obtain ⟨w₁, _, ⟨-, hr₁, -, -⟩, -, ⟨_, _, h⟩ | ⟨hd₁, h⟩⟩ := Overtaken.dirExists h
  · exact .inl h.ret_inv.1
  have hpast₁ := RunWorld.past_processing (hr₁.past _ hpast) hd₁
  have hpast' : w'.view.Past .processing :=
    (Overtaken.rely (watchScene_steady host config k bad t Clear) h).past _ hpast₁
  obtain ⟨w₂, _, ⟨-, hr₂, -, -⟩, -, ⟨_, _, h⟩ | ⟨hd₂, h⟩⟩ := Overtaken.dirExists h
  · exact .inr ⟨h.ret_inv.1, hpast'⟩
  have hfailed := RunWorld.terminal_of_past (hr₂.past _ hpast₁) (hr₂.present (hr₁.present hp))
  obtain ⟨d, hd⟩ := hfailed.resolve_left fun ⟨d, hd⟩ => nomatch hd₂.symm.trans hd
  obtain ⟨w₃, _, ⟨-, hr₃, -, -⟩, -, ⟨_, _, h⟩ | ⟨hd₃, h⟩⟩ := Overtaken.dirExists h
  · exact .inr ⟨h.ret_inv.1, hpast'⟩
  · obtain ⟨_, hd', _⟩ := hr₃.settled .failed d rfl hd
    exact nomatch hd₃.symm.trans hd'

theorem recheckState_found
    (h : Overtaken (watchScene host config k bad t Clear) (recheckState k) w L r w')
    (hpast : w.view.Past .ready) (hp : w.Present) : r ≠ .notFound := by
  obtain rfl | ⟨rfl, -⟩ := recheckState_later h hpast hp
  · exact nofun
  · exact nofun

/-- The lock is reported missing only if the directory was. -/
theorem tryLockExistingDir_missing {ph : RunPhase}
    (h : Overtaken (watchScene host config k bad t Clear) (tryLockExistingDir config k ph).run w L
      (.ok .missing) w') : ∃ w₁, Advance w w₁ ∧ w₁.dirs ph = none ∧ Advance w₁ w' := by
  rw [tryLockExistingDir, ask_run_bind] at h
  obtain ⟨w₁, _, ⟨-, hr₁, -, -⟩, -, ⟨_, _, h⟩ | ⟨hd₁, h⟩⟩ := Overtaken.dirExists h
  · refine absurd rfl (Overtaken.answers (Q := fun r => r ≠ .ok .missing) ?_ h)
    refine Prog.Answers.runBind (A := fun _ => True) (.any fun _ => trivial) (fun ino _ => ?_) nofun
    refine Prog.Answers.runBind (A := fun _ => True) (.any fun _ => trivial) (fun r _ => ?_) nofun
    split
    · exact nofun
    · exact fun _ => nofun
    · exact fun _ => nofun
  · exact ⟨w₁, hr₁, hd₁, h.rely (watchScene_steady ..)⟩

theorem renameClaimed_found {lock : Nat}
    (h : Overtaken (watchScene host config k bad t Clear) (renameClaimed k lock) w L r w')
    (hpast : w.view.Past .incoming) (hp : w.Present) : r ≠ .notFound := by
  obtain ⟨w₁, _, _, _, -, -, ⟨-, hr₁, -, -⟩, h⟩ := Overtaken.look rfl h
  obtain ⟨w₂, _, _, _, -, -, ⟨-, hr₂, hi₂, -⟩, ha₂, h⟩ := Overtaken.clear h
  simp only [RunOp.run] at h ha₂
  cases hd : w₂.dirs .ready with
  | none =>
    simp only [hd] at h
    obtain ⟨w₃, _, _, _, -, -, ⟨-, hr₃, -, -⟩, ha₃, h⟩ := Overtaken.clear h
    have hr := hr₃.trans ha₃
    refine recheckState_found h (hr.past _ ?_) ?_
    · exact RunWorld.past_ready (hr₂.past _ (hr₁.past _ hpast)) hd
    · exact hr.present (hr₂.present (hr₁.present hp))
  | some d =>
    cases hd' : w₂.dirs .processing with
    | none =>
      simp only [hd, hd'] at h
      obtain ⟨rfl, -⟩ := h.ret_inv
      rintro ⟨⟩
    | some d' =>
      cases hi₂.unique .ready .processing d.core d'.core (by simp [RunWorld.view, hd])
        (by simp [RunWorld.view, hd'])

/-- The claim of a run that is in `ready` or later does not miss it. -/
theorem claimReadyRun_found
    (h : Overtaken (watchScene host config k bad t Clear) (claimReadyRun config k) w L r w')
    (hpast : w.view.Past .incoming) (hp : w.Present) : r ≠ .notFound := by
  have hV := watchScene_steady host config k bad t Clear
  obtain ⟨w₁, _, ⟨-, hr₁, -, -⟩, -, ⟨_, _, h⟩ | ⟨hd₁, h⟩⟩ := Overtaken.dirExists h
  · simp only [Bool.not_true, Bool.false_eq_true, if_false] at h
    obtain ⟨attempt, w₂, L₂, _, -, hlock, h⟩ := h.bind_inv hV.refl
    have hr₂ := hr₁.trans (hlock.rely hV)
    split at h
    · obtain ⟨rfl, -⟩ := h.ret_inv
      exact nofun
    · obtain ⟨w₃, hr₃, hd₃, hr₄⟩ := tryLockExistingDir_missing hlock
      have hpast₃ := RunWorld.past_ready (hr₃.past _ (hr₁.past _ hpast)) hd₃
      exact recheckState_found h (hr₄.past _ hpast₃) (hr₂.present hp)
    · obtain ⟨rfl, -⟩ := h.ret_inv
      exact nofun
    · obtain ⟨inputs, w₃, _, _, -, hread, h⟩ := h.bind_inv hV.refl
      have hr₃ := hr₂.trans (hread.rely hV)
      split at h
      · obtain ⟨_, _, _, _, -, -, -, -, h⟩ := Overtaken.clear h
        obtain ⟨rfl, -⟩ := h.ret_inv
        exact nofun
      · obtain ⟨outcome, _, _, _, -, hmalformed, h⟩ := h.bind_inv hV.refl
        obtain ⟨_, _, _, _, -, -, -, -, h⟩ := Overtaken.clear h
        obtain ⟨rfl, -⟩ := h.ret_inv
        exact Overtaken.answers (Q := fun r => r ≠ .notFound)
          (handleMalformedReady_answers nofun nofun)
          hmalformed
      · exact renameClaimed_found h (hr₃.past _ hpast) (hr₃.present hp)
  · exact recheckState_found h (RunWorld.past_ready (hr₁.past _ hpast) hd₁) (hr₁.present hp)

end Claim

section Texts

variable {host : Host} {config : ServerConfig} {k : RunKey} {α : Type}

/-- The error of a process-run that finds the run in no phase. -/
def absentMessage (k : RunKey) : String :=
  "run " ++ runName k ++ " not found in ready, processing, or terminal phases"

/-- An answer that is not this error. -/
def Unlike (k : RunKey) (r : Except String α) : Prop := ∀ e, r = .error e → e ≠ absentMessage k

theorem Unlike.ok (a : α) : Unlike k (.ok a : Except String α) := nofun

theorem Unlike.error {e : String} (h : e.toList ≠ (absentMessage k).toList) :
    Unlike k (.error e : Except String α) := by
  rintro _ ⟨⟩ rfl
  exact h rfl

theorem verifyStatus_unlike (ph : RunPhase) (content : Except IoError (Doc RunStatus)) :
    Unlike k (verifyStatus k ph content) := by
  unfold verifyStatus
  split
  · exact .error (by simp [absentMessage])
  · split
    · exact .error (by simp [absentMessage])
    · split
      · exact .error (by simp [absentMessage])
      · split
        · exact .error (by simp [absentMessage])
        · exact .ok _

theorem answers_ask {ε : Type} {o : RunOp} {f : o.Res → ExceptT ε Call α} {Q : Except ε α → Prop}
    (h : ∀ r, (f r).run.Answers Q) : (ask o >>= f).run.Answers Q := fun r => h r

theorem verifiedStatusIn_unlike {ph : RunPhase}
    {otherwise : ExceptT String Call (Option (String × String))}
    (h : otherwise.run.Answers (Unlike k)) :
    (verifiedStatusIn k ph otherwise).run.Answers (Unlike k) := by
  refine answers_ask fun found => ?_
  split
  · refine answers_ask fun content => Prog.Answers.runCheck (fun st _ => ?_) fun e he => ?_
    · exact Unlike.ok _
    · exact fun e' h => verifyStatus_unlike ph content e' (by rw [he, Except.error.inj h])
  · exact h

theorem verifiedTerminalStatus_unlike : (verifiedTerminalStatus k).run.Answers (Unlike k) :=
  verifiedStatusIn_unlike (verifiedStatusIn_unlike (Unlike.ok _))

theorem Unlike.cast {β : Type} {e : String} (h : Unlike k (.error e : Except String α)) :
    Unlike k (.error e : Except String β) := fun e' he => h e' (by rw [Except.error.inj he])

theorem terminalResponse_unlike (outcome : ProcessRunOutcome) (message : String) :
    (terminalResponse k outcome message).run.Answers (Unlike k) := by
  refine Prog.Answers.runBind verifiedTerminalStatus_unlike (fun r _ => ?_) fun e h => h.cast
  split
  · exact .error (by simp [absentMessage])
  · exact .ok _

theorem alreadyTerminalResponse_unlike {message absent : String}
    (h : absent.toList ≠ (absentMessage k).toList) :
    (alreadyTerminalResponse k message absent).run.Answers (Unlike k) := by
  refine Prog.Answers.runBind verifiedTerminalStatus_unlike (fun r _ => ?_) fun e h => h.cast
  split
  · exact .error h
  · exact .ok _

theorem recoverProcessingRunIfUnlocked_unlike :
    (recoverProcessingRunIfUnlocked host config k).run.Answers (Unlike k) := by
  refine answers_ask fun found => ?_
  split
  · exact .ok _
  · refine Prog.Answers.liftBind (.any (Q := fun _ => True) fun _ => trivial) fun r _ => ?_
    split
    · exact .ok _
    · exact .ok _
    · exact .error (by simp [absentMessage])
    · refine Prog.Answers.liftBind (.any (Q := fun _ => True) fun _ => trivial) fun outcome _ => ?_
      exact answers_ask fun _ => .ok _

theorem handleProcessRunProcessingOutcome_unlike :
    (handleProcessRunProcessingOutcome host config k).run.Answers (Unlike k) := by
  refine Prog.Answers.runBind recoverProcessingRunIfUnlocked_unlike (fun r _ => ?_) fun e h => h.cast
  split
  · exact terminalResponse_unlike _ _
  · exact .ok _
  · exact terminalResponse_unlike _ _
  · exact .error (by simp [absentMessage])
  · exact alreadyTerminalResponse_unlike (by simp [absentMessage])
  · exact .error (by simp [absentMessage])

/-- The message names the run in characters that its names may have. -/
theorem semicolon_not_in_absent : ';' ∉ (absentMessage k).toList := by
  have hn : ';' ∉ k.nickname.asStr.toList := fun h =>
    absurd (List.all_eq_true.1 k.nickname.valid.2 _ h) (by decide)
  have hr : ';' ∉ k.runId.asStr.toList := fun h =>
    absurd (List.all_eq_true.1 k.runId.valid.2 _ h) (by decide)
  simp [absentMessage, runName, hn, hr]

theorem processClaimed_unlike : (processClaimed host config k).run.Answers (Unlike k) := by
  refine Prog.Answers.liftBind (.any (Q := fun _ => True) fun _ => trivial) fun r _ => ?_
  split
  · exact terminalResponse_unlike _ _
  · exact .error (by simp [absentMessage])
  · refine Prog.Answers.liftBind (.any (Q := fun _ => True) fun _ => trivial) fun r _ => ?_
    split
    · exact terminalResponse_unlike _ _
    · refine .error fun h => semicolon_not_in_absent (k := k) ?_
      rw [← h]
      simp

/-- A claim that fails does so with another error. -/
def ReadyClaimOutcome.Unlike (k : RunKey) (r : ReadyClaimOutcome) : Prop :=
  ∀ e, r = .claimFailed e → e ≠ absentMessage k

theorem ReadyClaimOutcome.Unlike.failed {e : String} (h : e.toList ≠ (absentMessage k).toList) :
    (ReadyClaimOutcome.claimFailed e).Unlike k := by
  rintro _ ⟨⟩ rfl
  exact h rfl

theorem recheckState_unlike : (recheckState k).Answers (ReadyClaimOutcome.Unlike k) :=
  recheckState_answers nofun nofun nofun (.failed (by simp [absentMessage]))

theorem renameClaimed_unlike (lock : Nat) :
    (renameClaimed k lock).Answers (ReadyClaimOutcome.Unlike k) := by
  refine Prog.Answers.after fun parent => ?_
  split
  · exact fun _ => .failed (by simp [absentMessage])
  · refine Prog.Answers.after fun moved => ?_
    split
    · exact nofun
    · exact fun _ => recheckState_unlike

theorem claimReadyRun_unlike : (claimReadyRun config k).Answers (ReadyClaimOutcome.Unlike k) := by
  refine Prog.Answers.after fun found => ?_
  split
  · exact recheckState_unlike
  · refine Prog.Answers.after fun r => ?_
    split
    · exact nofun
    · exact recheckState_unlike
    · exact .failed (by simp [absentMessage])
    · refine Prog.Answers.after fun r => ?_
      split
      · exact fun _ => nofun
      · exact Prog.Answers.bind (Q := ReadyClaimOutcome.Unlike k)
          (handleMalformedReady_answers nofun nofun) fun _ h _ => h
      · exact renameClaimed_unlike _

end Texts

section Found

variable {Tid : Type} [DecidableEq Tid] {host : Host} {config : ServerConfig} {k : RunKey}
variable {t : Tid} {w w' : RunWorld Tid}
variable {L : Log RunOp (fun o => o.Choice × Nat) (RunWorld Tid)}

/-- A process-run does not miss a run that is in `ready` or later. -/
theorem processRunInner_found {bad : Fault Tid → Bool} {r : Except String ProcessRunInnerResult}
    (h : Overtaken (watchScene host config k bad t Clear) (processRunInner host config k).run w L r
      w') (hpast : w.view.Past .incoming) (hp : w.Present) : Unlike k r := by
  have hV := watchScene_steady host config k bad t Clear
  obtain ⟨outcome, w₁, _, _, -, hclaim, h⟩ := h.lift_inv hV.refl
  have hfound := claimReadyRun_found hclaim hpast hp
  have hunlike := hclaim.answers claimReadyRun_unlike
  refine Overtaken.answers (Q := Unlike k) ?_ h
  split
  · refine Prog.Answers.liftBind processClaimed_unlike fun inner hinner => answers_ask fun _ => ?_
    exact hinner
  · exact .ok _
  · exact handleProcessRunProcessingOutcome_unlike
  · exact alreadyTerminalResponse_unlike (by simp [absentMessage])
  · exact .error (by simp [absentMessage])
  · exact terminalResponse_unlike _ _
  · exact .error (by simp [absentMessage])
  · exact absurd rfl hfound
  · rename_i error
    exact fun e he => hunlike e (by rw [Except.error.inj he])

theorem checkTomlVersion_require {α : Type} [Document α] {d : Doc α} {v : String}
    (hp : d.probe = .ok v) (h : checkTomlVersion d = .compatible) (context : String) :
    requireCompatiblePurgeryVersion v context = .ok () := by
  have hc : parsePurgeryVersion currentPurgeryVersion = .ok ⟨0, 1, 0⟩ := by decide
  unfold checkTomlVersion at h
  simp only [hp] at h
  unfold requireCompatiblePurgeryVersion versionsCompatible
  cases hparse : parsePurgeryVersion v with
  | error e =>
    rw [hparse] at h
    cases e <;> cases h
  | ok p =>
    simp only [hparse, hc, Except.toOption, Option.any_some, bind, Except.bind, pure,
      Except.pure] at h ⊢
    split at h
    · rename_i he
      exact if_pos he
    · cases h

theorem SelfDescribing.valid {ph : RunPhase} {d : RunDir} {st : RunStatus}
    (h : SelfDescribing k ph d st) : tryReadStatus k (d.file .status).read = .valid := by
  obtain ⟨doc, hs, hv, hst⟩ := h.text
  have hprobe := doc.coherent st (RunStatus.fromToml_ok.1 hst)
  simp only [hs, FileState.read, tryReadStatus, hst,
    checkTomlVersion_require hprobe hv, h.nickname, h.runId, ne_eq, not_true_eq_false, or_self,
    if_false]

/-- Where no call fails, a terminal directory holds a status that is accepted. -/
theorem Instant.valid {ph : RunPhase} {d : RunDir} (h : Instant config k (fun _ => true) w L w')
    (ht : ph.terminal = true) (hd : w'.dirs ph = some d) :
    tryReadStatus k (d.file .status).read = .valid := by
  have hd' : w'.view.dirs ph = some d.core := by simp [RunWorld.view, hd]
  obtain hc | ht' | ⟨f, hf, _⟩ := h.inv.terminal ph d.core ht hd'
  · obtain ⟨st, hst⟩ := selfDescribing_of_classify hc
    exact hst.valid
  · cases (h.spared.untouched ph d hd).symm.trans ht'
  · cases h.spared.faults f hf

/-- `run-state` does not miss a run that is there. -/
theorem runState_found {r : RunStateResponse}
    (h : Overtaken (watchScene host config k (fun _ => true) t Clear) (runState config k) w L r w')
    (hp : w.Present) : r.phase ≠ "not_found" := by
  cases runState_polled h with
  | waiting w₁ ph d h₁ hph hd hr =>
    rw [hr.phase]
    obtain rfl | rfl := hph <;> decide
  | processing w₁ w₂ w₃ d L₂ h₁ hd h₂ hL hprobe hr =>
    rw [hr.phase]
    decide
  | terminal w₁ ph d h₁ hph hd hs hr =>
    rw [hr.phase]
    obtain rfl | rfl := hph <;> decide
  | corrupt w₁ ph d reason h₁ hph hd hs hr =>
    rw [hr.phase]
    decide
  | notFound w₁ w₂ h₁ h₂ hr₂ hpast hdone hfailed hr =>
    exfalso
    obtain ⟨d, hd⟩ | ⟨d, hd⟩ := RunWorld.terminal_of_past hpast (h₁.advance.present hp)
    · exact nomatch (h₁.valid rfl hd).symm.trans (hdone d hd)
    · obtain ⟨d', hd', _⟩ := hr₂.settled .failed d rfl hd
      exact nomatch (h₂.valid rfl hd').symm.trans (hfailed d' hd')

end Found

section Progression

variable {Tid : Type} [DecidableEq Tid] {host : Host} {config : ServerConfig}

/-- The phases that a run may be found in after it was found in `ph`. -/
def Precedes (ph ph' : RunPhase) : Prop := ph = ph' ∨ ph.rank < ph'.rank

theorem Advance.precedes {k : RunKey} {w w' : RunWorld Tid} (h : Advance w w')
    (hw' : w'.view.Inv config k) {ph : RunPhase} {d : RunDir} (hd : w.dirs ph = some d) :
    ∃ ph' d', w'.dirs ph' = some d' ∧ Precedes ph ph' ∧ ∀ p e, w'.dirs p = some e → p = ph' := by
  have hsole : ∀ {ph' : RunPhase} {d' : RunDir}, w'.dirs ph' = some d' →
      ∀ p e, w'.dirs p = some e → p = ph' := by
    intro ph' d' hd' p e he
    exact hw'.unique p ph' e.core d'.core (by simp [RunWorld.view, he])
      (by simp [RunWorld.view, hd'])
  by_cases ht : ph.terminal = true
  · obtain ⟨d', hd', _⟩ := h.settled ph d ht hd
    exact ⟨ph, d', hd', .inl rfl, hsole hd'⟩
  · obtain ⟨ph', d', hle, hd'⟩ := h.stays ph d hd
    refine ⟨ph', d', hd', ?_, hsole hd'⟩
    cases ph <;> cases ph' <;> simp_all [Precedes, RunPhase.rank, RunPhase.terminal]

omit [DecidableEq Tid] in
theorem smoothPolicy_clear [DecidableEq Tid] {k : RunKey} {t : Tid} {o : RunOp} {x : o.Choice}
    {w : World Tid} (h : (smoothPolicy host).step t (.run k o) x w) : Clear o x (w.runs k) := by
  by_contra hs
  simp only [Clear, RunOp.succeeds, Bool.or_eq_true, not_or, Option.isNone_iff_eq_none] at hs
  cases h.2 (Option.isSome_iff_ne_none.2 hs.1) (by simpa using hs.2)

/-- A run is in one phase at a time and only moves forward, and those that look
for it one phase after the other do not miss it. -/
theorem run_progression {c : Config Tid ServerOp ServerOp.Res (World Tid)}
    (h : Reachable (server host config) (smoothPolicy host) c) (k : RunKey)
    (hp : (c.world.runs k).Present) :
    (∀ L c', Course (server host config) (smoothPolicy host) c L c' →
      ∀ ph d, (c.world.runs k).dirs ph = some d →
        ∃ ph' d', (c'.world.runs k).dirs ph' = some d' ∧ Precedes ph ph' ∧
          ∀ p e, (c'.world.runs k).dirs p = some e → p = ph') ∧
      (∀ t f L r c', Performs (server host config) (smoothPolicy host) t f
        (onRun k (runState config k)) c L r c' → r.phase ≠ "not_found") ∧
      ∀ t f L r c', (c.world.runs k).dirs .incoming = none →
        Performs (server host config) (smoothPolicy host) t f (processRunTarget host config k) c L r
          c' → r ≠ .error (absentMessage k) := by
  refine ⟨fun L c' hc ph d hd => ?_, fun t f L r c' hperf => ?_, fun t f L r c' hd hperf => ?_⟩
  · have hadvance : Advance (c.world.runs k) (c'.world.runs k) :=
      hc.rely (R := fun s s' => Advance (s.runs k) (s'.runs k)) h (fun s => .refl _)
        (fun _ _ _ => .trans) fun c d c' hr hn => Next.advance hr hn k
    have hinv : (c'.world.runs k).view.Inv config k :=
      (reachable_calm (h.course hc)).inv (lockContract_sound host config k)
    exact hadvance.precedes hinv hd
  · obtain ⟨L', hL', -⟩ := Performs.watched Clear h hperf fun W o x _ hx => smoothPolicy_clear hx
    exact runState_found hL' hp
  · obtain ⟨L', hL', -⟩ := Performs.watched Clear h hperf fun W o x _ hx => smoothPolicy_clear hx
    have hunlike := processRunInner_found hL' (RunWorld.past_incoming hd) hp
    exact fun he => hunlike _ he rfl

/-- The sample run in `ready`, with a poller and a processor about to start. -/
def sampleRace : Config Bool ServerOp ServerOp.Res (World Bool) :=
  ((⟨sampleWorld Bool 0 .ready, fun _ => none⟩ :
    Config Bool ServerOp ServerOp.Res (World Bool)).put true
      (some (discard (onRun sampleKey (runState sampleConfig sampleKey))))
      (sampleWorld Bool 0 .ready)).put false
    (some (discard (processRunTarget sampleHost sampleConfig sampleKey)))
    (sampleWorld Bool 0 .ready)

theorem sampleRace_reachable :
    Reachable (server sampleHost sampleConfig) (smoothPolicy sampleHost) sampleRace := by
  have hstart : Reachable (server sampleHost sampleConfig) (smoothPolicy sampleHost)
      ⟨sampleWorld Bool 0 .ready, fun _ => none⟩ := .init (sampleWorld_init Bool (.inr rfl) _ _)
  have hpoll := hstart.spawn (t := true) rfl (.runState sampleKey)
  exact hpoll.spawn (t := false) (by simp [Config.put]) (.processRun sampleKey)

theorem run_progression_polled :
    (∃ L r c', Performs (server sampleHost sampleConfig) (smoothPolicy sampleHost) true
        (fun _ => pure ()) (onRun sampleKey (runState sampleConfig sampleKey)) sampleRace L r c' ∧
          r.phase ≠ "not_found") ∧
      ∃ L r c', Performs (server sampleHost sampleConfig) (smoothPolicy sampleHost) false
        (fun _ => pure ()) (processRunTarget sampleHost sampleConfig sampleKey) sampleRace L r c' ∧
          r ≠ .error (absentMessage sampleKey) := by
  have hpresent : (sampleRace.world.runs sampleKey).Present := ⟨.ready, sampleRun, rfl⟩
  obtain ⟨-, hstate, hrun⟩ := run_progression sampleRace_reachable sampleKey hpresent
  constructor
  · have hsome : (alone (P := smoothPolicy sampleHost) (server sampleHost sampleConfig) true
        (outcome fun _ => false) (fun _ => pure ())
        (onRun sampleKey (runState sampleConfig sampleKey)) sampleRace).isSome = true := by
      decide +kernel
    obtain ⟨⟨r, c'⟩, he⟩ := Option.isSome_iff_exists.1 hsome
    obtain ⟨L, hL⟩ := Performs.of_alone he (by simp [sampleRace, Config.put, discard])
    exact ⟨L, r, c', hL, hstate _ _ _ _ _ hL⟩
  · have hsome : (alone (P := smoothPolicy sampleHost) (server sampleHost sampleConfig) false
        (outcome fun _ => false) (fun _ => pure ())
        (processRunTarget sampleHost sampleConfig sampleKey) sampleRace).isSome = true := by
      decide +kernel
    obtain ⟨⟨r, c'⟩, he⟩ := Option.isSome_iff_exists.1 hsome
    obtain ⟨L, hL⟩ := Performs.of_alone he (by simp [sampleRace, Config.put, discard])
    exact ⟨L, r, c', hL, hrun _ _ _ _ _ rfl hL⟩

end Progression

end Purgery.Server
