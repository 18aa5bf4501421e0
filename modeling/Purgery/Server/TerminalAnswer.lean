import Purgery.Client.Worker
import Purgery.Server.Outcome
import Purgery.Server.Polling

namespace Purgery.Server

open Purgery.Interleaving

section Settled

variable {Tid : Type} {config : ServerConfig} {k : RunKey} {w w' : RunWorld Tid}
variable {ph : RunPhase} {st : RunStatus}

/-- The run is over, and its terminal directory holds the status `st`. -/
structure Settled (k : RunKey) (ph : RunPhase) (st : RunStatus) (w : RunWorld Tid) : Prop where
  terminal : ph = .done ∨ ph = .failed
  past : w.view.Past .processing
  status : ∃ d, w.dirs ph = some d ∧ Trusted k (d.file .status) st

theorem Settled.advance (h : Settled k ph st w) (ha : Advance w w') : Settled k ph st w' where
  terminal := h.terminal
  past := ha.past _ h.past
  status := by
    obtain ⟨d, hd, hst⟩ := h.status
    have ht : ph.terminal = true := by obtain rfl | rfl := h.terminal <;> rfl
    obtain ⟨d', hd', hs⟩ := ha.settled ph d ht hd
    exact ⟨d', hd', hs ▸ hst⟩

theorem RunWorld.sole (hw : w.view.Inv config k) {ph' : RunPhase} {d d' : RunDir}
    (hd : w.dirs ph = some d) (hd' : w.dirs ph' = some d') : ph = ph' :=
  hw.unique ph ph' d.core d'.core (by simp [RunWorld.view, hd]) (by simp [RunWorld.view, hd'])

/-- A terminal directory with a status that can be trusted. -/
theorem Settled.of_trusted (hw : w.view.Inv config k) (hph : ph = .done ∨ ph = .failed)
    {d : RunDir} (hd : w.dirs ph = some d) (hst : Trusted k (d.file .status) st) :
    Settled k ph st w where
  terminal := hph
  past := by
    rw [RunWorld.past_iff]
    intro ph' hle
    by_contra hne
    obtain ⟨d', hd'⟩ := Option.ne_none_iff_exists'.1 hne
    obtain rfl := RunWorld.sole hw hd hd'
    obtain rfl | rfl := hph <;> simp [RunPhase.rank] at hle
  status := ⟨d, hd, hst⟩

theorem Settled.found (h : Settled k ph st w) (hw : w.view.Inv config k) {ph' : RunPhase}
    {d : RunDir} (hd : w.dirs ph' = some d) : ph' = ph ∧ Trusted k (d.file .status) st := by
  obtain ⟨e, he, hst⟩ := h.status
  obtain rfl := RunWorld.sole hw hd he
  obtain rfl : d = e := by simpa [hd] using he
  exact ⟨rfl, hst⟩

theorem Trusted.valid {s : FileState .status} (h : Trusted k s st) :
    tryReadStatus k s.read = .valid := by
  obtain ⟨doc, rfl, hparsed⟩ := h.text
  simp only [FileState.read, tryReadStatus, RunStatus.fromToml_ok.2 hparsed, h.compatible,
    h.nickname, h.runId, ne_eq, not_true_eq_false, or_self, if_false]

theorem Trusted.of_verify {s : FileState .status} (h : verifyStatus k ph s.read = .ok st) :
    Trusted k s st := by
  cases s with
  | missing => simp [FileState.read, verifyStatus] at h
  | unreadable m => simp [FileState.read, verifyStatus] at h
  | text doc =>
    simp only [FileState.read, verifyStatus] at h
    split at h
    · cases h
    · rename_i st' hst
      split at h
      · cases h
      · rename_i u hcompat
        split at h
        · cases h
        · rename_i henv
          obtain rfl : st' = st := Except.ok.inj h
          rw [not_or, not_not, not_not] at henv
          exact ⟨⟨doc, rfl, RunStatus.fromToml_ok.1 hst⟩,
            requireCompatible_context (by cases u; exact hcompat), henv.1, henv.2⟩

end Settled

section Answer

variable {Tid : Type} [DecidableEq Tid] {host : Host} {config : ServerConfig} {k : RunKey}
variable {bad : Fault Tid → Bool} {t : Tid} {w w' : RunWorld Tid}
variable {L : Log RunOp (fun o => o.Choice × Nat) (RunWorld Tid)}

/-- Any call of the process may fail. -/
abbrev anyScene (host : Host) (config : ServerConfig) (k : RunKey) (bad : Fault Tid → Bool)
    (t : Tid) : Scene RunOp RunOp.Res (fun o => o.Choice × Nat) (RunWorld Tid) :=
  watchScene host config k bad t fun _ _ _ => True

/-- The answer says that the run is over, and it is. -/
def Truthful (k : RunKey) (r : Except String ProcessRunInnerResult) (w : RunWorld Tid) : Prop :=
  ∀ inner, r = .ok inner → inner.outcome = .processed ∨ inner.outcome = .alreadyTerminal →
    ∃ ph st, inner.runPhase = some ph.asStr ∧ inner.statusState = some st.state.asStr ∧
      Settled k ph st w

/-- The status that was verified is that of the run. -/
def Verified (k : RunKey) (r : Except String (Option (String × String))) (w : RunWorld Tid) :
    Prop :=
  ∀ p, r = .ok (some p) → ∃ ph st, p = (ph.asStr, st.state.asStr) ∧ Settled k ph st w

omit [DecidableEq Tid] in
theorem Truthful.error (e : String) (w : RunWorld Tid) : Truthful k (.error e) w := nofun

omit [DecidableEq Tid] in
theorem Truthful.open {inner : ProcessRunInnerResult}
    (h : inner.outcome = .alreadyActive ∨ inner.outcome = .claimInProgress) (w : RunWorld Tid) :
    Truthful k (.ok inner) w := by
  rintro _ ⟨⟩ hout
  obtain h | h := h <;> simp [h] at hout

theorem anyScene_refl (w : RunWorld Tid) : (anyScene host config k bad t).rely w w := .refl w

/-- What was read is in the directory. -/
theorem read_found {ph : RunPhase} {f : FileName} {x : (RunOp.read ph f).Choice} {now : Nat}
    {doc : Doc f.Content} (h : (RunOp.step host t (.read ph f) x now w).1 = .ok doc) :
    ∃ d, w.dirs ph = some d ∧ (d.file f).read = .ok doc := by
  obtain ⟨failure, x⟩ := x
  cases failure with
  | some message => exact nomatch h
  | none =>
    change (w.look ph fun d => (d.file f).read) = .ok doc at h
    unfold RunWorld.look at h
    split at h
    · exact nomatch h
    · rename_i d hd
      exact ⟨d, hd, h⟩

/-- A status that was verified stays the status of the run. -/
theorem verifiedStatusIn_ends {ph : RunPhase} (hph : ph = .done ∨ ph = .failed)
    {otherwise : ExceptT String Call (Option (String × String))}
    (h : (anyScene host config k bad t).Ends otherwise.run (Verified k)) :
    (anyScene host config k bad t).Ends (verifiedStatusIn k ph otherwise).run (Verified k) := by
  refine Scene.Ends.lift anyScene_refl fun found => ?_
  cases found with
  | false => exact h
  | true =>
    rintro w L _ w' hread p rfl
    rw [if_pos rfl, ask_run_bind] at hread
    obtain ⟨w₁, x, L₁, -, -, ⟨hinv, -⟩, ⟨-, hadvance⟩, hread⟩ := hread.call_inv
    cases hcontent : ((anyScene host config k bad t).step (.read ph .status) x w₁).1 with
    | error e =>
      rw [hcontent] at hread
      obtain ⟨e', -, h⟩ | ⟨st, hst, -⟩ := hread.check_inv
      · exact nomatch h
      · exact nomatch hst
    | ok doc =>
      rw [hcontent] at hread
      obtain ⟨d, hd, hdoc⟩ := read_found hcontent
      obtain ⟨e', -, h⟩ | ⟨st, hst, hread⟩ := hread.check_inv
      · exact nomatch h
      · obtain ⟨hp, -, hr⟩ := hread.ret_inv
        refine ⟨ph, st, Option.some.inj (Except.ok.inj hp), ?_⟩
        have hsettled := Settled.of_trusted hinv hph hd (.of_verify (hdoc ▸ hst))
        exact (hsettled.advance hadvance).advance hr

theorem verifiedTerminalStatus_ends :
    (anyScene host config k bad t).Ends (verifiedTerminalStatus k).run (Verified k) := by
  refine verifiedStatusIn_ends (.inl rfl) (verifiedStatusIn_ends (.inr rfl) ?_)
  exact Scene.Ends.ret fun w => nofun

/-- An answer made of the verified status is a truthful one. -/
theorem verified_ends
    {g : Option (String × String) → ExceptT String Call ProcessRunInnerResult}
    {f : String × String → ProcessRunInnerResult} {absent : String} (hnone : g none = throw absent)
    (hsome : ∀ p, g (some p) = return f p)
    (hf : ∀ p, (f p).runPhase = some p.1 ∧ (f p).statusState = some p.2) :
    (anyScene host config k bad t).Ends (verifiedTerminalStatus k >>= g).run (Truthful k) := by
  intro w L r w' h
  obtain ⟨e, rfl, -⟩ | ⟨a, w₁, L₁, L₂, -, hverified, h⟩ := h.runBind_inv anyScene_refl
  · exact .error e w'
  · cases a with
    | none =>
      rw [hnone] at h
      obtain ⟨rfl, -⟩ := h.ret_inv
      exact .error absent w'
    | some p =>
      rw [hsome] at h
      obtain ⟨rfl, -, hr⟩ := h.ret_inv
      rintro _ ⟨⟩ -
      obtain ⟨ph, st, rfl, hsettled⟩ := verifiedTerminalStatus_ends _ _ _ _ hverified p rfl
      exact ⟨ph, st, (hf _).1, (hf _).2, hsettled.advance hr⟩

theorem terminalResponse_ends (outcome : ProcessRunOutcome) (message : String) :
    (anyScene host config k bad t).Ends (terminalResponse k outcome message).run (Truthful k) :=
  verified_ends (f := fun p => ⟨outcome, some p.1, some p.2, some message⟩) rfl (fun _ => rfl)
    fun _ => ⟨rfl, rfl⟩

theorem alreadyTerminalResponse_ends (message absent : String) :
    (anyScene host config k bad t).Ends (alreadyTerminalResponse k message absent).run
      (Truthful k) :=
  verified_ends (f := fun p => ⟨.alreadyTerminal, some p.1, some p.2, some message⟩) rfl
    (fun _ => rfl) fun _ => ⟨rfl, rfl⟩

theorem throw_ends (e : String) :
    (anyScene host config k bad t).Ends (throw e : ExceptT String Call ProcessRunInnerResult).run
      (Truthful k) := Scene.Ends.ret fun w => .error e w

theorem open_ends {inner : ProcessRunInnerResult}
    (h : inner.outcome = .alreadyActive ∨ inner.outcome = .claimInProgress) :
    (anyScene host config k bad t).Ends (return inner : ExceptT String Call _).run (Truthful k) :=
  Scene.Ends.ret fun w => .open h w

theorem handleProcessRunProcessingOutcome_ends :
    (anyScene host config k bad t).Ends (handleProcessRunProcessingOutcome host config k).run
      (Truthful k) := by
  refine Scene.Ends.runBind anyScene_refl (fun outcome => ?_) fun e w => .error e w
  cases outcome with
  | recovered => exact terminalResponse_ends _ _
  | activeProcessor => exact open_ends (.inl rfl)
  | failedPublished error => exact terminalResponse_ends _ _
  | incompatible message => exact throw_ends _
  | notFound => exact alreadyTerminalResponse_ends _ _
  | failurePublishFailed recoveryError publishError => exact throw_ends _

theorem processClaimed_ends :
    (anyScene host config k bad t).Ends (processClaimed host config k).run (Truthful k) := by
  refine Scene.Ends.lift anyScene_refl fun r => ?_
  cases r with
  | ok u => exact terminalResponse_ends _ _
  | error e =>
    cases e with
    | incompatible path message => exact throw_ends _
    | other error =>
      refine Scene.Ends.lift anyScene_refl fun moved => ?_
      cases moved with
      | ok u => exact terminalResponse_ends _ _
      | error moveError => exact throw_ends _

theorem processNotReady_ends :
    (anyScene host config k bad t).Ends (processNotReady host config k).run (Truthful k) := by
  refine Scene.Ends.lift anyScene_refl fun found => ?_
  cases found with
  | true => exact handleProcessRunProcessingOutcome_ends
  | false => exact alreadyTerminalResponse_ends _ _

/-- The lock is dropped after the answer has been made up. -/
theorem close_ends {inner : ExceptT String Call ProcessRunInnerResult} {lock : Nat}
    (h : (anyScene host config k bad t).Ends inner.run (Truthful k)) :
    (anyScene host config k bad t).Ends (do
      let r ← ExceptT.lift inner.run
      ask (.close lock)
      ExceptT.mk (pure r) : ExceptT String Call ProcessRunInnerResult).run (Truthful k) := by
  intro w L r w' hrun
  obtain ⟨r₁, w₁, L₁, L₂, -, hinner, hrun⟩ := hrun.lift_inv anyScene_refl
  rw [ask_run_bind] at hrun
  obtain ⟨w₂, x, L₃, -, hr₂, -, ⟨-, hadvance⟩, hrun⟩ := hrun.call_inv
  obtain ⟨rfl, -, hr₃⟩ := hrun.ret_inv
  rintro result rfl hout
  obtain ⟨ph, st, hph, hstate, hsettled⟩ := h _ _ _ _ hinner result rfl hout
  exact ⟨ph, st, hph, hstate, ((hsettled.advance hr₂).advance hadvance).advance hr₃⟩

theorem processRunInner_ends :
    (anyScene host config k bad t).Ends (processRunInner host config k).run (Truthful k) := by
  refine Scene.Ends.lift anyScene_refl fun outcome => ?_
  cases outcome with
  | claimed lock => exact close_ends processClaimed_ends
  | activeClaimer => exact open_ends (.inr rfl)
  | alreadyProcessing => exact handleProcessRunProcessingOutcome_ends
  | alreadyTerminal => exact alreadyTerminalResponse_ends _ _
  | incompatibleReady message => exact throw_ends _
  | malformedReadyMovedToFailed error => exact terminalResponse_ends _ _
  | malformedReadyMoveFailed error moveError => exact throw_ends _
  | notFound => exact processNotReady_ends
  | claimFailed error => exact throw_ends _

/-- Once the run is over, `run-state` says so. -/
theorem runState_settled {ph : RunPhase} {st : RunStatus} {r : RunStateResponse}
    (h : Overtaken (watchScene host config k bad t Clear) (runState config k) w L r w')
    (hs : Settled k ph st w) : r.terminal = true ∧ r.phase = ph.asStr := by
  have hfound : ∀ {w₁ : RunWorld Tid} {ph' : RunPhase} {d : RunDir},
      Instant config k bad w L w₁ → w₁.dirs ph' = some d →
        ph' = ph ∧ tryReadStatus k (d.file .status).read = .valid := by
    intro w₁ ph' d h₁ hd
    obtain ⟨rfl, hst⟩ := (hs.advance h₁.advance).found h₁.inv hd
    exact ⟨rfl, hst.valid⟩
  have hterm := hs.terminal
  cases runState_polled h with
  | waiting w₁ ph' d h₁ hph hd hr =>
    obtain ⟨rfl, -⟩ := hfound h₁ hd
    obtain rfl | rfl := hph <;> simp at hterm
  | processing w₁ w₂ w₃ d L₂ h₁ hd h₂ hL hprobe hr =>
    obtain ⟨rfl, -⟩ := hfound h₁ hd
    simp at hterm
  | terminal w₁ ph' d h₁ hph hd hvalid hr =>
    obtain ⟨rfl, -⟩ := hfound h₁ hd
    exact ⟨hr.terminal, hr.phase⟩
  | corrupt w₁ ph' d reason h₁ hph hd hmalformed hr =>
    exact nomatch (hfound h₁ hd).2.symm.trans hmalformed
  | notFound w₁ w₂ h₁ h₂ hr₂ hpast hdone hfailed hr =>
    exfalso
    obtain rfl | rfl := hterm
    · obtain ⟨d, hd, hst⟩ := (hs.advance h₁.advance).status
      exact nomatch hst.valid.symm.trans (hdone d hd)
    · obtain ⟨d, hd, hst⟩ := (hs.advance h₂.advance).status
      exact nomatch hst.valid.symm.trans (hfailed d hd)

end Answer

section Reader

variable {Tid : Type} [DecidableEq Tid] {host : Host} {config : ServerConfig} {k : RunKey}
variable {bad : Fault Tid → Bool} {t : Tid} {α : Type} {a : α}
variable {c c' : Config Tid ServerOp ServerOp.Res (World Tid)}

/-- A call that changes nothing did not fail. -/
theorem serverStep_same {o : RunOp} {x : o.Choice} {W : World Tid} {r : o.Res}
    (h : serverStep host t (.run k o) x W = (r, W)) :
    r = (o.run host t x.2 W.clock (W.runs k)).1 := by
  simp only [serverStep, Prod.mk.injEq] at h
  obtain ⟨rfl, hw⟩ := h
  by_cases hs : o.succeeds x.1 = true
  · rw [RunOp.step_run host x _ hs]
  · exfalso
    obtain ⟨failure, x⟩ := x
    cases failure with
    | none => simp [RunOp.succeeds] at hs
    | some m =>
      have hf : o.fallible = true := by simpa [RunOp.succeeds] using hs
      rw [RunOp.step_fault host hf m x _] at hw
      have hlen := congrArg (fun W : World Tid => (W.runs k).faults.length) hw
      simp [World.setRun, RunWorld.noteFault] at hlen

theorem Watches.sys_inv {o : RunOp} {f : o.Res → Call α}
    (h : Watches (server host config) (sparingPolicy host bad) t (onRun k (sys o >>= f)) c a c') :
    ∃ c₁ L x, Course (server host config) (sparingPolicy host bad) c L c₁ ∧
      Watches (server host config) (sparingPolicy host bad) t
        (onRun k (f (o.run host t x c₁.world.clock (c₁.world.runs k)).1)) c₁ a c' := by
  cases h with
  | @call _ _ _ c₁ _ L _ r x hc hstep hk =>
    have hr : r = _ := serverStep_same hstep
    rw [hr] at hk
    exact ⟨c₁, L, x.2, hc, hk⟩

theorem Settled.course {L : List (Moment Tid ServerOp ServerOp.Choice (World Tid) ServerEvent)}
    {ph : RunPhase} {st : RunStatus} (hs : Settled k ph st (c.world.runs k))
    (hr : Reachable (server host config) (sparingPolicy host bad) c)
    (hc : Course (server host config) (sparingPolicy host bad) c L c') :
    Settled k ph st (c'.world.runs k) := by
  refine hs.advance (hc.rely (R := fun s s' => Advance (s.runs k) (s'.runs k)) hr ?_ ?_ ?_)
  · exact fun s => .refl _
  · exact fun _ _ _ => .trans
  · exact fun c d c' hr hn => Next.advance hr hn k

/-- Once the run is over, `status` reads the status that it ended with. -/
theorem readStatusIn_settled {ph : RunPhase} {st : RunStatus} {phs : List RunPhase}
    {a : Except String RunStatus} (hph : ph ∈ phs)
    (hr : Reachable (server host config) (sparingPolicy host bad) c)
    (hs : Settled k ph st (c.world.runs k))
    (h : Watches (server host config) (sparingPolicy host bad) t
      (onRun k (readStatusIn config k phs).run) c a c') : a = .ok st := by
  induction phs generalizing c with
  | nil => exact nomatch hph
  | cons p rest ih =>
    rw [readStatusIn, ask_run_bind] at h
    obtain ⟨c₁, L, x, hc, h⟩ := Watches.sys_inv h
    have hr₁ := hr.course hc
    have hs₁ := hs.course hr hc
    have hinv : (c₁.world.runs k).view.Inv config k :=
      (reachable_calm hr₁).inv (lockContract_sound host config k)
    by_cases hp : p = ph
    · subst hp
      obtain ⟨d, hd, hst⟩ := hs₁.status
      have hhas : d.has (.file .status) = true := by
        obtain ⟨doc, hdoc, -⟩ := hst.text
        simp [RunDir.has, hdoc, FileState.isMissing]
      simp only [RunOp.run, hd, Option.any_some, hhas, Bool.not_true, Bool.false_eq_true,
        if_false, io_run_bind] at h
      obtain ⟨c₂, L₂, x₂, hc₂, h⟩ := Watches.sys_inv h
      obtain ⟨d₂, hd₂, hst₂⟩ := (hs₁.course hr₁ hc₂).status
      obtain ⟨doc, hdoc, hparsed⟩ := hst₂.text
      simp only [RunOp.run, RunWorld.look, hd₂, hdoc, FileState.read, Except.mapError,
        checked_run, RunStatus.fromToml_ok.2 hparsed, hst₂.compatible, hst₂.nickname, hst₂.runId,
        ne_eq, not_true_eq_false, or_self, if_false] at h
      cases h
      rfl
    · have hnone : (c₁.world.runs k).dirs p = none := by
        by_contra hne
        obtain ⟨d, hd⟩ := Option.ne_none_iff_exists'.1 hne
        exact hp (hs₁.found hinv hd).1
      simp only [RunOp.run, hnone] at h
      exact ih ((List.mem_cons.1 hph).resolve_left (Ne.symm hp)) hr₁ hs₁ h

end Reader

section Stability

variable {Tid : Type} [DecidableEq Tid] {host : Host} {config : ServerConfig} {k : RunKey}
variable {c c' : Config Tid ServerOp ServerOp.Res (World Tid)}

/-- When a process-run answers that the run is over, every later run-state says
the same, the client takes the answer, and the status is the one reported. -/
theorem terminal_answer_stable
    (h : Reachable (server host config) (sparingPolicy host fun _ => false) c) {t : Tid}
    {f : Except String ProcessRunInnerResult → Action Unit}
    {L : List (Moment Tid ServerOp ServerOp.Choice (World Tid) ServerEvent)}
    {r : ProcessRunInnerResult}
    (hp : Performs (server host config) (sparingPolicy host fun _ => false) t f
      (processRunTarget host config k) c L (.ok r) c')
    (hr : r.outcome = .processed ∨ r.outcome = .alreadyTerminal) :
    ∃ ph st, r.runPhase = some (RunPhase.asStr ph) ∧
      r.statusState = some (RunStatus.state st).asStr ∧
      st.nickname = k.nickname ∧ st.runId = k.runId ∧
      ∀ L₁ c₁, Course (server host config) (sparingPolicy host fun _ => false) c' L₁ c₁ →
        (∀ t' f' L' a c₂, Performs (server host config) (sparingPolicy host fun _ => false) t' f'
            (onRun k (runState config k)) c₁ L' a c₂ →
          (∀ W o x, (W, .call t' (.run k o) x) ∈ L' → o.succeeds x.1 = true) →
          a.terminal = true ∧ a.phase = ph.asStr ∧
            ∀ debug noProgress, Client.handleProcessRunSuccess debug k
              (some (.ok (Client.processRunResponse k r))) (.ok a) noProgress =
                .ok (.terminal a, noProgress)) ∧
        ∀ t' a c₂, Watches (server host config) (sparingPolicy host fun _ => false) t'
          (onRun k (readRunStatus config k).run) c₁ a c₂ → a = .ok st := by
  obtain ⟨L', hL', -⟩ := Performs.watched (fun _ _ _ => True) h hp fun _ _ _ _ _ => trivial
  obtain ⟨ph, st, hph, hstate, hs⟩ := processRunInner_ends _ _ _ _ hL' r rfl hr
  have hr' := h.course hp.course
  obtain ⟨_, _, hst⟩ := hs.status
  refine ⟨ph, st, hph, hstate, hst.nickname, hst.runId, fun L₁ c₁ hc => ?_⟩
  have hr₁ := hr'.course hc
  have hs₁ := hs.course hr' hc
  refine ⟨fun t' f' L'' a c₂ hpoll hok => ?_, fun t' a c₂ hread => ?_⟩
  · obtain ⟨L₂, hL₂, -⟩ := Performs.watched Clear hr₁ hpoll fun W o x hx _ => hok W o x hx
    obtain ⟨hterminal, hphase⟩ := runState_settled hL₂ hs₁
    refine ⟨hterminal, hphase, fun debug noProgress => ?_⟩
    exact Client.handleProcessRunSuccess_over hr hterminal noProgress
  · have hmem : ph ∈ [RunPhase.done, .failed] := by
      obtain rfl | rfl := hs.terminal <;> simp
    exact readStatusIn_settled hmem hr₁ hs₁ hread

/-- A process-run on the sample run, which nobody disturbs. -/
theorem terminal_answer_stable_processed :
    ∃ (c c' : Config Unit ServerOp ServerOp.Res (World Unit))
      (L : List (Moment Unit ServerOp ServerOp.Choice (World Unit) ServerEvent))
      (r : ProcessRunInnerResult) (ph : RunPhase) (st : RunStatus), Performs (server sampleHost sampleConfig) faultyPolicy () (fun _ => pure ())
        (processRunTarget sampleHost sampleConfig sampleKey) c L (.ok r) c' ∧
      r.outcome = .processed ∧ r.runPhase = some ph.asStr ∧ r.statusState = some st.state.asStr ∧
      ∀ t' a c₂, Watches (server sampleHost sampleConfig) faultyPolicy t'
        (onRun sampleKey (readRunStatus sampleConfig sampleKey).run) c' a c₂ → a = .ok st := by
  have hstart : Reachable (server sampleHost sampleConfig) faultyPolicy
      ⟨sampleWorld Unit 0 .ready, fun _ => none⟩ := .init (sampleWorld_init Unit (.inr rfl) _ _)
  have hrun := hstart.spawn (t := ()) rfl (.processRun sampleKey)
  have hsome : (alone (P := faultyPolicy) (server sampleHost sampleConfig) ()
      (outcome fun _ => false) (fun _ => pure ())
      (processRunTarget sampleHost sampleConfig sampleKey)
      ((⟨sampleWorld Unit 0 .ready, fun _ => none⟩ : Config Unit _ _ _).put ()
        (some (discard (processRunTarget sampleHost sampleConfig sampleKey)))
        (sampleWorld Unit 0 .ready))).any
      (fun p => p.1.toOption.any fun r => r.outcome == .processed) = true := by decide +kernel
  obtain ⟨⟨a, c'⟩, he, ha⟩ := (Option.any_eq_true _ _).1 hsome
  obtain ⟨L, hL⟩ := Performs.of_alone he (by simp [Config.put, discard])
  cases a with
  | error e => cases ha
  | ok r =>
    have hout : r.outcome = .processed := by simpa [Except.toOption] using ha
    obtain ⟨ph, st, hph, hstate, -, -, hlater⟩ :=
      terminal_answer_stable hrun hL (.inl hout)
    exact ⟨_, c', L, r, ph, st, hL, hout, hph, hstate, (hlater [] c' (.refl c')).2⟩

end Stability

end Purgery.Server
