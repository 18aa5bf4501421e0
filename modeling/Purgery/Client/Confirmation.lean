import Purgery.Client.Supervision

namespace Purgery.Client

open Purgery.Interleaving Server

section Statement

variable (k : RunKey)

/-- What a worker reported that succeeded. -/
def reply : RemoteCommandExit → Option ProcessRunOutcome
  | .success stdout =>
    (parseProcessRunResponse k stdout.response).toOption.bind fun resp =>
      outcomeFromStrName resp.outcome
  | _ => none

/-- What a worker reported that has just been found gone. -/
def replied : ClientEvent → Option ProcessRunOutcome
  | ⟨.waitpid, .ok (some status)⟩ => reply k status.exit
  | _ => none

def lastReply (A : List ClientEvent) : Option ProcessRunOutcome := A.getLast?.bind (replied k)

/-- Calls that show that the loop goes on. -/
def ClientOp.continues : ClientOp → Bool
  | .runState _ | .spawn _ => true
  | _ => false

/-- A run that is processed, or that a worker may be started on. -/
def Underway (state : RunStateResponse) : Prop :=
  state.phase = "processing" ∧
    (state.processorState = some "active" ∨ state.processorState = some "idle")

/-- A terminal answer of run-state is the last one, and the result `r`. If the
run is underway after an exit that allows it, the loop goes on with a worker or
to the next poll. -/
def Served (r : Option (Except String RunStateResponse)) (A : List ClientEvent) (e : ClientEvent)
    (B : List ClientEvent) : Prop :=
  ∀ state, e = ⟨.runState k, .ok state⟩ →
    (state.terminal = true → r = some (.ok state) ∧ ∀ e' ∈ B, e'.1.continues = false) ∧
    (state.terminal = false → Underway state →
      lastReply k A = some .alreadyActive ∨ lastReply k A = some .claimInProgress →
      ∃ e' B', B = e' :: B' ∧ (e'.1 = .pause ∨ e'.1 = .spawn k))

/-- The fresh state after `already_active` is neither terminal nor idle. -/
def StillActive (A : List ClientEvent) (e : ClientEvent) : Prop :=
  ∀ state, e = ⟨.runState k, .ok state⟩ → lastReply k A = some .alreadyActive →
    ¬ (state.terminal = true ∨
      state.phase = "processing" ∧ state.processorState = some "idle")

end Statement

section Exit

variable {debug : Option String → String} {host : String} {k : RunKey} {st : DriveState}
variable {A B L : List ClientEvent} {e : ClientEvent}

def ClientOp.polls : ClientOp → Bool
  | .runState _ => true
  | _ => false

theorem served_of_other {r : Option (Except String RunStateResponse)} (h : e.1.polls = false) :
    Served k r A e B := by
  rintro state rfl
  exact nomatch h

theorem stillActive_of_other (h : e.1.polls = false) : StillActive k A e := by
  rintro state rfl
  exact nomatch h

/-- How an exit with this reply and the fresh state `state` is judged. -/
inductive Judged (k : RunKey) (reply : Option ProcessRunOutcome) (state : RunStateResponse) :
    Except (Except String RunStateResponse) RunStateResponse → Prop
  | terminal (hterminal : state.terminal = true) (hreply : reply ≠ some .alreadyActive) :
      Judged k reply state (.error (.ok state))
  | failed (e : String) (hterminal : state.terminal = true → reply = some .alreadyActive)
      (hactive : reply = some .alreadyActive → state.phase = "processing" →
        state.processorState ≠ some "active")
      (hclaim : reply = some .claimInProgress → state.phase ≠ "processing") :
      Judged k reply state (.error (.error e))
  | goesOn (hterminal : state.terminal = true → reply = some .alreadyActive)
      (hactive : reply = some .alreadyActive →
        state.phase = "processing" ∧ state.processorState = some "active") :
      Judged k reply state (.ok state)

/-- What the loop makes of a decision. -/
def settle : Except String (WorkerExitDecision × NoProgressTracker) →
    Except (Except String RunStateResponse) RunStateResponse
  | .error e => .error (.error e)
  | .ok (.terminal state, _) => .error (.ok state)
  | .ok (.continueWithFreshState state, _) => .ok state

variable (debug) in
theorem handleProcessRunSuccess_judged {stdout : Option (Except String ProcessRunResponse)}
    {resp : ProcessRunResponse} {outcome : ProcessRunOutcome} (state : RunStateResponse)
    (tracker : NoProgressTracker) (hresp : parseProcessRunResponse k stdout = .ok resp)
    (houtcome : outcomeFromStrName resp.outcome = some outcome) :
    Judged k (some outcome) state
      (settle (handleProcessRunSuccess debug k stdout (.ok state) tracker)) := by
  unfold handleProcessRunSuccess
  simp only [hresp, bind, Except.bind, houtcome]
  have hover : outcome ≠ .alreadyActive → outcome ≠ .claimInProgress → ∀ e : String,
      Judged k (some outcome) state (settle (if (!state.terminal) = true then .error e
        else .ok (.terminal state, tracker))) := by
    intro hactive hclaim e
    cases hterminal : state.terminal with
    | true => exact .terminal hterminal fun h => hactive (Option.some.inj h)
    | false =>
      refine .failed e (fun h => ?_) (fun h => absurd (Option.some.inj h) hactive)
        fun h => absurd (Option.some.inj h) hclaim
      rw [hterminal] at h
      exact nomatch h
  cases outcome with
  | processed => exact hover nofun nofun _
  | alreadyTerminal => exact hover nofun nofun _
  | alreadyActive =>
    simp only
    split
    · rename_i hstate
      exact .failed _ (fun _ => rfl) (fun _ hphase => hstate.resolve_left (not_not.2 hphase)) nofun
    · rename_i hstate
      obtain ⟨hphase, hactive⟩ := not_or.1 hstate
      exact .goesOn (fun _ => rfl) fun _ => ⟨not_not.1 hphase, not_not.1 hactive⟩
  | claimInProgress =>
    simp only
    split
    · rename_i hterminal
      exact .terminal hterminal nofun
    · rename_i hterminal
      have hgoesOn : Judged k (some .claimInProgress) state (.ok state) :=
        .goesOn (fun h => absurd h hterminal) nofun
      split
      · exact hgoesOn
      · split
        · rename_i hready
          split
          · exact hgoesOn
          · refine .failed _ (fun h => absurd h hterminal) nofun fun _ => ?_
            rw [hready]
            decide
        · exact hgoesOn

theorem act_runs {α : Type} {o : ClientOp} {f : o.Res → Part α}
    {out : Except (Except String RunStateResponse) α} :
    (ExceptT.lift (act o) >>= f).run.Runs L out ↔
      ∃ a L', L = ⟨o, a⟩ :: L' ∧ (f a).run.Runs L' out := by
  rw [Prog.runs_liftBind]
  constructor
  · rintro ⟨a, L₁, L₂, rfl, h, hf⟩
    exact ⟨a, L₂, by rw [Prog.runs_perform.1 h]; rfl, hf⟩
  · rintro ⟨a, L', rfl, hf⟩
    exact ⟨a, [_], L', rfl, Prog.runs_perform.2 rfl, hf⟩

theorem leave_runs {α : Type} {r : Except String RunStateResponse}
    {out : Except (Except String RunStateResponse) α} :
    (leave r : Part α).run.Runs L out ↔ L = [] ∧ out = .error r := Iff.rfl

theorem return_runs {α : Type} {a : α} {out : Except (Except String RunStateResponse) α} :
    (return a : Part α).run.Runs L out ↔ L = [] ∧ out = .ok a := Iff.rfl

/-- What may happen at an exit: nothing is asked, run-state fails, or its answer
is judged. -/
inductive Exited (k : RunKey) (reply : Option ProcessRunOutcome) :
    List ClientEvent → Except (Except String RunStateResponse) RunStateResponse → Prop
  | unasked (e : String) : Exited k reply [] (.error (.error e))
  | unread (m e : String) : Exited k reply [⟨.runState k, .error m⟩] (.error (.error e))
  | judged {state : RunStateResponse}
      {out : Except (Except String RunStateResponse) RunStateResponse}
      (h : Judged k reply state out) : Exited k reply [⟨.runState k, .ok state⟩] out

theorem afterSuccess_runs {stdout : CapturedStdout} {tracker : NoProgressTracker}
    {out : Except (Except String RunStateResponse) (RunStateResponse × NoProgressTracker)}
    (h : (afterSuccess debug k stdout tracker).run.Runs L out) :
    Exited k (reply k (.success stdout)) L (out.map Prod.fst) := by
  unfold afterSuccess at h
  cases hresp : parseProcessRunResponse k stdout.response with
  | error e =>
    simp only [hresp] at h
    obtain ⟨rfl, rfl⟩ := leave_runs.1 h
    exact .unasked e
  | ok resp =>
    simp only [hresp] at h
    cases houtcome : outcomeFromStrName resp.outcome with
    | none =>
      simp only [houtcome, Option.isNone_none, if_true] at h
      obtain ⟨rfl, rfl⟩ := leave_runs.1 h
      exact .unasked _
    | some outcome =>
      simp only [houtcome, Option.isNone_some, Bool.false_eq_true, if_false] at h
      have hreply : reply k (.success stdout) = some outcome := by
        simp [reply, hresp, Except.toOption, houtcome]
      obtain ⟨a, L', rfl, hk⟩ := act_runs.1 h
      cases a with
      | error m =>
        split at hk
        · obtain ⟨rfl, rfl⟩ := leave_runs.1 hk
          exact .unread m _
        · rename_i heq
          obtain ⟨s, hs, -⟩ := handleProcessRunSuccess_fresh heq
          cases hs
        · rename_i heq
          obtain ⟨s, hs, -⟩ := handleProcessRunSuccess_fresh heq
          cases hs
      | ok state =>
        have hjudged := handleProcessRunSuccess_judged debug state tracker hresp houtcome
        rw [hreply]
        split at hk
        · rename_i heq
          obtain ⟨rfl, rfl⟩ := leave_runs.1 hk
          rw [heq] at hjudged
          exact .judged hjudged
        · rename_i heq
          obtain ⟨rfl, rfl⟩ := leave_runs.1 hk
          rw [heq] at hjudged
          exact .judged hjudged
        · rename_i heq
          obtain ⟨rfl, rfl⟩ := return_runs.1 hk
          rw [heq] at hjudged
          exact .judged hjudged

theorem afterTransportFailure_runs
    {out : Except (Except String RunStateResponse) RunStateResponse}
    (h : (afterTransportFailure k).run.Runs L out) : Exited k none L out := by
  obtain ⟨a, L', rfl, hk⟩ := act_runs.1 h
  cases a with
  | error m =>
    obtain ⟨rfl, rfl⟩ := leave_runs.1 hk
    exact .unread m _
  | ok fresh =>
    cases hterminal : fresh.terminal with
    | true =>
      simp only [hterminal, if_true] at hk
      obtain ⟨rfl, rfl⟩ := leave_runs.1 hk
      exact .judged (.terminal hterminal nofun)
    | false =>
      simp only [hterminal, Bool.false_eq_true, if_false] at hk
      obtain ⟨rfl, rfl⟩ := return_runs.1 hk
      exact .judged (.goesOn (fun hover => by rw [hterminal] at hover; exact nomatch hover) nofun)

theorem afterRemoteFailure_runs {stdout : CapturedStdout} {stderr : String}
    {out : Except (Except String RunStateResponse) RunStateResponse}
    (h : (afterRemoteFailure host k stdout stderr).run.Runs L out) : Exited k none L out := by
  obtain ⟨a, L', rfl, hk⟩ := act_runs.1 h
  cases a with
  | error m =>
    obtain ⟨rfl, rfl⟩ := leave_runs.1 hk
    exact .unread m _
  | ok fresh =>
    cases hterminal : fresh.terminal with
    | true =>
      simp only [hterminal, if_true] at hk
      obtain ⟨rfl, rfl⟩ := leave_runs.1 hk
      exact .judged (.terminal hterminal nofun)
    | false =>
      have hnever : fresh.terminal = true → (none : Option ProcessRunOutcome) =
          some .alreadyActive := by
        intro hover
        rw [hterminal] at hover
        exact nomatch hover
      have hfailed : ∀ e, Judged k none fresh (.error (.error e)) :=
        fun e => .failed e hnever nofun nofun
      simp only [hterminal, Bool.false_eq_true, if_false] at hk
      split at hk
      · obtain ⟨rfl, rfl⟩ := leave_runs.1 hk
        exact .judged (hfailed _)
      · obtain ⟨rfl, rfl⟩ := leave_runs.1 hk
        exact .judged (hfailed _)
      · obtain ⟨rfl, rfl⟩ := leave_runs.1 hk
        exact .judged (hfailed _)
      · split at hk
        · obtain ⟨rfl, rfl⟩ := leave_runs.1 hk
          exact .judged (hfailed _)
        · obtain ⟨rfl, rfl⟩ := return_runs.1 hk
          exact .judged (.goesOn hnever nofun)

/-- The one poll after an exit. -/
theorem afterExit_runs {exit : RemoteCommandExit} {tracker : NoProgressTracker}
    {out : Except (Except String RunStateResponse) (RunStateResponse × NoProgressTracker)}
    (h : (afterExit debug host k exit tracker).run.Runs L out) :
    Exited k (reply k exit) L (out.map Prod.fst) := by
  have hpair : ∀ {c : Part RunStateResponse},
      (∀ {L' out'}, c.run.Runs L' out' → Exited k none L' out') →
      (c >>= fun fresh => return (fresh, tracker)).run.Runs L out →
      Exited k none L (out.map Prod.fst) := by
    intro c hc h
    obtain ⟨e, rfl, hrun⟩ | ⟨fresh, L₁, L₂, rfl, hrun, hreturn⟩ := Prog.runs_runBind.1 h
    · exact hc hrun
    · obtain ⟨rfl, rfl⟩ := return_runs.1 hreturn
      rw [List.append_nil]
      exact hc hrun
  cases exit with
  | success stdout => exact afterSuccess_runs h
  | transportFailure exitCode details => exact hpair afterTransportFailure_runs h
  | remoteFailure exitCode stdout stderr => exact hpair afterRemoteFailure_runs h
  | killed =>
    obtain ⟨rfl, rfl⟩ := leave_runs.1 h
    exact .unasked _

end Exit

section Places

variable {debug : Option String → String} {host : String} {k : RunKey} {st : DriveState}
variable {A B L L' : List ClientEvent} {e : ClientEvent}
variable {r : Option (Except String RunStateResponse)}

/-- Along this part of the calls, before `B`, the answers are served if and only
if the run stays active. -/
def Matching (k : RunKey) (r : Option (Except String RunStateResponse)) (A L B : List ClientEvent) :
    Prop :=
  Everywhere (fun A e B' => Served k r A e (B' ++ B)) A L ↔
    Everywhere (fun A e _ => StillActive k A e) A L

theorem Matching.append (h : Matching k r A L (L' ++ B)) (h' : Matching k r (A ++ L) L' B) :
    Matching k r A (L ++ L') B := by
  unfold Matching at h h' ⊢
  rw [everywhere_append, everywhere_append, ← h, ← h']
  simp only [List.append_assoc]

theorem Matching.of_quiet (h : ∀ e ∈ L, e.1.polls = false) : Matching k r A L B := by
  have hserved : Everywhere (fun A e B' => Served k r A e (B' ++ B)) A L := fun A' e B' hL =>
    served_of_other (h e (hL ▸ List.mem_append_right _ List.mem_cons_self))
  have hactive : Everywhere (fun A e _ => StillActive k A e) A L := fun A' e B' hL =>
    stillActive_of_other (h e (hL ▸ List.mem_append_right _ List.mem_cons_self))
  exact iff_of_true hserved hactive

theorem Matching.nil : Matching k r A [] B := .of_quiet (List.forall_mem_nil _)

theorem Matching.single (h : Served k r A e B ↔ StillActive k A e) : Matching k r A [e] B := by
  unfold Matching
  rw [everywhere_cons, everywhere_cons]
  exact and_congr h (iff_of_true everywhere_nil everywhere_nil)

theorem lastReply_concat : lastReply k (A ++ [e]) = replied k e := by
  simp [lastReply]

/-- A poll that does not follow an exit. -/
theorem Matching.poll {answer : Except String RunStateResponse} (hA : lastReply k A = none)
    (hterminal : ∀ state, answer = .ok state → state.terminal = true →
      r = some (.ok state) ∧ ∀ e' ∈ B, e'.1.continues = false) :
    Matching k r A [⟨.runState k, answer⟩] B := by
  refine .single (iff_of_true ?_ ?_)
  · rintro state ⟨⟩
    refine ⟨hterminal state rfl, fun _ _ hreply => ?_⟩
    rw [hA] at hreply
    exact absurd hreply (by simp)
  · intro state _ hreply
    rw [hA] at hreply
    exact nomatch hreply

/-- The loop goes on with `B`: it does not just return what it has. -/
def Unfinished (r : Option (Except String RunStateResponse)) (B : List ClientEvent) : Prop :=
  ∀ state, r = some (.ok state) → ∃ e ∈ B, e.1.continues = true

/-- A run underway is waited for, or gets a new worker. -/
def Taken (k : RunKey) (state : RunStateResponse) (B : List ClientEvent) : Prop :=
  Underway state → ∃ e' B', B = e' :: B' ∧ (e'.1 = .pause ∨ e'.1 = .spawn k)

theorem Judged.agrees {reply : Option ProcessRunOutcome} {state : RunStateResponse}
    {out : Except (Except String RunStateResponse) RunStateResponse}
    (h : Judged k reply state out) (hA : lastReply k A = reply)
    (hleft : ∀ res, out = .error res → r = some res ∧ B = [])
    (hgoesOn : ∀ s, out = .ok s → Unfinished r B ∧ Taken k s B) :
    Matching k r A [⟨.runState k, .ok state⟩] B := by
  refine .single ?_
  have hserved : Served k r A ⟨.runState k, .ok state⟩ B ↔
      (state.terminal = true → r = some (.ok state) ∧ ∀ e' ∈ B, e'.1.continues = false) ∧
        (state.terminal = false → Underway state →
          reply = some .alreadyActive ∨ reply = some .claimInProgress →
          ∃ e' B', B = e' :: B' ∧ (e'.1 = .pause ∨ e'.1 = .spawn k)) := by
    constructor
    · intro h
      rw [← hA]
      exact h state rfl
    · rintro h _ ⟨⟩
      rw [hA]
      exact h
  have hactive : StillActive k A ⟨.runState k, .ok state⟩ ↔ (reply = some .alreadyActive →
      ¬ (state.terminal = true ∨
        state.phase = "processing" ∧ state.processorState = some "idle")) := by
    constructor
    · intro h
      rw [← hA]
      exact h state rfl
    · rintro h _ ⟨⟩
      rw [hA]
      exact h
  rw [hserved, hactive]
  cases h with
  | terminal hterminal hreply =>
    obtain ⟨rfl, rfl⟩ := hleft _ rfl
    refine iff_of_true ⟨fun _ => ⟨rfl, List.forall_mem_nil _⟩, fun hnot => ?_⟩ fun h => absurd h hreply
    rw [hterminal] at hnot
    exact nomatch hnot
  | failed m hterminal hnotActive hclaim =>
    obtain ⟨rfl, rfl⟩ := hleft _ rfl
    constructor
    · rintro ⟨hover, hunderway⟩ hreply (hterm | ⟨hphase, hidle⟩)
      · obtain ⟨heq, -⟩ := hover hterm
        exact nomatch heq
      · cases hterm : state.terminal with
        | true =>
          obtain ⟨heq, -⟩ := hover hterm
          exact nomatch heq
        | false =>
          obtain ⟨e', B', heq, -⟩ := hunderway hterm ⟨hphase, .inr hidle⟩ (.inl hreply)
          exact nomatch heq
    · intro h
      refine ⟨fun hterm => absurd (.inl hterm) (h (hterminal hterm)), fun _ hunderway hreply => ?_⟩
      obtain ⟨hphase, hstate⟩ := hunderway
      obtain hreply | hreply := hreply
      · obtain hstate | hstate := hstate
        · exact absurd hstate (hnotActive hreply hphase)
        · exact absurd (.inr ⟨hphase, hstate⟩) (h hreply)
      · exact absurd hphase (hclaim hreply)
  | goesOn hterminal hactive =>
    obtain ⟨hunfinished, htaken⟩ := hgoesOn _ rfl
    constructor
    · rintro ⟨hover, -⟩ hreply (hterm | ⟨-, hidle⟩)
      · obtain ⟨hr, hquiet⟩ := hover hterm
        obtain ⟨e', he', hcontinues⟩ := hunfinished _ hr
        rw [hquiet e' he'] at hcontinues
        exact nomatch hcontinues
      · rw [(hactive hreply).2] at hidle
        exact absurd hidle (by decide)
    · intro h
      exact ⟨fun hterm => absurd (.inl hterm) (h (hterminal hterm)), fun _ hunderway _ =>
        htaken hunderway⟩

theorem Exited.agrees {reply : Option ProcessRunOutcome}
    {out : Except (Except String RunStateResponse) RunStateResponse}
    (h : Exited k reply L out) (hA : lastReply k A = reply)
    (hleft : ∀ res, out = .error res → r = some res ∧ B = [])
    (hgoesOn : ∀ s, out = .ok s → Unfinished r B ∧ Taken k s B) : Matching k r A L B := by
  cases h with
  | unasked e => exact .nil
  | unread m e =>
    refine .single (iff_of_true ?_ ?_)
    · rintro state h
      exact nomatch h
    · rintro state h
      exact nomatch h
  | judged h => exact h.agrees hA hleft hgoesOn

end Places

section Loop

variable {debug : Option String → String} {host : String} {k : RunKey} {st : DriveState}
variable {A B L L' : List ClientEvent} {e : ClientEvent}
variable {r : Option (Except String RunStateResponse)}
variable {out : Except (Except String RunStateResponse) DriveState}

/-- Calls about the local process and the time. -/
def ClientOp.local : ClientOp → Bool
  | .runState _ | .spawn _ => false
  | _ => true

theorem ClientOp.local_spec {o : ClientOp} (h : o.local = true) :
    o.polls = false ∧ o.continues = false := by
  cases o <;> first | exact ⟨rfl, rfl⟩ | exact nomatch h

theorem tryWait_only : tryWait.Only fun o => o.local = true :=
  Prog.Only.bind ⟨rfl, fun _ => trivial⟩ fun r => by
    obtain e | _ | status := r <;> trivial

theorem waitTimeout_only (naps : Nat) : (waitTimeout naps).Only fun o => o.local = true := by
  induction naps with
  | zero =>
    unfold waitTimeout
    refine Prog.Only.bind tryWait_only fun r => ?_
    obtain e | _ | exit := r <;> trivial
  | succ naps ih =>
    unfold waitTimeout
    refine Prog.Only.bind tryWait_only fun r => ?_
    obtain e | _ | exit := r
    · trivial
    · refine Prog.Only.bind ⟨rfl, fun _ => trivial⟩ fun late => ?_
      split
      · trivial
      · exact Prog.Only.bind ⟨rfl, fun _ => trivial⟩ fun _ => ih
    · trivial

theorem wait_only (polls : Nat) : (wait polls).Only fun o => o.local = true := by
  induction polls with
  | zero =>
    refine Prog.Only.bind ⟨rfl, fun _ => trivial⟩ fun r => ?_
    cases r <;> trivial
  | succ polls ih => exact Prog.Only.bind ⟨rfl, fun _ => trivial⟩ fun _ => ih

theorem terminateAndReap_only : terminateAndReap.Only fun o => o.local = true :=
  Prog.Only.bind ⟨rfl, fun _ => trivial⟩ fun killed => wait_only killed.2

theorem finishWorkerAfterTerminal_only (worker : Bool) :
    (finishWorkerAfterTerminal worker).Only fun o => o.local = true := by
  cases worker with
  | false => trivial
  | true =>
    unfold finishWorkerAfterTerminal
    rw [if_pos rfl]
    refine Prog.Only.bind (waitTimeout_only terminalWorkerGrace) fun r => ?_
    obtain e | _ | exit := r
    · exact Prog.Only.bind terminateAndReap_only fun _ => trivial
    · exact Prog.Only.bind terminateAndReap_only fun _ => trivial
    · trivial

theorem terminateWorkerOnError_only (worker : Bool) :
    (terminateWorkerOnError worker).Only fun o => o.local = true := by
  cases worker with
  | false => trivial
  | true => exact Prog.Only.bind terminateAndReap_only fun _ => trivial

theorem pollState_runs {out : Except (Except String RunStateResponse) RunStateResponse}
    (h : (pollState k st).run.Runs L out) : ∃ answer, L = [⟨.runState k, answer⟩] ∧
      ((∃ state, answer = .ok state ∧ out = .ok state) ∨
        ∃ m, answer = .error m ∧ (out = .ok st.state ∨ ∃ e, out = .error (.error e))) := by
  obtain ⟨answer, L', rfl, hk⟩ := act_runs.1 h
  cases answer with
  | ok state =>
    obtain ⟨rfl, rfl⟩ := return_runs.1 hk
    exact ⟨_, rfl, .inl ⟨state, rfl, rfl⟩⟩
  | error m =>
    obtain ⟨_ | _, state, tracker⟩ := st
    · obtain ⟨rfl, rfl⟩ := leave_runs.1 hk
      exact ⟨_, rfl, .inr ⟨m, rfl, .inr ⟨_, rfl⟩⟩⟩
    · obtain ⟨rfl, rfl⟩ := return_runs.1 hk
      exact ⟨_, rfl, .inr ⟨m, rfl, .inl rfl⟩⟩

/-- What the look at the worker shows. -/
inductive Checked (k : RunKey) (st : DriveState) :
    List ClientEvent → Except (Except String RunStateResponse) DriveState → Prop
  | none : Checked k st [] (.ok st)
  | running : Checked k st [⟨.waitpid, .ok none⟩] (.ok st)
  | gone (answer : Except String (Option ExitStatus)) {L : List ClientEvent}
      {out : Except (Except String RunStateResponse) DriveState}
      (h : Exited k (replied k ⟨.waitpid, answer⟩) L (out.map DriveState.state))
      (hworker : ∀ st', out = .ok st' → st'.worker = false) :
      Checked k st (⟨.waitpid, answer⟩ :: L) out

theorem checkWorker_runs (h : (checkWorker debug host k st).run.Runs L out) :
    Checked k st L out := by
  have hexit : ∀ {exit : RemoteCommandExit} {L' : List ClientEvent}
      (answer : Except String (Option ExitStatus)), reply k exit = replied k ⟨.waitpid, answer⟩ →
      (afterExit debug host k exit st.noProgress >>= fun next =>
        (return ⟨false, next.1, next.2⟩ : Part DriveState)).run.Runs L' out →
      Checked k st (⟨.waitpid, answer⟩ :: L') out := by
    intro exit L' answer hreply h
    obtain ⟨e, rfl, hrun⟩ | ⟨next, L₁, L₂, rfl, hrun, hreturn⟩ := Prog.runs_runBind.1 h
    · have hexited := afterExit_runs hrun
      rw [hreply] at hexited
      exact .gone answer hexited fun st' hst => nomatch hst
    · obtain ⟨rfl, rfl⟩ := return_runs.1 hreturn
      have hexited := afterExit_runs hrun
      rw [hreply] at hexited
      rw [List.append_nil]
      refine .gone answer hexited ?_
      rintro _ ⟨⟩
      rfl
  obtain ⟨_ | _, state, tracker⟩ := st
  · obtain ⟨rfl, rfl⟩ := return_runs.1 h
    exact .none
  · unfold checkWorker at h
    obtain ⟨found, L₁, L₂, rfl, hwait, hk⟩ := Prog.runs_liftBind.1 h
    obtain ⟨answer, L', rfl, hfound⟩ := Prog.runs_perform_bind.1 hwait
    obtain m | _ | status := answer
    · obtain ⟨rfl, rfl⟩ := hfound
      exact hexit (.error m) rfl hk
    · obtain ⟨rfl, rfl⟩ := hfound
      obtain ⟨rfl, rfl⟩ := return_runs.1 hk
      exact .running
    · obtain ⟨rfl, rfl⟩ := hfound
      exact hexit (.ok (some status)) rfl hk

variable (debug k) in
theorem restartWorker_underway (hworker : st.worker = false) (h : Underway st.state) :
    restartWorker debug k st = .ok false ∨ restartWorker debug k st = .ok true := by
  obtain ⟨hphase, hstate⟩ := h
  unfold restartWorker processorObservation
  obtain hstate | hstate := hstate
  · exact .inl (by simp [hphase, hstate])
  · exact .inr (by simp [hphase, hstate, hworker])

theorem startWorker_runs (h : (startWorker debug k st).run.Runs L out) :
    (∀ e ∈ L, e.1.polls = false) ∧ (∀ res, out = .error res → ∃ e, res = .error e) ∧
      (st.worker = false → Underway st.state →
        L = [] ∧ (∃ st', out = .ok st') ∨ ∃ a L', L = ⟨.spawn k, a⟩ :: L') := by
  unfold startWorker at h
  cases hrestart : restartWorker debug k st with
  | error e =>
    simp only [hrestart] at h
    obtain ⟨_, L₁, L₂, rfl, hterminate, hk⟩ := Prog.runs_liftBind.1 h
    obtain ⟨rfl, rfl⟩ := leave_runs.1 hk
    have hlocal := Prog.Runs.only (terminateWorkerOnError_only st.worker) hterminate
    refine ⟨fun e he => ?_, ?_, fun hworker hunderway => ?_⟩
    · rw [List.append_nil] at he
      exact (ClientOp.local_spec (hlocal e he)).1
    · rintro _ ⟨⟩
      exact ⟨e, rfl⟩
    · have hok := restartWorker_underway debug k hworker hunderway
      rw [hrestart] at hok
      obtain hok | hok := hok <;> exact nomatch hok
  | ok start =>
    simp only [hrestart] at h
    cases start with
    | false =>
      obtain ⟨rfl, rfl⟩ := return_runs.1 h
      exact ⟨List.forall_mem_nil _, (fun _ he => nomatch he), fun _ _ => .inl ⟨rfl, _, rfl⟩⟩
    | true =>
      obtain ⟨a, L', rfl, hk⟩ := act_runs.1 h
      cases a with
      | error e =>
        obtain ⟨rfl, rfl⟩ := leave_runs.1 hk
        refine ⟨by simp [ClientOp.polls], ?_, fun _ _ => .inr ⟨_, _, rfl⟩⟩
        rintro _ ⟨⟩
        exact ⟨e, rfl⟩
      | ok u =>
        obtain ⟨rfl, rfl⟩ := return_runs.1 hk
        exact ⟨by simp [ClientOp.polls], (fun _ he => nomatch he), fun _ _ => .inr ⟨_, _, rfl⟩⟩

/-- The rest of an iteration after the look at the worker: a worker may be
started, and the loop pauses. -/
theorem restOfIteration_runs
    (h : (startWorker debug k st >>= fun st => ExceptT.lift (act .pause) >>= fun _ =>
      (return st : Part DriveState)).run.Runs L out) :
    (∀ e ∈ L, e.1.polls = false) ∧ (∀ res, out = .error res → ∃ e, res = .error e) ∧
      (∀ st', out = .ok st' → ∃ L', L = L' ++ [⟨.pause, ()⟩]) ∧
      (st.worker = false → Taken k st.state (L ++ B)) := by
  obtain ⟨res, rfl, hstart⟩ | ⟨st', L₁, L₂, rfl, hstart, hk⟩ := Prog.runs_runBind.1 h
  · obtain ⟨hpolls, herror, htaken⟩ := startWorker_runs hstart
    refine ⟨hpolls, herror, (fun _ he => nomatch he), fun hworker hunderway => ?_⟩
    obtain ⟨-, st', he⟩ | ⟨a, L', rfl⟩ := htaken hworker hunderway
    · exact nomatch he
    · exact ⟨_, L' ++ B, rfl, .inr rfl⟩
  · obtain ⟨⟨⟩, L', rfl, hreturn⟩ := act_runs.1 hk
    obtain ⟨rfl, rfl⟩ := return_runs.1 hreturn
    obtain ⟨hpolls, -, htaken⟩ := startWorker_runs hstart
    refine ⟨?_, (fun _ he => nomatch he), fun _ _ => ⟨L₁, rfl⟩, fun hworker hunderway => ?_⟩
    · refine List.forall_mem_append.2 ⟨hpolls, ?_⟩
      simp [ClientOp.polls]
    · obtain ⟨rfl, -⟩ | ⟨a, L', rfl⟩ := htaken hworker hunderway
      · exact ⟨_, B, rfl, .inl rfl⟩
      · exact ⟨_, L' ++ [⟨.pause, ()⟩] ++ B, rfl, .inr rfl⟩

/-- One iteration, at whose end the loop returns or goes on with `B`. -/
theorem driveIteration_agrees (hA : lastReply k A = none)
    (h : (driveIteration debug host k st).run.Runs L out)
    (hleft : ∀ res, out = .error res → r = some res ∧ B = [])
    (hgoesOn : ∀ st', out = .ok st' → Unfinished r B) :
    Matching k r A L B ∧ ∀ st', out = .ok st' → lastReply k (A ++ L) = none := by
  unfold driveIteration at h
  obtain ⟨res, rfl, hpoll⟩ | ⟨state, L₀, L₁, rfl, hpoll, hk⟩ := Prog.runs_runBind.1 h
  · obtain ⟨answer, rfl, hanswer⟩ := pollState_runs hpoll
    refine ⟨.poll hA ?_, fun _ he => nomatch he⟩
    rintro state rfl -
    obtain ⟨s, -, he⟩ | ⟨m, he, -⟩ := hanswer <;> exact nomatch he
  obtain ⟨answer, rfl, hanswer⟩ := pollState_runs hpoll
  have hpolled : ∀ s, answer = .ok s → s = state := by
    rintro s rfl
    obtain ⟨s', ⟨⟩, ⟨⟩⟩ | ⟨m, he, -⟩ := hanswer
    · rfl
    · exact nomatch he
  have hreply : ∀ answer : Except String RunStateResponse,
      lastReply k (A ++ [⟨.runState k, answer⟩]) = none := fun answer => lastReply_concat
  cases hterminal : state.terminal with
  | true =>
    simp only [hterminal, if_true] at hk
    obtain ⟨_, L₂, L₃, rfl, hfinish, hleave⟩ := Prog.runs_liftBind.1 hk
    obtain ⟨rfl, rfl⟩ := leave_runs.1 hleave
    obtain ⟨hr, rfl⟩ := hleft _ rfl
    have hlocal := Prog.Runs.only (finishWorkerAfterTerminal_only st.worker) hfinish
    rw [List.append_nil]
    refine ⟨Matching.append (.poll hA ?_) (.of_quiet fun e he =>
      (ClientOp.local_spec (hlocal e he)).1), fun _ he => nomatch he⟩
    intro s hs _
    obtain rfl := hpolled s hs
    rw [List.append_nil]
    exact ⟨hr, fun e he => (ClientOp.local_spec (hlocal e he)).2⟩
  | false =>
    simp only [hterminal, Bool.false_eq_true, if_false] at hk
    have hfirst : ∀ B, Matching k r A [⟨.runState k, answer⟩] B := by
      refine fun B => .poll hA fun s hs hover => ?_
      rw [hpolled s hs, hterminal] at hover
      exact nomatch hover
    obtain ⟨res, rfl, hcheck⟩ | ⟨st₁, W, R, rfl, hcheck, hrest⟩ := Prog.runs_runBind.1 hk
    · refine ⟨(hfirst _).append ?_, fun _ he => nomatch he⟩
      cases checkWorker_runs hcheck with
      | gone answer hexited hworker =>
        refine Matching.append (L := [_]) (.of_quiet (by simp [ClientOp.polls]))
          (hexited.agrees lastReply_concat (fun res' he => ?_) fun _ he => nomatch he)
        cases he
        exact hleft _ rfl
    · obtain ⟨hpolls, herror, hpause, htaken⟩ := restOfIteration_runs (B := B) hrest
      have hunfinished : Unfinished r (R ++ B) := by
        intro s hs
        cases out with
        | error res =>
          obtain ⟨e, rfl⟩ := herror res rfl
          rw [(hleft _ rfl).1] at hs
          exact nomatch hs
        | ok st' =>
          obtain ⟨e, he, hcontinues⟩ := hgoesOn st' rfl s hs
          exact ⟨e, List.mem_append_right _ he, hcontinues⟩
      refine ⟨(hfirst _).append (Matching.append ?_ (.of_quiet hpolls)), fun st' hst => ?_⟩
      · cases checkWorker_runs hcheck with
        | none => exact .nil
        | running => exact .of_quiet (by simp [ClientOp.polls])
        | gone answer hexited hworker =>
          refine Matching.append (L := [_]) (.of_quiet (by simp [ClientOp.polls]))
            (hexited.agrees lastReply_concat (fun _ he => nomatch he) fun s hs => ?_)
          cases hs
          exact ⟨hunfinished, htaken (hworker st₁ rfl)⟩
      · obtain ⟨R', rfl⟩ := hpause st' hst
        rw [← List.append_assoc, ← List.append_assoc, ← List.append_assoc]
        exact lastReply_concat

/-- A loop that returns has polled. -/
theorem driveFrom_unfinished {n : Nat} (h : (driveFrom debug host k n st).Runs L r) :
    Unfinished r L := by
  cases n with
  | zero =>
    obtain ⟨-, rfl⟩ := h
    exact fun s hs => nomatch hs
  | succ n =>
    intro s _
    obtain ⟨out, L₁, L₂, rfl, hiteration, -⟩ := Prog.runs_bind.1 h
    have hpolled : ∃ answer, (⟨.runState k, answer⟩ : ClientEvent) ∈ L₁ := by
      unfold driveIteration at hiteration
      obtain ⟨res, rfl, hpoll⟩ | ⟨state, L₃, L₄, rfl, hpoll, -⟩ := Prog.runs_runBind.1 hiteration
      · obtain ⟨answer, rfl, -⟩ := pollState_runs hpoll
        exact ⟨answer, List.mem_singleton_self _⟩
      · obtain ⟨answer, rfl, -⟩ := pollState_runs hpoll
        exact ⟨answer, List.mem_append_left _ (List.mem_singleton_self _)⟩
    obtain ⟨answer, hmem⟩ := hpolled
    exact ⟨_, List.mem_append_left _ hmem, rfl⟩

theorem driveFrom_agrees {n : Nat} (hA : lastReply k A = none)
    (h : (driveFrom debug host k n st).Runs L r) : Matching k r A L [] := by
  induction n generalizing st A L with
  | zero =>
    obtain ⟨rfl, -⟩ := h
    exact .nil
  | succ n ih =>
    obtain ⟨out, L₁, L₂, rfl, hiteration, hk⟩ := Prog.runs_bind.1 h
    cases out with
    | error res =>
      obtain ⟨rfl, rfl⟩ := hk
      obtain ⟨hagrees, -⟩ := driveIteration_agrees (r := some res) (B := []) hA hiteration
        (fun res' he => by cases he; exact ⟨rfl, rfl⟩) fun _ he => nomatch he
      rwa [List.append_nil]
    | ok st' =>
      obtain ⟨hagrees, hlast⟩ := driveIteration_agrees (B := L₂) hA hiteration
        (fun _ he => nomatch he) fun _ _ => driveFrom_unfinished hk
      refine Matching.append ?_ (ih (hlast st' rfl) hk)
      rwa [List.append_nil]

/-- The loop ends with every terminal answer and goes on with every run that is
underway, as long as no worker that found the run active is followed by an
answer that it is over or idle. -/
theorem drive_confirms (debug : Option String → String) (host : String) (k : RunKey) (n : Nat)
    (L : List ClientEvent) (r : Option (Except String RunStateResponse))
    (h : (driveServerUntilTerminal debug host k n).Runs L r) :
    (∀ A e B, L = A ++ e :: B → Served k r A e B) ↔
      ∀ A e B, L = A ++ e :: B → StillActive k A e := by
  have hagrees := driveFrom_agrees (A := []) rfl h
  simpa only [Matching, Everywhere, List.append_nil, List.nil_append] using hagrees

section Sample

theorem lastReply_of_none (h : ∀ e ∈ L, replied k e = none) (hL : L = A ++ e :: B) :
    lastReply k A = none := by
  unfold lastReply
  cases hlast : A.getLast? with
  | none => rfl
  | some e' =>
    have hmem : e' ∈ A := List.mem_of_getLast? hlast
    exact h e' (hL ▸ List.mem_append_left _ hmem)

theorem drive_confirms_done :
    (driveServerUntilTerminal (fun _ => "") "host" driveKey 2).Runs sampleDrive
        (some (.ok (sampleState "done" true))) ∧
      ∀ A e B, sampleDrive = A ++ e :: B →
        Served driveKey (some (.ok (sampleState "done" true))) A e B := by
  have hruns : (driveServerUntilTerminal (fun _ => "") "host" driveKey 2).Runs sampleDrive
      (some (.ok (sampleState "done" true))) := Prog.runs_of_replay (by decide +kernel)
  have hnone : ∀ e ∈ sampleDrive, replied driveKey e = none := by
    intro e he
    simp only [sampleDrive, List.mem_cons, List.not_mem_nil, or_false] at he
    obtain rfl | rfl | rfl | rfl | rfl := he <;> rfl
  refine ⟨hruns, (drive_confirms (fun _ => "") "host" driveKey 2 sampleDrive _ hruns).2 ?_⟩
  intro A e B hL state _ hreply
  rw [lastReply_of_none hnone hL] at hreply
  cases hreply

/-- A worker finds the run active, and the other processor finishes it before
the next poll. -/
def finishedByOther : List ClientEvent :=
  [⟨.runState driveKey, .ok (sampleState "ready" false)⟩, ⟨.spawn driveKey, .ok ()⟩,
    ⟨.pause, ()⟩, ⟨.runState driveKey, .ok (sampleState "ready" false)⟩,
    ⟨.waitpid, .ok (some ⟨some 0, ⟨some (.ok ⟨protocolVersion, currentPurgeryVersion, "laptop",
      "r1", "already_active", none, none, none⟩), .error ""⟩, "", ""⟩)⟩,
    ⟨.runState driveKey, .ok (sampleState "done" true)⟩]

theorem drive_fails_on_done :
    ∃ e, (driveServerUntilTerminal (fun _ => "None") "host" driveKey 2).Runs finishedByOther
        (some (.error e)) ∧
      ¬ ∀ A e' B, finishedByOther = A ++ e' :: B → Served driveKey (some (.error e)) A e' B := by
  have hruns : (driveServerUntilTerminal (fun _ => "None") "host" driveKey 2).Runs finishedByOther
      (some (.error ("process-run reported outcome=already_active but fresh run-state is not " ++
        "processing/active for run laptop/r1 (phase=done, processor_state=None)"))) :=
    Prog.runs_of_replay (by decide +kernel)
  have hlast : finishedByOther = finishedByOther.take 5 ++
      ⟨.runState driveKey, .ok (sampleState "done" true)⟩ :: [] := by simp [finishedByOther]
  refine ⟨_, hruns, fun h => ?_⟩
  obtain ⟨hresult, -⟩ := (h _ _ _ hlast (sampleState "done" true) rfl).1 rfl
  simp at hresult

end Sample

end Loop

end Purgery.Client
