import Purgery.Client.Drive

namespace Purgery.Client

open Purgery.Interleaving Server

abbrev ClientEvent := Exchange ClientOp ClientOp.Res

/-- The number of processes that are started and not reaped, after one more call. -/
def childrenAfter (n : Nat) : ClientEvent → Nat
  | ⟨.spawn _, .ok ()⟩ => n + 1
  | ⟨.waitpid, .ok (some _)⟩ => n - 1
  | ⟨.reap, .ok _⟩ => n - 1
  | _ => n

def children (L : List ClientEvent) : Nat := L.foldl childrenAfter 0

/-- The latest run-state that was read in the current iteration, which a pause
ends. -/
def observedAfter (s : Option RunStateResponse) : ClientEvent → Option RunStateResponse
  | ⟨.runState _, .ok state⟩ => some state
  | ⟨.pause, _⟩ => none
  | _ => s

def observed (L : List ClientEvent) : Option RunStateResponse := L.foldl observedAfter none

/-- A run that nobody processes. -/
def Startable (state : RunStateResponse) : Prop :=
  state.phase = "ready" ∨ state.phase = "processing" ∧ state.processorState = some "idle"

/-- The system fails to wait for the local process. -/
def waitFailed : ClientEvent → Bool
  | ⟨.waitpid, .error _⟩ | ⟨.reap, .error _⟩ => true
  | _ => false

/-- A worker is started only when there is none and the run that was observed in
this iteration may be started. -/
def Disciplined (A : List ClientEvent) (e : ClientEvent) : Prop :=
  children (A ++ [e]) ≤ 1 ∧
    ∀ k r, e = ⟨.spawn k, r⟩ →
      children A = 0 ∧ ∃ state, observed A = some state ∧ Startable state

/-- The answer of run-state for this run. -/
def Reported (k : RunKey) (state : RunStateResponse) (A : List ClientEvent) : Prop :=
  (⟨.runState k, .ok state⟩ : ClientEvent) ∈ A

abbrev Supervised {α : Type} (P : List ClientEvent → Prop) (c : Act α)
    (Q : α → List ClientEvent → Prop) : Prop :=
  Prog.Safe (fun e => waitFailed e = false) Disciplined P c Q

/-- What is true when the loop returns. -/
def Left (k : RunKey) (r : Except String RunStateResponse) (A : List ClientEvent) : Prop :=
  children A = 0 ∧ ∀ state, r = .ok state → state.terminal = true ∧ Reported k state A

section Handle

variable {A : List ClientEvent} {e : ClientEvent} {k : RunKey} {state : RunStateResponse}
variable {P : List ClientEvent → Prop} {o : ClientOp} {seen : Option RunStateResponse}

theorem children_concat : children (A ++ [e]) = childrenAfter (children A) e := by
  simp [children, List.foldl_append]

theorem observed_concat : observed (A ++ [e]) = observedAfter (observed A) e := by
  simp [observed, List.foldl_append]

/-- Calls that neither start nor end a process. -/
def ClientOp.watches : ClientOp → Bool
  | .spawn _ | .waitpid | .reap => false
  | _ => true

theorem children_watches {r : o.Res} (ho : o.watches = true) :
    children (A ++ [⟨o, r⟩]) = children A := by
  rw [children_concat]
  cases o <;> first | rfl | exact nomatch ho

/-- A call that does not start a process. -/
theorem Disciplined.of_le {r : o.Res} (ho : ∀ k, o ≠ .spawn k)
    (hle : children (A ++ [⟨o, r⟩]) ≤ 1) : Disciplined A ⟨o, r⟩ := by
  refine ⟨hle, fun k r' he => ?_⟩
  exact absurd (congrArg Sigma.fst he) (ho k)

theorem act_supervised {Q : o.Res → List ClientEvent → Prop} (ho : o.watches = true)
    (hP : ∀ A, P A → children A ≤ 1) (hQ : ∀ A r, P A → Q r (A ++ [⟨o, r⟩])) :
    Supervised P (act o) Q := by
  refine Prog.Safe.perform fun A r hA _ => ⟨.of_le ?_ ?_, hQ A r hA⟩
  · rintro k rfl
    exact nomatch ho
  · rw [children_watches ho]
    exact hP A hA

/-- What a look at the worker leaves behind. -/
def Looked (seen : Option RunStateResponse) :
    Except String (Option RemoteCommandExit) → List ClientEvent → Prop
  | .error _, _ => False
  | .ok none, A => children A = 1 ∧ observed A = seen
  | .ok (some _), A => children A = 0 ∧ observed A = seen

theorem waitpid_supervised :
    Supervised (fun A => children A = 1 ∧ observed A = seen) (act .waitpid)
      fun (r : Except String (Option ExitStatus)) A => observed A = seen ∧
        (r = .ok none ∧ children A = 1 ∨ (∃ status, r = .ok (some status)) ∧ children A = 0) := by
  refine Prog.Safe.perform fun A (r : Except String (Option ExitStatus)) hA hr => ?_
  obtain ⟨hone, hseen⟩ := hA
  have hobserved : observed (A ++ [⟨.waitpid, r⟩]) = seen := by
    rw [observed_concat, ← hseen]
    rfl
  have hchildren : children (A ++ [⟨.waitpid, r⟩]) = childrenAfter 1 ⟨.waitpid, r⟩ := by
    rw [children_concat, hone]
  obtain e | _ | status := r
  · exact nomatch hr
  · exact ⟨.of_le nofun hchildren.le, hobserved, .inl ⟨rfl, hchildren⟩⟩
  · exact ⟨.of_le nofun (hchildren.trans_le zero_le_one), hobserved, .inr ⟨⟨status, rfl⟩, hchildren⟩⟩

theorem tryWait_supervised :
    Supervised (fun A => children A = 1 ∧ observed A = seen) tryWait (Looked seen) := by
  refine Prog.Safe.bind waitpid_supervised fun r => ?_
  obtain e | _ | status := r
  · refine Prog.Safe.ret fun A hA => ?_
    obtain ⟨-, ⟨he, -⟩ | ⟨⟨status, he⟩, -⟩⟩ := hA <;> exact nomatch he
  · refine Prog.Safe.ret fun A hA => ?_
    obtain ⟨hseen, ⟨-, hone⟩ | ⟨⟨status, he⟩, -⟩⟩ := hA
    · exact ⟨hone, hseen⟩
    · exact nomatch he
  · refine Prog.Safe.ret fun A hA => ?_
    obtain ⟨hseen, ⟨he, -⟩ | ⟨-, hzero⟩⟩ := hA
    · exact nomatch he
    · exact ⟨hzero, hseen⟩

theorem waitTimeout_supervised (naps : Nat) :
    Supervised (fun A => children A = 1 ∧ observed A = seen) (waitTimeout naps) (Looked seen) := by
  induction naps with
  | zero =>
    unfold waitTimeout
    refine Prog.Safe.bind tryWait_supervised fun r => ?_
    obtain e | _ | exit := r <;> exact Prog.Safe.ret fun A hA => hA
  | succ naps ih =>
    unfold waitTimeout
    refine Prog.Safe.bind tryWait_supervised fun r => ?_
    obtain e | _ | exit := r
    · exact Prog.Safe.ret fun A hA => hA
    · have hkeep : ∀ o : ClientOp, o = .expired ∨ o = .nap → Supervised
          (fun A => children A = 1 ∧ observed A = seen) (act o)
          (fun _ A => children A = 1 ∧ observed A = seen) := by
        rintro o (rfl | rfl)
        · refine act_supervised rfl (fun A hA => hA.1.le) fun A r hA => ?_
          rw [children_watches rfl, observed_concat]
          exact hA
        · refine act_supervised rfl (fun A hA => hA.1.le) fun A r hA => ?_
          rw [children_watches rfl, observed_concat]
          exact hA
      refine Prog.Safe.bind (hkeep .expired (.inl rfl)) fun late => ?_
      split
      · exact Prog.Safe.ret fun A hA => hA
      · exact Prog.Safe.bind (hkeep .nap (.inr rfl)) fun _ => ih
    · exact Prog.Safe.ret fun A hA => hA

theorem wait_supervised (polls : Nat) :
    Supervised (fun A => children A = 1) (wait polls) fun _ A => children A = 0 := by
  induction polls with
  | zero =>
    refine Prog.Safe.bind (Prog.Safe.perform (Q := fun _ A => children A = 0)
      fun A r hA hr => ?_) fun r => ?_
    · obtain e | status := r
      · exact nomatch hr
      · have hzero : children (A ++ [⟨.reap, .ok status⟩]) = 0 := by
          rw [children_concat, hA]
          rfl
        exact ⟨.of_le nofun (by omega), hzero⟩
    · cases r <;> exact Prog.Safe.ret fun A hA => hA
  | succ polls ih =>
    refine Prog.Safe.bind (act_supervised rfl (fun A hA => (Eq.le hA)) fun A r hA => ?_)
      fun _ => ih
    rw [children_watches rfl]
    exact hA

theorem terminateAndReap_supervised :
    Supervised (fun A => children A = 1) terminateAndReap fun _ A => children A = 0 := by
  refine Prog.Safe.bind (act_supervised rfl (fun A hA => (Eq.le hA)) fun A r hA => ?_)
    fun killed => wait_supervised killed.2
  rw [children_watches rfl]
  exact hA

theorem finishWorkerAfterTerminal_supervised (worker : Bool) :
    Supervised (fun A => children A = worker.toNat) (finishWorkerAfterTerminal worker)
      fun _ A => children A = 0 := by
  cases worker with
  | false => exact Prog.Safe.ret fun A hA => hA
  | true =>
    intro A L a hL htame hA
    have hsafe : Supervised (fun A' => children A' = 1 ∧ observed A' = observed A)
        (finishWorkerAfterTerminal true) fun _ A => children A = 0 := by
      unfold finishWorkerAfterTerminal
      rw [if_pos rfl]
      refine Prog.Safe.bind (waitTimeout_supervised terminalWorkerGrace) fun r => ?_
      obtain e | _ | exit := r
      · exact fun A L a _ _ hA => hA.elim
      · refine Prog.Safe.bind (terminateAndReap_supervised.conseq (fun A hA => hA.1)
          fun _ _ hA => hA) fun _ => Prog.Safe.ret fun A hA => hA
      · exact Prog.Safe.ret fun A hA => hA.1
    exact hsafe A L a hL htame ⟨hA, rfl⟩

theorem terminateWorkerOnError_supervised (worker : Bool) :
    Supervised (fun A => children A = worker.toNat) (terminateWorkerOnError worker)
      fun _ A => children A = 0 := by
  cases worker with
  | false => exact Prog.Safe.ret fun A hA => hA
  | true =>
    exact Prog.Safe.bind terminateAndReap_supervised fun _ => Prog.Safe.ret fun A hA => hA

end Handle

section Drive

variable {debug : Option String → String} {host : String} {k : RunKey} {st : DriveState}
variable {P : List ClientEvent → Prop} {r : Except String RunStateResponse} {α : Type}
variable {Q : Except (Except String RunStateResponse) α → List ClientEvent → Prop}

/-- The state was read after the worker had gone. -/
def Fresh (k : RunKey) (state : RunStateResponse) (A : List ClientEvent) : Prop :=
  children A = 0 ∧ observed A = some state ∧ Reported k state A

/-- At the beginning of an iteration. -/
def Begins (k : RunKey) (st : DriveState) (A : List ClientEvent) : Prop :=
  children A = st.worker.toNat ∧ (st.worker = true → Reported k st.state A)

/-- Without a worker the state is one that was read in this iteration. -/
def Polled (k : RunKey) (st : DriveState) (A : List ClientEvent) : Prop :=
  children A = st.worker.toNat ∧ (st.worker = false → observed A = some st.state) ∧
    Reported k st.state A

/-- Code that goes on with `M`, or leaves the loop. -/
def GoesOn (k : RunKey) (M : α → List ClientEvent → Prop) :
    Except (Except String RunStateResponse) α → List ClientEvent → Prop
  | .ok a, A => M a A
  | .error r, A => Left k r A

theorem leave_supervised {M : α → List ClientEvent → Prop} (h : ∀ A, P A → Left k r A) :
    Supervised P (leave r : Part α).run (GoesOn k M) :=
  Prog.Safe.ret fun A hA => h A hA

theorem leave_error {M : α → List ClientEvent → Prop} {e : String} :
    Supervised (fun A => children A = 0) (leave (.error e) : Part α).run (GoesOn k M) :=
  leave_supervised fun _ hA => ⟨hA, nofun⟩

theorem return_supervised {M : α → List ClientEvent → Prop} {a : α} (h : ∀ A, P A → M a A) :
    Supervised P (return a : Part α).run (GoesOn k M) :=
  Prog.Safe.ret fun A hA => h A hA

/-- A poll of run-state. -/
theorem runState_supervised (worker : Bool) :
    Supervised (fun A => children A = worker.toNat) (act (.runState k)) fun r A =>
      children A = worker.toNat ∧
        ∀ state, r = .ok state → observed A = some state ∧ Reported k state A := by
  refine act_supervised rfl (fun A hA => ?_) fun A r hA => ⟨?_, ?_⟩
  · rw [hA]
    exact Bool.toNat_le worker
  · rw [children_watches rfl, hA]
  · rintro state rfl
    exact ⟨observed_concat, List.mem_append_right _ (List.mem_singleton_self _)⟩

theorem pollState_supervised :
    Supervised (Begins k st) (pollState k st).run
      (GoesOn k fun state => Polled k { st with state := state }) := by
  refine Prog.Safe.liftBind (((runState_supervised st.worker).frame
    (J := fun A => st.worker = true → Reported k st.state A) ?_).conseq (fun _ hA => hA)
    fun _ _ hA => hA) fun r => ?_
  · exact fun A L hA hworker => List.mem_append_left _ (hA hworker)
  · cases r with
    | ok state =>
      refine return_supervised fun A hA => ?_
      obtain ⟨⟨hchildren, hfresh⟩, -⟩ := hA
      obtain ⟨hobserved, hreported⟩ := hfresh state rfl
      exact ⟨hchildren, fun _ => hobserved, hreported⟩
    | error e =>
      obtain ⟨_ | _, state, tracker⟩ := st
      · exact leave_supervised fun A hA => ⟨hA.1.1, nofun⟩
      · exact return_supervised fun A hA => ⟨hA.1.1, nofun, hA.2 rfl⟩

/-- What the fresh poll after an exit makes of the run. -/
theorem fresh_supervised {f : Except String RunStateResponse → Part α}
    {M : α → List ClientEvent → Prop}
    (he : ∀ e, Supervised (fun A => children A = 0) (f (.error e)).run (GoesOn k M))
    (hok : ∀ state, Supervised (Fresh k state) (f (.ok state)).run (GoesOn k M)) :
    Supervised (fun A => children A = 0) (ExceptT.lift (act (.runState k)) >>= f).run
      (GoesOn k M) := by
  refine Prog.Safe.liftBind (runState_supervised false) fun r => ?_
  cases r with
  | error e => exact (he e).conseq (fun A hA => hA.1) fun _ _ hA => hA
  | ok state =>
    refine (hok state).conseq (fun A hA => ?_) fun _ _ hA => hA
    obtain ⟨hobserved, hreported⟩ := hA.2 state rfl
    exact ⟨hA.1, hobserved, hreported⟩

theorem Fresh.left {state : RunStateResponse} {A : List ClientEvent} (h : Fresh k state A)
    (hterminal : state.terminal = true) : Left k (.ok state) A := by
  refine ⟨h.1, ?_⟩
  rintro _ ⟨⟩
  exact ⟨hterminal, h.2.2⟩

/-- Both decisions are about the fresh state. -/
theorem handleProcessRunSuccess_fresh {stdout : Option (Except String ProcessRunResponse)}
    {fresh : Except String RunStateResponse} {tracker tracker' : NoProgressTracker}
    {decision : WorkerExitDecision}
    (h : handleProcessRunSuccess debug k stdout fresh tracker = .ok (decision, tracker')) :
    ∃ state, fresh = .ok state ∧ (decision = .terminal state ∧ state.terminal = true ∨
      decision = .continueWithFreshState state) := by
  unfold handleProcessRunSuccess at h
  cases hresp : parseProcessRunResponse k stdout with
  | error e => simp [hresp, bind, Except.bind] at h
  | ok resp =>
    simp only [hresp, bind, Except.bind] at h
    cases houtcome : outcomeFromStrName resp.outcome with
    | none => simp [houtcome, throw, throwThe, MonadExceptOf.throw] at h
    | some outcome =>
      simp only [houtcome] at h
      cases fresh with
      | error e => exact nomatch h
      | ok state =>
        refine ⟨state, rfl, ?_⟩
        have hterminal : ∀ e : String, (if (!state.terminal) = true then .error e
            else .ok (WorkerExitDecision.terminal state, tracker)) = Except.ok (decision, tracker') →
            decision = .terminal state ∧ state.terminal = true := by
          intro e h
          cases hstate : state.terminal with
          | true =>
            simp only [hstate, Bool.not_true, Bool.false_eq_true, if_false] at h
            cases h
            exact ⟨rfl, rfl⟩
          | false => simp [hstate] at h
        cases outcome with
        | processed => exact .inl (hterminal _ h)
        | alreadyTerminal => exact .inl (hterminal _ h)
        | alreadyActive =>
          simp only at h
          split at h
          · exact nomatch h
          · cases h
            exact .inr rfl
        | claimInProgress =>
          simp only at h
          split at h
          · rename_i hstate
            cases h
            exact .inl ⟨rfl, hstate⟩
          · split at h
            · cases h
              exact .inr rfl
            · split at h
              · split at h
                · cases h
                  exact .inr rfl
                · exact nomatch h
              · cases h
                exact .inr rfl

theorem afterSuccess_supervised (stdout : CapturedStdout) (tracker : NoProgressTracker) :
    Supervised (fun A => children A = 0) (afterSuccess debug k stdout tracker).run
      (GoesOn k fun next => Fresh k next.1) := by
  unfold afterSuccess
  split
  · exact leave_error
  · split
    · exact leave_error
    · refine fresh_supervised (fun e => ?_) fun state => ?_
      · split
        · exact leave_error
        · rename_i heq
          obtain ⟨s, hs, -⟩ := handleProcessRunSuccess_fresh heq
          exact nomatch hs
        · rename_i heq
          obtain ⟨s, hs, -⟩ := handleProcessRunSuccess_fresh heq
          exact nomatch hs
      · split
        · exact leave_supervised fun A hA => ⟨hA.1, nofun⟩
        · rename_i heq
          obtain ⟨s, ⟨⟩, ⟨⟨⟩, hterminal⟩ | ⟨⟨⟩⟩⟩ := handleProcessRunSuccess_fresh heq
          exact leave_supervised fun A hA => hA.left hterminal
        · rename_i heq
          obtain ⟨s, ⟨⟩, ⟨⟨⟩, -⟩ | ⟨⟨⟩⟩⟩ := handleProcessRunSuccess_fresh heq
          exact return_supervised fun A hA => hA

theorem afterTransportFailure_supervised :
    Supervised (fun A => children A = 0) (afterTransportFailure k).run (GoesOn k (Fresh k)) := by
  refine fresh_supervised (fun e => leave_error) fun state => ?_
  cases hterminal : state.terminal with
  | true =>
    simp only [hterminal, if_true]
    exact leave_supervised fun A hA => hA.left hterminal
  | false =>
    simp only [hterminal, Bool.false_eq_true, if_false]
    exact return_supervised fun A hA => hA

theorem afterRemoteFailure_supervised (stdout : CapturedStdout) (stderr : String) :
    Supervised (fun A => children A = 0) (afterRemoteFailure host k stdout stderr).run
      (GoesOn k (Fresh k)) := by
  refine fresh_supervised (fun e => leave_error) fun state => ?_
  have hleave : ∀ e : String, Supervised (Fresh k state)
      (leave (.error e) : Part RunStateResponse).run (GoesOn k (Fresh k)) :=
    fun e => leave_supervised fun A hA => ⟨hA.1, nofun⟩
  cases hterminal : state.terminal with
  | true =>
    simp only [hterminal, if_true]
    exact leave_supervised fun A hA => hA.left hterminal
  | false =>
    simp only [hterminal, Bool.false_eq_true, if_false]
    split
    · exact hleave _
    · exact hleave _
    · exact hleave _
    · split
      · exact hleave _
      · exact return_supervised fun A hA => hA

theorem afterExit_supervised (exit : RemoteCommandExit) (tracker : NoProgressTracker) :
    Supervised (fun A => children A = 0) (afterExit debug host k exit tracker).run
      (GoesOn k fun next => Fresh k next.1) := by
  cases exit with
  | success stdout => exact afterSuccess_supervised stdout tracker
  | transportFailure exitCode details =>
    refine Prog.Safe.runBind (M := Fresh k) (afterTransportFailure_supervised.weaken ?_) fun fresh =>
      return_supervised fun A hA => hA
    exact fun r A hA => by cases r <;> exact hA
  | remoteFailure exitCode stdout stderr =>
    refine Prog.Safe.runBind (M := Fresh k) ((afterRemoteFailure_supervised stdout stderr).weaken ?_)
      fun fresh => return_supervised fun A hA => hA
    exact fun r A hA => by cases r <;> exact hA
  | killed => exact leave_error

theorem checkWorker_supervised :
    Supervised (Polled k st) (checkWorker debug host k st).run (GoesOn k (Polled k)) := by
  obtain ⟨_ | _, state, tracker⟩ := st
  · exact return_supervised fun A hA => hA
  · intro A L a hL htame hA
    have hsafe : Supervised (fun A' => (children A' = 1 ∧ observed A' = observed A) ∧
        Reported k state A') (checkWorker debug host k ⟨true, state, tracker⟩).run
        (GoesOn k (Polled k)) := by
      unfold checkWorker
      refine Prog.Safe.liftBind (tryWait_supervised.frame (J := Reported k state) fun A L hA =>
        List.mem_append_left _ hA) fun r => ?_
      obtain e | _ | exit := r
      · exact fun A L a _ _ hA => hA.1.elim
      · exact return_supervised fun A hA => ⟨hA.1.1, nofun, hA.2⟩
      · refine Prog.Safe.runBind (M := fun next => Fresh k next.1)
          ((afterExit_supervised exit tracker).conseq (fun A hA => hA.1.1) ?_) fun next => ?_
        · exact fun r A hA => by cases r <;> exact hA
        · exact return_supervised fun A hA => ⟨hA.1, fun _ => hA.2.1, hA.2.2⟩
    exact hsafe A L a hL htame ⟨⟨hA.1, rfl⟩, hA.2.2⟩

/-- A worker is started when there is none and the run may be started. -/
theorem restartWorker_true (h : restartWorker debug k st = .ok true) :
    st.worker = false ∧ Startable st.state := by
  unfold restartWorker at h
  split at h
  · rename_i hphase
    exact ⟨by simpa using h, .inl hphase⟩
  · rename_i hphase
    split at h
    · exact nomatch h
    · rename_i hidle
      refine ⟨by simpa using h, .inr ⟨hphase, ?_⟩⟩
      unfold processorObservation at hidle
      split at hidle <;> first | assumption | exact nomatch hidle
    · split at h <;> exact nomatch h
    · split at h <;> exact nomatch h
  · exact nomatch h
  · exact nomatch h

theorem startWorker_supervised :
    Supervised (Polled k st) (startWorker debug k st).run (GoesOn k (Begins k)) := by
  unfold startWorker
  split
  · refine Prog.Safe.liftBind ((terminateWorkerOnError_supervised st.worker).conseq
      (fun A hA => hA.1) fun _ _ hA => hA) fun _ => leave_error
  · exact return_supervised fun A hA => ⟨hA.1, fun _ => hA.2.2⟩
  · rename_i hrestart
    obtain ⟨hworker, hstartable⟩ := restartWorker_true hrestart
    refine Prog.Safe.liftBind (Prog.Safe.perform (Q := fun (r : Except String Unit) A =>
      Reported k st.state A ∧ children A = r.toOption.elim 0 fun _ => 1)
      fun A (r : Except String Unit) hA _ => ?_) fun (r : Except String Unit) => ?_
    · obtain ⟨hzero, hobserved, hreported⟩ := hA
      rw [hworker] at hzero
      have hchildren : children (A ++ [⟨.spawn k, r⟩]) = r.toOption.elim 0 fun _ => 1 := by
        rw [children_concat, hzero]
        cases r <;> rfl
      refine ⟨⟨?_, fun _ _ _ => ⟨hzero, st.state, hobserved hworker, hstartable⟩⟩,
        List.mem_append_left _ hreported, hchildren⟩
      rw [hchildren]
      cases r <;> simp [Except.toOption]
    · cases r with
      | error e => exact leave_supervised fun A hA => ⟨hA.2, by rintro _ ⟨⟩⟩
      | ok u => exact return_supervised fun A hA => ⟨hA.2, fun _ => hA.1⟩

theorem driveIteration_supervised :
    Supervised (Begins k st) (driveIteration debug host k st).run (GoesOn k (Begins k)) := by
  unfold driveIteration
  refine Prog.Safe.runBind (M := fun state => Polled k { st with state := state })
    (pollState_supervised.weaken ?_) fun state => ?_
  · exact fun r A hA => by cases r <;> exact hA
  · cases hterminal : state.terminal with
    | true =>
      simp only [if_true]
      refine Prog.Safe.liftBind (((finishWorkerAfterTerminal_supervised st.worker).frame
        (J := Reported k state) fun A L hA => List.mem_append_left _ hA).conseq
        (fun A hA => ⟨hA.1, hA.2.2⟩) fun _ _ hA => hA) fun _ => ?_
      refine leave_supervised fun A hA => ⟨hA.1, ?_⟩
      rintro _ ⟨⟩
      exact ⟨hterminal, hA.2⟩
    | false =>
      simp only [Bool.false_eq_true, if_false]
      refine Prog.Safe.runBind (M := Polled k) (checkWorker_supervised.weaken ?_) fun st => ?_
      · exact fun r A hA => by cases r <;> exact hA
      · refine Prog.Safe.runBind (M := Begins k) (startWorker_supervised.weaken ?_) fun st => ?_
        · exact fun r A hA => by cases r <;> exact hA
        · refine Prog.Safe.liftBind (act_supervised (Q := fun _ => Begins k st) rfl ?_ ?_)
            fun _ => return_supervised fun A hA => hA
          · intro A hA
            rw [hA.1]
            exact Bool.toNat_le st.worker
          · intro A r hA
            exact ⟨(children_watches rfl).trans hA.1, fun h => List.mem_append_left _ (hA.2 h)⟩

theorem driveFrom_supervised (n : Nat) (st : DriveState) :
    Supervised (Begins k st) (driveFrom debug host k n st) fun r A =>
      ∀ res, r = some res → Left k res A := by
  induction n generalizing st with
  | zero => exact Prog.Safe.ret fun A _ => nofun
  | succ n ih =>
    refine Prog.Safe.bind driveIteration_supervised fun r => ?_
    cases r with
    | error res =>
      refine Prog.Safe.ret fun A hA => ?_
      rintro _ ⟨⟩
      exact hA
    | ok st => exact ih st

/-- The loop has at most one worker, starts one only on what it has just read,
and leaves none behind when it returns. -/
theorem worker_discipline (debug : Option String → String) (host : String) (k : RunKey) (n : Nat)
    (L : List ClientEvent) (r : Option (Except String RunStateResponse))
    (h : (driveServerUntilTerminal debug host k n).Runs L r)
    (hwait : ∀ e ∈ L, waitFailed e = false) :
    (∀ A, A <+: L → children A ≤ 1) ∧
      (∀ A B k' started, L = A ++ ⟨.spawn k', started⟩ :: B →
        children A = 0 ∧ ∃ state, observed A = some state ∧ Startable state) ∧
      ∀ res, r = some res → children L = 0 ∧
        ∀ state, res = .ok state → state.terminal = true ∧ Reported k state L := by
  obtain ⟨hsound, hleft⟩ := driveFrom_supervised n _ [] L r h hwait ⟨rfl, nofun⟩
  refine ⟨fun A hA => ?_, fun A B k' started hL => ?_, hleft⟩
  · obtain rfl | ⟨A, e, rfl⟩ := A.eq_nil_or_concat
    · exact zero_le_one
    · obtain ⟨B, rfl⟩ := hA
      rw [List.concat_eq_append]
      exact (hsound A e B (by simp)).1
  · exact (hsound A _ B hL).2 k' started rfl

section Sample

def driveKey : RunKey := ⟨⟨"laptop", by decide⟩, ⟨"r1", by decide⟩⟩

def sampleState (phase : String) (terminal : Bool) : RunStateResponse :=
  ⟨phase, terminal, "", 0, 0, none, none, none, none, none, none, none⟩

/-- The worker is started on a ready run and found gone when the run is done. -/
def sampleDrive : List ClientEvent :=
  [⟨.runState driveKey, .ok (sampleState "ready" false)⟩, ⟨.spawn driveKey, .ok ()⟩,
    ⟨.pause, ()⟩, ⟨.runState driveKey, .ok (sampleState "done" true)⟩,
    ⟨.waitpid, .ok (some ⟨some 0, ⟨none, .error ""⟩, "", ""⟩)⟩]

theorem worker_discipline_done : children sampleDrive = 0 ∧
    Reported driveKey (sampleState "done" true) sampleDrive := by
  have hruns : (driveServerUntilTerminal (fun _ => "") "host" driveKey 2).Runs sampleDrive
      (some (.ok (sampleState "done" true))) := Prog.runs_of_replay (by decide +kernel)
  obtain ⟨-, -, hleft⟩ := worker_discipline (fun _ => "") "host" driveKey 2 sampleDrive _ hruns
    (by simp [sampleDrive, waitFailed])
  obtain ⟨hchildren, hreported⟩ := hleft _ rfl
  exact ⟨hchildren, (hreported _ rfl).2⟩

end Sample

end Drive

end Purgery.Client
