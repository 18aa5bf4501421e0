import Purgery.Server.MutualExclusion

namespace Purgery.Server

open Purgery.Interleaving

section Sample

/-- Any call may fail, any process may crash, and nothing is garbage. -/
abbrev faultyPolicy : Policy Unit ServerOp ServerOp.Choice (World Unit) ServerEvent :=
  sparingPolicy sampleHost fun _ => false

def failsCreateWork : RunOp → Bool
  | .createWork => true
  | _ => false

def failsDoneParent : RunOp → Bool
  | .createParent .done => true
  | _ => false

def statusState (content : Except IoError (Doc RunStatus)) : Option RunState :=
  content.toOption.bind fun doc => doc.parsed.toOption.map RunStatus.state

/-- The import is published, and the process crashes before the terminal
rename. -/
def importThenCrash : List (Entry Unit) :=
  [startProcessRun ()] ++ steps () 57 (fun _ => false) ++ [.leave (), startProcessRun ()]

end Sample

section Terminal

/-- The status that a terminal directory has to hold. -/
structure SelfDescribing (k : RunKey) (ph : RunPhase) (d : RunDir) (st : RunStatus) : Prop where
  text : ∃ doc, d.file .status = .text doc ∧ checkTomlVersion doc = .compatible ∧
    RunStatus.fromToml doc = .ok st
  nickname : st.nickname = k.nickname
  runId : st.runId = k.runId
  state : ph = .done ∧ (st.state = .done ∨ st.state = .partiallyDone) ∨
    ph = .failed ∧ st.state = .failed

theorem selfDescribing_of_classify {k : RunKey} {ph : RunPhase} {d : RunDir}
    (h : classifyTerminalStatus k ph (d.file .status).read = true) :
    ∃ st, SelfDescribing k ph d st := by
  cases hf : d.file .status with
  | missing => simp [hf, FileState.read, classifyTerminalStatus] at h
  | unreadable m => simp [hf, FileState.read, classifyTerminalStatus] at h
  | text doc =>
    simp only [hf, FileState.read, classifyTerminalStatus] at h
    split at h
    · rename_i hv
      split at h
      · cases h
      · rename_i st hst
        simp only [Bool.and_eq_true, beq_iff_eq] at h
        refine ⟨st, ⟨doc, hf, hv, hst⟩, h.1.1, h.1.2, ?_⟩
        cases ph <;> simp_all
    · cases h

variable {Tid : Type} [DecidableEq Tid] {host : Host} {config : ServerConfig}

/-- Unless one of the calls fails after which a claimed run is moved to `failed`
as it is, every terminal directory holds the status of the run. -/
theorem terminal_self_describing {c : Config Tid ServerOp ServerOp.Res (World Tid)}
    (h : Reachable (server host config) (sparingPolicy host Fault.spoilsClaim) c)
    (k : RunKey) (ph : RunPhase) (d : RunDir) (ht : ph.terminal = true)
    (hd : (c.world.runs k).dirs ph = some d) : ∃ st, SelfDescribing k ph d st := by
  have hspared := reachable_spared h k
  have hinv : (c.world.runs k).view.Inv config k :=
    (reachable_calm h).inv (lockContract_sound host config k)
  have hd' : (c.world.runs k).view.dirs ph = some d.core := by simp [RunWorld.view, hd]
  obtain hc | ht' | ⟨f, hf, hs⟩ := hinv.terminal ph d.core ht hd'
  · exact selfDescribing_of_classify hc
  · cases (hspared.untouched ph d hd).symm.trans ht'
  · cases (hspared.faults f hf).symm.trans hs

/-- A run that is processed without a failure. -/
theorem terminal_self_describing_done : ∃ c : Config Unit _ _ _,
    Reachable (server sampleHost sampleConfig) (sparingPolicy sampleHost Fault.spoilsClaim) c ∧
      ∃ d st, (c.world.runs sampleKey).dirs .done = some d ∧
        SelfDescribing sampleKey .done d st := by
  obtain ⟨c, hc, htest⟩ := exists_reachable (s := sampleWorld Unit 0 .ready)
    (P := sparingPolicy sampleHost Fault.spoilsClaim)
    ([startProcessRun ()] ++ steps () 72 fun _ => false) (sampleWorld_init Unit (.inr rfl) _ _)
    (fun c => ((c.world.runs sampleKey).dirs .done).isSome) (by decide +kernel)
  obtain ⟨d, hd⟩ := Option.isSome_iff_exists.1 htest
  obtain ⟨st, hst⟩ := terminal_self_describing hc sampleKey .done d rfl hd
  exact ⟨c, hc, d, st, hd, hst⟩

/-- The work area of a claimed run cannot be made, and the run is moved to
`failed` without a status. -/
theorem terminal_self_describing_fails :
    ∃ c : Config Unit _ _ _, Reachable (server sampleHost sampleConfig) faultyPolicy c ∧
      ∃ d, (c.world.runs sampleKey).dirs .failed = some d ∧
        ∀ st, ¬SelfDescribing sampleKey .failed d st := by
  obtain ⟨c, hc, htest⟩ := exists_reachable (P := faultyPolicy) (s := sampleWorld Unit 0 .ready)
    ([startProcessRun ()] ++ steps () 17 failsCreateWork)
    (sampleWorld_init Unit (.inr rfl) _ _)
    (fun c => ((c.world.runs sampleKey).dirs .failed).any fun d => !d.has (.file .status))
    (by decide +kernel)
  obtain ⟨d, hd, hmissing⟩ := (Option.any_eq_true _ _).1 htest
  refine ⟨c, hc, d, hd, fun st h => ?_⟩
  obtain ⟨doc, hdoc, _⟩ := h.text
  simp [RunDir.has, hdoc, FileState.isMissing] at hmissing

end Terminal

section Final

variable {Tid : Type} [DecidableEq Tid] {host : Host} {config : ServerConfig}

/-- Unless a call of a recovery fails that finds a published status, the run
keeps every status that was published in its processing directory. Where no
claim goes wrong either, it ends in the phase of that status. -/
theorem published_outcome_final {c : Config Tid ServerOp ServerOp.Res (World Tid)}
    (h : Reachable (server host config) (sparingPolicy host Fault.spoilsRecovery) c)
    (k : RunKey) (doc : Doc RunStatus) (hdoc : (.processing, doc) ∈ (c.world.runs k).published) :
    (∃ ph, ((c.world.runs k).dirs ph).isSome = true) ∧
      ∀ ph d, (c.world.runs k).dirs ph = some d →
        (ph = .processing ∨ ph.terminal = true) ∧ d.file .status = .text doc ∧
          ((∀ f ∈ (c.world.runs k).faults, f.spoilsClaim = false) → ph = .failed →
            ∃ st, doc.parsed = .ok st ∧ st.state = .failed) := by
  have hspared := reachable_spared h k
  have hinv : (c.world.runs k).view.Inv config k :=
    (reachable_calm h).inv (lockContract_sound host config k)
  refine ⟨hspared.stays (List.ne_nil_of_mem hdoc), fun ph d hd => ?_⟩
  have hd' : (c.world.runs k).view.dirs ph = some d.core := by simp [RunWorld.view, hd]
  obtain ⟨hrank, hstatus⟩ | ht' | ⟨f, hf, hs⟩ := hinv.final doc ph d.core hdoc hd'
  · have htext : d.file .status = .text doc := hstatus
    refine ⟨?_, htext, fun hclaim hph => ?_⟩
    · cases ph with
      | incoming | ready => exact absurd hrank (by decide)
      | processing => exact .inl rfl
      | done | failed => exact .inr rfl
    · subst hph
      obtain hc | ht' | ⟨f, hf, hs⟩ := hinv.terminal .failed d.core rfl hd'
      · obtain ⟨st, ⟨doc', hdoc', _, hst⟩, _, _, hstate⟩ := selfDescribing_of_classify hc
        obtain rfl : doc = doc' := by simpa [htext] using hdoc'
        refine ⟨st, ?_, (hstate.resolve_left fun h => by cases h.1).2⟩
        unfold RunStatus.fromToml at hst
        cases hp : doc.parsed with
        | error e => simp [hp, Except.mapError] at hst
        | ok s => simpa [hp, Except.mapError] using hst
      · cases (hspared.untouched _ d hd).symm.trans ht'
      · cases (hclaim f hf).symm.trans hs
  · cases (hspared.untouched ph d hd).symm.trans ht'
  · cases (hspared.faults f hf).symm.trans hs

/-- The recovery of a crashed run finds the import published and keeps it. -/
theorem published_outcome_final_recovered : ∃ c : Config Unit _ _ _,
    Reachable (server sampleHost sampleConfig) (sparingPolicy sampleHost Fault.spoilsRecovery) c ∧
      ∃ doc d, statusState (.ok doc) = some .done ∧
        (c.world.runs sampleKey).dirs .done = some d ∧ d.file .status = .text doc := by
  obtain ⟨c, hc, htest⟩ := exists_reachable (s := sampleWorld Unit 0 .ready)
    (P := sparingPolicy sampleHost Fault.spoilsRecovery)
    (importThenCrash ++ steps () 10 fun _ => false) (sampleWorld_init Unit (.inr rfl) _ _)
    (fun c => ((c.world.runs sampleKey).published.any fun p =>
        p.1 == .processing && statusState (.ok p.2) == some .done) &&
      ((c.world.runs sampleKey).dirs .done).isSome) (by decide +kernel)
  rw [Bool.and_eq_true] at htest
  obtain ⟨⟨ph, doc⟩, hdoc, htest₁⟩ := List.any_eq_true.1 htest.1
  obtain ⟨rfl, hstate⟩ : ph = .processing ∧ statusState (.ok doc) = some .done := by
    simpa using htest₁
  obtain ⟨d, hd⟩ := Option.isSome_iff_exists.1 htest.2
  exact ⟨c, hc, doc, d, hstate, hd,
    ((published_outcome_final hc sampleKey doc hdoc).2 .done d hd).2.1⟩

/-- The recovery cannot make the parent of `done`: the import that is published
is replaced by a failure. -/
theorem published_outcome_replaced : ∃ c : Config Unit _ _ _,
    Reachable (server sampleHost sampleConfig) faultyPolicy c ∧
      (∃ doc, (.processing, doc) ∈ (c.world.runs sampleKey).published ∧
        statusState (.ok doc) = some .done) ∧
      ∃ d, (c.world.runs sampleKey).dirs .failed = some d ∧
        statusState (d.file .status).read = some .failed := by
  obtain ⟨c, hc, htest⟩ := exists_reachable (P := faultyPolicy) (s := sampleWorld Unit 0 .ready)
    (importThenCrash ++ steps () 15 failsDoneParent) (sampleWorld_init Unit (.inr rfl) _ _)
    (fun c => ((c.world.runs sampleKey).published.any fun p =>
        p.1 == .processing && statusState (.ok p.2) == some .done) &&
      ((c.world.runs sampleKey).dirs .failed).any fun d =>
        statusState (d.file .status).read == some .failed) (by decide +kernel)
  rw [Bool.and_eq_true] at htest
  obtain ⟨⟨ph, doc⟩, hdoc, htest₁⟩ := List.any_eq_true.1 htest.1
  obtain ⟨rfl, hstate⟩ : ph = .processing ∧ statusState (.ok doc) = some .done := by
    simpa using htest₁
  obtain ⟨d, hd, hfailed⟩ := (Option.any_eq_true _ _).1 htest.2
  exact ⟨c, hc, ⟨doc, hdoc, hstate⟩, d, hd, by simpa using hfailed⟩

end Final

end Purgery.Server
