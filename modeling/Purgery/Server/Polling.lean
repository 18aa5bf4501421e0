import Purgery.Server.Report
import Purgery.Server.Scene

namespace Purgery.Server

open Purgery.Interleaving

variable {Tid : Type} [DecidableEq Tid] {host : Host} {config : ServerConfig} {k : RunKey}
variable {bad : Fault Tid → Bool} {t : Tid} {w w' : RunWorld Tid} {ph : RunPhase} {now : Nat}
variable {L : Log RunOp (fun o => o.Choice × Nat) (RunWorld Tid)}

/-- The response is about a run at `ph`. -/
structure RunStateResponse.Tells (r : RunStateResponse) (phase : String) (terminal : Bool)
    (processorState : Option String) : Prop where
  phase : r.phase = phase
  terminal : r.terminal = terminal
  processorState : r.processorState = processorState

theorem plainResponse_tells (phase : String) (terminal : Bool) (message : String)
    (updatedAt now : Nat) :
    (plainResponse phase terminal message updatedAt now).Tells phase terminal none := ⟨rfl, rfl, rfl⟩

theorem waitingResponse_answers (ph : RunPhase) (now : Nat) :
    (waitingResponse ph now).Answers fun r => r.Tells ph.asStr false none :=
  Prog.Answers.after fun _ => plainResponse_tells ..

theorem readProgressFields_answers (k : RunKey) (now : Nat) :
    (readProgressFields k now).Answers fun r => r.Tells "processing" false none := by
  have hplain : ∀ message status, (do
      let updatedAt ← dirModifiedAt .processing
      return { plainResponse "processing" false message updatedAt now with
        progressStatus := some status } : Call RunStateResponse).Answers
          fun r => r.Tells "processing" false none := fun _ _ =>
    Prog.Answers.after fun _ => ⟨rfl, rfl, rfl⟩
  refine Prog.Answers.after fun content => ?_
  split
  · exact hplain _ _
  · split
    · split
      · exact hplain _ _
      · split
        · exact ⟨rfl, rfl, rfl⟩
        · exact hplain _ _
    · split <;> exact hplain _ _

/-- What a terminal directory makes of the answer. -/
def terminalAnswer (k : RunKey) (ph : RunPhase) (now : Nat) (r : Option RunStateResponse) :
    Option RunDir → Prop
  | none => r = none
  | some d =>
    match tryReadStatus k (d.file .status).read with
    | .valid => ∃ u, r = some (plainResponse ph.asStr true ("run is " ++ ph.asStr) u now)
    | .incompatible => r = none
    | .malformed reason => ∃ u, r = some (plainResponse "corrupt" false
        (ph.asStr ++ " directory exists but status is " ++ reason) u now)

theorem terminalPhaseResponse_seen {r : Option RunStateResponse} (ht : ph.terminal = true)
    (h : Overtaken (watchScene host config k bad t Clear) (terminalPhaseResponse k ph now) w L r w') :
    ∃ w₁, Instant config k bad w L w₁ ∧ Advance w₁ w' ∧ terminalAnswer k ph now r (w₁.dirs ph) := by
  have hV := watchScene_steady host config k bad t Clear
  obtain ⟨w₁, L₁, h₁, -, ⟨d, hd, h⟩ | ⟨hd, h⟩⟩ := Overtaken.dirExists h
  · refine ⟨w₁, h₁, h.rely hV, ?_⟩
    obtain ⟨w₂, _, _, L₂, -, -, ⟨-, hr₂, -, -⟩, h⟩ := Overtaken.look rfl h
    obtain ⟨d₂, hd₂, hs⟩ := hr₂.settled ph d ht hd
    simp only [RunOp.run, RunWorld.look, hd₂, hs] at h
    simp only [hd, terminalAnswer]
    cases hstatus : tryReadStatus k (d.file .status).read with
    | valid =>
      simp only [hstatus] at h
      obtain ⟨u, _, _, _, -, -, h⟩ := h.bind_inv hV.refl
      exact ⟨u, h.ret_inv.1⟩
    | incompatible =>
      simp only [hstatus] at h
      exact h.ret_inv.1
    | malformed reason =>
      simp only [hstatus] at h
      obtain ⟨u, _, _, _, -, -, h⟩ := h.bind_inv hV.refl
      exact ⟨u, h.ret_inv.1⟩
  · obtain ⟨rfl, -, hr⟩ := h.ret_inv
    exact ⟨w₁, h₁, hr, by simp [hd, terminalAnswer]⟩

/-- How `run-state` comes to its answer, when none of its own calls fails. -/
inductive Polled (host : Host) (config : ServerConfig) (k : RunKey) (bad : Fault Tid → Bool)
    (t : Tid) (w : RunWorld Tid) (L : Log RunOp (fun o => o.Choice × Nat) (RunWorld Tid))
    (r : RunStateResponse) : Prop
  | waiting (w₁ : RunWorld Tid) (ph : RunPhase) (d : RunDir) (h₁ : Instant config k bad w L w₁)
      (hph : ph = .incoming ∨ ph = .ready) (hd : w₁.dirs ph = some d)
      (hr : r.Tells ph.asStr false none)
  | processing (w₁ w₂ w₃ : RunWorld Tid) (d : RunDir)
      (L₂ : Log RunOp (fun o => o.Choice × Nat) (RunWorld Tid)) (h₁ : Instant config k bad w L w₁)
      (hd : w₁.dirs .processing = some d) (h₂ : Advance w₁ w₂) (hL : L₂ ⊆ L)
      (hp : Overtaken (watchScene host config k bad t Clear) (processorState config k) w₂ L₂
        r.processorState w₃) (hr : r.Tells "processing" false r.processorState)
  | terminal (w₁ : RunWorld Tid) (ph : RunPhase) (d : RunDir) (h₁ : Instant config k bad w L w₁)
      (hph : ph = .done ∨ ph = .failed) (hd : w₁.dirs ph = some d)
      (hs : tryReadStatus k (d.file .status).read = .valid) (hr : r.Tells ph.asStr true none)
  | corrupt (w₁ : RunWorld Tid) (ph : RunPhase) (d : RunDir) (reason : String)
      (h₁ : Instant config k bad w L w₁) (hph : ph = .done ∨ ph = .failed) (hd : w₁.dirs ph = some d)
      (hs : tryReadStatus k (d.file .status).read = .malformed reason)
      (hr : r.Tells "corrupt" false none)
  | notFound (w₁ w₂ : RunWorld Tid) (h₁ : Instant config k bad w L w₁)
      (h₂ : Instant config k bad w L w₂) (hr₂ : Advance w₁ w₂) (hpast : w₁.view.Past .processing)
      (hdone : ∀ d, w₁.dirs .done = some d → tryReadStatus k (d.file .status).read = .incompatible)
      (hfailed : ∀ d, w₂.dirs .failed = some d →
        tryReadStatus k (d.file .status).read = .incompatible)
      (hr : r.Tells "not_found" false none)

theorem Instant.polled_terminal {w₁ : RunWorld Tid} {d : RunDir} {r : RunStateResponse}
    (h₁ : Instant config k bad w L w₁) (hph : ph = .done ∨ ph = .failed) (hd : w₁.dirs ph = some d)
    (h : terminalAnswer k ph now (some r) (some d)) : Polled host config k bad t w L r := by
  simp only [terminalAnswer] at h
  cases hs : tryReadStatus k (d.file .status).read with
  | valid =>
    simp only [hs] at h
    obtain ⟨u, h⟩ := h
    cases h
    exact .terminal w₁ ph d h₁ hph hd hs (plainResponse_tells ..)
  | incompatible => simp [hs] at h
  | malformed reason =>
    simp only [hs] at h
    obtain ⟨u, h⟩ := h
    cases h
    exact .corrupt w₁ ph d reason h₁ hph hd hs (plainResponse_tells ..)

theorem terminalAnswer_none {d : RunDir} (h : terminalAnswer k ph now none (some d)) :
    tryReadStatus k (d.file .status).read = .incompatible := by
  simp only [terminalAnswer] at h
  split at h
  · simp at h
  · assumption
  · simp at h

theorem runState_polled {r : RunStateResponse}
    (h : Overtaken (watchScene host config k bad t Clear) (runState config k) w L r w') :
    Polled host config k bad t w L r := by
  have hV := watchScene_steady host config k bad t Clear
  have hwaiting : ∀ ph now w₁ L₁, Overtaken (watchScene host config k bad t Clear)
      (waitingResponse ph now) w₁ L₁ r w' → r.Tells ph.asStr false none :=
    fun ph now _ _ h => Overtaken.answers (Q := fun r => r.Tells ph.asStr false none)
      (waitingResponse_answers ph now) h
  obtain ⟨w₀, _, now, L₀, -, hL₀, ⟨-, hr₀, -, -⟩, h⟩ := Overtaken.look rfl h
  simp only [RunOp.run] at h
  obtain ⟨w₁, L₁, h₁, hL₁, ⟨d, hd, h⟩ | ⟨hd₁, h⟩⟩ := Overtaken.dirExists h
  · exact .waiting w₁ .incoming d (h₁.later hr₀ hL₀) (.inl rfl) hd
      (hwaiting _ _ _ _ h)
  have hpast₁ := RunWorld.past_incoming hd₁
  have hr₁ := hr₀.trans h₁.advance
  have hL₁ := List.Subset.trans hL₁ hL₀
  obtain ⟨w₂, L₂, h₂, hL₂, ⟨d, hd, h⟩ | ⟨hd₂, h⟩⟩ := Overtaken.dirExists h
  · exact .waiting w₂ .ready d (h₂.later hr₁ hL₁) (.inr rfl) hd
      (hwaiting _ _ _ _ h)
  have hpast₂ := RunWorld.past_ready (h₂.advance.past _ hpast₁) hd₂
  have hr₂ := hr₁.trans h₂.advance
  have hL₂ := List.Subset.trans hL₂ hL₁
  obtain ⟨w₃, L₃, h₃, hL₃, ⟨d, hd, h⟩ | ⟨hd₃, h⟩⟩ := Overtaken.dirExists h
  · obtain ⟨response, w₄, L₄, L₅, rfl, hread, h⟩ := h.bind_inv hV.refl
    obtain ⟨state, w₅, L₆, _, rfl, hprobe, h⟩ := h.bind_inv hV.refl
    obtain ⟨rfl, -⟩ := h.ret_inv
    have htells := Overtaken.answers (readProgressFields_answers k _) hread
    refine .processing w₃ w₄ w₅ d L₆ (h₃.later hr₂ hL₂) hd (hread.rely hV) ?_ hprobe
      ⟨htells.phase, htells.terminal, rfl⟩
    exact fun m hm => hL₂ (hL₃ (List.mem_append_right _ (List.mem_append_left _ hm)))
  have hpast₃ := RunWorld.past_processing (h₃.advance.past _ hpast₂) hd₃
  have hr₃ := hr₂.trans h₃.advance
  have hL₃ := List.Subset.trans hL₃ hL₂
  obtain ⟨r₁, w₄, L₄, L₅, rfl, hdone, h⟩ := h.bind_inv hV.refl
  obtain ⟨w₅, h₅, hr₅, hans₅⟩ := terminalPhaseResponse_seen rfl hdone
  have hpast₅ := h₅.advance.past _ hpast₃
  have h₅ := h₅.later hr₃ fun m hm => hL₃ (List.mem_append_left _ hm)
  cases r₁ with
  | some r₁ =>
    obtain ⟨rfl, -⟩ := h.ret_inv
    cases hd : w₅.dirs .done with
    | none => simp [hd, terminalAnswer] at hans₅
    | some d =>
      rw [hd] at hans₅
      exact h₅.polled_terminal (.inl rfl) hd hans₅
  | none =>
    obtain ⟨r₂, w₆, L₆, L₇, rfl, hfailed, h⟩ := h.bind_inv hV.refl
    obtain ⟨w₇, h₇, hr₇, hans₇⟩ := terminalPhaseResponse_seen rfl hfailed
    have hr₇ := hr₅.trans h₇.advance
    have h₇ := h₇.later (hr₃.trans (hdone.rely hV)) fun m hm =>
      hL₃ (List.mem_append_right _ (List.mem_append_left _ hm))
    cases r₂ with
    | some r₂ =>
      obtain ⟨rfl, -⟩ := h.ret_inv
      cases hd : w₇.dirs .failed with
      | none => simp [hd, terminalAnswer] at hans₇
      | some d =>
        rw [hd] at hans₇
        exact h₇.polled_terminal (.inr rfl) hd hans₇
    | none =>
      obtain ⟨rfl, -⟩ := h.ret_inv
      refine .notFound w₅ w₇ h₅ h₇ hr₇ hpast₅ (fun d hd => ?_) (fun d hd => ?_)
        (plainResponse_tells ..)
      · rw [hd] at hans₅
        exact terminalAnswer_none hans₅
      · rw [hd] at hans₇
        exact terminalAnswer_none hans₇

end Purgery.Server
