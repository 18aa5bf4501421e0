import Purgery.Server.Contention
import Purgery.Server.Polling
import Purgery.Server.TerminalAnswer

namespace Purgery.Server

open Purgery.Interleaving

section Location

variable {Tid : Type} {config : ServerConfig} {k : RunKey} {w : RunWorld Tid}

theorem RunWorld.location_eq (hw : w.view.Inv config k) {ph : RunPhase} {d : RunDir}
    (hd : w.dirs ph = some d) : w.location = some ph := by
  have hnone : ∀ ph', ph' ≠ ph → w.dirs ph' = none := by
    intro ph' hne
    by_contra hsome
    obtain ⟨d', hd'⟩ := Option.ne_none_iff_exists'.1 hsome
    exact hne (RunWorld.sole hw hd' hd)
  have hfind : ∀ phs : List RunPhase, ph ∈ phs →
      (phs.find? fun ph => (w.dirs ph).isSome) = some ph := by
    intro phs hph
    induction phs with
    | nil => exact nomatch hph
    | cons p phs ih =>
      by_cases hp : p = ph
      · simp [hp, hd]
      · simp only [List.find?_cons, hnone p hp, Option.isSome_none]
        exact ih ((List.mem_cons.1 hph).resolve_left (Ne.symm hp))
  exact hfind allPhases (by cases ph <;> decide)

theorem RunWorld.location_none (h : ∀ ph, w.dirs ph = none) : w.location = none := by
  simp [RunWorld.location, allPhases, h]

end Location

section Observed

variable {Tid : Type} [DecidableEq Tid] {k : RunKey}

/-- Some process holds the lock of the run to work on it. -/
def Worked (k : RunKey) (H : List (Step Tid)) (W : World Tid) : Prop :=
  ∃ g ∈ (W.runs k).locks, roleOf k H g = some .processor

instance {H : List (Step Tid)} {W : World Tid} : Decidable (Worked k H W) :=
  inferInstanceAs (Decidable (∃ g ∈ (W.runs k).locks, roleOf k H g = some .processor))

/-- What there is to say about the run in the state `W`, after the steps `H`. -/
def observed (k : RunKey) (H : List (Step Tid)) (W : World Tid) : String × Bool × Option String :=
  match (W.runs k).location with
  | none => ("not_found", false, none)
  | some ph => (ph.asStr, ph.terminal,
      if ph = .processing then some (if Worked k H W then "active" else "idle") else none)

/-- The response is what there was to say at some instant of the call. -/
abbrev Existed (k : RunKey) (r : RunStateResponse) (H L : List (Step Tid)) : Prop :=
  Sometime (fun H m => (r.phase, r.terminal, r.processorState) = observed k H m.1) H L

/-- The calls by which the lock of the processing run is looked at. -/
def RunOp.probes : RunOp → Bool
  | .probeDir .processing _ => true
  | .lockExists .processing _ => true
  | .openLockReadonly .processing _ => true
  | .probeFlock .processing _ _ => true
  | _ => false

/-- A call of run-state that does not fail, that finds a run it has seen in
`processing` still there when it looks at the lock, no other observer with the
lock, and a valid status in a terminal directory. -/
structure Sees (k : RunKey) (H : List (Step Tid)) (W : World Tid) (o : RunOp) (x : o.Choice) :
    Prop where
  clear : o.succeeds x.1 = true
  present : o.probes = true → ((W.runs k).dirs .processing).isSome = true
  unwatched : o.taking.isSome = true → ∀ g ∈ (W.runs k).locks, roleOf k H g ≠ some .observer
  valid : ∀ ph ∈ allPhases, ph.terminal = true →
    ∀ d ∈ (W.runs k).dirs ph, tryReadStatus k (d.file .status).read = .valid

instance {H : List (Step Tid)} {W : World Tid} {o : RunOp} {x : o.Choice} :
    Decidable (Sees k H W o x) :=
  decidable_of_iff (o.succeeds x.1 = true ∧
      (o.probes = true → ((W.runs k).dirs .processing).isSome = true) ∧
      (o.taking.isSome = true → ∀ g ∈ (W.runs k).locks, roleOf k H g ≠ some .observer) ∧
      ∀ ph ∈ allPhases, ph.terminal = true →
        ∀ d ∈ (W.runs k).dirs ph, tryReadStatus k (d.file .status).read = .valid)
    ⟨fun h => ⟨h.1, h.2.1, h.2.2.1, h.2.2.2⟩, fun h => ⟨h.clear, h.present, h.unwatched, h.valid⟩⟩

/-- If the step is a call of `t` on the run, it sees the run well. -/
def SeesAt (k : RunKey) (t : Tid) (H : List (Step Tid)) (m : Step Tid) : Prop :=
  match m with
  | (W, .call u (.run k' o) x) => u = t → k' = k → Sees k H W o x
  | _ => True

instance {t : Tid} {H : List (Step Tid)} {m : Step Tid} : Decidable (SeesAt k t H m) :=
  match m with
  | (_, .call _ (.run _ _) _) => inferInstanceAs (Decidable (_ → _ → _))
  | (_, .call _ .unixNow _) | (_, .call _ .rootExists _) | (_, .call _ .nicknames _)
  | (_, .call _ (.runIds _ _) _) | (_, .leave _) | (_, .spawn _) | (_, .env _) => .isTrue trivial

end Observed

section Probe

variable {Tid : Type} [DecidableEq Tid] {host : Host} {config : ServerConfig} {k : RunKey}
variable {bad : Fault Tid → Bool} {t : Tid} {w w' : RunWorld Tid}
variable {L : Log RunOp (fun o => o.Choice × Nat) (RunWorld Tid)}

theorem Instant.lock (h : Instant config k bad w L w') {d : RunDir}
    (hd : w'.dirs .processing = some d) : d.lock = some 0 := by
  have hd' : w'.view.dirs .processing = some d.core := by simp [RunWorld.view, hd]
  have ht : d.core.touched = false := h.spared.untouched .processing d hd
  exact (h.inv.processingLock d.core hd').2.resolve_left (by simp [ht])

/-- What a look at the lock of a run that stays in `processing` comes to. -/
theorem processorState_seen {r : Option String}
    (h : Overtaken (watchScene host config k bad t Clear) (processorState config k) w L r w')
    (hpresent : ∀ w₁ o x, (w₁, ⟨o, x⟩) ∈ L → o.probes = true → ∃ d, w₁.dirs .processing = some d) :
    ∃ w₁ x, (w₁, ⟨.probeFlock .processing 0 false, x⟩) ∈ L ∧ Instant config k bad w L w₁ ∧
      r = some (if w₁.locks = [] then "idle" else "active") := by
  have hV := watchScene_steady host config k bad t Clear
  obtain ⟨probe, w₁, L₁, L₂, rfl, hprobe, h⟩ := h.bind_inv hV.refl
  have hsub : ∀ {m}, m ∈ L₁ → m ∈ L₁ ++ L₂ := fun hm => List.mem_append_left _ hm
  rw [probeProcessorLockReadonly, ask_run_bind] at hprobe
  obtain ⟨w₂, x₂, now₂, L₃, hm₂, hL₃, h₂, hprobe⟩ := Overtaken.look rfl hprobe
  obtain ⟨d₂, hd₂⟩ := hpresent w₂ _ _ (hsub hm₂) rfl
  simp only [RunOp.run, hd₂, Option.isSome_some, Bool.not_true, Bool.false_eq_true, if_false]
    at hprobe
  obtain ⟨w₃, x₃, now₃, L₄, hm₃, hL₄, h₃, hprobe⟩ := Overtaken.look rfl hprobe
  obtain ⟨d₃, hd₃⟩ := hpresent w₃ _ _ (hsub (hL₃ hm₃)) rfl
  have hhas : d₃.has .lock = true := by simp [RunDir.has, h₃.lock hd₃]
  simp only [RunOp.run, hd₃, Option.any_some, hhas, Bool.not_true] at hprobe
  obtain ⟨w₄, x₄, now₄, L₅, hm₄, hL₅, h₄, -, hprobe⟩ := Overtaken.clear hprobe
  obtain ⟨d₄, hd₄⟩ := hpresent w₄ _ _ (hsub (hL₃ (hL₄ hm₄))) rfl
  simp only [RunOp.run, hd₄, h₄.lock hd₄] at hprobe
  obtain ⟨w₅, x₅, now₅, L₆, hm₅, hL₆, h₅, -, hprobe⟩ := Overtaken.clear hprobe
  have hm₅ := hsub (hL₃ (hL₄ (hL₅ hm₅)))
  have h₅ := ((((h₅.later h₄.advance hL₅).later h₃.advance hL₄).later h₂.advance hL₃).later
    (.refl w) fun _ => hsub)
  refine ⟨w₅, (x₅, now₅), hm₅, h₅, ?_⟩
  obtain ⟨w₆, x₆, now₆, L₇, -, -, -, -, hprobe⟩ := Overtaken.clear hprobe
  have hino : ∀ g ∈ w₅.locks, g.ino = 0 := fun g hg => (h₅.inv.gripIno g hg).1
  by_cases hl : w₅.locks = []
  · have hfree : (RunOp.tryFlock t .processing 0 w₅).1 = true := by simp [RunOp.tryFlock, hl]
    simp only [RunOp.run, hfree] at hprobe
    obtain ⟨rfl, -⟩ := hprobe.ret_inv
    rw [if_pos hl]
    exact h.ret_inv.1
  · have hheld : (RunOp.tryFlock t .processing 0 w₅).1 = false := by
      obtain ⟨g, hg⟩ := List.exists_mem_of_ne_nil _ hl
      have hany : (w₅.locks.any fun g => g.ino == 0) = true :=
        List.any_eq_true.2 ⟨g, hg, by simp [hino g hg]⟩
      simp [RunOp.tryFlock, hany]
    simp only [RunOp.run, hheld] at hprobe
    obtain ⟨rfl, -⟩ := hprobe.ret_inv
    rw [if_neg hl]
    exact h.ret_inv.1

end Probe

section Existed

variable {Tid : Type} [DecidableEq Tid] {host : Host} {config : ServerConfig} {k : RunKey}
variable {t : Tid} {H L L₁ : List (Step Tid)} {W : World Tid}

theorem observed_at (hw : (W.runs k).view.Inv config k) {ph : RunPhase} {d : RunDir}
    (hd : (W.runs k).dirs ph = some d) : observed k H W = (ph.asStr, ph.terminal,
      if ph = .processing then some (if Worked k H W then "active" else "idle") else none) := by
  simp only [observed, RunWorld.location_eq hw hd]

theorem observed_none (h : ∀ ph, (W.runs k).dirs ph = none) :
    observed k H W = ("not_found", false, none) := by
  simp only [observed, RunWorld.location_none h]

theorem observed_ne_unclear {b : Bool} : observed k H W ≠ ("processing", b, none) := by
  unfold observed
  split
  · simp
  · rename_i ph _
    cases ph <;> simp [RunPhase.asStr]

/-- A run-state that sees the run well answers what there was to say at some
instant of its call. -/
theorem runState_existed {s : World Tid} {c c' : Config Tid ServerOp ServerOp.Res (World Tid)}
    {f : RunStateResponse → Action Unit} {r : RunStateResponse}
    (hs : (server host config).init s)
    (hH : Course (server host config) (sparingPolicy host fun _ => false) ⟨s, fun _ => none⟩ H c)
    (h : Performs (server host config) (sparingPolicy host fun _ => false) t f
      (onRun k (runState config k)) c L r c')
    (hsees : Always (SeesAt k t) H L) : Existed k r H L := by
  have hr := (Reachable.init hs).course hH
  obtain ⟨L', hL', hlog⟩ := Performs.watched Clear hr h fun W o x hm _ => by
    obtain ⟨L₁, L₂, hL⟩ := List.append_of_mem hm
    exact (hsees L₁ _ L₂ hL rfl rfl).clear
  -- every call that the process sees is a step of the run
  have hstep : ∀ {w₁ o x}, (w₁, ⟨o, x⟩) ∈ L' → ∃ L₁ W L₂,
      L = L₁ ++ (W, .call t (.run k o) x.1) :: L₂ ∧ W.runs k = w₁ ∧
        Sees k (H ++ L₁) W o x.1 := by
    intro w₁ o x hm
    obtain ⟨W, _, hW, hw, rfl⟩ := hlog.made w₁ o x hm
    obtain ⟨L₁, L₂, hL⟩ := List.append_of_mem hW
    exact ⟨L₁, W, L₂, hL, hw, hsees L₁ _ L₂ hL rfl rfl⟩
  have hplain : ∀ {w₁ ph d}, Instant config k (fun _ => false) (c.world.runs k) L' w₁ →
      w₁.dirs ph = some d → ph ≠ .processing → r.Tells ph.asStr ph.terminal none →
        Existed k r H L := by
    intro w₁ ph d h₁ hd hph htells
    obtain ⟨o, x, hm⟩ := h₁.mem
    obtain ⟨L₁, W, L₂, hL, rfl, -⟩ := hstep hm
    refine ⟨L₁, _, L₂, hL, ?_⟩
    change _ = observed k (H ++ L₁) W
    rw [observed_at h₁.inv hd, htells.phase, htells.terminal, htells.processorState, if_neg hph]
  have hvalid : ∀ {w₁ ph d}, Instant config k (fun _ => false) (c.world.runs k) L' w₁ →
      ph.terminal = true → w₁.dirs ph = some d → tryReadStatus k (d.file .status).read = .valid := by
    intro w₁ ph d h₁ ht hd
    obtain ⟨o, x, hm⟩ := h₁.mem
    obtain ⟨L₁, W, L₂, hL, rfl, hsee⟩ := hstep hm
    exact hsee.valid ph (by cases ph <;> decide) ht d hd
  cases runState_polled hL' with
  | waiting w₁ ph d h₁ hph hd htells =>
    obtain rfl | rfl := hph
    · exact hplain h₁ hd nofun htells
    · exact hplain h₁ hd nofun htells
  | terminal w₁ ph d h₁ hph hd hv htells =>
    obtain rfl | rfl := hph
    · exact hplain h₁ hd nofun htells
    · exact hplain h₁ hd nofun htells
  | corrupt w₁ ph d reason h₁ hph hd hmalformed htells =>
    have ht : ph.terminal = true := by obtain rfl | rfl := hph <;> rfl
    exact nomatch (hvalid h₁ ht hd).symm.trans hmalformed
  | notFound w₁ w₂ h₁ h₂ hr₂ hpast hdone hfailed htells =>
    obtain ⟨o, x, hm⟩ := h₁.mem
    obtain ⟨L₁, W, L₂, hL, rfl, -⟩ := hstep hm
    refine ⟨L₁, _, L₂, hL, ?_⟩
    change _ = observed k (H ++ L₁) W
    rw [observed_none, htells.phase, htells.terminal, htells.processorState]
    intro ph
    by_contra hne
    obtain ⟨d, hd⟩ := Option.ne_none_iff_exists'.1 hne
    obtain ⟨e, he⟩ | ⟨e, he⟩ := RunWorld.terminal_of_past hpast ⟨ph, d, hd⟩
    · exact nomatch (hvalid h₁ rfl he).symm.trans (hdone e he)
    · obtain ⟨e', he', -⟩ := hr₂.settled .failed e rfl he
      exact nomatch (hvalid h₂ rfl he').symm.trans (hfailed e' he')
  | processing w₁ w₂ w₃ d L₂ h₁ hd h₂ hL₂ hprobe htells =>
    obtain ⟨w₄, x, hm, h₄, hstate⟩ := processorState_seen hprobe fun w₅ o x hm ho => by
      obtain ⟨L₁, W, L₃, -, rfl, hsee⟩ := hstep (hL₂ hm)
      exact Option.isSome_iff_exists.1 (hsee.present ho)
    obtain ⟨L₁, W, L₃, hL, rfl, hsee⟩ := hstep (hL₂ hm)
    obtain ⟨d', hd'⟩ := Option.isSome_iff_exists.1 (hsee.present rfl)
    refine ⟨L₁, _, L₃, hL, ?_⟩
    change _ = observed k (H ++ L₁) W
    rw [observed_at h₄.inv hd', htells.phase, htells.terminal, hstate]
    have hworked : Worked k (H ++ L₁) W ↔ (W.runs k).locks ≠ [] := by
      constructor
      · rintro ⟨g, hg, -⟩
        exact List.ne_nil_of_mem hg
      · intro hne
        obtain ⟨g, hg⟩ := List.exists_mem_of_ne_nil _ hne
        obtain ⟨c₁, c₂, hc₁, rfl, -, -⟩ := (hL ▸ h.course).split
        have hrole := Course.roleOf_ne_none (H := []) (hH.trans hc₁)
          (fun g hg => by simp [(hs k).locks] at hg) g hg
        exact ⟨g, hg, roleOf_processor hrole (hsee.unwatched rfl g hg)⟩
    by_cases hl : (W.runs k).locks = []
    · simp [hworked, hl, RunPhase.asStr, RunPhase.terminal]
    · simp [hworked, hl, RunPhase.asStr, RunPhase.terminal]

end Existed

section Sample

/-- A poll of the ready sample run. -/
theorem runState_existed_ready :
    ∃ (H L : List (Step Bool)) (r : RunStateResponse), Existed sampleKey r H L := by
  have hsome : ((sampleCall (sparingPolicy sampleHost fun _ => false)
      (onRun sampleKey (runState sampleConfig sampleKey)) []
      (steps false 20 fun _ => false)).any fun (H, L, c, _, _) =>
        decide (Always (SeesAt sampleKey false) (H ++ [(c.world, .spawn false)]) L)) = true := by
    decide +kernel
  obtain ⟨⟨H, L, c, r, c'⟩, hcall, hsees⟩ := (Option.any_eq_true _ _).1 hsome
  obtain ⟨hH, ht, hL⟩ := sampleCall_performs hcall
  refine ⟨_, L, r, runState_existed (sampleWorld_init Bool (.inr rfl) _ _)
    (hH.snoc (.spawn ht (.runState sampleKey))) hL (by simpa using hsees)⟩

/-- A run that is finished between the look at its directory and the look at its
lock is reported in `processing`, without a word on the processor. -/
theorem runState_between_phases :
    (server sampleHost sampleConfig).init (sampleWorld Bool 0 .ready) ∧
      ∃ (H L : List (Step Bool)) (c c' : Config Bool ServerOp ServerOp.Res (World Bool))
        (r : RunStateResponse),
        Course (server sampleHost sampleConfig) (sparingPolicy sampleHost fun _ => false)
          ⟨sampleWorld Bool 0 .ready, fun _ => none⟩ H c ∧ c.threads false = none ∧
        Performs (server sampleHost sampleConfig) (sparingPolicy sampleHost fun _ => false) false
          (fun _ => pure ()) (onRun sampleKey (runState sampleConfig sampleKey))
          (c.put false (some (discard (onRun sampleKey (runState sampleConfig sampleKey)))) c.world)
          L r c' ∧
        r.phase = "processing" ∧ r.processorState = none ∧
        ¬ Existed sampleKey r (H ++ [(c.world, .spawn false)]) (L ++ [(c'.world, .leave false)]) := by
  have hsome : ((sampleCall (sparingPolicy sampleHost fun _ => false)
      (onRun sampleKey (runState sampleConfig sampleKey))
      ([startProcessRun true] ++ steps true 58 fun _ => false)
      (steps false 4 (fun _ => false) ++ steps true 1 (fun _ => false) ++
        steps false 20 fun _ => false)).any fun (_, _, _, r, _) =>
          r.phase == "processing" && r.processorState.isNone) = true := by decide +kernel
  obtain ⟨⟨H, L, c, r, c'⟩, hcall, hr⟩ := (Option.any_eq_true _ _).1 hsome
  obtain ⟨hphase, hstate⟩ : r.phase = "processing" ∧ r.processorState = none := by simpa using hr
  obtain ⟨hH, ht, hL⟩ := sampleCall_performs hcall
  refine ⟨sampleWorld_init Bool (.inr rfl) _ _, H, L, c, c', r, hH, ht, hL, hphase, hstate, ?_⟩
  rintro ⟨L₁, m, L₂, -, hm⟩
  rw [hphase, hstate] at hm
  exact observed_ne_unclear hm.symm

end Sample

end Purgery.Server
