import Purgery.Server.Collection
import Purgery.Server.Intake.Atomic

namespace Purgery.Server

open Purgery.Interleaving

/-- A pass of the garbage collection: who makes it and when, and what it finds
listed in the work directory. -/
structure GcPass (Tid : Type) where
  tid : Tid
  now : Nat
  nicknames : List Nickname
  runIds : Nickname → RunPhase → List RunId
  nicknames_nodup : nicknames.Nodup
  runIds_nodup : ∀ n ph, (runIds n ph).Nodup

namespace GcPass

variable {Tid : Type} [DecidableEq Tid]

def Visits (p : GcPass Tid) (k : RunKey) (ph : RunPhase) : Prop :=
  k.nickname ∈ p.nicknames ∧ k.runId ∈ p.runIds k.nickname ph

/-- No call fails. -/
def outcome (p : GcPass Tid) : (o : ServerOp) → o.Choice → Prop
  | .unixNow, _ => True
  | .rootExists, found => found = true
  | .nicknames, x => x = (none, p.nicknames)
  | .runIds n ph, x => x = (none, p.runIds n ph)
  | .run _ _, x => x.1 = none

def alone (host : Host) (p : GcPass Tid) :
    Alone ServerOp ServerOp.Res ServerOp.Choice (World Tid) where
  step := serverStep host p.tid
  admits := p.outcome
  sound _ _ := True

/-- The pass leads from one state to the other, as a new process and with nobody
else taking a step. -/
def Leads (host : Host) (config : ServerConfig) (p : GcPass Tid) (W W' : World Tid) : Prop :=
  (∀ k, ∀ g ∈ (W.runs k).locks, g.tid ≠ p.tid) ∧
    ∃ r, (p.alone host).Ends (runGc config).run { W with clock := p.now } r W'

end GcPass

/-- The passes of a schedule, one after the other. -/
inductive Passes {Tid : Type} [DecidableEq Tid] (host : Host) (config : ServerConfig) :
    List (GcPass Tid) → World Tid → World Tid → Prop
  | nil (W : World Tid) : Passes host config [] W W
  | cons {p : GcPass Tid} {ps : List (GcPass Tid)} {W W₁ W₂ : World Tid}
      (hp : p.Leads host config W W₁) (hps : Passes host config ps W₁ W₂) :
      Passes host config (p :: ps) W W₂

/-- What a pass has done once the directories in `S` are visited. -/
structure Swept {Tid : Type} (config : ServerConfig) (now : Nat) (S : RunKey → RunPhase → Prop)
    (W W' : World Tid) : Prop where
  locks : ∀ k, (W'.runs k).locks = (W.runs k).locks
  absent : ∀ k ph, (W.runs k).dirs ph = none → (W'.runs k).dirs ph = none
  visited : ∀ k ph d, (W.runs k).dirs ph = some d → S k ph →
    if retentionOver config k ph now (W.runs k).locks d then (W'.runs k).dirs ph = none
    else ∃ d', Pruned k ph d d' ∧ (W'.runs k).dirs ph = some d'
  spared : ∀ k ph d, (W.runs k).dirs ph = some d → ¬S k ph → (W'.runs k).dirs ph = some d

namespace Swept

variable {Tid : Type} {config : ServerConfig} {now : Nat} {S S₁ S₂ : RunKey → RunPhase → Prop}
variable {W W₁ W₂ : World Tid} {k : RunKey} {ph : RunPhase} {d d' : RunDir}

theorem nothing (W : World Tid) : Swept config now (fun _ _ => False) W W where
  locks _ := rfl
  absent _ _ h := h
  visited _ _ _ _ h := h.elim
  spared _ _ _ h _ := h

theorem congr (h : Swept config now S₁ W W₁)
    (hS : ∀ k ph, ((W.runs k).dirs ph).isSome = true → (S₁ k ph ↔ S₂ k ph)) :
    Swept config now S₂ W W₁ where
  locks := h.locks
  absent := h.absent
  visited k ph d hd hv := h.visited k ph d hd ((hS k ph (by simp [hd])).2 hv)
  spared k ph d hd hv := h.spared k ph d hd fun hv₁ => hv ((hS k ph (by simp [hd])).1 hv₁)

/-- What is left of a directory has the same clock. -/
theorem left (h : Swept config now S W W₁) (hd : (W₁.runs k).dirs ph = some d') :
    ∃ d, (W.runs k).dirs ph = some d ∧ Pruned k ph d d' := by
  cases hold : (W.runs k).dirs ph with
  | none => exact nomatch (h.absent k ph hold).symm.trans hd
  | some d =>
    refine ⟨d, rfl, ?_⟩
    by_cases hv : S k ph
    · have hvisited := h.visited k ph d hold hv
      split at hvisited
      · exact nomatch hvisited.symm.trans hd
      · obtain ⟨d₁, hpruned, hd₁⟩ := hvisited
        cases hd₁.symm.trans hd
        exact hpruned
    · cases (h.spared k ph d hold hv).symm.trans hd
      exact .inl rfl

theorem trans (h₁ : Swept config now S₁ W W₁) (h₂ : Swept config now S₂ W₁ W₂)
    (hdisjoint : ∀ k ph, S₁ k ph → ¬S₂ k ph) :
    Swept config now (fun k ph => S₁ k ph ∨ S₂ k ph) W W₂ where
  locks k := (h₂.locks k).trans (h₁.locks k)
  absent k ph h := h₂.absent k ph (h₁.absent k ph h)
  visited k ph d hd hv := by
    by_cases hv₁ : S₁ k ph
    · have hvisited := h₁.visited k ph d hd hv₁
      split at hvisited
      · rename_i hover
        rw [if_pos hover]
        exact h₂.absent k ph hvisited
      · rename_i hover
        rw [if_neg hover]
        obtain ⟨d', hpruned, hd'⟩ := hvisited
        exact ⟨d', hpruned, h₂.spared k ph d' hd' (hdisjoint k ph hv₁)⟩
    · have hvisited := h₂.visited k ph d (h₁.spared k ph d hd hv₁) (hv.resolve_left hv₁)
      rwa [h₁.locks] at hvisited
  spared k ph d hd hv := by
    rw [not_or] at hv
    exact h₂.spared k ph d (h₁.spared k ph d hd hv.1) hv.2

theorem inodes (h : Swept config now S W W₁) (hW : ∀ k, Inodes (W.runs k).dirs) (k : RunKey) :
    Inodes (W₁.runs k).dirs := by
  intro p p' d d' hd hd' heq
  obtain ⟨d₁, hd₁, hpruned⟩ := h.left hd
  obtain ⟨d₂, hd₂, hpruned'⟩ := h.left hd'
  exact hW k p p' d₁ d₂ hd₁ hd₂ (by rw [← hpruned.id, ← hpruned'.id, heq])

end Swept

theorem World.setRun_runs {Tid : Type} {W : World Tid} {k : RunKey} {r : RunWorld Tid} :
    (W.setRun k r).runs k = r := by
  simp [World.setRun]

section Pass

variable {Tid : Type} [DecidableEq Tid] {host : Host} {config : ServerConfig} {now : Nat}
variable {p : GcPass Tid} {W : World Tid} {k : RunKey} {n : Nickname} {ph : RunPhase}

theorem alone_onRun {α : Type} {c : Call α} {Q : α → RunWorld Tid → Prop}
    (h : (calmCall host p.tid W.clock).wp c Q (W.runs k)) :
    (p.alone host).wp (onRun k c) (fun a W' => ∃ r, W' = W.setRun k r ∧ Q a r) W := by
  induction c generalizing W with
  | ret a => exact ⟨W.runs k, by simp [World.setRun], h⟩
  | call o c ih =>
    rintro ⟨failure, x⟩ hx
    obtain rfl : failure = none := hx
    refine ⟨trivial, ?_⟩
    have hrun : (calmCall host p.tid W.clock).wp (c (o.run host p.tid x W.clock (W.runs k)).1) Q
        ((W.setRun k (o.run host p.tid x W.clock (W.runs k)).2).runs k) := by
      rw [World.setRun_runs]
      exact (h x trivial).2
    refine Alone.wp_mono (ih _ (W := W.setRun k _) hrun) ?_
    rintro a W' ⟨r, rfl, hr⟩
    exact ⟨r, by simp [World.setRun], hr⟩

omit [DecidableEq Tid] in
theorem Collected.rests {locks : List (Grip Tid)} {D : RunPhase → Option RunDir} {d : RunDir}
    {r : RunWorld Tid} (h : Collected config k ph now locks D d r) :
    ∃ left, Rests (Function.update D ph left) locks r ∧
      if retentionOver config k ph now locks d then left = none
      else ∃ d', Pruned k ph d d' ∧ left = some d' := by
  unfold Collected at h
  split at h
  · rename_i hover
    exact ⟨none, h, by rw [if_pos hover]⟩
  · rename_i hover
    obtain ⟨d', hpruned, h⟩ := h
    exact ⟨some d', h, by rw [if_neg hover]; exact ⟨d', hpruned, rfl⟩⟩

omit [DecidableEq Tid] in
theorem Collected.swept {d : RunDir} {r : RunWorld Tid} (hd : (W.runs k).dirs ph = some d)
    (h : Collected config k ph now (W.runs k).locks (W.runs k).dirs d r) :
    Swept config now (fun k' ph' => k' = k ∧ ph' = ph) W (W.setRun k r) := by
  obtain ⟨left, hrests, hleft⟩ := h.rests
  have hself : (W.setRun k r).runs k = r := World.setRun_runs
  have hother : ∀ k', k' ≠ k → (W.setRun k r).runs k' = W.runs k' := fun k' hk => by
    simp [World.setRun, hk]
  have hdirs : ∀ k' ph', ¬(k' = k ∧ ph' = ph) →
      ((W.setRun k r).runs k').dirs ph' = (W.runs k').dirs ph' := by
    intro k' ph' hne
    by_cases hk : k' = k
    · subst hk
      rw [hself, hrests.dirs, Function.update_of_ne fun hph => hne ⟨rfl, hph⟩]
    · rw [hother k' hk]
  refine ⟨fun k' => ?_, fun k' ph' hnone => ?_, ?_, fun k' ph' d' hd' hne => ?_⟩
  · by_cases hk : k' = k
    · subst hk
      rw [hself, hrests.locks]
    · rw [hother k' hk]
  · rw [hdirs k' ph' ?_, hnone]
    rintro ⟨rfl, rfl⟩
    cases hd.symm.trans hnone
  · rintro _ _ d' hd' ⟨rfl, rfl⟩
    cases hd.symm.trans hd'
    rw [hself, hrests.dirs, Function.update_self]
    exact hleft
  · rw [hdirs k' ph' hne, hd']

/-- The directories of one phase, each of which is there. -/
theorem collectRuns_swept (ids : List RunId) (hids : ids.Nodup)
    (hthere : ∀ id ∈ ids, ((W.runs ⟨n, id⟩).dirs ph).isSome = true)
    (hinodes : ∀ k, Inodes (W.runs k).dirs) (hown : ∀ k, ∀ g ∈ (W.runs k).locks, g.tid ≠ p.tid) :
    (p.alone host).Succeeds (collectRuns config now n ph ids) (fun _ =>
      Swept config now (fun k ph' => k.nickname = n ∧ ph' = ph ∧ k.runId ∈ ids) W) W := by
  induction ids generalizing W with
  | nil => exact .pure ((Swept.nothing W).congr (by simp))
  | cons id ids ih =>
    obtain ⟨hnot, hids⟩ := List.nodup_cons.1 hids
    obtain ⟨hhead, hrest⟩ := List.forall_mem_cons.1 hthere
    obtain ⟨d, hd⟩ := Option.isSome_iff_exists.1 hhead
    have hcollect : (p.alone host).Succeeds
        (ExceptT.mk (onRun ⟨n, id⟩ (collectRun config ⟨n, id⟩ ph now).run)) (fun _ =>
          Swept config now (fun k ph' => k = ⟨n, id⟩ ∧ ph' = ph) W) W := by
      refine Alone.wp_mono (alone_onRun (collectRun_calm (hinodes _) hd (hown _) ⟨rfl, rfl⟩)) ?_
      rintro _ _ ⟨r, rfl, u, rfl, hr⟩
      exact ⟨u, rfl, hr.swept hd⟩
    refine hcollect.bind fun _ W₁ h₁ => ?_
    have hstill : ∀ id' ∈ ids, ((W₁.runs ⟨n, id'⟩).dirs ph).isSome = true := by
      intro id' hid'
      obtain ⟨d', hd'⟩ := Option.isSome_iff_exists.1 (hrest id' hid')
      rw [h₁.spared ⟨n, id'⟩ ph d' hd' ?_]
      · rfl
      · rintro ⟨heq, -⟩
        cases heq
        exact hnot hid'
    refine (ih hids hstill (h₁.inodes hinodes) fun k => h₁.locks k ▸ hown k).mono ?_
    intro _ W₂ h₂
    refine (h₁.trans h₂ ?_).congr fun k ph' _ => ?_
    · rintro _ _ ⟨rfl, rfl⟩ ⟨-, -, hid⟩
      exact hnot hid
    · constructor
      · rintro (⟨rfl, rfl⟩ | ⟨rfl, rfl, hid⟩)
        · exact ⟨rfl, rfl, List.mem_cons_self⟩
        · exact ⟨rfl, rfl, List.mem_cons_of_mem _ hid⟩
      · rintro ⟨rfl, rfl, hid⟩
        obtain rfl | hid := List.mem_cons.1 hid
        · exact .inl ⟨rfl, rfl⟩
        · exact .inr ⟨rfl, rfl, hid⟩

theorem collectPhases_swept (phs : List RunPhase) (hphs : phs.Nodup)
    (hinodes : ∀ k, Inodes (W.runs k).dirs) (hown : ∀ k, ∀ g ∈ (W.runs k).locks, g.tid ≠ p.tid) :
    (p.alone host).Succeeds (collectPhases config now n phs) (fun _ =>
      Swept config now (fun k ph => k.nickname = n ∧ ph ∈ phs ∧ k.runId ∈ p.runIds n ph) W) W := by
  induction phs generalizing W with
  | nil => exact .pure ((Swept.nothing W).congr (by simp))
  | cons ph phs ih =>
    obtain ⟨hnot, hphs⟩ := List.nodup_cons.1 hphs
    have hlisted : (p.alone host).Succeeds
        (ExceptT.lift (act (.runIds n ph)) : ExceptT String Action _)
        (fun r W' => r = .ok ((p.runIds n ph).filter fun id =>
          ((W.runs ⟨n, id⟩).dirs ph).isSome) ∧ W' = W) W := by
      refine Alone.Succeeds.lift fun x hx => ⟨trivial, ?_⟩
      obtain rfl : x = (none, p.runIds n ph) := hx
      exact ⟨rfl, rfl⟩
    refine hlisted.bind ?_
    rintro _ _ ⟨rfl, rfl⟩
    refine (collectRuns_swept _ ((p.runIds_nodup n ph).filter _)
      (fun id hid => (List.mem_filter.1 hid).2) hinodes hown).bind fun _ W₁ h₁ => ?_
    refine (ih hphs (h₁.inodes hinodes) fun k => h₁.locks k ▸ hown k).mono fun _ W₂ h₂ => ?_
    refine (h₁.trans h₂ ?_).congr fun k ph' hthere => ?_
    · rintro _ _ ⟨-, rfl, -⟩ ⟨-, hph, -⟩
      exact hnot hph
    · constructor
      · rintro (⟨rfl, rfl, hid⟩ | ⟨rfl, hph, hid⟩)
        · exact ⟨rfl, List.mem_cons_self, (List.mem_filter.1 hid).1⟩
        · exact ⟨rfl, List.mem_cons_of_mem _ hph, hid⟩
      · rintro ⟨rfl, hph, hid⟩
        obtain rfl | hph := List.mem_cons.1 hph
        · exact .inl ⟨rfl, rfl, List.mem_filter.2 ⟨hid, hthere⟩⟩
        · exact .inr ⟨rfl, hph, hid⟩

theorem collectNicknames_swept (ns : List Nickname) (hns : ns.Nodup)
    (hinodes : ∀ k, Inodes (W.runs k).dirs) (hown : ∀ k, ∀ g ∈ (W.runs k).locks, g.tid ≠ p.tid) :
    (p.alone host).Succeeds (collectNicknames config now ns) (fun _ =>
      Swept config now (fun k ph => k.nickname ∈ ns ∧ k.runId ∈ p.runIds k.nickname ph) W) W := by
  induction ns generalizing W with
  | nil => exact .pure ((Swept.nothing W).congr (by simp))
  | cons n ns ih =>
    obtain ⟨hnot, hns⟩ := List.nodup_cons.1 hns
    refine (collectPhases_swept allPhases (by decide) hinodes hown).bind fun _ W₁ h₁ => ?_
    refine (ih hns (h₁.inodes hinodes) fun k => h₁.locks k ▸ hown k).mono fun _ W₂ h₂ => ?_
    refine (h₁.trans h₂ ?_).congr fun k ph' _ => ?_
    · rintro _ _ ⟨rfl, -, -⟩ ⟨hn, -⟩
      exact hnot hn
    · constructor
      · rintro (⟨rfl, -, hid⟩ | ⟨hn, hid⟩)
        · exact ⟨List.mem_cons_self, hid⟩
        · exact ⟨List.mem_cons_of_mem _ hn, hid⟩
      · rintro ⟨hn, hid⟩
        obtain rfl | hn := List.mem_cons.1 hn
        · exact .inl ⟨rfl, by cases ph' <;> decide, hid⟩
        · exact .inr ⟨hn, hid⟩

theorem runGc_swept (hclock : W.clock = p.now) (hinodes : ∀ k, Inodes (W.runs k).dirs)
    (hown : ∀ k, ∀ g ∈ (W.runs k).locks, g.tid ≠ p.tid) :
    (p.alone host).Succeeds (runGc config) (fun _ => Swept config p.now p.Visits W) W := by
  have hroot : (p.alone host).Succeeds
      (ExceptT.lift (act .rootExists) : ExceptT String Action _)
      (fun found W' => found = true ∧ W = W') W :=
    .lift fun x hx => ⟨trivial, hx, rfl⟩
  refine hroot.bind ?_
  rintro _ _ ⟨rfl, rfl⟩
  have hnow : (p.alone host).Succeeds (ExceptT.lift (act .unixNow) : ExceptT String Action _)
      (fun now W' => now = p.now ∧ W = W') W :=
    .lift fun _ _ => ⟨trivial, hclock, rfl⟩
  refine hnow.bind ?_
  rintro _ _ ⟨rfl, rfl⟩
  have hlisted : (p.alone host).Succeeds (ExceptT.lift (act .nicknames) : ExceptT String Action _)
      (fun r W' => r = .ok p.nicknames ∧ W = W') W := by
    refine .lift fun x hx => ⟨trivial, ?_⟩
    obtain rfl : x = (none, p.nicknames) := hx
    exact ⟨rfl, rfl⟩
  refine hlisted.bind ?_
  rintro _ _ ⟨rfl, rfl⟩
  exact collectNicknames_swept p.nicknames p.nicknames_nodup hinodes hown

theorem GcPass.Leads.swept {W' : World Tid} (h : p.Leads host config W W')
    (hinodes : ∀ k, Inodes (W.runs k).dirs) : Swept config p.now p.Visits W W' := by
  obtain ⟨hown, r, hends⟩ := h
  obtain ⟨_, -, hswept⟩ := Alone.wp_ends
    (runGc_swept (W := { W with clock := p.now }) rfl hinodes hown) hends
  exact ⟨hswept.locks, hswept.absent, hswept.visited, hswept.spared⟩

/-- What any number of passes leave. -/
structure Waited (W W' : World Tid) : Prop where
  locks : ∀ k, (W'.runs k).locks = (W.runs k).locks
  left : ∀ k ph d', (W'.runs k).dirs ph = some d' →
    ∃ d, (W.runs k).dirs ph = some d ∧ Pruned k ph d d'
  inodes : ∀ k, Inodes (W'.runs k).dirs

theorem Passes.waited {ps : List (GcPass Tid)} {W' : World Tid} (h : Passes host config ps W W')
    (hinodes : ∀ k, Inodes (W.runs k).dirs) : Waited W W' := by
  induction h with
  | nil W => exact ⟨fun _ => rfl, fun k ph d hd => ⟨d, hd, .inl rfl⟩, hinodes⟩
  | cons hp hps ih =>
    have hswept := hp.swept hinodes
    have hrest := ih (hswept.inodes hinodes)
    refine ⟨fun k => (hrest.locks k).trans (hswept.locks k), fun k ph d' hd' => ?_, hrest.inodes⟩
    obtain ⟨d₁, hd₁, hpruned'⟩ := hrest.left k ph d' hd'
    obtain ⟨d, hd, hpruned⟩ := hswept.left hd₁
    exact ⟨d, hd, hpruned.trans hpruned'⟩

/-- After any passes, a pass deletes a run by the clock that it had before them. -/
theorem Passes.deletes {ps : List (GcPass Tid)} {W₁ W₂ : World Tid} {d : RunDir}
    (h : Passes host config ps W W₁) (hinodes : ∀ k, Inodes (W.runs k).dirs)
    (hp : p.Leads host config W₁ W₂) (hvisits : p.Visits k ph) (hd : (W.runs k).dirs ph = some d)
    (hstill : ((W₁.runs k).dirs ph).isSome = true) :
    (W₂.runs k).dirs ph = none ↔
      retentionOver config k ph p.now (W.runs k).locks d = true := by
  have hwaited := h.waited hinodes
  obtain ⟨d₁, hd₁⟩ := Option.isSome_iff_exists.1 hstill
  obtain ⟨d₀, hd₀, hpruned⟩ := hwaited.left k ph d₁ hd₁
  cases hd.symm.trans hd₀
  have hvisited := (hp.swept hwaited.inodes).visited k ph d₁ hd₁ hvisits
  rw [hwaited.locks, hpruned.retentionOver] at hvisited
  cases hover : retentionOver config k ph p.now (W.runs k).locks d with
  | true =>
    rw [hover, if_pos rfl] at hvisited
    exact iff_of_true hvisited rfl
  | false =>
    rw [hover, if_neg Bool.false_ne_true] at hvisited
    obtain ⟨d', -, hd'⟩ := hvisited
    simp [hd']

/-- Whether a pass deletes a run does not depend on the passes before it. -/
theorem gc_keeps_clocks {programs : Intake Unit → Prop}
    {P : Policy Tid IntakeOp IntakeOp.Choice (IntakeWorld Tid) IntakeEvent}
    {c : Config Tid IntakeOp IntakeOp.Res (IntakeWorld Tid)}
    (hc : Reachable (intake host programs) P c) {ps ps' : List (GcPass Tid)} {p p' : GcPass Tid}
    {W₁ W₂ W₁' W₂' : World Tid}
    (hps : Passes host config ps c.world.server W₁) (hp : p.Leads host config W₁ W₂)
    (hps' : Passes host config ps' c.world.server W₁') (hp' : p'.Leads host config W₁' W₂')
    (hnow : p.now = p'.now) (k : RunKey) (ph : RunPhase)
    (hstill : ((W₁.runs k).dirs ph).isSome = true) (hvisits : p.Visits k ph)
    (hstill' : ((W₁'.runs k).dirs ph).isSome = true) (hvisits' : p'.Visits k ph) :
    ((W₂.runs k).dirs ph = none ↔ (W₂'.runs k).dirs ph = none) ∧
      ∃ d, (c.world.server.runs k).dirs ph = some d ∧ ((W₂.runs k).dirs ph = none ↔
        retentionOver config k ph p.now (c.world.server.runs k).locks d = true) := by
  have hinodes := fun k => (reachable_numbered hc k).inodes
  obtain ⟨d₁, hd₁⟩ := Option.isSome_iff_exists.1 hstill
  obtain ⟨d, hd, -⟩ := (hps.waited hinodes).left k ph d₁ hd₁
  have hdeletes := hps.deletes hinodes hp hvisits hd hstill
  have hdeletes' := hps'.deletes hinodes hp' hvisits' hd hstill'
  rw [← hnow] at hdeletes'
  exact ⟨hdeletes.trans hdeletes'.symm, d, hd, hdeletes⟩

end Pass

section Sample

def GcPass.sample (now : Nat) : GcPass Unit where
  tid := ()
  now := now
  nicknames := [sampleKey.nickname]
  runIds _ _ := [sampleKey.runId]
  nicknames_nodup := by simp
  runIds_nodup := by simp

theorem GcPass.sample_admits (now : Nat) (o : ServerOp) :
    (GcPass.sample now).outcome o (Server.outcome (fun _ => false) o) := by
  cases o <;> first | exact trivial | exact rfl

/-- What the sample pass makes of a state. -/
def GcPass.sampled (now : Nat) (W : World Unit) : World Unit :=
  ((runGc sampleConfig).run.solo
    (fun o => serverStep sampleHost () o (Server.outcome (fun _ => false) o)) { W with clock := now }).2

theorem GcPass.sample_leads (now : Nat) {W : World Unit} (h : ∀ k, (W.runs k).locks = []) :
    (GcPass.sample now).Leads sampleHost sampleConfig W (GcPass.sampled now W) :=
  ⟨fun k g hg => by simp [h k] at hg,
    _, Alone.ends_solo (Server.outcome fun _ => false) (sample_admits now) _ _⟩

/-- The directory that a begin has just created. -/
def createdIncoming : IntakeWorld Unit :=
  (intakeStep sampleHost () (.createIncoming sampleKey) none (unusedServer 0)).2

theorem createdIncoming_locks (k : RunKey) : (createdIncoming.server.runs k).locks = [] := by
  by_cases hk : k = sampleKey
  · subst hk
    rfl
  · have hother : createdIncoming.server.runs k = (unusedServer 0).server.runs k :=
      Function.update_of_ne hk _ _
    rw [hother]
    rfl

def createOnly : Intake Unit := .call (.createIncoming sampleKey) fun _ => .ret ()

theorem createdIncoming_reachable : ∃ threads,
    Reachable (intake sampleHost fun q => q = createOnly) .any
      (⟨createdIncoming, threads⟩ : Config Unit IntakeOp IntakeOp.Res (IntakeWorld Unit)) := by
  have hinit : (unusedServer 0).Unbegun :=
    ⟨fun _ => ⟨fun _ => rfl, rfl, rfl, rfl, fun _ => rfl, rfl⟩, fun _ => rfl, rfl⟩
  have hstarted := Reachable.spawn (t := ()) (p := createOnly) (Reachable.init (P := .any)
    (S := intake sampleHost fun q => q = createOnly) hinit) rfl rfl
  have hstep := Reachable.step (t := ()) (o := .createIncoming sampleKey) (k := fun _ => .ret ())
    none hstarted (by simp [Config.put, createOnly]) trivial
  exact ⟨_, hstep⟩

/-- An incoming directory without a lease is kept by a pass, and deleted by the next
one when the retention of orphans is over, as it is without the first pass. -/
theorem gc_keeps_clocks_orphan :
    ∃ W₁ W₂ W₂' : World Unit,
      Passes sampleHost sampleConfig [GcPass.sample 10] createdIncoming.server W₁ ∧
      (GcPass.sample 100000).Leads sampleHost sampleConfig W₁ W₂ ∧
      (GcPass.sample 100000).Leads sampleHost sampleConfig createdIncoming.server W₂' ∧
      ((W₂.runs sampleKey).dirs .incoming = none ↔ (W₂'.runs sampleKey).dirs .incoming = none) := by
  obtain ⟨threads, hc⟩ := createdIncoming_reachable
  have hfirst := GcPass.sample_leads 10 createdIncoming_locks
  have hpasses : Passes sampleHost sampleConfig [GcPass.sample 10] createdIncoming.server _ :=
    .cons hfirst (.nil _)
  have hwaited := hpasses.waited fun k => (reachable_numbered hc k).inodes
  have hsecond := GcPass.sample_leads 100000 (W := GcPass.sampled 10 createdIncoming.server)
    fun k => (hwaited.locks k).trans (createdIncoming_locks k)
  have honly := GcPass.sample_leads 100000 createdIncoming_locks
  have hvisits : (GcPass.sample 100000).Visits sampleKey .incoming :=
    ⟨List.mem_singleton_self _, List.mem_singleton_self _⟩
  have hthere : ((createdIncoming.server.runs sampleKey).dirs .incoming).isSome = true := rfl
  have hstill : (((GcPass.sampled 10 createdIncoming.server).runs sampleKey).dirs
      .incoming).isSome = true := by decide +kernel
  exact ⟨_, _, _, hpasses, hsecond, honly, (gc_keeps_clocks hc hpasses hsecond (.nil _) honly rfl
    sampleKey .incoming hstill hvisits hthere hvisits).1⟩

end Sample

end Purgery.Server
