import Purgery.Server.Outcome

namespace Purgery.Server

open Purgery.Interleaving

section Exclusion

variable {Tid : Type} [DecidableEq Tid] {host : Host} {config : ServerConfig}

/-- What a call of process `t` owes to a garbage collection of the run, and a
collection to the holder of the lock. -/
structure SafelyCollected (host : Host) (t : Tid) (o : RunOp) (x : o.Choice) (now : Nat)
    (w : RunWorld Tid) : Prop where
  removes : o.removes = true → ∀ ph, ph.queued = true →
    (o.step host t x now w).2.dirs ph ≠ w.dirs ph → ∀ g ∈ w.locks, g.tid = t
  claims : o = .move .ready .processing → (o.step host t x now w).2.dirs ≠ w.dirs →
    ∀ d, w.dirs .ready = some d → d.touched = false
  works : w.Mutates (o.step host t x now w).2 → o.removes = false → o ≠ .move .incoming .ready →
    ∀ ph d, w.dirs ph = some d → d.touched = false
  transforms : o.transforms = true → o.succeeds x.1 = true →
    ∀ ph d, w.dirs ph = some d → d.touched = false

theorem RunWorld.HeldBy.untouched {k : RunKey} {t : Tid} {w : RunWorld Tid}
    (hw : w.view.Inv config k) (h : w.HeldBy t) {ph : RunPhase} {d : RunDir}
    (hd : w.dirs ph = some d) : d.touched = false := by
  obtain ⟨_, _, _, _, ph', d', _, hd', _, ht⟩ := h
  obtain rfl := hw.unique ph ph' d.core d'.core (by simp [RunWorld.view, hd])
    (by simp [RunWorld.view, hd'])
  obtain rfl : d = d' := by simpa using hd.symm.trans hd'
  exact ht

theorem RunOp.claim_mutates {t : Tid} {x : (RunOp.move .ready .processing).Choice} {now : Nat}
    {w : RunWorld Tid} (hne : ((RunOp.move .ready .processing).step host t x now w).2.dirs ≠ w.dirs) :
    w.Mutates ((RunOp.move .ready .processing).step host t x now w).2 := by
  obtain ⟨failure, x⟩ := x
  cases failure with
  | some m => exact absurd rfl hne
  | none =>
    cases hr : w.dirs .ready with
    | none => simp [RunOp.step, RunOp.run, hr] at hne
    | some d =>
      cases hp : w.dirs .processing with
      | some d' => simp [RunOp.step, RunOp.run, hr, hp] at hne
      | none =>
        refine .inl ⟨.ready, rfl, ?_⟩
        simp [RunOp.step, RunOp.run, RunWorld.contents, RunWorld.setDir, hr, hp]

theorem SafelyCollected.of_guar {k : RunKey} {t : Tid} {o : RunOp} {x : o.Choice} {now : Nat}
    {w : RunWorld Tid} (hw : w.view.Inv config k)
    (h : Guar t o (o.succeeds x.1) w (o.step host t x now w).2) :
    SafelyCollected host t o x now w where
  removes ho ph hq hne g hg := by
    by_contra hgt
    have hchanged : (o.step host t x now w).2.dirs ≠ w.dirs := fun he => hne (congrFun he ph)
    obtain ⟨ph', hd, hterm | hpass⟩ := h.removal ho hchanged
    · obtain ⟨d, hd⟩ := Option.isSome_iff_exists.1 hd
      have hpast : w.view.Past .processing := hw.past_of_terminal (D := d.core)
        (by simp [RunWorld.view, hd]) hterm
      have hrank : ph.rank ≤ RunPhase.processing.rank := by
        cases ph <;> first | decide | cases hq
      have hnone := (h.others g.tid hgt).past _ hpast ph hrank
      have hnone' := hpast ph hrank
      simp only [RunWorld.view, Option.map_eq_none_iff] at hnone hnone'
      exact hne (hnone.trans hnone'.symm)
    · obtain ⟨d, hd⟩ := Option.isSome_iff_exists.1 hd
      exact hgt ((hw.pass t ph' hpass).2 ph' d.core (by simp [RunWorld.view, hd]) |>.2 g hg)
  claims ho hne d hd := by
    subst ho
    obtain hm | hm | hm := h.mutates (RunOp.claim_mutates hne)
    · cases hm
    · cases hm
    · exact hm.untouched hw hd
  works hm hr ha ph d hd := by
    obtain hm | hm | hm := h.mutates hm
    · exact absurd hm ha
    · cases hr.symm.trans hm
    · exact hm.untouched hw hd
  transforms ho hs ph d hd := (h.spawns ho hs).1.untouched hw hd

/-- As long as nothing meets a collection that is about to delete the run, none
removes anything under the holder of a lock, and nobody works on what is left of
a run. -/
theorem gc_respects_locks {c : Config Tid ServerOp ServerOp.Res (World Tid)}
    (h : Reachable (server host config) calmPolicy c) (k : RunKey) (t : Tid) (o : RunOp)
    (f : o.Res → Action Unit) (x : o.Choice) (ht : c.threads t = some (.call (.run k o) f))
    (hx : calmPolicy.step t (.run k o) x c.world) :
    SafelyCollected host t o x c.world.clock (c.world.runs k) := by
  have hg := h.step_guar (lockContract_sound host config k) ht hx
  simp only [lockContract, server, serverStep, World.setRun, if_true, Function.update_self] at hg
  exact .of_guar (h.inv (lockContract_sound host config k)) hg

end Exclusion

section Sample

/-- The calm runs in which nobody crashes. -/
def calmLife : Policy Bool ServerOp ServerOp.Choice (World Bool) ServerEvent :=
  { calmPolicy with crash := fun _ _ => False }

instance {Tid : Type} [DecidableEq Tid] [Fintype Tid] (t : Tid) (o : RunOp)
    (failure : Option String) (w : RunWorld Tid) : Decidable (Calm t o failure w) :=
  decidable_of_iff (((∃ u, w.pass u ≠ none) → o.intrudes = false) ∧
      (o.condemnsReady w = true → failure = none → w.locks.isEmpty = true) ∧
      (o.looksToSweep = true → failure = none) ∧
      (w.pass t ≠ none → o.sweeps = true → failure = none))
    ⟨fun h => ⟨h.1, fun ho hf => List.isEmpty_iff.1 (h.2.1 ho hf), h.2.2.1, h.2.2.2⟩,
      fun h => ⟨h.apart, fun ho hf => List.isEmpty_iff.2 (h.ready ho hf), h.lookup, h.whole⟩⟩

instance : calmLife.Checkable where
  step t o x w :=
    match o, x with
    | .run k o, x => inferInstanceAs (Decidable (Calm t o x.1 (w.runs k)))
    | .unixNow, _ | .rootExists, _ | .nicknames, _ | .runIds _ _, _ => .isTrue trivial
  env e w :=
    match e with
    | .tick _ => .isTrue trivial
    | .upload k _ => (inferInstance : Decidable (∀ u, (w.runs k).pass u = none))
  crash _ _ := .isFalse nofun

/-- The sample run is past its retention; a collection has found it so. -/
def condemnSample : List (Entry Bool) :=
  .spawn true ⟨_, .gc⟩ :: steps true 6 fun _ => false

/-- The next call of the collection removes something from the ready run. -/
def removesNext (c : Config Bool ServerOp ServerOp.Res (World Bool)) : Bool :=
  match c.threads true with
  | some (.call (.run k o) _) => k == sampleKey && o.removes &&
    decide (Calm true o none (c.world.runs k)) &&
    ((c.world.runs k).dirs .ready).any (fun d => !d.touched) &&
    ((o.step sampleHost true (none, o.plain) c.world.clock (c.world.runs k)).2.dirs .ready).any
      fun d => d.touched
  | _ => false

theorem removesNext_spec {c : Config Bool ServerOp ServerOp.Res (World Bool)}
    (h : removesNext c = true) : ∃ o f, c.threads true = some (.call (.run sampleKey o) f) ∧
      o.removes = true ∧ Calm true o none (c.world.runs sampleKey) ∧
      (o.step sampleHost true (none, o.plain) c.world.clock (c.world.runs sampleKey)).2.dirs .ready ≠
        (c.world.runs sampleKey).dirs .ready := by
  unfold removesNext at h
  split at h
  · rename_i k o f ht
    simp only [Bool.and_eq_true, beq_iff_eq, decide_eq_true_eq, Option.any_eq_true] at h
    obtain ⟨⟨⟨⟨rfl, ho⟩, hcalm⟩, d, hd, htouched⟩, d', hd', htouched'⟩ := h
    refine ⟨o, f, ht, ho, hcalm, fun he => ?_⟩
    obtain rfl : d = d' := by simpa [hd, hd'] using he.symm
    simp [htouched'] at htouched
  · exact nomatch h

/-- The collection of an expired run that nobody wants. -/
theorem gc_respects_locks_expired : ∃ c : Config Bool _ _ _,
    Reachable (server sampleHost sampleConfig) calmPolicy c ∧
      ∃ o f, c.threads true = some (.call (.run sampleKey o) f) ∧ o.removes = true ∧
        ∀ g ∈ (c.world.runs sampleKey).locks, g.tid = true := by
  obtain ⟨c, hc, htest⟩ := exists_reachable (P := calmLife) (s := sampleWorld Bool 10000 .ready)
    (condemnSample ++ steps true 1 fun _ => false) (sampleWorld_init Bool (.inr rfl) _ _)
    removesNext (by decide +kernel)
  have hle : calmLife.le calmPolicy := ⟨fun _ _ _ _ h => h, fun _ _ h => h, fun _ _ h => h.elim⟩
  have hreach := hc.mono hle
  obtain ⟨o, f, ht, ho, hcalm, hne⟩ := removesNext_spec htest
  exact ⟨c, hreach, o, f, ht, ho, (gc_respects_locks hreach sampleKey true o f (none, o.plain) ht
    hcalm).removes ho .ready rfl hne⟩

/-- A process takes the lock of a ready run that a collection has found expired:
the collection removes the run under it. -/
theorem gc_removes_under_lock : ∃ c : Config Bool _ _ _,
    Reachable (server sampleHost sampleConfig) .any c ∧
      ∃ (o : RunOp) (f : o.Res → Action Unit) (x : o.Choice),
        c.threads true = some (.call (.run sampleKey o) f) ∧
        ¬SafelyCollected sampleHost true o x c.world.clock (c.world.runs sampleKey) := by
  obtain ⟨c, hc, htest⟩ := exists_reachable (P := .any) (s := sampleWorld Bool 10000 .ready)
    (condemnSample ++ [startProcessRun false] ++ steps false 4 (fun _ => false) ++
      steps true 1 fun _ => false) (sampleWorld_init Bool (.inr rfl) _ _)
    (fun c => removesNext c && (c.world.runs sampleKey).locks.any fun g => g.tid == false)
    (by decide +kernel)
  rw [Bool.and_eq_true, List.any_eq_true] at htest
  obtain ⟨hnext, g, hg, hfalse⟩ := htest
  obtain ⟨o, f, ht, ho, _, hne⟩ := removesNext_spec hnext
  refine ⟨c, hc, o, f, (none, o.plain), ht, fun hsafe => ?_⟩
  rw [hsafe.removes ho .ready rfl hne g hg] at hfalse
  exact nomatch hfalse

end Sample

end Purgery.Server
