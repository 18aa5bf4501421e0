import Purgery.Server.Exclusion.History

namespace Purgery.Server

open Purgery.Interleaving

section Exclusion

variable {Tid : Type} [DecidableEq Tid] {host : Host} {config : ServerConfig}

/-- What the processor lock demands of a call of process `t`. -/
structure Exclusive (host : Host) (t : Tid) (o : RunOp) (x : o.Choice) (now : Nat)
    (w : RunWorld Tid) : Prop where
  mutates : w.Mutates (o.step host t x now w).2 → o = .move .incoming .ready ∨ w.HeldBy t
  transforms : o.transforms = true → w.HeldBy t
  unstarted : ∀ call, o = .spawn call → w.published = []
  publishes : ∀ ph, o = .publish ph .status → (w.dirs ph).isSome = true → w.HeldBy t
  stale : ∀ g ∈ w.locks, g.tid = t → g.fresh = false → (o.step host t x now w).2.dirs = w.dirs ∧
    (o.step host t x now w).2.destination = w.destination ∧ o.transforms = false

theorem Exclusive.of_guar {t : Tid} {o : RunOp} {x : o.Choice} {now : Nat} {w : RunWorld Tid}
    (h : Guar t o true w (o.step host t x now w).2) (hremoves : o.removes = false)
    (hfaults : w.faults = []) : Exclusive host t o x now w where
  mutates hm := (h.mutates hm).imp_right fun hm => hm.resolve_left (by simp [hremoves])
  transforms ho := (h.spawns ho rfl).1
  unstarted call ho := by
    subst ho
    exact (h.spawns rfl rfl).2 call rfl hfaults
  publishes ph ho hd := h.publishes ph ho rfl hd
  stale g hg ht hfresh := by
    obtain ⟨hdirs, hdest⟩ := h.stale g hg ht hfresh
    refine ⟨hdirs, hdest, Bool.eq_false_iff.2 fun ho => ?_⟩
    obtain ⟨g', hl, _, hfresh', _⟩ := (h.spawns ho rfl).1
    obtain rfl : g = g' := by simpa [hl] using hg
    exact nomatch hfresh.symm.trans hfresh'

theorem RunOp.removes_of_sweeps {o : RunOp} (h : o.sweeps = false) : o.removes = false := by
  cases o <;> first | rfl | exact nomatch h

/-- No call fails, and no garbage collection deletes a run. -/
def smoothPolicy (host : Host) : Policy Tid ServerOp ServerOp.Choice (World Tid) ServerEvent :=
  sparingPolicy host fun _ => true

instance [Fintype Tid] (host : Host) :
    (smoothPolicy host : Policy Tid ServerOp ServerOp.Choice _ _).Checkable :=
  inferInstanceAs (sparingPolicy host fun _ => true).Checkable

/-- Of all the processes that work on a run, one at a time holds its lock, and
only that one changes the run, starts the transform or publishes a status. -/
theorem server_mutual_exclusion {c : Config Tid ServerOp ServerOp.Res (World Tid)}
    (h : Reachable (server host config) (smoothPolicy host) c) (k : RunKey) :
    (∀ g ∈ (c.world.runs k).locks, ∀ g' ∈ (c.world.runs k).locks, g = g') ∧
      (∀ g ∈ (c.world.runs k).locks, (c.threads g.tid).isSome = true) ∧
      ∀ t o f x, c.threads t = some (.call (.run k o) f) →
        (smoothPolicy host).step t (.run k o) x c.world →
        Exclusive host t o x c.world.clock (c.world.runs k) := by
  have hcalm := reachable_calm h
  have hspared := reachable_spared h k
  obtain ⟨hinv, hmeets⟩ := hcalm.sound (lockContract_sound host config k)
  refine ⟨fun g hg g' hg' => ?_, fun g hg => ?_, fun t o f x ht hx => ?_⟩
  · obtain ⟨i, hi, rfl⟩ := List.mem_iff_getElem.1 hg
    obtain ⟨j, hj, rfl⟩ := List.mem_iff_getElem.1 hg'
    have hone : (c.world.runs k).locks.length ≤ 1 := hinv.oneGrip
    congr 1
    omega
  · by_contra hnone
    have hstart := hmeets g.tid
    rw [Option.not_isSome_iff_eq_none.1 hnone] at hstart
    exact hstart.2 g hg rfl
  · have hfaults : (c.world.runs k).faults = [] :=
      List.eq_nil_iff_forall_not_mem.2 fun f hf => by cases hspared.faults f hf
    have hg := hcalm.step_guar (lockContract_sound host config k) ht
      (hx.1.calm hspared.pass : calmPolicy.step t (.run k o) x c.world)
    have hok : o.succeeds x.1 = true := by
      by_contra hs
      simp only [RunOp.succeeds, Bool.or_eq_true, not_or, Option.isNone_iff_eq_none] at hs
      cases hx.2 (Option.isSome_iff_ne_none.2 hs.1) (by simpa using hs.2)
    simp only [lockContract, server, serverStep, World.setRun, if_true, Function.update_self,
      hok] at hg
    exact .of_guar hg (RunOp.removes_of_sweeps hx.1.sweeps) hfaults

end Exclusion

section Sample

theorem laptop_valid : "laptop".toList ≠ [] ∧ "laptop".toList.all nicknameChar = true := by
  decide

theorem r1_valid : "r1".toList ≠ [] ∧ "r1".toList.all runIdChar = true := by
  decide

def sampleKey : RunKey := ⟨⟨"laptop", laptop_valid⟩, ⟨"r1", r1_valid⟩⟩

def sampleHost : Host := ⟨fun _ => "", fun _ => none, fun _ => none, fun _ => []⟩

theorem sampleWorkDir_absolute : Path.isAbsolute "/w" = true := by
  decide

def sampleConfig : ServerConfig where
  workDir := ⟨"/w", sampleWorkDir_absolute⟩
  transforms _ := some ⟨"t", .subprocess, "p", [], []⟩
  gc := .default

def samplePath : NormalizedRelativePath := ⟨"a", "a", by decide⟩

def sampleStaged : NormalizedRelativePath := ⟨"files/a", "files/a", by decide⟩

def sampleRunConfig : RunConfig :=
  ⟨currentPurgeryVersion, sampleKey.nickname, ⟨"/d/", "/d/", .trailingSlash⟩, true⟩

def sampleManifest : Manifest :=
  ⟨currentPurgeryVersion, sampleKey.runId, sampleKey.nickname,
    [⟨"/l/a", sampleStaged, samplePath, .regularFile, 0, 0, none, none, some "t"⟩]⟩

/-- A complete upload of one file. -/
def sampleRun : RunDir where
  id := 0
  lock := none
  file
    | .runConfig => .text (Doc.ofValue sampleRunConfig)
    | .manifest => .text (Doc.ofValue sampleManifest)
    | _ => .missing
  tmp _ := .missing
  tree
    | .files => some [("files/a", .file [])]
    | .work => none
  mtime := 0
  tmpMtime := 0
  statusMtime := 0
  touched := false
  shadow := ⟨.missing, 0, .text (Doc.ofValue sampleRunConfig), .text (Doc.ofValue sampleManifest),
    some [("files/a", .file [])]⟩

variable (Tid : Type) [DecidableEq Tid]

/-- The server holds one run, at the given phase. -/
def worldWith (d : RunDir) (now : Nat) (ph : RunPhase) : World Tid where
  clock := now
  runs k :=
    { dirs := fun ph' => if k = sampleKey ∧ ph' = ph then some d else none
      locks := []
      nextIno := 0
      nextDir := d.id + 1
      destination := fun _ => none
      published := []
      pass := fun _ => none
      faults := [] }

theorem worldWith_init {d : RunDir} {now : Nat} {ph : RunPhase} (h : ph = .incoming ∨ ph = .ready)
    (hd : d.lock = none ∧ d.touched = false ∧
      d.shadow = ⟨d.file .lease, d.mtime, d.file .runConfig, d.file .manifest, d.tree .files⟩)
    (host : Host) (config : ServerConfig) :
    (server host config).init (worldWith Tid d now ph) := fun k => by
  have hsole : ∀ ph', ph' ≠ ph → ((worldWith Tid d now ph).runs k).dirs ph' = none :=
    fun ph' hne => if_neg fun h => hne h.2
  refine ⟨fun ph' hi hr => hsole ph' ?_, ?_, fun ph' d' hd' => ?_, rfl, rfl, rfl, fun _ => rfl, rfl⟩
  · rintro rfl
    exact h.elim hi hr
  · obtain rfl | rfl := h
    · exact .inr (hsole _ nofun)
    · exact .inl (hsole _ nofun)
  · obtain ⟨_, rfl⟩ : (k = sampleKey ∧ ph' = ph) ∧ d = d' := by
      simpa [worldWith] using hd'
    exact ⟨hd.1, hd.2.1, Nat.lt_succ_self _, hd.2.2⟩

abbrev sampleWorld (now : Nat) (ph : RunPhase) : World Tid := worldWith Tid sampleRun now ph

theorem sampleWorld_init {now : Nat} {ph : RunPhase} (h : ph = .incoming ∨ ph = .ready)
    (host : Host) (config : ServerConfig) :
    (server host config).init (sampleWorld Tid now ph) :=
  worldWith_init Tid h ⟨rfl, rfl, rfl⟩ host config

def RunOp.plain (o : RunOp) : o.Extra := by
  cases o with
  | openTmp ph f => exact .error ""
  | breakTree ph s => exact fun _ => false
  | openWorkFile path => exact []
  | spawn c => exact (0, fun _ => none, [])
  | reap => exact (⟨true, some 0, .ok "", .ok ""⟩, fun _ => none, [])
  | openDir ph => exact []
  | _ => exact ()

/-- The calls that `fail` picks fail; the directories hold the sample run. -/
def outcome (fail : RunOp → Bool) : (o : ServerOp) → o.Choice
  | .unixNow => ()
  | .rootExists => true
  | .nicknames => (none, [sampleKey.nickname])
  | .runIds _ _ => (none, [sampleKey.runId])
  | .run _ o => (if fail o then some "" else none, o.plain)

abbrev Entry : Type := Event (server sampleHost sampleConfig : System Tid _ _ _ _ _)

variable {Tid}

def startProcessRun (t : Tid) : Entry Tid :=
  .spawn t ⟨_, .processRun sampleKey⟩

def steps (t : Tid) (n : Nat) (fail : RunOp → Bool) : List (Entry Tid) :=
  List.replicate n (.step t (outcome fail))

end Sample

/-- Two processes open the lock of the sample run before either takes it. -/
theorem server_mutual_exclusion_race :
    ∃ c : Config Bool _ _ _, Reachable (server sampleHost sampleConfig) (smoothPolicy sampleHost) c ∧
      (c.world.runs sampleKey).locks.length = 1 ∧
      ∀ g ∈ (c.world.runs sampleKey).locks, ∀ g' ∈ (c.world.runs sampleKey).locks, g = g' := by
  obtain ⟨c, hc, htest⟩ := exists_reachable (P := smoothPolicy sampleHost)
    ([startProcessRun true, startProcessRun false] ++ steps true 3 (fun _ => false) ++
      steps false 4 (fun _ => false) ++ steps true 1 (fun _ => false))
    (sampleWorld_init Bool (.inr rfl : RunPhase.ready = .incoming ∨ _) _ _)
    (fun c => (c.world.runs sampleKey).locks.length == 1) (s := sampleWorld Bool 0 .ready)
    (by decide +kernel)
  exact ⟨c, hc, by simpa using htest, (server_mutual_exclusion hc sampleKey).1⟩

end Purgery.Server
