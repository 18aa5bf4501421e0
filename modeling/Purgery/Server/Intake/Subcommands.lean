import Purgery.Server.Intake.Anchored
import Purgery.Server.Intake.BeginRun

namespace Purgery.Server

open Purgery.Interleaving

variable {Tid : Type} [DecidableEq Tid] {host : Host} {config : ServerConfig} {k : RunKey}
variable {t : Tid} {α : Type}

def ServerOp.Steady : ServerOp → Prop
  | .run _ o => o.Steady
  | _ => True

def IntakeOp.Steady : IntakeOp → Prop
  | .server o => o.Steady
  | _ => True

def IntakeOp.anchors (W : IntakeWorld Tid) : (o : IntakeOp) → o.Choice → Bool
  | .server (.run k o), x => RunOp.anchors (W.server.runs k) o x
  | _, _ => true

/-- Every run is moved on with an absolute destination. -/
def anchoredPolicy : Policy Tid IntakeOp IntakeOp.Choice (IntakeWorld Tid) IntakeEvent where
  step _ o x W := o.anchors W x = true
  env _ _ := True
  crash _ _ := True

/-- Accepted runs have absolute destinations, and so have the transforms. -/
def anchorage (Tid : Type) [DecidableEq Tid] (host : Host) (config : ServerConfig) :
    Contract (intake host (Subcommand host config) : System Tid _ _ _ _ _) anchoredPolicy where
  inv W := ∀ k, (W.server.runs k).Anchored
  rely _ _ _ := True
  guar _ o _ _ _ := ∀ k c, o = .server (.run k (.spawn c)) → c.target.anchored = true
  start _ _ := True
  post _ _ := True

theorem anchorage_closed :
    (anchorage Tid host config).Closed where
  rely_refl _ _ := trivial
  rely_trans _ _ _ _ _ _ := trivial

section Steps

variable {W : IntakeWorld Tid}

theorem IntakeWorld.setRun_anchored (hW : ∀ k, (W.server.runs k).Anchored) {r : RunWorld Tid}
    (hr : r.Anchored) (k' : RunKey) : ((W.setRun k r).server.runs k').Anchored := by
  by_cases hk : k' = k
  · subst hk
    simpa using hr
  · simpa [IntakeWorld.setRun, World.setRun, hk] using hW k'

theorem RunDir.unlinkEntry_onward {ph : RunPhase} {d d' : RunDir} {e : RunEntry} {now : Nat}
    (h : d.unlinkEntry e now = .ok d') : d.Onward ph d' := by
  unfold RunDir.unlinkEntry at h
  split at h
  · cases h
    exact .refl ph d
  · split at h
    · exact nomatch h
    · cases h
      exact (RunDir.Onward.without e).of_files rfl rfl

theorem IntakeOp.onRun_anchored (o : IntakeOp) (now : Nat) {r : RunWorld Tid} (hr : r.Anchored) :
    (o.onRun now r).2.Anchored := by
  cases o with
  | createIncoming k =>
    simp only [IntakeOp.onRun]
    split
    · exact hr
    · exact hr.add (fun _ => rfl) (fun _ => rfl) rfl
  | createFiles k =>
    refine hr.change fun d d' h => ?_
    split at h
    · cases h
    · cases h
      exact (RunDir.Onward.refl .incoming d).of_files rfl rfl
  | unlinkIncoming k dir e =>
    simp only [IntakeOp.onRun]
    split
    · exact hr
    · exact hr.change fun d d' h => RunDir.unlinkEntry_onward h
  | rmdirIncoming k =>
    simp only [IntakeOp.onRun]
    split
    · exact hr
    · split
      · exact hr.remove rfl
      · exact hr
  | _ => exact hr

theorem intakeStep_anchored {o : IntakeOp} (ho : o.Steady) {x : o.Choice}
    (hx : anchoredPolicy.step t o x W) (hW : ∀ k, (W.server.runs k).Anchored) :
    ∀ k, ((intakeStep host t o x W).2.server.runs k).Anchored := by
  have hset : ∀ {k : RunKey} (o : IntakeOp) (k' : RunKey),
      ((W.setRun k (o.onRun W.server.clock (W.server.runs k)).2).server.runs k').Anchored :=
    fun o => IntakeWorld.setRun_anchored hW (IntakeOp.onRun_anchored o _ (hW _))
  cases o with
  | server o =>
    cases o with
    | run k o => exact IntakeWorld.setRun_anchored hW (RunOp.step_anchored host ho _ hx (hW k))
    | nicknames => rcases x with ⟨_ | _, _⟩ <;> exact hW
    | runIds n ph => rcases x with ⟨_ | _, _⟩ <;> exact hW
    | _ => exact hW
  | reply r => exact hW
  | serialize v => cases x <;> exact hW
  | createIncoming k =>
    cases x with
    | some m => exact hW
    | none =>
      intro k'
      have hserver : (intakeStep host t (.createIncoming k) none W).2.server =
          (W.setRun k ((IntakeOp.createIncoming k).onRun W.server.clock
            (W.server.runs k)).2).server := by
        simp only [intakeStep]
        split <;> rfl
      rw [hserver]
      exact hset (.createIncoming k) k'
  | createFiles k =>
    cases x with
    | some m => exact hW
    | none => exact hset (.createFiles k)
  | unlinkIncoming k dir e =>
    cases x with
    | some m => exact hW
    | none => exact hset (.unlinkIncoming k dir e)
  | rmdirIncoming k =>
    cases x with
    | some m => exact hW
    | none => exact hset (.rmdirIncoming k)

end Steps

section Rules

theorem anchorage_only {p : Intake α} (hp : p.Only IntakeOp.Steady) :
    Triple (anchorage Tid host config) t (fun _ => True) p fun _ _ => True := by
  refine Triple.of_only hp (fun _ _ _ _ _ h => h) fun o W x ho hW _ hx => ?_
  refine ⟨?_, intakeStep_anchored ho hx hW, trivial⟩
  rintro k c rfl
  exact ho.1

theorem onServer_steady {p : Action α} (hp : p.Only ServerOp.Steady) :
    (onServer p).Only IntakeOp.Steady := hp.embed _ fun _ h => h

theorem onRun_steady {c : Call α} (hc : c.Only RunOp.Steady) : (onRun k c).Only ServerOp.Steady :=
  hc.embed _ fun _ h => h

theorem RunOp.steady_of_issued {A : Rights} {now : Nat} {o : RunOp}
    (ho : o.Issued config k now ∧ A.Allows o) (hA : ∀ p, A.plans p → p.anchored = true) :
    o.Steady := by
  obtain ⟨hi, ha⟩ := ho
  constructor
  · cases o with
    | writeTmp dir f doc =>
      cases f with
      | plan => exact fun p hp => hA p (ha p hp)
      | _ => trivial
    | spawn c => exact hA _ ha
    | _ => trivial
  · rintro ph rfl
    cases ph <;> exact hi.elim

/-- Code that follows no plan. -/
theorem anchorage_issued {A : Rights} {now : Nat} {c : Call α} (hc : Issued A config k now c)
    (hA : ∀ p, A.plans p → p.anchored = true) :
    RunRule (anchorage Tid host config) k t (fun _ => True) c fun _ _ => True :=
  anchorage_only (onServer_steady (onRun_steady (hc.mono fun _ ho =>
    RunOp.steady_of_issued ho hA)))

/-- One call, and what it answers. -/
theorem anchorage_sys {o : RunOp} (ho : o.Steady) {Q : o.Res → Prop}
    (h : ∀ (w : RunWorld Tid) x now, w.Anchored → Q (o.step host t x now w).1) :
    RunRule (anchorage Tid host config) k t (fun _ => True) (sys o) fun r _ => Q r := by
  refine Triple.perform (o := IntakeOp.server (.run k o)) (fun _ _ _ _ _ h => h)
    (fun _ _ _ _ _ _ h => h) fun W x hW _ hx => ?_
  refine ⟨?_, intakeStep_anchored (o := .server (.run k o)) ho hx hW, h _ x _ (hW k)⟩
  intro k' c hc
  cases hc
  exact ho.1

/-- What the code knows of its own values. -/
theorem anchorage_pure {φ : Prop} {c : Call α}
    (h : φ → RunRule (anchorage Tid host config) k t (fun _ => True) c fun _ _ => True) :
    RunRule (anchorage Tid host config) k t (fun _ => φ) c fun _ _ => φ :=
  fun W hW hφ => wp_mono (h hφ W hW trivial) fun _ _ _ _ => hφ

theorem FileState.read_text {f : FileName} {s : FileState f} {d : Doc f.Content}
    (h : s.read = .ok d) : s = .text d := by
  cases s with
  | text d' => rw [Except.ok.inj h]
  | _ => exact nomatch h

theorem checkRunConfig_parsed {ph : RunPhase} {content : Except IoError (Doc RunConfig)}
    {c : RunConfig} (h : checkRunConfig config k ph content = .ok c) :
    ∃ d, content = .ok d ∧ d.parsed = .ok c := by
  unfold checkRunConfig at h
  split at h
  · exact nomatch h
  · rename_i d
    split at h
    · exact nomatch h
    · exact nomatch h
    · refine ⟨d, rfl, ?_⟩
      cases hp : d.parsed with
      | error e => simp [RunConfig.fromToml, hp, Except.mapError] at h
      | ok c' => simpa [RunConfig.fromToml, hp, Except.mapError] using h

theorem anchorage_readRunConfig : RunRule (anchorage Tid host config) k t (fun _ => True)
    (sys (.read .processing .runConfig))
    fun (r : Except IoError (Doc RunConfig)) _ =>
      ∀ d c, r = .ok d → d.parsed = .ok c → c.anchored = true := by
  refine anchorage_sys (o := .read .processing .runConfig) ⟨trivial, by rintro _ ⟨⟩⟩ fun w x now hw => ?_
  intro d c hd hc
  obtain ⟨failure, x⟩ := x
  cases failure with
  | some m => cases hd
  | none =>
    cases hdir : w.dirs .processing with
    | none => simp [RunOp.step, RunOp.run, RunWorld.look, hdir] at hd
    | some dir =>
      have hread : (dir.file .runConfig).read = .ok d := by
        simpa [RunOp.step, RunOp.run, RunWorld.look, hdir] using hd
      have hall := hw.dirs .processing dir (by rintro ⟨⟩) hdir
      simp only [RunDir.anchored, Bool.and_eq_true] at hall
      exact FileState.all_text hall.1 (FileState.read_text hread) hc

/-- A run whose inputs can be read has an absolute destination. -/
theorem anchorage_read : RunRule (anchorage Tid host config) k t (fun _ => True)
    (readCompatibleRunInputs config k .processing).run
    fun r _ => True ∧ ∀ x, r = .ok x → x.1.anchored = true := by
  have hC : (anchorage Tid host config).Closed := anchorage_closed
  have hlease : Issued .free config k 0 (validateRunLeaseProtocol config k .processing).run :=
    Prog.Only.runBind (only_ask ⟨trivial, trivial⟩) fun _ => trivial
  refine RunRule.runBind hC (M := fun _ _ => True) ?_ (fun _ => ?_) fun _ _ _ _ _ _ h => h
  · refine RunRule.weaken (anchorage_issued hlease fun _ h => h.elim) fun r _ _ _ => ?_
    cases r with
    | ok a => trivial
    | error e => exact ⟨trivial, nofun⟩
  refine RunRule.liftBind hC anchorage_readRunConfig fun content => ?_
  cases hc : checkRunConfig config k .processing content with
  | error e => exact RunRule.ret fun _ _ _ _ _ _ => ⟨trivial, nofun⟩
  | ok c =>
    have hrest : Issued .free config k 0 (do
        let content ← ask (.read .processing .manifest)
        let manifest ← ExceptT.mk (pure (checkManifest config k .processing content))
        ExceptT.mk (pure (checkEnvelope k c manifest))
        return (c, manifest) : ExceptT ProcessingError Call (RunConfig × Manifest)).run := by
      refine Prog.Only.runBind (only_ask ⟨trivial, trivial⟩) fun _ => ?_
      exact Prog.Only.runBind trivial fun _ => Prog.Only.runBind trivial fun _ => trivial
    have hanswer : (do
        let content ← ask (.read .processing .manifest)
        let manifest ← ExceptT.mk (pure (checkManifest config k .processing content))
        ExceptT.mk (pure (checkEnvelope k c manifest))
        return (c, manifest) : ExceptT ProcessingError Call (RunConfig × Manifest)).run.Answers
        fun r => ∀ x, r = .ok x → x.1 = c := by
      refine Prog.Answers.liftBind (A := fun _ => True) (.any fun _ => trivial) fun content _ => ?_
      refine Prog.Answers.runCheck (fun manifest _ => ?_) fun e _ x hx => nomatch hx
      refine Prog.Answers.runCheck (fun _ _ => ?_) fun e _ x hx => nomatch hx
      exact fun x hx => by rw [← Except.ok.inj hx]
    intro W hW hcontent
    obtain ⟨d, hd, hparsed⟩ := checkRunConfig_parsed hc
    have hanchored := hcontent d c hd hparsed
    refine wp_mono (Triple.answers (anchorage_issued hrest fun _ h => h.elim)
      (hanswer.embed _ |>.embed _) W hW trivial) fun r _ _ h => ⟨trivial, fun x hx => ?_⟩
    rw [h.2 x hx]
    exact hanchored

theorem anchorage_quiet {c : Call α} (hc : Quietly (fun p => p.anchored = true) c) :
    RunRule (anchorage Tid host config) k t (fun _ => True) c fun _ _ => True := by
  have hissued : Issued (.working fun p => p.anchored = true) config k 0 c :=
    Issued.of_quiet trivial hc
  exact anchorage_issued hissued fun _ h => h

/-- Code that follows no plan, and what it may answer. -/
theorem anchorage_answers {c : Call α} {Q : α → Prop}
    (hc : Quietly (fun p => p.anchored = true) c) (hQ : c.Answers Q) :
    RunRule (anchorage Tid host config) k t (fun _ => True) c fun a _ => Q a :=
  Triple.weaken (Triple.answers (anchorage_quiet hc) (hQ.embed _ |>.embed _)) fun _ _ _ h => h.2

theorem anchorage_readPlan : RunRule (anchorage Tid host config) k t (fun _ => True)
    (sys (.read .processing .plan))
    fun (r : Except IoError (Doc ResolvedDestinationPlan)) _ =>
      ∀ d p, r = .ok d → d.parsed = .ok p → p.anchored = true := by
  refine anchorage_sys (o := .read .processing .plan) ⟨trivial, by rintro _ ⟨⟩⟩ fun w x now hw => ?_
  intro d p hd hp
  obtain ⟨failure, x⟩ := x
  cases failure with
  | some m => cases hd
  | none =>
    cases hdir : w.dirs .processing with
    | none => simp [RunOp.step, RunOp.run, RunWorld.look, hdir] at hd
    | some dir =>
      have hread : (dir.file .plan).read = .ok d := by
        simpa [RunOp.step, RunOp.run, RunWorld.look, hdir] using hd
      have hall := hw.dirs .processing dir (by rintro ⟨⟩) hdir
      simp only [RunDir.anchored, Bool.and_eq_true] at hall
      exact FileState.all_text hall.2 (FileState.read_text hread) hp

/-- A plan that is loaded or made for an absolute destination is absolute. -/
theorem anchorage_plan {destination : DestinationPath} {entry : ManifestEntry}
    (hd : Path.isAbsolute destination.path = true) :
    RunRule (anchorage Tid host config) k t (fun _ => True)
      (loadOrResolveDestinationPlan destination entry).run
      fun r _ => ∀ p, r = .ok p → p.anchored = true := by
  have hC : (anchorage Tid host config).Closed := anchorage_closed
  refine RunRule.liftBind hC (anchorage_quiet (only_sys ⟨rfl, trivial⟩)) fun found => ?_
  split
  · refine RunRule.runBind hC (M := fun d _ => ∀ p, d.parsed = .ok p → p.anchored = true) ?_ ?_
      fun _ _ _ _ _ _ h => h
    · refine RunRule.bind hC anchorage_readPlan fun r => RunRule.ret fun _ _ _ _ _ h => ?_
      cases r with
      | ok d => exact fun p hp => h d p rfl hp
      | error e => exact nofun
    · refine fun d => RunRule.ret fun _ _ _ _ _ h p hp => ?_
      cases hparsed : d.parsed with
      | error e => simp [hparsed, Except.mapError] at hp
      | ok p' =>
        obtain rfl : p' = p := by simpa [hparsed, Except.mapError] using hp
        exact h p' hparsed
  · have hresolve : (resolvePlan destination entry).run.Answers
        fun r => ∀ p, r = .ok p → p.anchored = true := by
      refine Prog.Answers.runBind (A := fun _ => True) (.any fun _ => trivial)
        (fun state _ => ?_) fun e _ p hp => nomatch hp
      refine Prog.Answers.runBind (A := fun _ => True) (.any fun _ => trivial)
        (fun empty _ => ?_) fun e _ p hp => nomatch hp
      intro p hp
      cases hr : resolveDestination destination entry.relativePath entry.kind empty state with
      | error e => simp [hr, Except.mapError] at hp
      | ok p' =>
        obtain rfl : p' = p := by simpa [hr, Except.mapError] using hp
        exact resolveDestination_anchored hd hr
    refine RunRule.runBind hC (M := fun plan _ => plan.anchored = true)
      (RunRule.weaken (anchorage_answers (resolvePlan_quiet entry destination) hresolve)
        fun r _ _ h => ?_) (fun plan => ?_) fun _ _ _ _ _ _ h => h
    · cases r with
      | ok p => exact h p rfl
      | error e => exact h
    · intro W hW hplan
      have hwrite : Quietly (fun p => p.anchored = true) (do
          io (writeFile .processing .plan (Doc.ofValue plan)) fun e =>
            "failed to write destination plan: " ++ e.message
          io (sys (.publish .processing .plan)) fun e =>
            "failed to publish destination plan: " ++ e.message
          return plan : ExceptT String Call ResolvedDestinationPlan).run := by
        have hdoc : ∀ p, (Doc.ofValue plan).parsed = .ok p → p.anchored = true := by
          intro p hp
          rw [← Except.ok.inj hp]
          exact hplan
        refine Prog.Only.runBind (only_io (only_writeFile ⟨rfl, trivial⟩ fun _ => ⟨rfl, hdoc⟩))
          fun _ => ?_
        exact Prog.Only.runBind (only_io (only_sys ⟨rfl, trivial⟩)) fun _ => trivial
      refine anchorage_answers hwrite ?_ W hW trivial
      refine Prog.Answers.runBind (A := fun _ => True) (.any fun _ => trivial)
        (fun _ _ => ?_) fun e _ p hp => nomatch hp
      refine Prog.Answers.runBind (A := fun _ => True) (.any fun _ => trivial)
        (fun _ _ => ?_) fun e _ p hp => nomatch hp
      intro p hp
      rw [← Except.ok.inj hp]
      exact hplan

theorem anchorage_entry {destination : DestinationPath} {entry : ManifestEntry} {i n : Nat}
    (hd : Path.isAbsolute destination.path = true) :
    RunRule (anchorage Tid host config) k t (fun _ => True)
      (processManifestEntry host config k entry i n destination) fun _ _ => True := by
  have hC : (anchorage Tid host config).Closed := anchorage_closed
  have himport : RunRule (anchorage Tid host config) k t (fun _ => True)
      (importEntry host config k entry i n destination).run fun _ _ => True := by
    unfold importEntry
    split
    · exact anchorage_quiet trivial
    refine RunRule.runBind hC (M := fun _ _ => True) ?_ (fun _ => ?_) fun _ _ _ _ _ _ h => h
    · exact (anchorage_quiet (checkStaged_quiet host config k entry)).weaken fun r _ _ _ => by
        cases r <;> trivial
    refine RunRule.runBind hC (M := fun p _ => p.anchored = true) ?_ (fun target => ?_)
      fun _ _ _ _ _ _ h => h
    · refine (anchorage_plan hd).weaken fun r _ _ h => ?_
      cases r with
      | ok p => exact h p rfl
      | error e => trivial
    · intro W hW htarget
      refine anchorage_quiet (Prog.Only.runBind (prepareWorkEntry_quiet config k entry)
        fun workPath => ?_) W hW trivial
      split
      · trivial
      · exact applyTransformForTarget_quiet config k _ _ _ htarget i n _
  refine RunRule.bind hC himport fun r => ?_
  split
  · exact anchorage_quiet trivial
  · exact anchorage_quiet trivial

theorem anchorage_locking : Locking (anchorage Tid host config) config k t
    (fun _ => True) where
  toClosed := anchorage_closed
  stable _ _ _ _ _ h := h
  free _ ho := anchorage_issued (only_sys ho) fun _ h => h.elim
  held _ ho := anchorage_issued (only_sys ho) fun _ h => h.elim
  lock ph hph := by
    have hlock : Issued .free config k 0 (tryLockExistingDir config k ph).run :=
      tryLockExistingDir_issued trivial hph
    exact (anchorage_issued hlock fun _ h => h.elim).weaken fun _ _ _ _ _ _ => trivial
  process := by
    refine processProcessingRun_rule (fun c _ => c.anchored = true)
      (fun p => p.anchored = true) anchorage_closed (fun _ _ _ _ _ h => h)
      (fun _ ho => anchorage_issued (only_sys ho) fun _ h => h.elim) anchorage_read fun c => ?_
    exact {
      toClosed := anchorage_closed
      stable := fun _ _ _ _ _ h => h
      held := fun _ ho => anchorage_issued (only_sys ho) fun _ h => h.elim
      stays := fun _ _ _ _ _ h => h
      working := fun _ ho => anchorage_pure fun _ => anchorage_issued (only_sys ho) fun _ h => h
      back := fun _ _ _ => trivial
      entry := fun entry => anchorage_pure fun hc => anchorage_entry hc }

end Rules

section Programs

/-- The rights of a collection. -/
def Rights.collecting : Rights := ⟨False, False, True, True, fun _ => False⟩

theorem ServerOp.steady_of_issued {now : Nat} {o : ServerOp}
    (h : o.Issued .collecting config now) : o.Steady := by
  cases o with
  | run k o => exact RunOp.steady_of_issued h fun _ h => h.elim
  | _ => trivial

theorem ServerOp.steady_of_made {o : ServerOp} (h : o.Made .collecting config) : o.Steady := by
  obtain ⟨now, h⟩ := h
  exact steady_of_issued h

theorem anchorage_server {p : Action α} (hp : p.Only ServerOp.Steady) :
    Triple (anchorage Tid host config) t (fun _ => True) (onServer p) fun _ _ => True :=
  anchorage_only (onServer_steady hp)

theorem anchorage_forEach {f : RunKey → Call Unit} (ks : List RunKey)
    (hf : ∀ k, RunRule (anchorage Tid host config) k t (fun _ => True) (f k)
      fun _ _ => True) :
    Triple (anchorage Tid host config) t (fun _ => True)
      (onServer (Prog.forEach ks fun k => onRun k (f k))) fun _ _ => True := by
  induction ks with
  | nil => exact Triple.ret fun _ _ _ _ _ h => h
  | cons k ks ih =>
    have hcons : onServer (Prog.forEach (k :: ks) fun k => onRun k (f k)) =
        onServer (onRun k (f k)) >>= fun _ =>
          onServer (Prog.forEach ks fun k => onRun k (f k)) := onServer_bind _ _
    rw [hcons]
    exact Triple.bind anchorage_closed (hf k) fun _ => ih

theorem anchorage_serverBind {ε β γ : Type} {x : ExceptT ε Action β} {f : β → ExceptT ε Action γ}
    (hx : Triple (anchorage Tid host config) t (fun _ => True) (onServer x.run)
      fun _ _ => True)
    (hf : ∀ a, Triple (anchorage Tid host config) t (fun _ => True)
      (onServer (f a).run) fun _ _ => True) :
    Triple (anchorage Tid host config) t (fun _ => True) (onServer (x >>= f).run)
      fun _ _ => True := by
  have hbind : onServer (x >>= f).run = onServer x.run >>= fun r => onServer (ExceptT.bindCont f r) :=
    onServer_bind _ _
  rw [hbind]
  refine Triple.bind anchorage_closed hx fun r => ?_
  cases r with
  | ok a => exact hf a
  | error e => exact Triple.ret fun _ _ _ _ _ h => h

theorem anchorage_serverLift {ε β : Type} {p : Action β}
    (hp : Triple (anchorage Tid host config) t (fun _ => True) (onServer p)
      fun _ _ => True) :
    Triple (anchorage Tid host config) t (fun _ => True)
      (onServer (ExceptT.lift p : ExceptT ε Action β).run) fun _ _ => True := by
  have hlift : onServer (ExceptT.lift p : ExceptT ε Action β).run =
      onServer p >>= fun a => onServer (.ret (.ok a)) := onServer_bind _ _
  rw [hlift]
  exact Triple.bind anchorage_closed hp fun _ => Triple.ret fun _ _ _ _ _ h => h

theorem anchorage_processOnce : Triple (anchorage Tid host config) t (fun _ => True)
    (onServer (processOnceRaw host config).run) fun _ _ => True := by
  have hgc : (runGc config).run.Only ServerOp.Steady :=
    (runGc_made trivial trivial).mono fun _ h => ServerOp.steady_of_made h
  have hfind : ∀ ph, (findRunsInPhase ph).run.Only ServerOp.Steady := by
    intro ph
    have hissued : (findRunsInPhase ph).run.Only (ServerOp.Issued .collecting config 0) :=
      findRunsInPhase_issued ph
    exact hissued.mono fun _ h => ServerOp.steady_of_issued h
  refine anchorage_serverBind (anchorage_serverLift (anchorage_server hgc)) fun _ => ?_
  refine anchorage_serverBind (anchorage_server (hfind _)) fun processing => ?_
  refine anchorage_serverBind (anchorage_server (hfind _)) fun ready => ?_
  refine anchorage_serverBind (anchorage_serverLift (anchorage_forEach processing fun k =>
    anchorage_locking.recoverFoundRun)) fun _ => ?_
  exact anchorage_serverLift (anchorage_forEach ready fun k => anchorage_locking.processReadyRun)

theorem anchorage_discard {p : Action α}
    (hp : Triple (anchorage Tid host config) t (fun _ => True) (onServer p)
      fun _ _ => True) :
    Triple (anchorage Tid host config) t (fun _ => True) (onServer (discard p))
      fun _ _ => True := by
  rw [discard, onServer_bind]
  exact Triple.bind anchorage_closed hp fun _ => Triple.ret fun _ _ _ _ _ h => h

theorem anchorage_command {p : Action Unit} (hp : Command host config p) :
    Triple (anchorage Tid host config) t (fun _ => True) (onServer p) fun _ _ => True := by
  have hissued : ∀ {α : Type} {k : RunKey} {c : Call α}, Issued .collecting config k 0 c →
      Triple (anchorage Tid host config) t (fun _ => True) (onServer (discard (onRun k c)))
        fun _ _ => True := fun hc =>
    anchorage_discard (anchorage_issued hc fun _ h => h.elim)
  cases hp with
  | processRun k => exact anchorage_discard anchorage_locking.processRunInner
  | processOnce => exact anchorage_discard anchorage_processOnce
  | runState k => exact hissued (runState_issued trivial)
  | gc =>
    exact anchorage_discard (anchorage_server ((runGc_made trivial trivial).mono
      fun _ h => ServerOp.steady_of_made h))
  | heartbeat k => exact hissued heartbeatRun_issued
  | finish k => exact hissued finishRun_issued

theorem onIntake_steady {ε : Type} {c : ExceptT ε Call α} (hc : c.run.Only RunOp.Steady) :
    (onIntake k c).run.Only IntakeOp.Steady := onServer_steady (onRun_steady hc)

theorem take_steady {o : IntakeOp} (ho : o.Steady) : (take o).Only IntakeOp.Steady :=
  ⟨ho, fun _ => trivial⟩

theorem writeFile_steady {ph : RunPhase} {f : FileName} {d : Doc f.Content} (hf : f ≠ .plan) :
    (writeFile ph f d).Only RunOp.Steady := by
  refine only_writeFile ⟨trivial, nofun⟩ fun dir => ⟨?_, nofun⟩
  cases f with
  | plan => exact absurd rfl hf
  | _ => trivial

theorem unlinkAll_steady {dir : Nat} {entries : List RunEntry} :
    (unlinkAll k dir entries).run.Only IntakeOp.Steady := by
  induction entries with
  | nil => trivial
  | cons e rest ih => exact Prog.Only.runBind (take_steady trivial) fun _ => ih

theorem removeIncoming_steady : (removeIncoming k).run.Only IntakeOp.Steady := by
  refine Prog.Only.runBind (onIntake_steady (only_sys ⟨trivial, nofun⟩)) fun opened => ?_
  exact Prog.Only.runBind unlinkAll_steady fun _ => take_steady trivial

theorem beginRun_steady : (beginRun config k).run.Only IntakeOp.Steady := by
  have hfirst : ∀ phs, (firstPhase phs).Only RunOp.Steady := by
    intro phs
    induction phs with
    | nil => trivial
    | cons ph rest ih =>
      refine Prog.Only.bind (only_sys ⟨trivial, nofun⟩) fun found => ?_
      split
      · trivial
      · exact ih
  have hlease : ∀ now, (writeNewLease config k now).run.Only RunOp.Steady := fun now =>
    Prog.Only.runBind (only_io (writeFile_steady nofun)) fun _ =>
      only_io (only_sys ⟨trivial, nofun⟩)
  refine Prog.Only.runBind (Prog.Only.runLift (onServer_steady (onRun_steady (hfirst _))))
    fun found => ?_
  split
  · trivial
  refine Prog.Only.runBind (Prog.Only.runLift ⟨trivial, fun _ => trivial⟩) fun now => ?_
  refine Prog.Only.runBind (onIntake_steady (only_io (only_sys ⟨trivial, nofun⟩))) fun _ => ?_
  refine Prog.Only.runBind (Prog.Only.runAdapt (take_steady trivial)) fun _ => ?_
  refine Prog.Only.runBind (Prog.Only.runLift (take_steady trivial)) fun r => ?_
  split
  · exact Prog.Only.runBind (Prog.Only.runLift removeIncoming_steady) fun _ => trivial
  refine Prog.Only.runBind (Prog.Only.runLift (take_steady trivial)) fun r => ?_
  split
  · trivial
  refine Prog.Only.runBind (Prog.Only.runLift (onIntake_steady (hlease now))) fun r => ?_
  split
  · exact Prog.Only.runBind (Prog.Only.runLift removeIncoming_steady) fun _ => trivial
  refine Prog.Only.runBind (Prog.Only.runLift (take_steady trivial)) fun r => ?_
  split
  · exact Prog.Only.runBind (Prog.Only.runLift removeIncoming_steady) fun _ => trivial
  · trivial

theorem prepareRun_steady {cwd : WorkingDirectory} :
    (prepareRun config k cwd).run.Only RunOp.Steady := by
  have hplan : (readRunPlan config k).run.Only RunOp.Steady := by
    refine Prog.Only.runBind (only_io (only_sys ⟨trivial, nofun⟩)) fun _ => ?_
    refine Prog.Only.runBind trivial fun _ => Prog.Only.runBind trivial fun _ => ?_
    refine Prog.Only.runBind (only_io (only_sys ⟨trivial, nofun⟩)) fun _ => ?_
    refine Prog.Only.runBind trivial fun _ => Prog.Only.runBind trivial fun _ => ?_
    exact Prog.Only.runBind trivial fun _ => Prog.Only.runBind trivial fun _ => trivial
  refine Prog.Only.runBind (only_ask ⟨trivial, nofun⟩) fun found => ?_
  split
  · trivial
  refine Prog.Only.runBind hplan fun runConfig => ?_
  refine Prog.Only.runBind ?_ fun _ => trivial
  unfold resolveRunConfig
  split
  · trivial
  refine Prog.Only.runBind trivial fun resolved => ?_
  refine Prog.Only.runBind (only_io (writeFile_steady nofun)) fun _ => ?_
  refine Prog.Only.runBind (only_io (only_sys ⟨trivial, ?_⟩)) fun _ => trivial
  intro ph h
  cases h
  rfl

theorem anchorage_subcommand {p : Intake Unit} (hp : Subcommand host config p) :
    Triple (anchorage Tid host config) t (fun _ => True) p fun _ _ => True := by
  cases hp with
  | server hp => exact anchorage_command hp
  | beginRun k =>
    exact anchorage_only (Prog.Only.bind beginRun_steady fun _ => take_steady trivial)
  | prepareRun k cwd =>
    exact anchorage_only (Prog.Only.bind (onServer_steady (onRun_steady prepareRun_steady))
      fun _ => take_steady trivial)

end Programs

section Sound

variable {W : IntakeWorld Tid}

omit [DecidableEq Tid] in
theorem RunWorld.Anchored.upload {w : RunWorld Tid} (hw : w.Anchored) {f : RunDir → RunDir}
    (htmp : ∀ d, (f d).tmp = d.tmp) :
    (w.setDir .incoming ((w.dirs .incoming).map f)).Anchored :=
  hw.map fun d => ⟨fun h => absurd rfl h, fun h => absurd rfl h, .inl (by rw [htmp])⟩

theorem intakeEvent_anchored {e : IntakeEvent} (hW : ∀ k, (W.server.runs k).Anchored) (k : RunKey) :
    ((intakeEvent e W).server.runs k).Anchored := by
  cases e with
  | server e =>
    cases e with
    | tick now => exact hW k
    | upload k' u =>
      exact IntakeWorld.setRun_anchored hW ((hW k').upload fun d => by cases u <;> rfl) k
  | put k' f d =>
    have hput := (hW k').upload
      (f := fun dir => (dir.setFile f (.text d)).stamp W.server.clock) fun _ => rfl
    exact IntakeWorld.setRun_anchored hW hput k

theorem anchorage_sound :
    (anchorage Tid host config).Sound where
  toClosed := anchorage_closed
  guar_rely _ _ _ _ _ _ _ _ _ _ := trivial
  leave_inv _ _ hW _ k := (hW k).of_dirs rfl
  leave_rely _ _ _ _ _ _ := trivial
  leave_start _ _ _ := trivial
  env_inv _ _ _ hW := intakeEvent_anchored hW
  env_rely _ _ _ _ _ := trivial
  init_inv _ hW k := by
    have hnone := (hW.runs k).dirs
    exact ⟨fun ph d _ hd => (nomatch (hnone ph).symm.trans hd),
      fun ph d hd => (nomatch (hnone ph).symm.trans hd)⟩
  init_start _ _ _ := trivial
  start_rely _ _ _ _ _ := trivial
  program_wp _ _ W hp hW _ := anchorage_subcommand hp W hW trivial

/-- A transform that is started is told an absolute target. -/
theorem transform_anchored {c : Config Tid IntakeOp IntakeOp.Res (IntakeWorld Tid)}
    (h : Reachable (intake host (Subcommand host config)) anchoredPolicy c) {t : Tid}
    {k : RunKey} {call : TransformCall}
    {f : Except IoError Nat → Intake Unit}
    (ht : c.threads t = some (.call (.server (.run k (.spawn call))) f)) :
    Path.isAbsolute call.target.targetPath = true ∧
      Path.isAbsolute call.target.targetDirectory = true := by
  have hg := h.step_guar anchorage_sound ht (x := (none, 0, fun _ => none, [])) rfl
  have hanchored : call.target.anchored = true := hg k call rfl
  simpa [ResolvedDestinationPlan.anchored] using hanchored

end Sound

section Sample

instance : (anchoredPolicy : Policy Tid IntakeOp _ _ _).Checkable where
  step _ o x W := inferInstanceAs (Decidable (o.anchors W x = true))
  env _ _ := .isTrue trivial
  crash _ _ := .isTrue trivial

abbrev SubcommandEntry : Type :=
  Event (intake sampleHost (Subcommand sampleHost sampleConfig) : System Bool _ _ _ _ _)

/-- The sample run, with a destination that depends on the working directory. -/
def relativeRunConfig : RunConfig :=
  { sampleRunConfig with destination := ⟨"backup", "backup", .exactOrExistingDirectory⟩ }

/-- Start a subcommand and let it take `n` steps. -/
def performs (n : Nat) (p : { p // Subcommand sampleHost sampleConfig p }) : List SubcommandEntry :=
  .spawn true p :: List.replicate n (.step true intakeOutcome)

def uploads : List SubcommandEntry :=
  [.env (.server (.upload sampleKey (.runConfig (Doc.ofValue relativeRunConfig)))),
    .env (.server (.upload sampleKey (.manifest (Doc.ofValue sampleManifest)))),
    .env (.server (.upload sampleKey (.object "files/a" (.file []))))]

/-- The transform that process `true` goes on to start. -/
def nextTransform (c : Config Bool IntakeOp IntakeOp.Res (IntakeWorld Bool)) :
    Option TransformCall :=
  match c.threads true with
  | some (.call (.server (.run _ (.spawn call))) _) => some call
  | _ => none

theorem nextTransform_threads {c : Config Bool IntakeOp IntakeOp.Res (IntakeWorld Bool)}
    {call : TransformCall} (h : nextTransform c = some call) :
    ∃ (k : RunKey) (f : Except IoError Nat → Intake Unit),
      c.threads true = some (.call (.server (.run k (.spawn call))) f) := by
  unfold nextTransform at h
  split at h
  · rename_i k call' f ht
    cases h
    exact ⟨k, f, ht⟩
  · exact nomatch h

/-- A run that is prepared in `/srv`. -/
theorem transform_anchored_prepared :
    ∃ (c : Config Bool IntakeOp IntakeOp.Res (IntakeWorld Bool)) (k : RunKey)
      (call : TransformCall) (f : Except IoError Nat → Intake Unit),
      Reachable (intake sampleHost (Subcommand sampleHost sampleConfig)) anchoredPolicy c ∧
      c.threads true = some (.call (.server (.run k (.spawn call))) f) ∧
      Path.isAbsolute call.target.targetPath = true ∧
      Path.isAbsolute call.target.targetDirectory = true := by
  obtain ⟨c, hc, htest⟩ := exists_reachable (P := anchoredPolicy)
    (S := intake sampleHost (Subcommand sampleHost sampleConfig))
    (performs 13 ⟨_, .beginRun sampleKey⟩ ++ uploads ++ [.leave true] ++
      performs 7 ⟨_, .prepareRun sampleKey (.path "/srv" (by decide))⟩ ++ [.leave true] ++
      performs 11 ⟨_, .server (.finish sampleKey)⟩ ++ [.leave true] ++
      performs 39 ⟨_, .server (.processRun sampleKey)⟩)
    unbegunWorld_unbegun (fun c => (nextTransform c).isSome) (by decide +kernel)
  obtain ⟨call, hcall⟩ := Option.isSome_iff_exists.1 htest
  obtain ⟨k, f, ht⟩ := nextTransform_threads hcall
  exact ⟨c, k, call, f, hc, ht, transform_anchored hc ht⟩

/-- A run that is finished without being prepared. -/
theorem transform_unanchored :
    ∃ (c : Config Bool IntakeOp IntakeOp.Res (IntakeWorld Bool)) (k : RunKey)
      (call : TransformCall) (f : Except IoError Nat → Intake Unit),
      Reachable (intake sampleHost (Subcommand sampleHost sampleConfig)) .any c ∧
      c.threads true = some (.call (.server (.run k (.spawn call))) f) ∧
      Path.isAbsolute call.target.targetPath = false ∧
      Path.isAbsolute call.target.targetDirectory = false := by
  obtain ⟨c, hc, htest⟩ := exists_reachable (P := .any)
    (S := intake sampleHost (Subcommand sampleHost sampleConfig))
    (performs 13 ⟨_, .beginRun sampleKey⟩ ++ uploads ++ [.leave true] ++
      performs 11 ⟨_, .server (.finish sampleKey)⟩ ++ [.leave true] ++
      performs 39 ⟨_, .server (.processRun sampleKey)⟩)
    unbegunWorld_unbegun
    (fun c => (nextTransform c).any fun call => !Path.isAbsolute call.target.targetPath &&
      !Path.isAbsolute call.target.targetDirectory) (by decide +kernel)
  obtain ⟨call, hcall, hrelative⟩ := (Option.any_eq_true _ _).1 htest
  obtain ⟨k, f, ht⟩ := nextTransform_threads hcall
  simp only [Bool.and_eq_true, Bool.not_eq_true'] at hrelative
  exact ⟨c, k, call, f, hc, ht, hrelative⟩

end Sample

end Purgery.Server
