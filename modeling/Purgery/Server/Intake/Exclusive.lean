import Purgery.Server.Intake.Sole

namespace Purgery.Server

open Purgery.Interleaving

variable {Tid : Type} {k : RunKey} {t u : Tid} {W W' : IntakeWorld Tid}

/-- How many begins of the run were granted. -/
def IntakeWorld.grants (W : IntakeWorld Tid) (k : RunKey) : Nat := W.replies.countP (Reply.granted k)

def IntakeWorld.Placed (k : RunKey) (W : IntakeWorld Tid) : Prop := (W.server.runs k).Placed

/-- What holds of a run that is begun by several processes, at every instant. -/
structure IntakeWorld.Exclusive (k : RunKey) (W : IntakeWorld Tid) : Prop where
  sole : (W.server.runs k).Sole
  granted : W.grants k ≤ 1
  placed : 0 < W.grants k → W.Placed k
  begun : W.beginner k ≠ none → W.grants k = 0

/-- What process `t` may rely on while it waits. -/
structure IntakeWorld.Spares (k : RunKey) (t : Tid) (W W' : IntakeWorld Tid) : Prop where
  run : (W.server.runs k).Spares t (W'.server.runs k)
  begun : W.beginner k = some t → W.Placed k → W'.beginner k = some t ∧ W'.Placed k

/-- Process `t` holds the first lock of the run. -/
def IntakeWorld.Holds (k : RunKey) (t : Tid) (W : IntakeWorld Tid) : Prop :=
  (W.server.runs k).Holds t

/-- Process `t` has created the incoming directory of a run that is still
there. -/
def IntakeWorld.Beginning (k : RunKey) (t : Tid) (W : IntakeWorld Tid) : Prop :=
  W.beginner k = some t ∧ W.Placed k

/-- Process `t` works on the run in `processing`. -/
def IntakeWorld.Working (k : RunKey) (t : Tid) (W : IntakeWorld Tid) : Prop :=
  W.Holds k t ∧ ((W.server.runs k).layout .processing).isSome = true

namespace IntakeWorld

@[simp] theorem setRun_grants {r : RunWorld Tid} : (W.setRun k r).grants k = W.grants k := rfl

theorem Spares.refl (k : RunKey) (t : Tid) (W : IntakeWorld Tid) : W.Spares k t W :=
  ⟨.refl t _, fun h hp => ⟨h, hp⟩⟩

theorem Spares.trans {W'' : IntakeWorld Tid} (h : W.Spares k t W') (h' : W'.Spares k t W'') :
    W.Spares k t W'' where
  run := h.run.trans h'.run
  begun hb hp := by
    obtain ⟨hb', hp'⟩ := h.begun hb hp
    exact h'.begun hb' hp'

/-- A step that changes the run only, and does not delete it. -/
theorem Exclusive.of_run (hW : W.Exclusive k) {r : RunWorld Tid} (hr : r.Sole)
    (hplaced : W.Placed k → r.Placed) : (W.setRun k r).Exclusive k where
  sole := by simpa using hr
  granted := by simpa using hW.granted
  placed h := by simpa [Placed] using hplaced (hW.placed (by simpa using h))
  begun h := by simpa using hW.begun (by simpa using h)

theorem Spares.of_run {r : RunWorld Tid} (hr : (W.server.runs k).Spares u r)
    (hplaced : W.Placed k → r.Placed) : W.Spares k u (W.setRun k r) where
  run := by simpa using hr
  begun h hp := ⟨by simpa using h, by simpa [Placed] using hplaced hp⟩

/-- A change that leaves the directories of the run where they are. -/
theorem Exclusive.keeps_layout (hW : W.Exclusive k)
    (hlayout : (W'.server.runs k).layout = (W.server.runs k).layout)
    (hino : (W'.server.runs k).nextIno = (W.server.runs k).nextIno)
    (hlocks : (W'.server.runs k).locks = (W.server.runs k).locks)
    (hbeginner : W'.beginner k = W.beginner k) (hgrants : W'.grants k = W.grants k) :
    W'.Exclusive k ∧ ∀ u, W.Spares k u W' := by
  have hplaced : W.Placed k → W'.Placed k := fun ⟨ph, h⟩ => ⟨ph, by rwa [hlayout]⟩
  constructor
  · refine ⟨hW.sole.of_layout hlayout hino ?_, by rw [hgrants]; exact hW.granted,
      fun h => hplaced (hW.placed (hgrants ▸ h)), fun h => hgrants.trans (hW.begun (hbeginner ▸ h))⟩
    rw [hlocks]
    exact hW.sole.oneGrip
  · intro u
    exact ⟨.of_layout hlayout hino fun g hg _ => by rwa [hlocks],
      fun h hp => ⟨hbeginner.trans h, hplaced hp⟩⟩

end IntakeWorld

section Contract

variable [DecidableEq Tid]

/-- No incoming directory is made while the run is in a later phase. -/
def soleIntake (k : RunKey) :
    Policy Tid IntakeOp IntakeOp.Choice (IntakeWorld Tid) IntakeEvent where
  step _ o x W :=
    match o, x with
    | .createIncoming k', none => k' = k → (W.server.runs k).location = none ∨
        (W.server.runs k).location = some .incoming
    | _, _ => True
  env _ _ := True
  crash _ _ := True

def exclusion (Tid : Type) [DecidableEq Tid] (host : Host) (config : ServerConfig) (k : RunKey) :
    Contract (intake host (RunStep host config k) : System Tid _ _ _ _ _) (soleIntake k) where
  inv W := W.Exclusive k
  rely t W W' := W.Spares k t W'
  guar t _ _ W W' := ∀ u, u ≠ t → W.Spares k u W'
  start _ _ := True
  post _ _ := True

variable {host : Host} {config : ServerConfig}

theorem exclusion_closed :
    (exclusion Tid host config k).Closed where
  rely_refl := IntakeWorld.Spares.refl k
  rely_trans _ _ _ _ := IntakeWorld.Spares.trans

/-- An assertion that the others keep. -/
def Undisturbed (k : RunKey) (t : Tid) (I : IntakeWorld Tid → Prop) : Prop :=
  ∀ W W' : IntakeWorld Tid, W.Spares k t W' → I W → I W'

omit [DecidableEq Tid] in
theorem Undisturbed.any : Undisturbed k t fun _ => True := fun _ _ _ h => h

omit [DecidableEq Tid] in
theorem Undisturbed.holds : Undisturbed k t (IntakeWorld.Holds k t) := fun _ _ h => h.run.holds

omit [DecidableEq Tid] in
theorem Undisturbed.working : Undisturbed k t (IntakeWorld.Working k t) :=
  fun _ _ h hw => ⟨h.run.holds hw.1, h.run.processing hw.1 hw.2⟩

omit [DecidableEq Tid] in
theorem Undisturbed.beginning : Undisturbed k t (IntakeWorld.Beginning k t) := fun _ _ h hb => h.begun hb.1 hb.2

/-- One call on the run. -/
theorem exclusion_sys {o : RunOp} {I : IntakeWorld Tid → Prop} {Q : o.Res → IntakeWorld Tid → Prop}
    (hI : Undisturbed k t I) (hQ : ∀ r, Undisturbed k t (Q r))
    (h : ∀ (W : IntakeWorld Tid) (x : o.Choice) (now : Nat), W.Exclusive k → I W →
      (W.server.runs k).Orderly t o (o.step host t x now (W.server.runs k)).2 ∧
        Q (o.step host t x now (W.server.runs k)).1
          (W.setRun k (o.step host t x now (W.server.runs k)).2)) :
    RunRule (exclusion Tid host config k) k t I (sys o) Q := by
  refine Triple.perform (o := IntakeOp.server (.run k o)) (fun W W' _ _ hr => hI W W' hr)
    (fun r W W' _ _ hr => hQ r W W' hr) fun W x hW hpre _ => ?_
  obtain ⟨horderly, hpost⟩ := h W x W.server.clock hW hpre
  refine ⟨fun u hu => ?_, hW.of_run horderly.sole horderly.placed, hpost⟩
  exact .of_run (horderly.spares hu) horderly.placed

section Locking

variable {o : RunOp}

/-- A call that neither moves an accepted run nor sets up its work area. -/
theorem RunOp.orderly_of_free (hi : o.Issued config k 0 ∧ Rights.free.Allows o) {w : RunWorld Tid}
    (hw : w.Sole) (x : o.Choice) (now : Nat) : w.Orderly t o (o.step host t x now w).2 := by
  obtain ⟨hi, hA⟩ := hi
  refine RunOp.step_sole hw hi ?_ ?_ ?_
  · cases o <;> first | rfl | exact hA.elim
  · rintro src dst rfl hq
    exact (hA hq).elim
  · rintro (rfl | ⟨path, rfl⟩) <;> exact hA.elim

/-- A call of the holder of the lock that does not set up the work area. -/
theorem RunOp.orderly_of_held (hi : o.Issued config k 0 ∧ Rights.held.Allows o) {w : RunWorld Tid}
    (hw : w.Sole) (hh : w.Holds t) (x : o.Choice) (now : Nat) :
    w.Orderly t o (o.step host t x now w).2 ∧ (o.step host t x now w).2.Holds t := by
  obtain ⟨hi, hA⟩ := hi
  have horderly : w.Orderly t o (o.step host t x now w).2 := by
    refine RunOp.step_sole hw hi ?_ (fun _ _ _ _ => hh) ?_
    · cases o <;> first | rfl | exact hA.elim
    · rintro (rfl | ⟨path, rfl⟩) <;> exact hA.elim
  refine ⟨horderly, horderly.holds t (.inr ?_) hh⟩
  rintro ino rfl
  exact hA

/-- A call of the holder of the lock that leaves the run in `processing`. -/
theorem RunOp.orderly_of_works (hi : o.Issued config k 0 ∧ (Rights.working fun _ => True).Allows o)
    {w : RunWorld Tid} (hw : w.Sole) (hh : w.Holds t)
    (hp : (w.layout .processing).isSome = true) (x : o.Choice) (now : Nat) :
    w.Orderly t o (o.step host t x now w).2 ∧ (o.step host t x now w).2.Holds t ∧
      ((o.step host t x now w).2.layout .processing).isSome = true := by
  obtain ⟨hi, hA⟩ := hi
  have horderly : w.Orderly t o (o.step host t x now w).2 := by
    refine RunOp.step_sole hw hi ?_ (fun _ _ _ _ => hh) fun _ => hp
    cases o <;> first | rfl | exact hA.elim
  refine ⟨horderly, horderly.holds t (.inr ?_) hh, horderly.processing t (.inr ?_) hh hp⟩
  · rintro ino rfl
    exact hA
  · rintro dst rfl
    exact hA rfl

/-- The lock file that is opened is the first one of the run. -/
theorem RunOp.openLock_first {ph : RunPhase} (hph : ph.queued = true) {w : RunWorld Tid}
    (hw : w.Sole) {x : (RunOp.openLock ph).Choice} {now i : Nat}
    (h : (RunOp.step host t (.openLock ph) x now w).1 = .ok i) :
    i = 0 ∧ (RunOp.step host t (.openLock ph) x now w).2.nextIno = 1 := by
  have horderly : w.Orderly t (.openLock ph) (RunOp.step host t (.openLock ph) x now w).2 :=
    RunOp.step_openLock hw hph
  have hterminal : ph.terminal = false := by cases ph <;> first | rfl | exact nomatch hph
  have hsole := horderly.sole
  refine hsole.lockIno ph i hterminal ?_
  obtain ⟨failure, x⟩ := x
  cases failure with
  | some m => exact nomatch h
  | none =>
    have hrun : RunOp.step host t (.openLock ph) (none, x) now w =
      RunOp.run host t (.openLock ph) x now w := rfl
    rw [hrun] at h ⊢
    cases hd : w.dirs ph with
    | none => simp [RunOp.run, hd] at h
    | some d =>
      cases hl : d.lock with
      | some j =>
        obtain rfl : j = i := by simpa [RunOp.run, hd, hl] using h
        simp [RunOp.run, hd, hl, RunWorld.layout]
      | none =>
        obtain rfl : w.nextIno = i := by simpa [RunOp.run, hd, hl] using h
        simp [RunOp.run, hd, hl, RunWorld.layout, RunWorld.setDir, RunDir.setLock, RunDir.stamp]

theorem RunOp.flock_holds {ph : RunPhase} {w : RunWorld Tid} (h1 : w.nextIno = 1)
    {x : (RunOp.flock ph 0).Choice} {now : Nat}
    (h : (RunOp.step host t (.flock ph 0) x now w).1 = .ok true) :
    (RunOp.step host t (.flock ph 0) x now w).2.Holds t := by
  obtain ⟨failure, x⟩ := x
  cases failure with
  | some m => exact nomatch h
  | none =>
    have hrun : RunOp.step host t (.flock ph 0) (none, x) now w =
      RunOp.run host t (.flock ph 0) x now w := rfl
    rw [hrun] at h ⊢
    have htaken : (RunOp.tryFlock t ph 0 w).1 = true := Except.ok.inj h
    refine ⟨RunWorld.nextIno_tryFlock.trans h1, ?_⟩
    change ∃ g ∈ (RunOp.tryFlock t ph 0 w).2.locks, _
    unfold RunOp.tryFlock at htaken ⊢
    split at htaken
    · exact nomatch htaken
    · rename_i hfree
      rw [if_neg hfree]
      exact ⟨_, List.mem_cons_self, rfl, rfl⟩

theorem exclusion_free (o : RunOp) (ho : o.Issued config k 0 ∧ Rights.free.Allows o) :
    RunRule (exclusion Tid host config k) k t (fun _ => True) (sys o) fun _ _ => True :=
  exclusion_sys .any (fun _ => .any) fun _ x now hW _ =>
    ⟨RunOp.orderly_of_free ho hW.sole x now, trivial⟩

theorem exclusion_held (o : RunOp) (ho : o.Issued config k 0 ∧ Rights.held.Allows o) :
    RunRule (exclusion Tid host config k) k t (IntakeWorld.Holds k t) (sys o)
      fun _ => IntakeWorld.Holds k t :=
  exclusion_sys .holds (fun _ => .holds) fun W x now hW hh => by
    obtain ⟨horderly, hh'⟩ :
        (W.server.runs k).Orderly t o (o.step host t x now (W.server.runs k)).2 ∧
          (o.step host t x now (W.server.runs k)).2.Holds t :=
      RunOp.orderly_of_held ho hW.sole hh x now
    exact ⟨horderly, by simpa [IntakeWorld.Holds] using hh'⟩

theorem exclusion_lock {ph : RunPhase} (hph : ph.queued = true) :
    RunRule (exclusion Tid host config k) k t (fun _ => True)
      (tryLockExistingDir config k ph).run
      fun r W => ∀ i, r = .ok (.acquired i) → W.Holds k t := by
  have hC : (exclusion Tid host config k).Closed := exclusion_closed
  have hfree : ∀ {o : RunOp} {I : IntakeWorld Tid → Prop}, o.Issued config k 0 ∧ Rights.free.Allows o →
      RunRule (exclusion Tid host config k) k t I (sys o) fun _ _ => True :=
    fun ho => (exclusion_free _ ho).strengthen fun _ _ _ => trivial
  have hflock : (RunOp.flock ph 0).Issued config k 0 ∧ Rights.free.Allows (.flock ph 0) :=
    ⟨hph, trivial⟩
  have hno : ∀ {r : Except String ProcessorLockAttempt} {I : IntakeWorld Tid → Prop},
      (∀ i, r ≠ .ok (.acquired i)) → RunRule (exclusion Tid host config k) k t I (.ret r)
        fun r W => ∀ i, r = .ok (.acquired i) → W.Holds k t :=
    fun hr => RunRule.ret fun _ _ _ _ _ _ i hi => absurd hi (hr i)
  refine RunRule.liftBind hC (hfree ⟨trivial, trivial⟩) fun found => ?_
  split
  · exact hno nofun
  refine RunRule.runBind hC (M := fun i W => i = 0 ∧ (W.server.runs k).nextIno = 1) ?_ ?_ ?_
  · refine RunRule.bind hC (M := fun r W => ∀ i, r = .ok i → i = 0 ∧ (W.server.runs k).nextIno = 1)
      (exclusion_sys .any ?_ fun W x now hW _ => ⟨RunOp.step_openLock hW.sole hph, ?_⟩) fun r => ?_
    · exact fun r W W' hr h i hi => ⟨(h i hi).1, hr.run.opened (h i hi).2⟩
    · intro i hi
      simpa using RunOp.openLock_first hph hW.sole hi
    · refine RunRule.ret fun W W' _ _ hr h => ?_
      cases r with
      | ok i => exact ⟨(h i rfl).1, hr.run.opened (h i rfl).2⟩
      | error e => exact nofun
  · intro i
    refine RunRule.liftBind hC (M := fun r W => r = .ok true → W.Holds k t)
      (Triple.pure_pre fun hi => ?_) fun r => ?_
    · subst hi
      refine exclusion_sys (o := .flock ph 0) (fun W W' hr h => hr.run.opened h) ?_ fun W x now hW h1 =>
        ⟨RunOp.orderly_of_free hflock hW.sole x now, fun h => ?_⟩
      · exact fun r W W' hr h hi => hr.run.holds (h hi)
      · simpa [IntakeWorld.Holds] using RunOp.flock_holds h1 h
    · split
      · exact RunRule.ret fun W W' _ _ hr h i _ => hr.run.holds (h rfl)
      · exact RunRule.liftBind hC (hfree ⟨trivial, trivial⟩) fun _ => hno nofun
      · exact RunRule.liftBind hC (hfree ⟨trivial, trivial⟩) fun _ => hno nofun
  · exact fun e W W' _ _ _ h i hi => nomatch hi

theorem exclusion_working (o : RunOp)
    (ho : o.Issued config k 0 ∧ (Rights.working fun _ => True).Allows o) :
    RunRule (exclusion Tid host config k) k t (IntakeWorld.Working k t) (sys o)
      fun _ => IntakeWorld.Working k t :=
  exclusion_sys .working (fun _ => .working) fun W x now hW hw => by
    obtain ⟨horderly, hh, hp⟩ :
        (W.server.runs k).Orderly t o (o.step host t x now (W.server.runs k)).2 ∧
          (o.step host t x now (W.server.runs k)).2.Holds t ∧
          ((o.step host t x now (W.server.runs k)).2.layout .processing).isSome = true :=
      RunOp.orderly_of_works ho hW.sole hw.1 hw.2 x now
    refine ⟨horderly, ?_, ?_⟩
    · simpa [IntakeWorld.Holds] using hh
    · simpa using hp

/-- A run whose inputs can be read is in `processing`. -/
theorem exclusion_read : RunRule (exclusion Tid host config k) k t (IntakeWorld.Holds k t)
    (readCompatibleRunInputs config k .processing).run
    fun r W => W.Holds k t ∧ ∀ x, r = .ok x → W.Working k t := by
  have hC : (exclusion Tid host config k).Closed := exclusion_closed
  have hfail : ∀ {r : Except ProcessingError (RunConfig × Manifest)} {I : IntakeWorld Tid → Prop},
      (∀ x, r ≠ .ok x) → (∀ W, I W → W.Holds k t) →
      RunRule (exclusion Tid host config k) k t I (.ret r)
        fun r W => W.Holds k t ∧ ∀ x, r = .ok x → W.Working k t :=
    fun hr hI => RunRule.ret fun W W' _ _ hrely h =>
      ⟨hrely.run.holds (hI W h), fun x hx => absurd hx (hr x)⟩
  have hlease : Issued .held config k 0 (validateRunLeaseProtocol config k .processing).run :=
    Prog.Only.runBind (only_ask ⟨trivial, trivial⟩) fun _ => trivial
  refine RunRule.runBind hC (M := fun _ => IntakeWorld.Holds k t) ?_ (fun _ => ?_) ?_
  · refine (RunRule.of_only hC hlease (fun _ _ _ _ h => Undisturbed.holds _ _ h)
      exclusion_held).weaken fun r W _ h => ?_
    cases r with
    | ok a => exact h
    | error e => exact ⟨h, by rintro _ ⟨⟩⟩
  · refine RunRule.liftBind hC (M := fun r W => W.Holds k t ∧ ∀ c, r = .ok c → W.Working k t)
      (exclusion_sys (o := .read .processing .runConfig) .holds ?_ fun W x now hW hh => ?_)
      fun content => ?_
    · exact fun r W W' hr h => ⟨hr.run.holds h.1, fun c hc => Undisturbed.working W W' hr (h.2 c hc)⟩
    · have ho : (RunOp.read .processing .runConfig).Issued config k 0 ∧
          Rights.held.Allows (.read .processing .runConfig) := ⟨trivial, trivial⟩
      obtain ⟨horderly, hh'⟩ :
          (W.server.runs k).Orderly t _
              (RunOp.step host t (.read .processing .runConfig) x now (W.server.runs k)).2 ∧
            (RunOp.step host t (.read .processing .runConfig) x now
              (W.server.runs k)).2.Holds t :=
        RunOp.orderly_of_held ho hW.sole hh x now
      have hholds : (W.setRun k (RunOp.step host t (.read .processing .runConfig) x now
          (W.server.runs k)).2).Holds k t := by simpa [IntakeWorld.Holds] using hh'
      refine ⟨horderly, hholds, fun c hc => ⟨hholds, ?_⟩⟩
      obtain ⟨failure, x⟩ := x
      cases failure with
      | some m => cases hc
      | none =>
        cases hd : (W.server.runs k).dirs .processing with
        | none => simp [RunOp.step, RunOp.run, RunWorld.look, hd] at hc
        | some d => simp [RunOp.step, RunOp.run, RunWorld.layout, hd]
    · cases content with
      | error e => exact hfail (by rintro _ ⟨⟩) fun _ h => h.1
      | ok c =>
        refine RunRule.strengthen (I := IntakeWorld.Working k t) ?_ fun W _ h => h.2 c rfl
        have hrest : Issued (.working fun _ => True) config k 0 (do
            let runConfig ← ExceptT.mk (pure (checkRunConfig config k .processing (.ok c)))
            let content ← ask (.read .processing .manifest)
            let manifest ← ExceptT.mk (pure (checkManifest config k .processing content))
            ExceptT.mk (pure (checkEnvelope k runConfig manifest))
            return (runConfig, manifest) :
            ExceptT ProcessingError Call (RunConfig × Manifest)).run := by
          refine Prog.Only.runBind trivial fun _ => ?_
          refine Prog.Only.runBind (only_ask ⟨trivial, trivial⟩) fun _ => ?_
          exact Prog.Only.runBind trivial fun _ => Prog.Only.runBind trivial fun _ => trivial
        exact (RunRule.of_only hC hrest (fun _ _ _ _ h => Undisturbed.working _ _ h)
          exclusion_working).weaken fun r W _ h => ⟨h.1, fun _ _ => h⟩
  · exact fun e W W' _ _ hr h => ⟨hr.run.holds h.1, by rintro _ ⟨⟩⟩

theorem exclusion_locking : Locking (exclusion Tid host config k) config k t
    (IntakeWorld.Holds k t) where
  toClosed := exclusion_closed
  stable _ _ _ _ h := Undisturbed.holds _ _ h
  free := exclusion_free
  held := exclusion_held
  lock _ hph := exclusion_lock hph
  process := by
    refine processProcessingRun_rule (fun _ => IntakeWorld.Working k t)
      (fun _ => True) exclusion_closed (fun _ _ _ _ h => Undisturbed.holds _ _ h)
      exclusion_held exclusion_read fun runConfig => ?_
    exact {
      toClosed := exclusion_closed
      stable := fun _ _ _ _ h => Undisturbed.holds _ _ h
      held := exclusion_held
      stays := fun _ _ _ _ h => Undisturbed.working _ _ h
      working := exclusion_working
      back := fun _ _ h => h.1
      entry := fun entry => RunRule.of_only exclusion_closed
        (Issued.of_quiet trivial (processManifestEntry_quiet host config k entry (fun _ => trivial)
          0 1 runConfig.destination))
        (fun _ _ _ _ h => Undisturbed.working _ _ h) exclusion_working }

end Locking

end Contract

end Purgery.Server
