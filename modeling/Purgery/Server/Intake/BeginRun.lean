import Purgery.Server.Intake.Exclusive

namespace Purgery.Server

open Purgery.Interleaving

variable {Tid : Type} [DecidableEq Tid] {host : Host} {config : ServerConfig} {k : RunKey}
variable {t : Tid} {W : IntakeWorld Tid}

/-- The calls that change what is in the incoming directory. -/
def IntakeOp.fills (k : RunKey) (o : IntakeOp) : Prop :=
  o = .createFiles k ∨ ∃ dir e, o = .unlinkIncoming k dir e ∧ e ≠ .lock

omit [DecidableEq Tid] in
theorem RunDir.unlinkEntry_lock {d d' : RunDir} {e : RunEntry} {now : Nat} (he : e ≠ .lock)
    (h : d.unlinkEntry e now = .ok d') : d'.lock = d.lock := by
  unfold RunDir.unlinkEntry at h
  split at h
  · cases h
    rfl
  · split at h
    · exact nomatch h
    · cases h
      cases e with
      | lock => exact absurd rfl he
      | _ => rfl

omit [DecidableEq Tid] in
theorem IntakeOp.onRun_fills {o : IntakeOp} (ho : o.fills k) (now : Nat) (r : RunWorld Tid) :
    (o.onRun now r).2.layout = r.layout ∧ (o.onRun now r).2.nextIno = r.nextIno ∧
      (o.onRun now r).2.locks = r.locks := by
  have hchange : ∀ {ph : RunPhase} {f : RunDir → Except IoError RunDir},
      (∀ d d', f d = .ok d' → d'.lock = d.lock) → (r.change ph f).2.layout = r.layout ∧
        (r.change ph f).2.nextIno = r.nextIno ∧ (r.change ph f).2.locks = r.locks :=
    fun hf => ⟨RunWorld.layout_change hf, RunWorld.nextIno_change, RunWorld.change_locks⟩
  obtain rfl | ⟨dir, e, rfl, he⟩ := ho
  · refine hchange fun d d' h => ?_
    split at h
    · exact nomatch h
    · cases h
      rfl
  · simp only [IntakeOp.onRun]
    split
    · exact ⟨rfl, rfl, rfl⟩
    · exact hchange fun d d' h => RunDir.unlinkEntry_lock he h

/-- Such a call, whether or not it fails. -/
theorem intakeStep_fills {o : IntakeOp} (ho : o.fills k) (x : o.Choice) :
    (intakeStep host t o x W).2 = W ∨
      (intakeStep host t o x W).2 = W.setRun k (o.onRun W.server.clock (W.server.runs k)).2 := by
  obtain rfl | ⟨dir, e, rfl, -⟩ := ho
  · cases x with
    | some m => exact .inl rfl
    | none => exact .inr rfl
  · cases x with
    | some m => exact .inl rfl
    | none => exact .inr rfl

theorem exclusion_fills {o : IntakeOp} (ho : o.fills k) :
    Triple (exclusion Tid host config k) t (IntakeWorld.Beginning k t) (take o)
      fun _ => IntakeWorld.Beginning k t := by
  refine Triple.perform (fun _ _ _ _ h => Undisturbed.beginning _ _ h)
    (fun _ _ _ _ _ h => Undisturbed.beginning _ _ h) fun W x hW hb _ => ?_
  have hkeep : (intakeStep host t o x W).2.Exclusive k ∧
      ∀ u, W.Spares k u (intakeStep host t o x W).2 := by
    obtain h | h : (intakeStep host t o x W).2 = W ∨ _ := intakeStep_fills ho x
    · rw [h]
      exact ⟨hW, fun u => .refl k u W⟩
    · rw [h]
      obtain ⟨hlayout, hino, hlocks⟩ := IntakeOp.onRun_fills ho W.server.clock (W.server.runs k)
      exact hW.keeps_layout (by simpa using hlayout) (by simpa using hino) (by simpa using hlocks) rfl
        rfl
  exact ⟨fun u _ => hkeep.2 u, hkeep.1, Undisturbed.beginning _ _ (hkeep.2 t) hb⟩

omit [DecidableEq Tid] in
/-- A run without a directory was not granted to anybody, and its lock was not
opened yet. -/
theorem IntakeWorld.Exclusive.absent (hW : W.Exclusive k)
    (hnone : ∀ ph, (W.server.runs k).dirs ph = none) :
    W.grants k = 0 ∧ (W.server.runs k).nextIno = 0 ∧ ¬ W.Placed k := by
  have habsent : ¬ W.Placed k := fun ⟨ph, h⟩ => by simp [RunWorld.layout, hnone ph] at h
  refine ⟨?_, ?_, habsent⟩
  · by_contra h
    exact habsent (hW.placed (Nat.pos_of_ne_zero h))
  · by_contra h
    have h1 := hW.sole.oneIno
    exact habsent (hW.sole.placed (by omega))

omit [DecidableEq Tid] in
/-- A run with nothing but an incoming directory. -/
theorem RunWorld.Sole.of_incoming {w w' : RunWorld Tid} (hw : w.Sole) (h0 : w'.nextIno = 0)
    (hlayout : ∀ ph, ph ≠ .incoming → w'.layout ph = none)
    (hincoming : ∀ i, w'.layout .incoming ≠ some (some i)) (hlocks : w'.locks = w.locks) :
    w'.Sole := by
  have hsole : ∀ ph, (w'.layout ph).isSome = true → ph = .incoming := by
    intro ph h
    by_contra hne
    simp [hlayout ph hne] at h
  have h1 : w'.nextIno ≠ 1 := by simp [h0]
  exact {
    unique := fun ph ph' h h' => (hsole ph h).trans (hsole ph' h').symm
    oneIno := by simp [h0]
    incoming := fun _ => h0
    opened := fun h => nomatch hsole _ h
    placed := fun h => absurd h h1
    lockIno := by
      intro ph i _ h
      obtain rfl := hsole ph (by rw [h]; rfl)
      exact absurd h (hincoming i)
    queued := fun _ _ _ h => absurd h h1
    oneGrip := by
      rw [hlocks]
      exact hw.oneGrip }

omit [DecidableEq Tid] in
theorem RunWorld.absent_of_location {w : RunWorld Tid} (hd : w.dirs .incoming = none)
    (h : w.location = none ∨ w.location = some .incoming) (ph : RunPhase) : w.dirs ph = none := by
  obtain h | h := h
  · have hph : ph ∈ allPhases := by cases ph <;> decide
    simpa using List.find?_eq_none.1 h ph hph
  · have hsome := List.find?_some h
    simp [hd] at hsome

def RunWorld.withIncoming (w : RunWorld Tid) (now : Nat) : RunWorld Tid :=
  { w with nextDir := w.nextDir + 1 }.setDir .incoming (some (.empty w.nextDir now))

omit [DecidableEq Tid] in
theorem RunWorld.layout_withIncoming (w : RunWorld Tid) (now : Nat) :
    (w.withIncoming now).layout = Function.update w.layout .incoming (some none) :=
  RunWorld.layout_setDir

/-- The state after the creation of the incoming directory. -/
def IntakeWorld.created (k : RunKey) (t : Tid) (W : IntakeWorld Tid) : IntakeWorld Tid :=
  { W.setRun k ((W.server.runs k).withIncoming W.server.clock) with
    beginner := Function.update W.beginner k (some t) }

omit [DecidableEq Tid] in
@[simp] theorem IntakeWorld.created_grants : (W.created k t).grants k = W.grants k := rfl

theorem intakeStep_createIncoming (hd : (W.server.runs k).dirs .incoming = none) :
    intakeStep host t (.createIncoming k) none W = (.ok (), W.created k t) := by
  simp [intakeStep, IntakeOp.onRun, hd, Prod.map, Except.isOk, Except.toBool, IntakeWorld.created,
    RunWorld.withIncoming]

theorem exclusion_createIncoming :
    Triple (exclusion Tid host config k) t (fun _ => True) (take (.createIncoming k))
      fun r W => ∀ a, r = .ok a → W.Beginning k t := by
  refine Triple.perform (fun _ _ _ _ _ h => h)
    (fun r W W' _ _ hr h a ha => Undisturbed.beginning _ _ hr (h a ha)) fun W x hW _ hx => ?_
  cases x with
  | some m => exact ⟨fun u _ => .refl k u W, hW, nofun⟩
  | none =>
    cases hd : (W.server.runs k).dirs .incoming with
    | some d =>
      have hstep : intakeStep host t (.createIncoming k) none W = (.error fileExistsError, W) := by
        simp [intakeStep, IntakeOp.onRun, hd, Prod.map, Except.isOk, Except.toBool]
      change _ ∧ (intakeStep host t (.createIncoming k) none W).2.Exclusive k ∧ _
      simp only [intake, hstep]
      exact ⟨fun u _ => .refl k u W, hW, nofun⟩
    | none =>
      have hnone := RunWorld.absent_of_location hd (hx rfl)
      obtain ⟨hgrants, h0, habsent⟩ := hW.absent hnone
      have hlayout := (W.server.runs k).layout_withIncoming W.server.clock
      have hrun : (W.created k t).server.runs k =
        (W.server.runs k).withIncoming W.server.clock := by simp [IntakeWorld.created]
      have hthere : (W.created k t).Placed k := ⟨.incoming, by simp [hrun, hlayout]⟩
      have hsole : ((W.created k t).server.runs k).Sole := by
        rw [hrun]
        refine hW.sole.of_incoming h0 (fun ph hph => ?_) (fun i => ?_) rfl
        · rw [hlayout, Function.update_of_ne hph]
          simp [RunWorld.layout, hnone ph]
        · simp [hlayout]
      change _ ∧ (intakeStep host t (.createIncoming k) none W).2.Exclusive k ∧ _
      simp only [intake, intakeStep_createIncoming hd]
      refine ⟨fun u hu => ⟨?_, fun hb hp => absurd hp habsent⟩, ?_, fun _ _ => ⟨?_, hthere⟩⟩
      · have h1 : (W.server.runs k).nextIno ≠ 1 := by simp [h0]
        exact ⟨fun h => absurd h h1, fun h => absurd h.1 h1, fun h => absurd h.1 h1⟩
      · exact ⟨hsole, by simp [hgrants], fun _ => hthere, fun _ => by simp [hgrants]⟩
      · simp [IntakeWorld.created]

theorem exclusion_begins (o : RunOp) (ho : o.Issued config k 0 ∧ Rights.free.Allows o) :
    RunRule (exclusion Tid host config k) k t (IntakeWorld.Beginning k t) (sys o)
      fun _ => IntakeWorld.Beginning k t :=
  exclusion_sys .beginning (fun _ => .beginning) fun W x now hW hb => by
    have horderly : (W.server.runs k).Orderly t o (o.step host t x now (W.server.runs k)).2 :=
      RunOp.orderly_of_free ho hW.sole x now
    exact ⟨horderly, by simpa using hb.1, by simpa [IntakeWorld.Placed] using horderly.placed hb.2⟩

theorem exclusion_unlinkAll {dir : Nat} {entries : List RunEntry} (he : .lock ∉ entries) :
    Triple (exclusion Tid host config k) t (IntakeWorld.Beginning k t)
      (unlinkAll k dir entries).run fun _ => IntakeWorld.Beginning k t := by
  have hstable : ∀ W W' : IntakeWorld Tid, W.Spares k t W' → W.Beginning k t → W'.Beginning k t :=
    Undisturbed.beginning
  induction entries with
  | nil => exact Triple.ret fun W W' _ _ hr h => hstable W W' hr h
  | cons e rest ih =>
    obtain ⟨hne, hrest⟩ := not_or.1 (List.mem_cons.not.1 he)
    refine Triple.runBind exclusion_closed (M := fun _ => IntakeWorld.Beginning k t) ?_
      (fun _ => ih hrest) fun _ W W' _ _ hr h => hstable W W' hr h
    refine Triple.weaken (exclusion_fills (.inr ⟨dir, e, rfl, Ne.symm hne⟩)) fun r W _ h => ?_
    cases r <;> exact h

/-- The incoming directory is removed by the process that created it. -/
theorem exclusion_rmdirIncoming :
    Triple (exclusion Tid host config k) t (IntakeWorld.Beginning k t)
      (take (.rmdirIncoming k)) fun _ _ => True := by
  refine Triple.perform (fun _ _ _ _ h => Undisturbed.beginning _ _ h)
    (fun _ _ _ _ _ _ _ => trivial) fun W x hW hb _ => ?_
  have hsame : (∀ u, u ≠ t → W.Spares k u W) ∧ W.Exclusive k ∧ True :=
    ⟨fun u _ => .refl k u W, hW, trivial⟩
  cases x with
  | some m => exact hsame
  | none =>
    cases hd : (W.server.runs k).dirs .incoming with
    | none =>
      have hstep : intakeStep host t (.rmdirIncoming k) none W = (.error .notFound, W) := by
        simp [intakeStep, IntakeOp.onRun, hd, Prod.map]
      change _ ∧ (intakeStep host t (.rmdirIncoming k) none W).2.Exclusive k ∧ _
      simp only [intake, hstep]
      exact hsame
    | some d =>
      by_cases he : d.entries.isEmpty = true
      · have hstep : intakeStep host t (.rmdirIncoming k) none W =
            (.ok (), W.setRun k ((W.server.runs k).setDir .incoming none)) := by
          simp [intakeStep, IntakeOp.onRun, hd, he, Prod.map]
        change _ ∧ (intakeStep host t (.rmdirIncoming k) none W).2.Exclusive k ∧ _
        simp only [intake, hstep]
        have hthere : ((W.server.runs k).layout .incoming).isSome = true := by
          simp [RunWorld.layout, hd]
        have h0 := hW.sole.incoming hthere
        have h1 : (W.server.runs k).nextIno ≠ 1 := by simp [h0]
        have hgrants := hW.begun (by simp [hb.1])
        refine ⟨fun u hu => ⟨?_, fun hb' _ => ?_⟩, ⟨?_, ?_, ?_, ?_⟩, trivial⟩
        · exact ⟨fun h => absurd h h1, fun h => absurd h.1 h1, fun h => absurd h.1 h1⟩
        · exact absurd (Option.some.inj (hb'.symm.trans hb.1)) hu
        · rw [IntakeWorld.setRun_runs]
          refine hW.sole.of_incoming h0 (fun ph hph => ?_) (fun i => ?_) rfl
          · rw [RunWorld.layout_setDir, Function.update_of_ne hph]
            by_contra hne
            exact hph (hW.sole.unique ph .incoming (Option.isSome_iff_ne_none.2 hne) hthere)
          · simp [RunWorld.layout_setDir]
        · simp [hgrants]
        · simp [hgrants]
        · simp [hgrants]
      · have hstep : intakeStep host t (.rmdirIncoming k) none W = (.error notEmpty, W) := by
          simp [intakeStep, IntakeOp.onRun, hd, he, Prod.map]
        change _ ∧ (intakeStep host t (.rmdirIncoming k) none W).2.Exclusive k ∧ _
        simp only [intake, hstep]
        exact hsame

omit [DecidableEq Tid] in
theorem RunWorld.Sole.incoming_lock {w : RunWorld Tid} (hw : w.Sole) {d : RunDir}
    (hd : w.dirs .incoming = some d) : d.lock = none := by
  cases hl : d.lock with
  | none => rfl
  | some i =>
    have hlayout : w.layout .incoming = some (some i) := by simp [RunWorld.layout, hd, hl]
    have h0 := hw.incoming (by rw [hlayout]; rfl)
    exact absurd ((hw.lockIno .incoming i rfl hlayout).2.symm.trans h0) (by decide)

omit [DecidableEq Tid] in
theorem RunDir.lock_notMem_listing {d : RunDir} (hd : d.lock = none) {order : List RunEntry} :
    RunEntry.lock ∉ d.listing order := by
  simp [RunDir.listing, RunDir.leaves, RunDir.subtrees, RunDir.has, hd]

theorem exclusion_removeIncoming :
    Triple (exclusion Tid host config k) t (IntakeWorld.Beginning k t)
      (removeIncoming k).run fun _ _ => True := by
  have hC : (exclusion Tid host config k).Closed := exclusion_closed
  have hopen : RunRule (exclusion Tid host config k) k t (IntakeWorld.Beginning k t)
      (sys (.openDir .incoming)) fun r W => W.Beginning k t ∧
        ∀ dir entries, r = .ok (dir, entries) → RunEntry.lock ∉ entries := by
    refine exclusion_sys .beginning
      (fun r W W' hr h => ⟨Undisturbed.beginning W W' hr h.1, h.2⟩) fun W x now hW hb => ?_
    have hfree : RunOp.Issued config k 0 (.openDir .incoming) ∧
        Rights.free.Allows (.openDir .incoming) := ⟨trivial, trivial⟩
    have horderly : (W.server.runs k).Orderly t (.openDir .incoming)
        (RunOp.step host t (.openDir .incoming) x now (W.server.runs k)).2 :=
      RunOp.orderly_of_free hfree hW.sole x now
    refine ⟨horderly, ⟨by simpa using hb.1, ?_⟩, ?_⟩
    · simpa [IntakeWorld.Placed] using horderly.placed hb.2
    · intro dir entries hr
      obtain ⟨failure, order⟩ := x
      cases failure with
      | some m => cases hr
      | none =>
        cases hd : (W.server.runs k).dirs .incoming with
        | none => simp [RunOp.step, RunOp.run, hd] at hr
        | some d =>
          obtain ⟨-, rfl⟩ : d.id = dir ∧ d.listing order = entries := by
            simpa [RunOp.step, RunOp.run, hd] using hr
          exact RunDir.lock_notMem_listing (hW.sole.incoming_lock hd)
  refine Triple.runBind hC (M := fun x W => RunEntry.lock ∉ x.2 ∧ W.Beginning k t)
    (Triple.weaken hopen fun r W _ h => ?_) ?_ fun _ _ _ _ _ _ h => h
  · cases r with
    | ok x => exact ⟨h.2 x.1 x.2 rfl, h.1⟩
    | error e => trivial
  · rintro ⟨dir, entries⟩
    refine Triple.pure_pre fun he => ?_
    refine Triple.runBind hC (M := fun _ => IntakeWorld.Beginning k t)
      (Triple.weaken (exclusion_unlinkAll he) fun r W _ h => ?_) (fun _ => exclusion_rmdirIncoming)
      fun _ _ _ _ _ _ h => h
    cases r with
    | ok x => exact h
    | error e => trivial

/-- A serialization changes nothing. -/
theorem exclusion_serialize (v : Serialized) :
    Triple (exclusion Tid host config k) t (IntakeWorld.Beginning k t)
      (take (.serialize v)) fun _ => IntakeWorld.Beginning k t := by
  refine Triple.perform (fun _ _ _ _ h => Undisturbed.beginning _ _ h)
    (fun _ _ _ _ _ h => Undisturbed.beginning _ _ h) fun W x hW hb _ => ?_
  cases x <;> exact ⟨fun u _ => .refl k u W, hW, hb⟩

theorem exclusion_fillIncoming (now : Nat) :
    Triple (exclusion Tid host config k) t (IntakeWorld.Beginning k t)
      (fillIncoming config k now).run fun r W => ∀ a, r = .ok a → W.Beginning k t := by
  have hC : (exclusion Tid host config k).Closed := exclusion_closed
  have hthrow : ∀ {e : String}, Triple (exclusion Tid host config k) t
      (IntakeWorld.Beginning k t) (do
        let _ ← ExceptT.lift (removeIncoming k).run
        throw e : ExceptT String Intake BeginRunResponse).run
      fun r W => ∀ a, r = .ok a → W.Beginning k t := by
    intro e
    refine Triple.liftBind hC exclusion_removeIncoming fun _ => ?_
    exact Triple.ret fun _ _ _ _ _ _ a ha => nomatch ha
  have hlease : Issued .free config k 0 (writeNewLease config k now).run :=
    Prog.Only.runBind (only_io (only_writeFile ⟨trivial, trivial⟩ fun _ =>
      ⟨⟨nofun, nofun⟩, trivial⟩)) fun _ => only_io (only_sys ⟨trivial, trivial⟩)
  have hfail : ∀ {e : String}, Triple (exclusion Tid host config k) t
      (IntakeWorld.Beginning k t) (throw e : ExceptT String Intake BeginRunResponse).run
      fun r W => ∀ a, r = .ok a → W.Beginning k t :=
    Triple.ret fun _ _ _ _ _ _ a ha => nomatch ha
  refine Triple.liftBind hC (exclusion_fills (.inl rfl)) fun r => ?_
  split
  · exact hthrow
  refine Triple.liftBind hC (exclusion_serialize _) fun r => ?_
  split
  · exact hfail
  refine Triple.liftBind hC (M := fun _ => IntakeWorld.Beginning k t) ?_ fun r => ?_
  · exact RunRule.of_only hC hlease (fun _ _ _ _ h => Undisturbed.beginning _ _ h)
      exclusion_begins
  split
  · exact hthrow
  refine Triple.liftBind hC (exclusion_serialize _) fun r => ?_
  split
  · exact hthrow
  · exact Triple.ret fun W W' _ _ hr h _ _ => Undisturbed.beginning W W' hr h

theorem firstPhase_issued (phs : List RunPhase) : Issued .free config k 0 (firstPhase phs) := by
  induction phs with
  | nil => trivial
  | cons ph rest ih =>
    refine Prog.Only.bind (only_sys ⟨trivial, trivial⟩) fun found => ?_
    split
    · trivial
    · exact ih

theorem exclusion_beginRun :
    Triple (exclusion Tid host config k) t (fun _ => True) (beginRun config k).run
      fun r W => ∀ a, r = .ok a → W.Beginning k t := by
  have hC : (exclusion Tid host config k).Closed := exclusion_closed
  have L : Locking (exclusion Tid host config k) config k t (IntakeWorld.Holds k t) :=
    exclusion_locking
  have hpost : ∀ (e : String) (W W' : IntakeWorld Tid), W.Exclusive k → W'.Exclusive k →
      W.Spares k t W' → (∀ a : BeginRunResponse, Except.error e = .ok a → W.Beginning k t) →
      ∀ a : BeginRunResponse, Except.error e = .ok a → W'.Beginning k t :=
    fun _ _ _ _ _ _ _ a ha => nomatch ha
  refine Triple.liftBind hC (L.of_free (firstPhase_issued _)) fun found => ?_
  split
  · exact Triple.ret fun _ _ _ _ _ _ a ha => nomatch ha
  refine Triple.liftBind hC (M := fun _ _ => True) ?_ fun now => ?_
  · exact Triple.perform (fun _ _ _ _ _ h => h) (fun _ _ _ _ _ _ h => h)
      fun W x hW _ _ => ⟨fun u _ => .refl k u W, hW, trivial⟩
  refine Triple.runBind hC (M := fun _ _ => True) ?_ (fun _ => ?_) hpost
  · refine Triple.weaken (L.of_free (only_io (only_sys ⟨trivial, trivial⟩))) fun r W _ _ => ?_
    cases r with
    | ok a => trivial
    | error e => exact nofun
  refine Triple.runBind hC (M := fun _ => IntakeWorld.Beginning k t) ?_
    (fun _ => exclusion_fillIncoming now) hpost
  refine Triple.bind hC exclusion_createIncoming fun r => ?_
  refine Triple.ret fun W W' _ _ hr h => ?_
  cases r with
  | ok a => exact Undisturbed.beginning W W' hr (h a rfl)
  | error e => exact nofun

/-- What is granted is granted to the process that created the directory. -/
theorem exclusion_reply {r : Except String BeginRunResponse} :
    Triple (exclusion Tid host config k) t
      (fun W => ∀ a, r = .ok a → W.Beginning k t) (take (.reply (.beginRun k r)))
      fun _ _ => True := by
  refine Triple.perform (fun W W' _ _ hr h a ha => Undisturbed.beginning W W' hr (h a ha))
    (fun _ _ _ _ _ _ h => h) fun W x hW hb _ => ?_
  have hbeginner : (intakeStep host t (.reply (.beginRun k r)) x W).2.beginner k =
      (W.beginner k).filter fun u => u != t := by simp [intakeStep, Reply.key]
  have hgrants : (intakeStep host t (.reply (.beginRun k r)) x W).2.grants k =
      W.grants k + if (Reply.beginRun k r).granted k then 1 else 0 := by
    simp [intakeStep, IntakeWorld.grants, List.countP_cons]
  have hfresh : (intakeStep host t (.reply (.beginRun k r)) x W).2.beginner k ≠ none →
      W.beginner k ≠ none := by
    rw [hbeginner]
    exact fun h hn => h (by rw [hn]; rfl)
  refine ⟨fun u hu => ⟨.refl u _, fun h hp => ⟨?_, hp⟩⟩, ?_, trivial⟩
  · change (intakeStep host t (.reply (.beginRun k r)) x W).2.beginner k = some u
    rw [hbeginner, h]
    simp [hu]
  cases r with
  | error e =>
    have hsame : (intakeStep host t (.reply (.beginRun k (.error e))) x W).2.grants k =
        W.grants k := by simp [hgrants, Reply.granted]
    exact ⟨hW.sole, hsame ▸ hW.granted, fun h => hW.placed (hsame ▸ h),
      fun h => hsame.trans (hW.begun (hfresh h))⟩
  | ok a =>
    obtain ⟨hmine, hplaced⟩ := hb a rfl
    have hone : (intakeStep host t (.reply (.beginRun k (.ok a))) x W).2.grants k = 1 := by
      simp [hgrants, Reply.granted, hW.begun (by simp [hmine])]
    refine ⟨hW.sole, hone.le, fun _ => hplaced, fun h => absurd ?_ h⟩
    change (intakeStep host t (.reply (.beginRun k (.ok a))) x W).2.beginner k = none
    simp [hbeginner, hmine]

section Sound

omit [DecidableEq Tid] in
theorem RunWorld.layout_map {w : RunWorld Tid} {ph : RunPhase} {f : RunDir → RunDir}
    (hf : ∀ d, (f d).lock = d.lock) : (w.setDir ph ((w.dirs ph).map f)).layout = w.layout := by
  rw [RunWorld.layout_setDir, Function.update_eq_self_iff, RunWorld.layout, Option.map_map]
  exact Option.map_congr fun d _ => hf d

/-- The clock and the client leave the run where it is. -/
theorem exclusion_env {e : IntakeEvent} (hW : W.Exclusive k) :
    (intakeEvent e W).Exclusive k ∧ ∀ u, W.Spares k u (intakeEvent e W) := by
  have hset : ∀ (k' : RunKey) (f : RunDir → RunDir), (∀ d, (f d).lock = d.lock) →
      ∀ W', W' = W.setRun k' ((W.server.runs k').setDir .incoming
        (((W.server.runs k').dirs .incoming).map f)) →
      W'.Exclusive k ∧ ∀ u, W.Spares k u W' := by
    rintro k' f hf W' rfl
    by_cases hk : k = k'
    · subst hk
      exact hW.keeps_layout (by simpa using RunWorld.layout_map hf) (by simp [RunWorld.setDir])
        (by simp [RunWorld.setDir]) rfl rfl
    · have hrun : (W.setRun k' ((W.server.runs k').setDir .incoming
          (((W.server.runs k').dirs .incoming).map f))).server.runs k = W.server.runs k := by
        simp [IntakeWorld.setRun, World.setRun, hk]
      exact hW.keeps_layout (by rw [hrun]) (by rw [hrun]) (by rw [hrun]) rfl rfl
  cases e with
  | server e =>
    cases e with
    | tick now => exact hW.keeps_layout rfl rfl rfl rfl rfl
    | upload k' u => exact hset k' _ (fun d => by cases u <;> rfl) _ rfl
  | put k' f d =>
    exact hset k' (fun dir => (dir.setFile f (.text d)).stamp W.server.clock) (fun _ => rfl) _ rfl

theorem exclusion_leave {u : Tid} (hW : W.Exclusive k) :
    (W.leave u).Exclusive k ∧ (t ≠ u → W.Spares k t (W.leave u)) := by
  have hfresh : (W.leave u).beginner k ≠ none → W.beginner k ≠ none :=
    fun h hn => h (by simp [IntakeWorld.leave, hn])
  refine ⟨⟨?_, hW.granted, hW.placed, fun h => hW.begun (hfresh h)⟩, fun hne => ⟨?_, ?_⟩⟩
  · exact hW.sole.of_layout rfl rfl fun g hg g' hg' =>
      hW.sole.oneGrip g (List.mem_filter.1 hg).1 g' (List.mem_filter.1 hg').1
  · exact .of_layout rfl rfl fun g hg ht => List.mem_filter.2 ⟨hg, by simp [ht, hne]⟩
  · exact fun h hp => ⟨by simp [IntakeWorld.leave, h, hne], hp⟩

theorem exclusion_program {p : Intake Unit} (hp : RunStep host config k p) :
    Triple (exclusion Tid host config k) t (fun _ => True) p fun _ _ => True := by
  have hC : (exclusion Tid host config k).Closed := exclusion_closed
  have L : Locking (exclusion Tid host config k) config k t (IntakeWorld.Holds k t) :=
    exclusion_locking
  have hdiscard : ∀ {α : Type} {c : Call α},
      RunRule (exclusion Tid host config k) k t (fun _ => True) c (fun _ _ => True) →
      Triple (exclusion Tid host config k) t (fun _ => True)
        (onServer (discard (onRun k c))) fun _ _ => True := by
    intro α c hc
    rw [discard, onServer_bind]
    exact Triple.bind hC hc fun _ => Triple.ret fun _ _ _ _ _ h => h
  cases hp with
  | beginRun => exact Triple.bind hC exclusion_beginRun fun r => exclusion_reply
  | finish => exact hdiscard (L.of_free finishRun_issued)
  | processRun => exact hdiscard L.processRunInner
  | processReady => exact L.processReadyRun
  | recover => exact L.recoverFoundRun

omit [DecidableEq Tid] in
theorem IntakeWorld.Unbegun.exclusive (hW : W.Unbegun) : W.Exclusive k := by
  have hrun := hW.runs k
  have hlayout : ∀ ph, (W.server.runs k).layout ph = none := fun ph => by
    simp [RunWorld.layout, hrun.dirs ph]
  have hgrants : W.grants k = 0 := by simp [IntakeWorld.grants, hW.replies]
  refine ⟨?_, by simp [hgrants], by simp [hgrants], fun _ => hgrants⟩
  exact {
    unique := fun ph _ h => by simp [hlayout] at h
    oneIno := by simp [hrun.nextIno]
    incoming := fun h => by simp [hlayout] at h
    opened := fun h => by simp [hlayout] at h
    placed := fun h => by simp [hrun.nextIno] at h
    lockIno := fun ph i _ h => by simp [hlayout] at h
    queued := fun ph _ h => by simp [hlayout] at h
    oneGrip := fun g hg => by simp [hrun.locks] at hg }

theorem exclusion_sound : (exclusion Tid host config k).Sound where
  toClosed := exclusion_closed
  guar_rely t u _ _ _ _ hne _ _ h := h t hne
  leave_inv t _ hW _ := (exclusion_leave (t := t) hW).1
  leave_rely t u _ hne hW _ := (exclusion_leave hW).2 hne
  leave_start _ _ _ := trivial
  env_inv _ _ _ hW := (exclusion_env hW).1
  env_rely t _ _ _ hW := (exclusion_env hW).2 t
  init_inv _ hW := hW.exclusive
  init_start _ _ _ := trivial
  start_rely _ _ _ _ _ := trivial
  program_wp t p W hp hW _ := exclusion_program hp W hW trivial

/-- A run of which no incoming directory is made while it is in a later phase
is in one phase at most, and granted to one begin at most. -/
theorem beginRun_exclusive
    {c : Config Tid IntakeOp IntakeOp.Res (IntakeWorld Tid)}
    (h : Reachable (intake host (RunStep host config k)) (soleIntake k) c) :
    (∀ ph ph' d d', (c.world.server.runs k).dirs ph = some d →
      (c.world.server.runs k).dirs ph' = some d' → ph = ph') ∧
    c.world.replies.countP (Reply.granted k) ≤ 1 := by
  have hW := h.inv exclusion_sound
  refine ⟨fun ph ph' d d' hd hd' => ?_, hW.granted⟩
  exact hW.sole.unique ph ph' (by simp [RunWorld.layout, hd]) (by simp [RunWorld.layout, hd'])

/-- A begin that makes an incoming directory of a run that has moved on puts the
run in two phases. -/
theorem IntakeWorld.created_twice {ph : RunPhase} {d : RunDir}
    (hnone : (W.server.runs k).dirs .incoming = none) (hd : (W.server.runs k).dirs ph = some d) :
    ph ≠ .incoming ∧ (((W.created k t).server.runs k).dirs .incoming).isSome = true ∧
      ((W.created k t).server.runs k).dirs ph = some d := by
  have hne : ph ≠ .incoming := by
    rintro rfl
    exact nomatch hnone.symm.trans hd
  refine ⟨hne, ?_, ?_⟩
  · simp [created, RunWorld.withIncoming, RunWorld.setDir, setRun, World.setRun]
  · simp [created, RunWorld.withIncoming, RunWorld.setDir, setRun, World.setRun, hne, hd]

end Sound

section Sample

instance : (soleIntake k : Policy Tid IntakeOp _ _ _).Checkable where
  step _ o x W :=
    match o, x with
    | .createIncoming k', none => inferInstanceAs (Decidable (k' = k →
        (W.server.runs k).location = none ∨ (W.server.runs k).location = some .incoming))
    | .createIncoming _, some _ | .server _, _ | .createFiles _, _ | .unlinkIncoming _ _ _, _
    | .rmdirIncoming _, _ | .serialize _, _ | .reply _, _ => .isTrue trivial
  env _ _ := .isTrue trivial
  crash _ _ := .isTrue trivial

def unbegunWorld : IntakeWorld Bool where
  server :=
    { clock := 0
      runs := fun _ => ⟨fun _ => none, [], 0, 0, fun _ => none, [], fun _ => none, []⟩ }
  beginner _ := none
  replies := []

theorem unbegunWorld_unbegun : unbegunWorld.Unbegun :=
  ⟨fun _ => ⟨fun _ => rfl, rfl, rfl, rfl, fun _ => rfl, rfl⟩, fun _ => rfl, rfl⟩

/-- The calls do not fail. -/
def intakeOutcome : (o : IntakeOp) → o.Choice
  | .server o => outcome (fun _ => false) o
  | .createIncoming _ | .createFiles _ | .unlinkIncoming _ _ _ | .rmdirIncoming _
  | .serialize _ => none
  | .reply _ => ()

abbrev IntakeEntry : Type :=
  Event (intake sampleHost (RunStep sampleHost sampleConfig sampleKey) : System Bool _ _ _ _ _)

def startBegin (t : Bool) : IntakeEntry := .spawn t ⟨_, .beginRun⟩

def takes (t : Bool) (n : Nat) : List IntakeEntry := List.replicate n (.step t intakeOutcome)

/-- Two begins find no run; the first of them to make the directory is granted
the run, and the other fails. -/
theorem beginRun_exclusive_race :
    ∃ c : Config Bool _ _ _,
      Reachable (intake sampleHost (RunStep sampleHost sampleConfig sampleKey))
        (soleIntake sampleKey) c ∧ c.world.replies.length = 2 ∧
      (∀ ph ph' d d', (c.world.server.runs sampleKey).dirs ph = some d →
        (c.world.server.runs sampleKey).dirs ph' = some d' → ph = ph') ∧
      c.world.replies.countP (Reply.granted sampleKey) ≤ 1 := by
  obtain ⟨c, hc, htest⟩ := exists_reachable (P := soleIntake sampleKey)
    ([startBegin true, startBegin false] ++ takes true 7 ++ takes false 15 ++ takes true 2)
    (S := intake sampleHost (RunStep sampleHost sampleConfig sampleKey))
    unbegunWorld_unbegun (fun c => c.world.replies.length == 2) (by decide +kernel)
  exact ⟨c, hc, by simpa using htest, beginRun_exclusive hc⟩

/-- A begin that has looked at the phases while nothing was there makes the
directory of a run that another has begun and finished. -/
theorem beginRun_granted_twice :
    ∃ c : Config Bool _ _ _,
      Reachable (intake sampleHost (RunStep sampleHost sampleConfig sampleKey)) .any c ∧
      ((c.world.server.runs sampleKey).dirs .incoming).isSome = true ∧
      ((c.world.server.runs sampleKey).dirs .ready).isSome = true ∧
      c.world.replies.countP (Reply.granted sampleKey) = 2 := by
  obtain ⟨c, hc, htest⟩ := exists_reachable (P := .any)
    ([startBegin true, startBegin false] ++ takes true 7 ++ takes false 15 ++
      [.leave false, .spawn false ⟨_, .finish⟩] ++ takes false 11 ++ takes true 8)
    (S := intake sampleHost (RunStep sampleHost sampleConfig sampleKey))
    unbegunWorld_unbegun
    (fun c => ((c.world.server.runs sampleKey).dirs .incoming).isSome &&
      ((c.world.server.runs sampleKey).dirs .ready).isSome &&
      c.world.replies.countP (Reply.granted sampleKey) == 2) (by decide +kernel)
  obtain ⟨⟨hincoming, hready⟩, hgranted⟩ := by simpa using htest
  exact ⟨c, hc, by simpa using hincoming, by simpa using hready, hgranted⟩

end Sample

end Purgery.Server
