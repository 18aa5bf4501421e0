import Purgery.Interleaving.Alone
import Purgery.Server.Exclusion.Listing
import Purgery.Server.Intake
import Purgery.Server.MutualExclusion

namespace Purgery.Server

open Purgery.Interleaving

/-- What `server_check` asks of the lease and of the heartbeat. -/
def serverCheckGc (gc : GCConfig) : Except String Unit :=
  if gc.incomingLeaseSecs = 0 then .error "gc.incoming_lease_secs must be greater than 0"
  else if gc.heartbeatIntervalSecs = 0 then
    .error "gc.heartbeat_interval_secs must be greater than 0"
  else if gc.heartbeatIntervalSecs > gc.incomingLeaseSecs / 2 then
    .error ("gc.heartbeat_interval_secs (" ++ toString gc.heartbeatIntervalSecs ++
      ") must be <= half of gc.incoming_lease_secs (" ++ toString gc.incomingLeaseSecs ++
      ") to provide a safety margin for lease renewal")
  else .ok ()

/-- The integers that the TOML library reads and writes. -/
inductive TomlIntegers where
  | signed
  | unsigned
deriving DecidableEq

def TomlIntegers.max : TomlIntegers → Nat
  | .signed => 2 ^ 63 - 1
  | .unsigned => 2 ^ 64 - 1

def gcIntegers (gc : GCConfig) : List Nat :=
  [gc.incomingLeaseSecs, gc.heartbeatIntervalSecs, gc.readyRetentionSecs,
    gc.processingRetentionSecs, gc.doneRetentionSecs, gc.failedRetentionSecs,
    gc.orphanRetentionSecs]

def Serialized.integers : Serialized → List Nat
  | .lease l => [l.protocolVersion, l.createdAtUnixSecs, l.lastHeartbeatUnixSecs,
      l.expiresAtUnixSecs]
  | .response r => [r.protocolVersion, r.heartbeatIntervalSecs]

def Serialized.fits (ints : TomlIntegers) (v : Serialized) : Bool :=
  v.integers.all fun n => decide (n ≤ ints.max)

/-- No phase of a run is seen. -/
def RunOp.blind : (o : RunOp) → o.Choice
  | .dirExists _ => (some "", ())
  | o => (none, o.plain)

section Begin

variable {Tid : Type} [DecidableEq Tid]

/-- Any call may fail, but those that clean up; a serialization does when it has
to. -/
def beginOutcome (ints : TomlIntegers) : (o : IntakeOp) → o.Choice → Prop
  | .serialize v, x => x.isSome = !v.fits ints
  | .server (.run _ (.openDir .incoming)), x => x.1 = none
  | .unlinkIncoming _ _ _, x | .rmdirIncoming _, x => x = none
  | _, _ => True

/-- A begin of which nobody else takes notice. -/
def aloneBegin (ints : TomlIntegers) (host : Host) (t : Tid) :
    Alone IntakeOp IntakeOp.Res IntakeOp.Choice (IntakeWorld Tid) where
  step := intakeStep host t
  admits := beginOutcome ints
  sound _ _ := True

/-- The run can be uploaded: the lease in `incoming` is one that `heartbeat-run`
and `finish-run` accept. -/
def Uploadable (config : ServerConfig) (k : RunKey) (W : IntakeWorld Tid) : Prop :=
  ∃ d doc lease, (W.server.runs k).dirs .incoming = some d ∧ d.has (.tree .files) = true ∧
    d.file .lease = .text doc ∧ acceptedLease config k "heartbeat" doc = .ok lease ∧
    acceptedLease config k "finish" doc = .ok lease ∧ W.server.clock < lease.expiresAtUnixSecs

/-- A begin that failed leaves the phase directories of the run as they were; after
one that did not, the run can be uploaded. -/
def Begun (config : ServerConfig) (k : RunKey) (D : RunPhase → Option RunDir)
    (r : Except String BeginRunResponse) (W : IntakeWorld Tid) : Prop :=
  match r with
  | .ok _ => Uploadable config k W
  | .error _ => (W.server.runs k).dirs = D

def BeginAtomic (ints : TomlIntegers) (host : Host) (t : Tid) (config : ServerConfig) (k : RunKey)
    (W : IntakeWorld Tid) : Prop :=
  (aloneBegin ints host t).wp (beginRun config k).run (Begun config k (W.server.runs k).dirs) W

section Steps

variable {ints : TomlIntegers} {host : Host} {t : Tid} {config : ServerConfig} {k : RunKey}
variable {W : IntakeWorld Tid} {D : RunPhase → Option RunDir} {now : Nat}
variable {w : RunWorld Tid} {d : RunDir} {φ ψ : RunDir → Prop}

/-- The calls on one run. -/
def aloneCall (host : Host) (t : Tid) (now : Nat) :
    Alone RunOp RunOp.Res RunOp.Choice (RunWorld Tid) where
  step o x w := o.step host t x now w
  admits o x := o = .openDir .incoming → x.1 = none
  sound _ _ := True

theorem wp_onRun {α : Type} {p : Call α} {Q : α → RunWorld Tid → Prop}
    (h : (aloneCall host t W.server.clock).wp p Q (W.server.runs k)) :
    (aloneBegin ints host t).wp (onServer (onRun k p))
      (fun a W' => Q a (W'.server.runs k) ∧ W'.server.clock = W.server.clock) W := by
  induction p generalizing W with
  | ret a => exact ⟨h, rfl⟩
  | call o c ih =>
    intro x hx
    have hadmits : o = .openDir .incoming → x.1 = none := by
      rintro rfl
      exact hx
    have hrun : (aloneCall host t W.server.clock).wp
        (c (o.step host t x W.server.clock (W.server.runs k)).1) Q
        ((W.setRun k (o.step host t x W.server.clock (W.server.runs k)).2).server.runs k) := by
      rw [IntakeWorld.setRun_runs]
      exact (h x hadmits).2
    exact ⟨trivial, ih _ (W := W.setRun k _) hrun⟩

theorem wp_take {o : IntakeOp} {Q : o.Res → IntakeWorld Tid → Prop}
    (h : ∀ x, beginOutcome ints o x →
      Q (intakeStep host t o x W).1 (intakeStep host t o x W).2) :
    (aloneBegin ints host t).wp (take o) Q W :=
  fun x hx => ⟨trivial, h x hx⟩

/-- A directory from which everything can be removed. -/
structure RunDir.Bare (d : RunDir) : Prop where
  files : ∀ xs, d.tree .files = some xs → xs = []
  work : d.tree .work = none

/-- Beside the directories in `D`, the run has an incoming directory. -/
def Filling (D : RunPhase → Option RunDir) (φ : RunDir → Prop) (w : RunWorld Tid) : Prop :=
  ∃ d, d.Bare ∧ φ d ∧ w.dirs = Function.update D .incoming (some d)

theorem RunDir.Bare.of_tree {d' : RunDir} (hd : d.Bare) (h : d'.tree = d.tree) : d'.Bare :=
  ⟨fun xs hxs => hd.files xs (h ▸ hxs), h ▸ hd.work⟩

theorem RunDir.Bare.without (hd : d.Bare) (e : RunEntry) : (d.without e).Bare := by
  cases e with
  | inTree s p =>
    cases s with
    | files =>
      refine ⟨fun xs hxs => ?_, by simpa [RunDir.without, RunDir.setTree] using hd.work⟩
      cases hfiles : d.tree .files with
      | none => simp [RunDir.without, RunDir.setTree, hfiles] at hxs
      | some ys =>
        obtain rfl := hd.files ys hfiles
        simpa [RunDir.without, RunDir.setTree, hfiles] using hxs.symm
    | work =>
      refine ⟨fun xs hxs => hd.files xs ?_, by simp [RunDir.without, RunDir.setTree, hd.work]⟩
      simpa [RunDir.without, RunDir.setTree] using hxs
  | tree s =>
    cases s with
    | files =>
      refine ⟨fun xs hxs => ?_, by simpa [RunDir.without, RunDir.setTree] using hd.work⟩
      simp [RunDir.without, RunDir.setTree] at hxs
    | work =>
      refine ⟨fun xs hxs => hd.files xs ?_, by simp [RunDir.without, RunDir.setTree]⟩
      simpa [RunDir.without, RunDir.setTree] using hxs
  | file f => exact hd.of_tree rfl
  | tmp f => exact hd.of_tree rfl
  | lock => exact hd.of_tree rfl

theorem RunDir.Bare.holdsMore (hd : d.Bare) (e : RunEntry) : d.holdsMore e = false := by
  cases e with
  | tree s =>
    cases s with
    | files =>
      cases hfiles : d.tree .files with
      | none => simp [RunDir.holdsMore, hfiles]
      | some xs => simp [RunDir.holdsMore, hfiles, hd.files xs hfiles]
    | work => simp [RunDir.holdsMore, hd.work]
  | _ => rfl

omit [DecidableEq Tid] in
/-- The incoming directory is found by its inode first. -/
theorem phaseOf_filling (h : w.dirs = Function.update D .incoming (some d)) :
    w.phaseOf d.id = some .incoming := by
  simp [RunWorld.phaseOf, allPhases, h]

/-- Nothing but the records changes. -/
theorem firstPhase_shown (phs : List RunPhase) (h : w.dirs = D) :
    (aloneCall host t now).wp (firstPhase phs) (fun _ w => w.dirs = D) w := by
  induction phs generalizing w with
  | nil => exact h
  | cons ph rest ih =>
    intro x _
    have hdirs : ((RunOp.dirExists ph).step host t x now w).2.dirs = D := by
      unfold RunOp.step
      split <;> exact h
    refine ⟨trivial, ?_⟩
    change (aloneCall host t now).wp (if ((RunOp.dirExists ph).step host t x now w).1 = true
      then _ else _) _ _
    split
    · exact hdirs
    · exact ih hdirs

theorem RunDir.Bare.unlinkEntry (hd : d.Bare) (e : RunEntry) (now : Nat) :
    ∃ d', d.unlinkEntry e now = .ok d' ∧ d'.Bare ∧ d'.id = d.id ∧
      ∀ e', d'.has e' = true → d.has e' = true ∧ e' ≠ e := by
  unfold RunDir.unlinkEntry
  by_cases hhas : d.has e = true
  · refine ⟨(d.without e).stamp now, ?_, (hd.without e).of_tree rfl, ?_, fun e' he' => ?_⟩
    · simp [hhas, hd.holdsMore e]
    · cases e <;> rfl
    · exact RunDir.has_without he'
  · refine ⟨d, by simp [hhas], hd, rfl, fun e' he' => ⟨he', ?_⟩⟩
    rintro rfl
    exact hhas he'

theorem unlinkAll_clears (entries : List RunEntry) (hd : d.Bare)
    (hdirs : (W.server.runs k).dirs = Function.update D .incoming (some d))
    (hall : ∀ e, d.has e = true → e ∈ entries) :
    (aloneBegin ints host t).wp (unlinkAll k d.id entries).run (fun r W' => r = .ok () ∧
      ∃ d', (W'.server.runs k).dirs = Function.update D .incoming (some d') ∧
        ∀ e, d'.has e = false) W := by
  induction entries generalizing d W with
  | nil =>
    refine ⟨rfl, d, hdirs, fun e => ?_⟩
    rw [← Bool.not_eq_true]
    exact fun he => nomatch hall e he
  | cons e rest ih =>
    refine Alone.wp_runBind.2 (wp_take fun x hx => ?_)
    obtain rfl : x = none := hx
    obtain ⟨d', hok, hd', hid, hhas⟩ := hd.unlinkEntry e W.server.clock
    have hstep : intakeStep host t (.unlinkIncoming k d.id e) none W =
        (.ok (), W.setRun k ((W.server.runs k).setDir .incoming (some d'))) := by
      simp [intakeStep, IntakeOp.onRun, phaseOf_filling hdirs, RunWorld.change, hdirs, hok,
        Prod.map]
    simp only [hstep]
    rw [← hid]
    refine ih hd' ?_ fun e' he' => ?_
    · rw [IntakeWorld.setRun_runs, RunWorld.setDir, hdirs, Function.update_idem]
    · obtain ⟨hold, hne⟩ := hhas e' he'
      exact (List.mem_cons.1 (hall e' hold)).resolve_left hne

/-- The cleanup leaves nothing of the incoming directory. -/
theorem removeIncoming_clears (hD : D .incoming = none) (h : Filling D φ (W.server.runs k)) :
    (aloneBegin ints host t).wp (removeIncoming k).run
      (fun _ W' => (W'.server.runs k).dirs = D) W := by
  obtain ⟨d, hd, -, hdirs⟩ := h
  have hopen : (aloneCall host t W.server.clock).wp (sys (.openDir .incoming)) (fun r w =>
      (∃ order, r = .ok (d.id, d.listing order)) ∧
        w.dirs = Function.update D .incoming (some d)) (W.server.runs k) := by
    rintro ⟨failure, order⟩ hx
    obtain rfl : failure = none := hx rfl
    have hfound : (W.server.runs k).dirs .incoming = some d := by simp [hdirs]
    have hstep : RunOp.step host t (.openDir .incoming) (none, order) W.server.clock
        (W.server.runs k) = (.ok (d.id, d.listing order), W.server.runs k) := by
      simp [RunOp.step, RunOp.run, hfound]
    refine ⟨trivial, ?_⟩
    simp only [aloneCall, hstep]
    exact ⟨⟨order, rfl⟩, hdirs⟩
  refine Alone.wp_runBind.2 (Alone.wp_mono (wp_onRun hopen) ?_)
  rintro _ W₁ ⟨⟨⟨order, rfl⟩, hdirs₁⟩, -⟩
  refine Alone.wp_runBind.2 (Alone.wp_mono (unlinkAll_clears (d.listing order) hd hdirs₁
    fun e he => RunDir.mem_listing he order) ?_)
  rintro _ W' ⟨rfl, d', hdirs', hempty⟩
  refine wp_take fun x hx => ?_
  obtain rfl : x = none := hx
  have hentries : d'.entries = [] := RunDir.entries_empty hempty
  have hrmdir : intakeStep host t (.rmdirIncoming k) none W' =
      (.ok (), W'.setRun k ((W'.server.runs k).setDir .incoming none)) := by
    simp [intakeStep, IntakeOp.onRun, hdirs', hentries, Prod.map]
  rw [hrmdir, IntakeWorld.setRun_runs, RunWorld.setDir, hdirs', Function.update_idem]
  exact Function.update_eq_self_iff.2 hD.symm

omit [DecidableEq Tid] in
theorem Filling.mono (h : Filling D φ w) (hφ : ∀ d, φ d → ψ d) : Filling D ψ w := by
  obtain ⟨d, hd, hp, hdirs⟩ := h
  exact ⟨d, hd, hφ d hp, hdirs⟩

/-- A call that fails leaves the directories. -/
theorem step_failed {o : RunOp} (ho : o.fallible = true) (m : String) (x : o.Extra) :
    o.step host t (some m, x) now w = (o.failed (.other m), w.noteFault t o) := by
  cases o <;> first | rfl | exact nomatch ho

theorem wp_sys {o : RunOp} (ho : o.fallible = true) {Q : o.Res → RunWorld Tid → Prop}
    (hfail : ∀ m, Q (o.failed (.other m)) (w.noteFault t o))
    (hdone : ∀ x, Q (o.step host t (none, x) now w).1 (o.step host t (none, x) now w).2) :
    (aloneCall host t now).wp (sys o) Q w := by
  rintro ⟨failure, x⟩ -
  refine ⟨trivial, ?_⟩
  cases failure with
  | some m =>
    simp only [aloneCall, step_failed ho]
    exact hfail m
  | none => exact hdone x

variable (host t now) in
theorem openTmp_done {f : FileName} (torn : Except String (Doc f.Content))
    (h : Filling D (fun d => d.has (.tree .files) = true) w) :
    ∃ dir w', (RunOp.openTmp .incoming f).step host t (none, torn) now w = (.ok dir, w') ∧
      Filling D (fun d => d.has (.tree .files) = true ∧ d.id = dir ∧ d.has (.tmp f) = true) w' := by
  obtain ⟨d, hd, hfiles, hdirs⟩ := h
  have hfound : w.dirs .incoming = some d := by simp [hdirs]
  have hstep : RunOp.step host t (.openTmp .incoming f) (none, torn) now w =
      (.ok d.id, w.setDir .incoming (some (d.openTmp f torn now))) := by
    simp [RunOp.step, RunOp.run, hfound]
  have htree : (d.openTmp f torn now).tree = d.tree := by
    unfold RunDir.openTmp
    split <;> rfl
  have hid : (d.openTmp f torn now).id = d.id := by
    unfold RunDir.openTmp
    split <;> rfl
  have htmp : (d.openTmp f torn now).has (.tmp f) = true := by
    unfold RunDir.openTmp
    split <;> simp [RunDir.has, RunDir.setTmp]
  refine ⟨d.id, _, hstep, d.openTmp f torn now, hd.of_tree htree, ⟨?_, hid, htmp⟩, ?_⟩
  · rwa [RunDir.has, htree]
  · rw [RunWorld.setDir, hdirs, Function.update_idem]

theorem openTmp_filling {f : FileName} (h : Filling D (fun d => d.has (.tree .files) = true) w) :
    (aloneCall host t now).wp (sys (.openTmp .incoming f)) (fun r w =>
      Filling D (fun d => d.has (.tree .files) = true ∧
        ∀ dir, r = .ok dir → d.id = dir ∧ d.has (.tmp f) = true) w) w := by
  refine wp_sys rfl (fun m => h.mono fun d hd => ⟨hd, nofun⟩) fun torn => ?_
  obtain ⟨dir, w', hstep, h'⟩ := openTmp_done _ _ _ torn h
  rw [hstep]
  refine h'.mono fun d hd => ⟨hd.1, fun dir' hdir => ?_⟩
  cases hdir
  exact hd.2

variable (host t now) in
theorem writeTmp_done {f : FileName} {dir : Nat} (doc : Doc f.Content)
    (h : Filling D (fun d => d.has (.tree .files) = true ∧ d.id = dir ∧ d.has (.tmp f) = true) w) :
    ∃ w', (RunOp.writeTmp dir f doc).step host t (none, ()) now w = (.ok (), w') ∧
      Filling D (fun d => d.has (.tree .files) = true ∧ d.tmp f = .text doc) w' := by
  obtain ⟨d, hd, ⟨hfiles, rfl, htmp⟩, hdirs⟩ := h
  have hstep : RunOp.step host t (.writeTmp d.id f doc) (none, ()) now w = (.ok (),
      w.setDir .incoming (some { d.setTmp f (.text doc) with tmpMtime := now })) := by
    simp [RunOp.step, RunOp.run, phaseOf_filling hdirs, hdirs, htmp]
  refine ⟨_, hstep, { d.setTmp f (.text doc) with tmpMtime := now }, hd.of_tree rfl,
    ⟨hfiles, ?_⟩, ?_⟩
  · simp [RunDir.setTmp]
  · rw [RunWorld.setDir, hdirs, Function.update_idem]

theorem writeTmp_filling {f : FileName} {dir : Nat} {doc : Doc f.Content}
    (h : Filling D (fun d => d.has (.tree .files) = true ∧ d.id = dir ∧ d.has (.tmp f) = true) w) :
    (aloneCall host t now).wp (sys (.writeTmp dir f doc)) (fun r w =>
      Filling D (fun d => d.has (.tree .files) = true ∧ (r = .ok () → d.tmp f = .text doc)) w)
      w := by
  refine wp_sys rfl (fun m => h.mono fun d hd => ⟨hd.1, nofun⟩) fun x => ?_
  obtain ⟨w', hstep, h'⟩ := writeTmp_done _ _ _ doc h
  rw [hstep]
  exact h'.mono fun d hd => ⟨hd.1, fun _ => hd.2⟩

variable (host t now) in
theorem publish_done {s : FileState .lease} (hs : s.isMissing = false)
    (h : Filling D (fun d => d.has (.tree .files) = true ∧ d.tmp .lease = s) w) :
    ∃ w', (RunOp.publish .incoming .lease).step host t (none, ()) now w = (.ok (), w') ∧
      Filling D (fun d => d.has (.tree .files) = true ∧ d.file .lease = s) w' := by
  obtain ⟨d, hd, ⟨hfiles, rfl⟩, hdirs⟩ := h
  have hfound : w.dirs .incoming = some d := by simp [hdirs]
  have htmp : d.has (.tmp .lease) = true := by simp [RunDir.has, hs]
  have hstep : RunOp.step host t (.publish .incoming .lease) (none, ()) now w = (.ok (),
      (w.setDir .incoming (some (d.publish .lease now))).notePublished .incoming
        (statusText .lease (d.tmp .lease))) := by
    simp [RunOp.step, RunOp.run, hfound, htmp]
  refine ⟨_, hstep, d.publish .lease now, hd.of_tree rfl, ⟨hfiles, ?_⟩, ?_⟩
  · simp [RunDir.publish, RunDir.setFile, RunDir.setTmp, RunDir.stamp]
  · change (w.setDir .incoming (some (d.publish .lease now))).dirs = _
    rw [RunWorld.setDir, hdirs, Function.update_idem]

theorem publish_filling {s : FileState .lease} (hs : s.isMissing = false)
    (h : Filling D (fun d => d.has (.tree .files) = true ∧ d.tmp .lease = s) w) :
    (aloneCall host t now).wp (sys (.publish .incoming .lease)) (fun r w =>
      Filling D (fun d => d.has (.tree .files) = true ∧ (r = .ok () → d.file .lease = s)) w) w := by
  refine wp_sys rfl (fun m => h.mono fun d hd => ⟨hd.1, nofun⟩) fun x => ?_
  obtain ⟨w', hstep, h'⟩ := publish_done _ _ _ hs h
  rw [hstep]
  exact h'.mono fun d hd => ⟨hd.1, fun _ => hd.2⟩

theorem writeNewLease_filling (n : Nat)
    (h : Filling D (fun d => d.has (.tree .files) = true) w) :
    (aloneCall host t now).wp (writeNewLease config k n).run (fun r w =>
      Filling D (fun d => d.has (.tree .files) = true ∧
        (r = .ok () → d.file .lease = .text (Doc.ofValue (newLease config k n)))) w) w := by
  refine Alone.wp_runBind.2 (Alone.wp_runAdapt.2 (Alone.wp_bind.2
    (Alone.wp_mono (openTmp_filling h) fun opened w₁ h₁ => ?_)))
  cases opened with
  | error e => exact h₁.mono fun d hd => ⟨hd.1, nofun⟩
  | ok dir =>
    refine Alone.wp_mono (writeTmp_filling (h₁.mono fun d hd => ⟨hd.1, hd.2 dir rfl⟩))
      fun written w₂ h₂ => ?_
    cases written with
    | error e => exact h₂.mono fun d hd => ⟨hd.1, nofun⟩
    | ok u =>
      refine Alone.wp_runAdapt.2 (Alone.wp_mono (publish_filling rfl (h₂.mono fun d hd =>
        ⟨hd.1, hd.2 rfl⟩)) fun published w₃ h₃ => h₃.mono fun d hd => ⟨hd.1, fun hr => ?_⟩)
      cases published with
      | error e => exact nomatch hr
      | ok u => exact hd.2 rfl

variable (host t) in
theorem createFiles_done (h : Filling D (fun d => d.tree .files = none) (W.server.runs k)) :
    ∃ W', intakeStep host t (.createFiles k) none W = (.ok (), W') ∧
      Filling D (fun d => d.has (.tree .files) = true) (W'.server.runs k) ∧
      W'.server.clock = W.server.clock := by
  obtain ⟨d, hd, hnone, hdirs⟩ := h
  have hstep : intakeStep host t (.createFiles k) none W = (.ok (), W.setRun k
      ((W.server.runs k).setDir .incoming
        (some ((d.setTree .files (some [])).stamp W.server.clock)))) := by
    simp [intakeStep, IntakeOp.onRun, RunWorld.change, hdirs, RunDir.has, hnone, Prod.map]
  refine ⟨_, hstep, ⟨(d.setTree .files (some [])).stamp W.server.clock,
    ⟨fun xs hxs => ?_, hd.work⟩, rfl, ?_⟩, rfl⟩
  · exact (Option.some_inj.1 hxs).symm
  · rw [IntakeWorld.setRun_runs, RunWorld.setDir, hdirs, Function.update_idem]

theorem createFiles_filling (h : Filling D (fun d => d.tree .files = none) (W.server.runs k)) :
    (aloneBegin ints host t).wp (take (.createFiles k)) (fun r W' => Filling D (fun d =>
      r = .ok () → d.has (.tree .files) = true) (W'.server.runs k) ∧
        W'.server.clock = W.server.clock) W := by
  refine wp_take fun x _ => ?_
  cases x with
  | some m => exact ⟨h.mono fun d _ => nofun, rfl⟩
  | none =>
    obtain ⟨W', hstep, h', hc⟩ := createFiles_done _ _ h
    rw [hstep]
    exact ⟨h'.mono fun d hd _ => hd, hc⟩

theorem serialize_fits {v : Serialized} {Q : Except String Unit → IntakeWorld Tid → Prop}
    (hv : v.fits ints = true) (h : Q (.ok ()) W) :
    (aloneBegin ints host t).wp (take (.serialize v)) Q W := by
  refine wp_take fun x hx => ?_
  have hnone : x.isSome = false := by simpa [beginOutcome, hv] using hx
  rw [Option.isSome_eq_false_iff, Option.isNone_iff_eq_none] at hnone
  subst hnone
  exact h

theorem cleaned {α : Type} (message : String) {Q : Except String α → IntakeWorld Tid → Prop}
    (hD : D .incoming = none) (h : Filling D φ (W.server.runs k))
    (hQ : ∀ W' : IntakeWorld Tid, (W'.server.runs k).dirs = D → Q (.error message) W') :
    (aloneBegin ints host t).wp (do
      let _ ← ExceptT.lift (removeIncoming k).run
      throw message : ExceptT String Intake α).run Q W :=
  Alone.wp_liftBind.2 (Alone.wp_mono (removeIncoming_clears hD h) fun _ W' hW' => hQ W' hW')

omit [DecidableEq Tid] in
theorem acceptedLease_new (command : String) (n : Nat) :
    acceptedLease config k command (Doc.ofValue (newLease config k n)) =
      .ok (newLease config k n) := by
  have hprobe : Document.probe (newLease config k n) = .ok currentPurgeryVersion := rfl
  simp only [acceptedLease, Doc.ofValue_probe, Doc.ofValue_parsed, hprobe]
  simp [newLease, requireCompatible_current, Except.mapError, bind, Except.bind, pure, Except.pure]

omit [DecidableEq Tid] in
variable (config k) in
theorem newLease_fits (h : now + config.gc.incomingLeaseSecs ≤ ints.max) :
    (Serialized.lease (newLease config k now)).fits ints = true ∧
      (newLease config k now).expiresAtUnixSecs = now + config.gc.incomingLeaseSecs := by
  have hlarge : now + config.gc.incomingLeaseSecs < 2 ^ 64 := by
    cases ints <;> simp only [TomlIntegers.max] at h <;> omega
  have hversion : protocolVersion ≤ ints.max := by cases ints <;> decide
  have hexpires := Nat.mod_eq_of_lt hlarge
  refine ⟨?_, hexpires⟩
  simp only [Serialized.fits, Serialized.integers, newLease, hexpires, List.all_cons, List.all_nil,
    Bool.and_true, Bool.and_eq_true, decide_eq_true_eq]
  omega

omit [DecidableEq Tid] in
theorem response_fits (hread : ∀ n ∈ gcIntegers config.gc, n ≤ ints.max) :
    (Serialized.response (beginRunResponse config k)).fits ints = true := by
  have hversion : protocolVersion ≤ ints.max := by cases ints <;> decide
  have hinterval := hread config.gc.heartbeatIntervalSecs (by simp [gcIntegers])
  simp only [Serialized.fits, Serialized.integers, beginRunResponse, List.all_cons, List.all_nil,
    Bool.and_true, Bool.and_eq_true, decide_eq_true_eq]
  exact ⟨hversion, hinterval⟩

theorem fillIncoming_begun (hread : ∀ n ∈ gcIntegers config.gc, n ≤ ints.max)
    (hlease : 0 < config.gc.incomingLeaseSecs)
    (hfits : W.server.clock + config.gc.incomingLeaseSecs ≤ ints.max)
    (hD : D .incoming = none)
    (h : Filling D (fun d => d.tree .files = none) (W.server.runs k)) :
    (aloneBegin ints host t).wp (fillIncoming config k W.server.clock).run (Begun config k D)
      W := by
  obtain ⟨hlfits, hexpires⟩ := newLease_fits config k hfits
  refine Alone.wp_liftBind.2 (Alone.wp_mono (createFiles_filling h) ?_)
  rintro created W₁ ⟨h₁, hc₁⟩
  cases created with
  | error e => exact cleaned _ hD h₁ fun _ hW' => hW'
  | ok u =>
    refine Alone.wp_liftBind.2 (serialize_fits hlfits ?_)
    have h₁' : Filling D (fun d => d.has (.tree .files) = true) (W₁.server.runs k) :=
      h₁.mono fun d hd => hd rfl
    refine Alone.wp_liftBind.2 (Alone.wp_mono
      (wp_onRun (writeNewLease_filling W.server.clock h₁')) ?_)
    rintro written W₂ ⟨h₂, hc₂⟩
    cases written with
    | error e => exact cleaned _ hD h₂ fun _ hW' => hW'
    | ok u =>
      refine Alone.wp_liftBind.2 (serialize_fits (response_fits hread) ?_)
      obtain ⟨d, hd, ⟨hfiles, hfile⟩, hdirs⟩ := h₂
      refine ⟨d, Doc.ofValue (newLease config k W.server.clock), newLease config k W.server.clock,
        ?_, hfiles, hfile rfl, acceptedLease_new _ _, acceptedLease_new _ _, ?_⟩
      · rw [hdirs, Function.update_self]
      · rw [hexpires, hc₂, hc₁]
        omega

variable (host t k) in
theorem createIncoming_done (hnone : (W.server.runs k).dirs .incoming = none) :
    ∃ W', intakeStep host t (.createIncoming k) none W = (.ok (), W') ∧
      W'.server.clock = W.server.clock ∧
      Filling (W.server.runs k).dirs (fun d => d.tree .files = none) (W'.server.runs k) := by
  let r := W.server.runs k
  let created : RunWorld Tid := { r with nextDir := r.nextDir + 1 }.setDir .incoming
    (some (.empty r.nextDir W.server.clock))
  have hstep : intakeStep host t (.createIncoming k) none W =
      (.ok (), { W.setRun k created with
        beginner := Function.update W.beginner k (some t) }) := by
    simp [intakeStep, IntakeOp.onRun, hnone, Prod.map, Except.isOk, Except.toBool, created, r,
      IntakeWorld.setRun]
  refine ⟨_, hstep, rfl, RunDir.empty r.nextDir W.server.clock, ⟨by rintro _ ⟨⟩, rfl⟩, rfl, ?_⟩
  change ((W.setRun k created).server.runs k).dirs = _
  rw [IntakeWorld.setRun_runs]
  rfl

theorem createIncoming_filling (h : (W.server.runs k).dirs = D) :
    (aloneBegin ints host t).wp (take (.createIncoming k)) (fun r W' => match r with
      | .ok _ => D .incoming = none ∧ W'.server.clock = W.server.clock ∧
          Filling D (fun d => d.tree .files = none) (W'.server.runs k)
      | .error _ => (W'.server.runs k).dirs = D) W := by
  refine wp_take fun x _ => ?_
  cases x with
  | some m => exact h
  | none =>
    cases hnone : (W.server.runs k).dirs .incoming with
    | some d =>
      have hstep : intakeStep host t (.createIncoming k) none W = (.error fileExistsError, W) := by
        simp [intakeStep, IntakeOp.onRun, hnone, Prod.map, Except.isOk, Except.toBool]
      rw [hstep]
      exact h
    | none =>
      obtain ⟨W', hstep, hc, h'⟩ := createIncoming_done _ _ _ hnone
      rw [hstep]
      exact ⟨h ▸ hnone, hc, h ▸ h'⟩

theorem beginRun_begun (hread : ∀ n ∈ gcIntegers config.gc, n ≤ ints.max)
    (hlease : 0 < config.gc.incomingLeaseSecs)
    (hfits : ((W.server.runs k).dirs .incoming).isSome ∨
      W.server.clock + config.gc.incomingLeaseSecs ≤ ints.max) :
    (aloneBegin ints host t).wp (beginRun config k).run
      (Begun config k (W.server.runs k).dirs) W := by
  refine Alone.wp_liftBind.2 (Alone.wp_mono (wp_onRun (firstPhase_shown allPhases rfl)) ?_)
  rintro found W₁ ⟨h₁, hc₁⟩
  cases found with
  | some ph => exact h₁
  | none =>
    refine Alone.wp_liftBind.2 fun _ _ => ⟨trivial, ?_⟩
    change (aloneBegin ints host t).wp _ _ W₁
    have hparent : (aloneCall host t W₁.server.clock).wp
        (io (sys (.createParent .incoming)) fun _ => "failed to create incoming parent: " ++
          Path.join (config.workDir.nicknameDir k.nickname) "incoming").run
        (fun _ w => w.dirs = (W.server.runs k).dirs) (W₁.server.runs k) := by
      refine Alone.wp_runAdapt.2 ?_
      rintro ⟨failure, u⟩ -
      cases failure with
      | some m => exact ⟨trivial, h₁⟩
      | none => exact ⟨trivial, h₁⟩
    refine Alone.wp_runBind.2 (Alone.wp_mono (wp_onRun hparent) ?_)
    rintro parent W₂ ⟨h₂, hc₂⟩
    cases parent with
    | error e => exact h₂
    | ok u =>
      refine Alone.wp_runBind.2 (Alone.wp_runAdapt.2 (Alone.wp_mono (createIncoming_filling h₂) ?_))
      intro created W₃ h₃
      cases created with
      | error e => exact h₃
      | ok u =>
        obtain ⟨hnone, hc₃, hfilling⟩ := h₃
        have hnow : W₁.server.clock = W₃.server.clock := by rw [hc₃, hc₂]
        have hsum : W₃.server.clock + config.gc.incomingLeaseSecs ≤ ints.max := by
          rw [hc₃, hc₂, hc₁]
          exact hfits.resolve_left (by simp [hnone])
        change (aloneBegin ints host t).wp (fillIncoming config k W₁.server.clock).run _ _
        rw [hnow]
        exact fillIncoming_begun hread hlease hsum hnone hfilling

omit [DecidableEq Tid] in
theorem IntakeWorld.setRun_setRun {r r' : RunWorld Tid} :
    (W.setRun k r).setRun k r' = W.setRun k r' := by
  simp [IntakeWorld.setRun, World.setRun]

/-- One way in which the calls on a run can go. -/
theorem wp_ran {α : Type} {p : Call α} {Q : α → IntakeWorld Tid → Prop}
    (ω : (o : RunOp) → o.Choice) (hω : ∀ ph, (ω (.openDir ph)).1 = none)
    (h : (aloneBegin ints host t).wp (onServer (onRun k p)) Q W) :
    Q (p.solo (fun o w => o.step host t (ω o) W.server.clock w) (W.server.runs k)).1
      (W.setRun k
        (p.solo (fun o w => o.step host t (ω o) W.server.clock w) (W.server.runs k)).2) := by
  induction p generalizing W with
  | ret a => rwa [Prog.solo_ret, IntakeWorld.setRun_self]
  | call o c ih =>
    have hadmits : beginOutcome ints (.server (.run k o)) (ω o) := by
      cases o with
      | openDir ph => cases ph <;> first | exact hω _ | trivial
      | _ => trivial
    have h' : (aloneBegin ints host t).wp
        (onServer (onRun k (c (o.step host t (ω o) W.server.clock (W.server.runs k)).1))) Q
        (W.setRun k (o.step host t (ω o) W.server.clock (W.server.runs k)).2) :=
      (h (ω o) hadmits).2
    have hrest := ih _ h'
    rwa [IntakeWorld.setRun_runs, IntakeWorld.setRun_setRun] at hrest

variable (host t now) in
theorem firstPhase_blind (phs : List RunPhase) (w : RunWorld Tid) :
    ∃ w', (firstPhase phs).solo (fun o w => o.step host t o.blind now w) w = (none, w') ∧
      w'.dirs = w.dirs := by
  induction phs generalizing w with
  | nil => exact ⟨w, rfl, rfl⟩
  | cons ph rest ih => exact ih (w.noteFault t (.dirExists ph))

variable (config k host t now) in
theorem writeNewLease_calm (n : Nat) (h : Filling D (fun d => d.has (.tree .files) = true) w) :
    ∃ w', (writeNewLease config k n).run.solo
        (fun o w => o.step host t (none, o.plain) now w) w = (.ok (), w') ∧
      Filling D (fun d => d.has (.tree .files) = true ∧
        d.file .lease = .text (Doc.ofValue (newLease config k n))) w' := by
  obtain ⟨dir, w₁, hopen, h₁⟩ := openTmp_done host t now
    (RunOp.openTmp .incoming .lease).plain h
  obtain ⟨w₂, hwrite, h₂⟩ := writeTmp_done host t now
    (Doc.ofValue (newLease config k n)) h₁
  obtain ⟨w₃, hpublish, h₃⟩ := publish_done host t now rfl h₂
  refine ⟨w₃, ?_, h₃⟩
  let calmly (o : RunOp) (w : RunWorld Tid) := o.step host t (none, o.plain) now w
  have hopened : (sys (.openTmp .incoming .lease)).solo calmly w = (.ok dir, w₁) := hopen
  have hpublished : (sys (.publish .incoming .lease)).solo calmly w₂ = (.ok (), w₃) := hpublish
  have hfile : (io (writeFile .incoming .lease (Doc.ofValue (newLease config k n))) id).run.solo
      calmly w = (.ok (), w₂) := by
    change ((sys (.openTmp .incoming .lease) >>= _) >>= _).solo calmly w = _
    rw [Prog.solo_bind, Prog.solo_bind, hopened]
    have hwritten : (sys (.writeTmp dir .lease (Doc.ofValue (newLease config k n)))).solo calmly
        w₁ = (.ok (), w₂) := hwrite
    simp only [hwritten]
    rfl
  unfold writeNewLease
  rw [Prog.solo_ok_bind hfile]
  change (sys (.publish .incoming .lease) >>= _).solo calmly w₂ = _
  rw [Prog.solo_bind, hpublished]
  rfl

/-- The sum is not written, or it is written wrapped around. -/
theorem newLease_overflows {n : Nat} (hread : ∀ n ∈ gcIntegers config.gc, n ≤ ints.max)
    (hsum : ints.max < n + config.gc.incomingLeaseSecs)
    (hfits : (Serialized.lease (newLease config k n)).fits ints = true) :
    (newLease config k n).expiresAtUnixSecs ≤ n := by
  have hlease : config.gc.incomingLeaseSecs ≤ ints.max := hread _ (by simp [gcIntegers])
  simp only [Serialized.fits, Serialized.integers, newLease, List.all_cons, List.all_nil,
    Bool.and_true, Bool.and_eq_true, decide_eq_true_eq] at hfits ⊢
  cases ints <;> simp only [TomlIntegers.max] at * <;> omega

variable (host t) in
theorem fillIncoming_overflows (hread : ∀ n ∈ gcIntegers config.gc, n ≤ ints.max)
    (hsum : ints.max < W.server.clock + config.gc.incomingLeaseSecs) (hD : D .incoming = none)
    (h : Filling D (fun d => d.tree .files = none) (W.server.runs k)) :
    ¬(aloneBegin ints host t).wp (fillIncoming config k W.server.clock).run (Begun config k D)
      W := by
  intro hbegun
  obtain ⟨W₁, hstep, h₁, hc₁⟩ := createFiles_done host t h
  obtain ⟨-, hlease⟩ := hbegun none trivial
  simp only [aloneBegin, hstep] at hlease
  cases hfits : (Serialized.lease (newLease config k W.server.clock)).fits ints with
  | false =>
    obtain ⟨-, hleft⟩ := hlease (some "") (by simp [beginOutcome, hfits])
    obtain ⟨d, -, -, hdirs⟩ := h₁
    have hgone : (W₁.server.runs k).dirs = D := hleft
    rw [← hgone, hdirs, Function.update_self] at hD
    exact nomatch hD
  | true =>
    obtain ⟨-, hwrite⟩ := hlease none (by simp [beginOutcome, hfits])
    have hran := wp_ran (W := W₁) (p := (writeNewLease config k W.server.clock).run)
      (fun o => (none, o.plain)) (fun _ => rfl) (Alone.wp_liftBind.1 hwrite)
    obtain ⟨w₂, hcalm, d, -, ⟨-, hfile⟩, hdirs⟩ := writeNewLease_calm host t config k
      W₁.server.clock W.server.clock h₁
    rw [hcalm] at hran
    have hanswers : beginOutcome ints (.serialize (.response (beginRunResponse config k))) none := by
      simp [beginOutcome, response_fits hread]
    obtain ⟨-, d', doc, lease, hfound, -, hdoc, -, haccepted, hexpires⟩ := hran none hanswers
    have hdirs' : ((W₁.setRun k w₂).server.runs k).dirs .incoming = some d := by
      rw [IntakeWorld.setRun_runs, hdirs, Function.update_self]
    obtain rfl : d = d' := Option.some_inj.1 (hdirs'.symm.trans hfound)
    obtain rfl : Doc.ofValue (newLease config k W.server.clock) = doc :=
      FileState.text.inj (hfile.symm.trans hdoc)
    obtain rfl : newLease config k W.server.clock = lease :=
      Except.ok.inj ((acceptedLease_new "finish" _).symm.trans haccepted)
    have hbefore := newLease_overflows hread hsum hfits
    have hclock : W₁.server.clock < (newLease config k W.server.clock).expiresAtUnixSecs := hexpires
    omega

/-- The phases of the run are looked up in vain. -/
theorem beginRun_overflows (hread : ∀ n ∈ gcIntegers config.gc, n ≤ ints.max)
    (hsum : ints.max < W.server.clock + config.gc.incomingLeaseSecs)
    (hnone : (W.server.runs k).dirs .incoming = none) :
    ¬(aloneBegin ints host t).wp (beginRun config k).run (Begun config k (W.server.runs k).dirs)
      W := by
  intro hbegun
  have hran := wp_ran RunOp.blind (fun _ => rfl) (Alone.wp_liftBind.1 hbegun)
  obtain ⟨w₁, hblind, hdirs₁⟩ := firstPhase_blind host t W.server.clock allPhases (W.server.runs k)
  rw [hblind] at hran
  have hdirs : ((W.setRun k w₁).server.runs k).dirs = (W.server.runs k).dirs := by
    rw [IntakeWorld.setRun_runs, hdirs₁]
  obtain ⟨W₂, hcreated, hc₂, h₂⟩ := createIncoming_done host t k
    (W := W.setRun k w₁) (by rw [hdirs, hnone])
  have hparent := wp_ran (W := W.setRun k w₁) RunOp.blind (fun _ => rfl)
    (Alone.wp_runBind.1 (Alone.wp_liftBind.1 hran () trivial).2)
  have hcreate : (aloneBegin ints host t).wp (take (.createIncoming k)) _
      ((W.setRun k w₁).setRun k ((W.setRun k w₁).server.runs k)) :=
    Alone.wp_runAdapt.1 (Alone.wp_runBind.1 hparent)
  rw [IntakeWorld.setRun_self] at hcreate
  obtain ⟨-, hfill⟩ := hcreate none trivial
  simp only [aloneBegin, hcreated] at hfill
  rw [hdirs] at h₂
  have hnow : W₂.server.clock = W.server.clock := hc₂
  refine fillIncoming_overflows host t hread (hnow ▸ hsum) hnone h₂ ?_
  rw [hnow]
  exact hfill

end Steps

omit [DecidableEq Tid] in
theorem lease_positive {gc : GCConfig} (h : serverCheckGc gc = .ok ()) :
    0 < gc.incomingLeaseSecs := by
  rcases Nat.eq_zero_or_pos gc.incomingLeaseSecs with hzero | hpos
  · simp [serverCheckGc, hzero] at h
  · exact hpos

/-- A server that knows of no run. -/
def unusedServer (clock : Nat) : IntakeWorld Unit where
  server.clock := clock
  server.runs _ := ⟨fun _ => none, [], 0, 0, fun _ => none, [], fun _ => none, []⟩
  beginner _ := none
  replies := []

/-- The longest lease that can be read, and a clock that has started. -/
def lastingConfig : ServerConfig :=
  { sampleConfig with gc := { GCConfig.default with incomingLeaseSecs := 2 ^ 63 - 1 } }

end Begin

end Purgery.Server
