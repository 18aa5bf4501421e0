import Purgery.Server.Exclusion.View

namespace Purgery.Server

variable {Tid : Type} {config : ServerConfig} {k : RunKey}

theorem checkLease_ok {ph ph' : RunPhase} {c : Except IoError (Doc LeaseFile)}
    (h : checkLease config k ph c = .ok ()) : checkLease config k ph' c = .ok () := by
  unfold checkLease at h ⊢
  split at h
  · rfl
  · exact nomatch h
  · split at h
    · exact nomatch h
    · split at h
      · exact nomatch h
      · rename_i hp
        simp only [*]
        rfl

theorem checkRunConfig_ok {ph : RunPhase} {c : Except IoError (Doc RunConfig)}
    {x : RunConfig} (h : checkRunConfig config k ph c = .ok x) (ph' : RunPhase) :
    checkRunConfig config k ph' c = .ok x := by
  unfold checkRunConfig at h ⊢
  split at h
  · exact nomatch h
  · split at h
    · exact nomatch h
    · exact nomatch h
    · simp only [*]

theorem checkManifest_ok {ph : RunPhase} {c : Except IoError (Doc Manifest)}
    {x : Manifest} (h : checkManifest config k ph c = .ok x) (ph' : RunPhase) :
    checkManifest config k ph' c = .ok x := by
  unfold checkManifest at h ⊢
  split at h
  · exact nomatch h
  · split at h
    · exact nomatch h
    · exact nomatch h
    · simp only [*]

/-- Valid inputs are valid at every phase. -/
theorem CoreDir.inputs_ok {D : CoreDir} {ph : RunPhase} {x : RunConfig × Manifest}
    (h : D.inputs config k ph = .ok x) (ph' : RunPhase) : D.inputs config k ph' = .ok x := by
  unfold CoreDir.inputs at h ⊢
  cases hl : checkLease config k ph D.lease.read with
  | error e => simp [hl, bind, Except.bind] at h
  | ok u =>
    cases hc : checkRunConfig config k ph D.runConfig.read with
    | error e => simp [hl, hc, bind, Except.bind] at h
    | ok c =>
      cases hm : checkManifest config k ph D.manifest.read with
      | error e => simp [hl, hc, hm, bind, Except.bind] at h
      | ok m =>
        simp only [checkLease_ok hl, checkRunConfig_ok hc ph',
          checkManifest_ok hm ph']
        simpa [hl, hc, hm] using h

theorem RunPhase.rank_terminal {ph : RunPhase} (h : ph.terminal = true) : ph.rank = 3 := by
  cases ph <;> simp_all [RunPhase.terminal, RunPhase.rank]

theorem RunPhase.rank_le (ph : RunPhase) : ph.rank ≤ 3 := by cases ph <;> decide

namespace View

variable {v : View Tid} {ph : RunPhase} {D D' : CoreDir}

def setDir (v : View Tid) (ph : RunPhase) (d : Option CoreDir) : View Tid :=
  { v with dirs := Function.update v.dirs ph d }

/-- A status is published at a phase. -/
def note (v : View Tid) (ph : RunPhase) (doc : Doc RunStatus) : View Tid :=
  { v with published := (ph, doc) :: v.published }

def move (v : View Tid) (src dst : RunPhase) : View Tid :=
  (v.setDir src none).setDir dst (v.dirs src)

theorem setDir_same : (v.setDir ph (some D)).dirs ph = some D := by simp [setDir]

theorem setDir_sole (hv : v.Inv config k) (hd : v.dirs ph = some D) {ph' : RunPhase} {d : CoreDir}
    (h : (v.setDir ph (some D')).dirs ph' = some d) : ph' = ph ∧ d = D' := by
  by_cases hne : ph' = ph
  · subst hne
    exact ⟨rfl, by simpa [setDir] using h.symm⟩
  · have h' : v.dirs ph' = some d := by simpa [setDir, hne] using h
    exact absurd (hv.unique ph' ph d D h' hd) hne

theorem move_sole (hv : v.Inv config k) {src dst : RunPhase} (hd : v.dirs src = some D)
    {ph' : RunPhase} {d : CoreDir} (h : (v.move src dst).dirs ph' = some d) :
    ph' = dst ∧ d = D := by
  by_cases hne : ph' = dst
  · subst hne
    exact ⟨rfl, by simpa [move, setDir, hd] using h.symm⟩
  · by_cases hs : ph' = src
    · subst hs
      simp [move, setDir, hne] at h
    · have h' : v.dirs ph' = some d := by simpa [move, setDir, hne, hs] using h
      exact absurd (hv.unique ph' src d D h' hd) hs

theorem Past.setDir {ph₀ : RunPhase} (hd : v.dirs ph = some D) (h : v.Past ph₀) :
    (v.setDir ph (some D')).Past ph₀ := by
  intro ph' hr
  by_cases hne : ph' = ph
  · subst hne
    exact absurd (h ph' hr) (by simp [hd])
  · simpa [View.setDir, hne] using h ph' hr

theorem Past.move {src dst ph₀ : RunPhase} (hd : v.dirs src = some D)
    (hrank : src.rank < dst.rank) (h : v.Past ph₀) : (v.move src dst).Past ph₀ := by
  intro ph' hr
  have hsrc : ¬ src.rank ≤ ph₀.rank := fun hle => absurd (h src hle) (by simp [hd])
  have hne : ph' ≠ dst := by
    rintro rfl
    omega
  by_cases hs : ph' = src
  · subst hs
    simp [View.move, View.setDir, hne]
  · simpa [View.move, View.setDir, hne, hs] using h ph' hr

namespace Inv

/-- A change of the directory that keeps what the invariant speaks about. -/
theorem update (hv : v.Inv config k) (hd : v.dirs ph = some D)
    (hlock : D'.lock = D.lock ∨ ph.terminal = true ∧ D'.lock = none)
    (htouched : D'.touched = D.touched)
    (hinputs : ph.queued = true → ∀ ph', D'.inputs config k ph' = D.inputs config k ph')
    (hstatus : 2 ≤ ph.rank → D'.status = D.status) : (v.setDir ph (some D')).Inv config k where
  unique ph₁ ph₂ d₁ d₂ h₁ h₂ := by
    rw [(setDir_sole hv hd h₁).1, (setDir_sole hv hd h₂).1]
  oneIno := hv.oneIno
  lockIno ph' d i h hi := by
    obtain ⟨rfl, rfl⟩ := setDir_sole hv hd h
    obtain hl | ⟨_, hl⟩ := hlock
    · exact hv.lockIno ph' D i hd (hl ▸ hi)
    · exact absurd (hl.symm.trans hi) (by simp)
  incoming d h := by
    obtain ⟨rfl, rfl⟩ := setDir_sole hv hd h
    exact hv.incoming D hd
  gripIno := hv.gripIno
  oneGrip := hv.oneGrip
  readyLock d h hi := by
    obtain ⟨rfl, rfl⟩ := setDir_sole hv hd h
    rw [htouched, hlock.resolve_right fun h' => nomatch h'.1]
    exact hv.readyLock D hd hi
  processingLock d h := by
    obtain ⟨rfl, rfl⟩ := setDir_sole hv hd h
    rw [htouched, hlock.resolve_right fun h' => nomatch h'.1]
    exact hv.processingLock D hd
  inputs d h := by
    obtain ⟨rfl, rfl⟩ := setDir_sole hv hd h
    rw [htouched, hinputs rfl]
    exact hv.inputs D hd
  terminal ph' d ht h := by
    obtain ⟨rfl, rfl⟩ := setDir_sole hv hd h
    rw [htouched, hstatus (by rw [RunPhase.rank_terminal ht]; decide)]
    exact hv.terminal ph' D ht hd
  publishedValid := hv.publishedValid
  final doc ph' d hdoc h := by
    obtain ⟨rfl, rfl⟩ := setDir_sole hv hd h
    rw [htouched]
    refine (hv.final doc ph' D hdoc hd).imp_left fun ⟨hr, hs⟩ => ⟨hr, ?_⟩
    rw [hstatus hr, hs]
  unstarted hf hp := by
    obtain ⟨hready, hprocessing⟩ := hv.unstarted hf hp
    refine ⟨fun d h => ?_, fun d h => ?_⟩
    · obtain ⟨rfl, rfl⟩ := setDir_sole hv hd h
      rw [htouched, hinputs rfl]
      exact hready D hd
    · obtain ⟨rfl, rfl⟩ := setDir_sole hv hd h
      rw [htouched, hstatus (by decide)]
      exact hprocessing D hd
  pass t ph₀ h := by
    refine ⟨(hv.pass t ph₀ h).1, fun ph' d hd' => ?_⟩
    obtain ⟨rfl, rfl⟩ := setDir_sole hv hd hd'
    exact (hv.pass t ph₀ h).2 ph' D hd
  touched ph' d h hnt ht := by
    obtain ⟨rfl, rfl⟩ := setDir_sole hv hd h
    exact hv.touched ph' D hd hnt (htouched ▸ ht)

/-- The failure of a malformed run is published where it is. -/
theorem note_ready (hv : v.Inv config k) (hd : v.dirs .ready = some D) (doc : Doc RunStatus)
    (he : v.faults = [] → ∃ e, D.inputs config k .ready = .error (.other e)) :
    (v.note .ready doc).Inv config k where
  unique := hv.unique
  oneIno := hv.oneIno
  lockIno := hv.lockIno
  incoming d h := nomatch hv.unique _ _ _ _ h hd
  gripIno := hv.gripIno
  oneGrip := hv.oneGrip
  readyLock := hv.readyLock
  processingLock := hv.processingLock
  inputs := hv.inputs
  terminal := hv.terminal
  publishedValid doc' h := hv.publishedValid doc' (by simpa [PublishedInProcessing, note] using h)
  final doc' ph' d h := hv.final doc' ph' d (by simpa [PublishedInProcessing, note] using h)
  unstarted hf _ := by
    refine ⟨fun d h => ?_, fun d h => nomatch hv.unique _ _ _ _ h hd⟩
    obtain rfl : D = d := by simpa using hd.symm.trans h
    exact .inr (he hf)
  pass := hv.pass
  touched := hv.touched

/-- A valid status is published in `processing`. -/
theorem publish (hv : v.Inv config k) (hd : v.dirs .processing = some D) (st : RunStatus)
    (hlock : D'.lock = D.lock) (htouched : D'.touched = D.touched)
    (hinputs : ∀ ph', D'.inputs config k ph' = D.inputs config k ph')
    (hstatus : D'.status = .text (Doc.ofValue st))
    (hversion : st.purgeryVersion = currentPurgeryVersion) (hkey : st.key = k)
    (hfirst : (∀ doc, ¬ v.PublishedInProcessing doc) ∨ v.RecoverySpoilt) :
    ((v.setDir .processing (some D')).note .processing (Doc.ofValue st)).Inv config k := by
  have hsole : ∀ ph d, ((v.setDir .processing (some D')).note .processing
      (Doc.ofValue st)).dirs ph = some d → ph = .processing ∧ d = D' :=
    fun ph d h => setDir_sole hv hd h
  exact {
    unique ph₁ ph₂ d₁ d₂ h₁ h₂ := by
      rw [(hsole _ _ h₁).1, (hsole _ _ h₂).1]
    oneIno := hv.oneIno
    lockIno ph' d i h hi := by
      obtain ⟨rfl, rfl⟩ := hsole _ _ h
      exact hv.lockIno _ D i hd (hlock ▸ hi)
    incoming d h := nomatch (hsole _ _ h).1
    gripIno := hv.gripIno
    oneGrip := hv.oneGrip
    readyLock d h := nomatch (hsole _ _ h).1
    processingLock d h := by
      obtain ⟨_, rfl⟩ := hsole _ _ h
      rw [htouched, hlock]
      exact hv.processingLock D hd
    inputs d h := by
      obtain ⟨_, rfl⟩ := hsole _ _ h
      rw [htouched, hinputs]
      exact hv.inputs D hd
    terminal ph' d ht h := by
      obtain ⟨rfl, rfl⟩ := hsole _ _ h
      exact nomatch ht
    publishedValid doc h := by
      obtain h | h := List.mem_cons.1 h
      · cases h
        exact ⟨st, rfl, hversion, congrArg RunKey.nickname hkey, congrArg RunKey.runId hkey⟩
      · exact hv.publishedValid doc h
    final doc ph' d hdoc h := by
      obtain ⟨rfl, rfl⟩ := hsole _ _ h
      obtain hdoc | hdoc := List.mem_cons.1 hdoc
      · cases hdoc
        exact .inl ⟨by decide, hstatus⟩
      · exact .inr (.inr (hfirst.resolve_left fun hn => hn doc hdoc))
    unstarted _ _ := by
      refine ⟨fun d h => (nomatch (hsole _ _ h).1), fun d h => .inr ?_⟩
      obtain ⟨_, rfl⟩ := hsole _ _ h
      rw [hstatus]
      exact nofun
    pass t ph₀ h := by
      refine ⟨(hv.pass t ph₀ h).1, fun ph' d hd' => ?_⟩
      obtain ⟨rfl, rfl⟩ := hsole _ _ hd'
      exact (hv.pass t ph₀ h).2 _ D hd
    touched ph' d h hnt ht := by
      obtain ⟨rfl, rfl⟩ := hsole _ _ h
      exact hv.touched _ D hd hnt (htouched ▸ ht) }

/-- The directory moves on; `hinputs` and `hterminal` are what the new phase
asks of it. -/
theorem moved (hv : v.Inv config k) {src dst : RunPhase} (hd : v.dirs src = some D)
    (hrank : src.rank < dst.rank) (hidle : ∀ t, v.pass t = none)
    (hready : dst = .ready → src = .incoming)
    (hprocessing : dst = .processing → src = .ready ∧ D.lock = some 0 ∧ v.nextIno = 1 ∧
      ∃ x, D.inputs config k .processing = .ok x)
    (hterminal : dst.terminal = true → classifyTerminalStatus k dst D.status.read = true ∨
      v.ClaimSpoilt) : (v.move src dst).Inv config k := by
  have hsole : ∀ ph d, (v.move src dst).dirs ph = some d → ph = dst ∧ d = D :=
    fun ph d h => move_sole hv hd h
  have huntouched : src.terminal = false → D.touched = false := fun hs => by
    by_contra ht
    obtain ⟨_, t, hp⟩ := hv.touched src D hd hs (by simpa using ht)
    exact absurd ((hidle t).symm.trans hp) (by simp)
  have hsrc : src.terminal = false := by
    cases hs : src.terminal with
    | false => rfl
    | true =>
      have h := RunPhase.rank_terminal hs
      have h' := RunPhase.rank_le dst
      omega
  exact {
    unique ph₁ ph₂ d₁ d₂ h₁ h₂ := by rw [(hsole _ _ h₁).1, (hsole _ _ h₂).1]
    oneIno := hv.oneIno
    lockIno ph d i h hi := by
      obtain ⟨rfl, rfl⟩ := hsole _ _ h
      exact hv.lockIno _ _ i hd hi
    incoming d h := by
      obtain ⟨rfl, rfl⟩ := hsole _ _ h
      exact absurd hrank (by simp [RunPhase.rank])
    gripIno := hv.gripIno
    oneGrip := hv.oneGrip
    readyLock d h hi := by
      obtain ⟨rfl, rfl⟩ := hsole _ _ h
      obtain rfl := hready rfl
      exact absurd ((hv.incoming _ hd).1.symm.trans hi) (by decide)
    processingLock d h := by
      obtain ⟨rfl, rfl⟩ := hsole _ _ h
      obtain ⟨_, hl, hi, _⟩ := hprocessing rfl
      exact ⟨hi, .inr hl⟩
    inputs d h := by
      obtain ⟨rfl, rfl⟩ := hsole _ _ h
      exact .inr (hprocessing rfl).2.2.2
    terminal ph d ht h := by
      obtain ⟨rfl, rfl⟩ := hsole _ _ h
      exact (hterminal ht).imp_right .inr
    publishedValid := hv.publishedValid
    final doc ph d hdoc h := by
      obtain ⟨rfl, rfl⟩ := hsole _ _ h
      obtain ⟨hr, hs⟩ | ht | hr := hv.final doc src _ hdoc hd
      · exact .inl ⟨by omega, hs⟩
      · exact absurd ((huntouched hsrc).symm.trans ht) (by simp)
      · exact .inr (.inr hr)
    unstarted hf hp := by
      refine ⟨fun d h => ?_, fun d h => ?_⟩
      · obtain ⟨rfl, rfl⟩ := hsole _ _ h
        obtain rfl := hready rfl
        exact absurd (hv.incoming _ hd).2 hp
      · obtain ⟨rfl, rfl⟩ := hsole _ _ h
        obtain ⟨rfl, _, _, x, hx⟩ := hprocessing rfl
        obtain ht | ⟨e, he⟩ := (hv.unstarted hf hp).1 _ hd
        · exact .inl ht
        · exact absurd (he.symm.trans (CoreDir.inputs_ok hx .ready)) (by simp)
    pass t ph h := absurd ((hidle t).symm.trans h) (by simp)
    touched ph d h hnt ht := by
      obtain ⟨rfl, rfl⟩ := hsole _ _ h
      exact absurd ((huntouched hsrc).symm.trans ht) (by simp) }

/-- The locks change, while no directory is being deleted. -/
theorem relock (hv : v.Inv config k) (hidle : ∀ t, v.pass t = none) {gs : List (Grip Tid)}
    (hg : ∀ g ∈ gs, g.ino = 0 ∧ v.nextIno = 1) (hone : gs.length ≤ 1) :
    ({ v with locks := gs } : View Tid).Inv config k where
  unique := hv.unique
  oneIno := hv.oneIno
  lockIno := hv.lockIno
  incoming := hv.incoming
  gripIno := hg
  oneGrip := hone
  readyLock := hv.readyLock
  processingLock := hv.processingLock
  inputs := hv.inputs
  terminal := hv.terminal
  publishedValid := hv.publishedValid
  final := hv.final
  unstarted := hv.unstarted
  pass t ph h := absurd ((hidle t).symm.trans h) (by simp)
  touched ph d h hnt ht := by
    obtain ⟨_, t, hp⟩ := hv.touched ph d h hnt ht
    exact absurd ((hidle t).symm.trans hp) (by simp)

theorem unlock (hv : v.Inv config k) (p : Grip Tid → Bool) :
    ({ v with locks := v.locks.filter p } : View Tid).Inv config k where
  unique := hv.unique
  oneIno := hv.oneIno
  lockIno := hv.lockIno
  incoming := hv.incoming
  gripIno g hg := hv.gripIno g (List.mem_filter.1 hg).1
  oneGrip := (List.length_filter_le _ _).trans hv.oneGrip
  readyLock := hv.readyLock
  processingLock := hv.processingLock
  inputs := hv.inputs
  terminal := hv.terminal
  publishedValid := hv.publishedValid
  final := hv.final
  unstarted := hv.unstarted
  pass t ph h := by
    obtain ⟨hnt, hd⟩ := hv.pass t ph h
    exact ⟨hnt, fun ph' d h' => ⟨(hd ph' d h').1, fun g hg =>
      (hd ph' d h').2 g (List.mem_filter.1 hg).1⟩⟩
  touched ph d h hnt ht := by
    obtain ⟨hl, hp⟩ := hv.touched ph d h hnt ht
    exact ⟨by simp [hl], hp⟩

/-- A ready run without a lock file is one whose lock was never opened. -/
theorem unopened (hv : v.Inv config k) (hd : v.dirs .ready = some D) (hnone : D.lock = none)
    (huntouched : D.touched = false) : v.nextIno = 0 := by
  have h1 := hv.oneIno
  by_contra hne
  have hl := hv.readyLock D hd (by omega)
  simp [huntouched, hnone] at hl

/-- The first process that opens the lock file of a ready run creates it. -/
theorem create (hv : v.Inv config k) (hd : v.dirs .ready = some D) (hnone : D.lock = none)
    (hidle : ∀ t, v.pass t = none) (hlock : D'.lock = some v.nextIno)
    (htouched : D'.touched = D.touched)
    (hinputs : ∀ ph', D'.inputs config k ph' = D.inputs config k ph') :
    ({ v.setDir .ready (some D') with nextIno := v.nextIno + 1 } : View Tid).Inv config k := by
  have huntouched : D.touched = false := by
    by_contra ht
    obtain ⟨_, t, hp⟩ := hv.touched .ready D hd rfl (by simpa using ht)
    exact absurd ((hidle t).symm.trans hp) (by simp)
  have hzero : v.nextIno = 0 := hv.unopened hd hnone huntouched
  have hsole : ∀ ph d, ({ v.setDir .ready (some D') with
      nextIno := v.nextIno + 1 } : View Tid).dirs ph = some d → ph = .ready ∧ d = D' :=
    fun ph d h => setDir_sole hv hd h
  exact {
    unique ph₁ ph₂ d₁ d₂ h₁ h₂ := by rw [(hsole _ _ h₁).1, (hsole _ _ h₂).1]
    oneIno := by simp [hzero]
    lockIno ph d i h hi := by
      obtain ⟨rfl, rfl⟩ := hsole _ _ h
      rw [hlock, hzero] at hi
      exact ⟨by simpa using hi.symm, by simp [hzero]⟩
    incoming d h := nomatch (hsole _ _ h).1
    gripIno g hg := absurd (hv.gripIno g hg).2 (by simp [hzero])
    oneGrip := hv.oneGrip
    readyLock d h _ := by
      obtain ⟨_, rfl⟩ := hsole _ _ h
      exact .inr (by rw [hlock, hzero])
    processingLock d h := nomatch (hsole _ _ h).1
    inputs d h := nomatch (hsole _ _ h).1
    terminal ph d ht h := by
      obtain ⟨rfl, rfl⟩ := hsole _ _ h
      exact nomatch ht
    publishedValid := hv.publishedValid
    final doc ph d hdoc h := by
      obtain ⟨rfl, rfl⟩ := hsole _ _ h
      have hf := (hv.final doc .ready D hdoc hd).resolve_left fun h' =>
        absurd h'.1 (by decide)
      exact .inr (hf.imp_left htouched.trans)
    unstarted hf hp := by
      refine ⟨fun d h => ?_, fun d h => (nomatch (hsole _ _ h).1)⟩
      obtain ⟨_, rfl⟩ := hsole _ _ h
      rw [htouched, hinputs]
      exact (hv.unstarted hf hp).1 D hd
    pass t ph h := absurd ((hidle t).symm.trans h) (by simp)
    touched ph d h hnt ht := by
      obtain ⟨rfl, rfl⟩ := hsole _ _ h
      exact absurd ((htouched.trans huntouched).symm.trans ht) (by simp) }

variable [DecidableEq Tid]

/-- The garbage collection of `t` goes on to delete the run. -/
theorem condemn (hv : v.Inv config k) (hd : v.dirs ph = some D) (hnt : ph.terminal = false)
    {t : Tid} (hg : ∀ g ∈ v.locks, g.tid = t) :
    ({ v with pass := Function.update v.pass t (some ph) } : View Tid).Inv config k where
  unique := hv.unique
  oneIno := hv.oneIno
  lockIno := hv.lockIno
  incoming := hv.incoming
  gripIno := hv.gripIno
  oneGrip := hv.oneGrip
  readyLock := hv.readyLock
  processingLock := hv.processingLock
  inputs := hv.inputs
  terminal := hv.terminal
  publishedValid := hv.publishedValid
  final := hv.final
  unstarted := hv.unstarted
  pass u ph' h := by
    by_cases hu : u = t
    · subst hu
      obtain rfl : ph = ph' := by simpa using h
      exact ⟨hnt, fun ph' d h' => ⟨hv.unique _ _ _ _ h' hd, hg⟩⟩
    · exact hv.pass u ph' (by simpa [hu] using h)
  touched ph' d h hnt' ht := by
    obtain ⟨hl, _⟩ := hv.touched ph' d h hnt' ht
    obtain rfl := hv.unique _ _ _ _ h hd
    exact ⟨hl, t, by simp⟩

/-- The garbage collection of `t` is over: nothing is left of what it deleted. -/
theorem release (hv : v.Inv config k) {t : Tid} (h : v.pass t = none ∨ ∀ ph, v.dirs ph = none) :
    ({ v with pass := Function.update v.pass t none } : View Tid).Inv config k := by
  obtain h | h := h
  · rw [← h, Function.update_eq_self]
    exact hv
  · exact {
      unique := hv.unique
      oneIno := hv.oneIno
      lockIno := hv.lockIno
      incoming := hv.incoming
      gripIno := hv.gripIno
      oneGrip := hv.oneGrip
      readyLock := hv.readyLock
      processingLock := hv.processingLock
      inputs := hv.inputs
      terminal := hv.terminal
      publishedValid := hv.publishedValid
      final := hv.final
      unstarted := hv.unstarted
      pass u ph' hp := by
        by_cases hu : u = t
        · subst hu
          simp at hp
        · exact hv.pass u ph' (by simpa [hu] using hp)
      touched ph d hd := absurd hd (by simp [h]) }

omit [DecidableEq Tid] in
/-- The garbage collection removes something from the directory. -/
theorem sweep (hv : v.Inv config k) (hd : v.dirs ph = some D)
    (hpass : ph.terminal = true ∨ v.locks = [] ∧ ∃ t, v.pass t = some ph)
    (hlock : D'.lock = D.lock ∨ D'.lock = none) (htouched : D'.touched = true) :
    (v.setDir ph (some D')).Inv config k := by
  have hsole : ∀ ph' d, (v.setDir ph (some D')).dirs ph' = some d → ph' = ph ∧ d = D' :=
    fun ph' d h => setDir_sole hv hd h
  have hall : ∀ ph' d, (v.setDir ph (some D')).dirs ph' = some d → d.touched = true := by
    intro ph' d h
    rw [(hsole ph' d h).2]
    exact htouched
  exact {
    unique ph₁ ph₂ d₁ d₂ h₁ h₂ := by rw [(hsole _ _ h₁).1, (hsole _ _ h₂).1]
    oneIno := hv.oneIno
    lockIno ph' d i h hi := by
      obtain ⟨rfl, rfl⟩ := hsole _ _ h
      obtain hl | hl := hlock
      · exact hv.lockIno ph' D i hd (hl ▸ hi)
      · exact absurd (hl.symm.trans hi) (by simp)
    incoming d h := by
      obtain ⟨rfl, rfl⟩ := hsole _ _ h
      exact hv.incoming D hd
    gripIno := hv.gripIno
    oneGrip := hv.oneGrip
    readyLock d h _ := .inl (hall _ d h)
    processingLock d h := by
      obtain ⟨rfl, rfl⟩ := hsole _ _ h
      exact ⟨(hv.processingLock D hd).1, .inl htouched⟩
    inputs d h := .inl (hall _ d h)
    terminal ph' d _ h := .inr (.inl (hall ph' d h))
    publishedValid := hv.publishedValid
    final doc ph' d _ h := .inr (.inl (hall ph' d h))
    unstarted _ _ := ⟨fun d h => .inl (hall _ d h), fun d h => .inl (hall _ d h)⟩
    pass t ph₀ h := by
      refine ⟨(hv.pass t ph₀ h).1, fun ph' d hd' => ?_⟩
      obtain ⟨rfl, rfl⟩ := hsole _ _ hd'
      exact (hv.pass t ph₀ h).2 ph' D hd
    touched ph' d h hnt _ := by
      obtain ⟨rfl, rfl⟩ := hsole _ _ h
      exact hpass.resolve_left (by simp [hnt]) }

omit [DecidableEq Tid] in
/-- The directory is removed. -/
theorem remove (hv : v.Inv config k) :
    ({ v with dirs := fun _ => none } : View Tid).Inv config k := by
  have hnone : ∀ ph d, ({ v with dirs := fun _ => none } : View Tid).dirs ph ≠ some d :=
    fun _ _ h => by simp at h
  exact {
    unique _ _ _ _ h := absurd h (hnone _ _)
    oneIno := hv.oneIno
    lockIno _ _ _ h := absurd h (hnone _ _)
    incoming _ h := absurd h (hnone _ _)
    gripIno := hv.gripIno
    oneGrip := hv.oneGrip
    readyLock _ h := absurd h (hnone _ _)
    processingLock _ h := absurd h (hnone _ _)
    inputs _ h := absurd h (hnone _ _)
    terminal _ _ _ h := absurd h (hnone _ _)
    publishedValid := hv.publishedValid
    final _ _ _ _ h := absurd h (hnone _ _)
    unstarted _ _ := ⟨fun _ h => absurd h (hnone _ _), fun _ h => absurd h (hnone _ _)⟩
    pass t ph h := ⟨(hv.pass t ph h).1, fun _ _ h' => absurd h' (hnone _ _)⟩
    touched _ _ h := absurd h (hnone _ _) }

end Inv

end View

end Purgery.Server
