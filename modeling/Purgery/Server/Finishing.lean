import Purgery.Server.Contention
import Purgery.Server.Scanning
import Purgery.Server.UploadSafety

namespace Purgery.Server

open Purgery.Interleaving

/-- The lease in the directory is one that `finish-run` accepts at this time. -/
def leased (config : ServerConfig) (k : RunKey) (now : Nat) (d : RunDir) : Bool :=
  match (d.file .lease).read with
  | .error _ => false
  | .ok doc => (acceptedLease config k "finish" doc).toOption.any
      fun lease => now < lease.expiresAtUnixSecs

theorem leased_iff {config : ServerConfig} {k : RunKey} {now : Nat} {d : RunDir} :
    leased config k now d = true ↔ ∃ doc lease, d.file .lease = .text doc ∧
      acceptedLease config k "finish" doc = .ok lease ∧ now < lease.expiresAtUnixSecs := by
  unfold leased
  cases hs : d.file .lease with
  | missing => simp [FileState.read]
  | unreadable e => simp [FileState.read]
  | text doc =>
    cases ha : acceptedLease config k "finish" doc with
    | error e => simp [FileState.read, ha, Except.toOption]
    | ok lease => simp [FileState.read, ha, Except.toOption]

section Upload

variable (config : ServerConfig) (k : RunKey)

/-- The part of `finish-run` that is left when no later phase has the run. -/
def acceptUpload : ExceptT String Call Unit := do
  if !(← ask (.dirExists .incoming)) then
    throw ("incoming directory does not exist for run " ++ runTitle k ++ " at '" ++
      config.workDir.runDir k .incoming ++ "'")
  else if !(← ask (.fileExists .incoming .lease)) then
    throw "cannot finish run: no lease file found, run may be incomplete"
  else
    let content ← io (sys (.read .incoming .lease)) fun _ => "failed to read lease file"
    let lease ← ExceptT.mk (pure (acceptedLease config k "finish" content))
    let now ← ask .unixNow
    if now ≥ lease.expiresAtUnixSecs then
      throw ("cannot finish run: incoming lease expired at " ++ toString lease.expiresAtUnixSecs)
    else if ← ask (.dirExists .ready) then
      throw ("ready directory already exists for run " ++ runTitle k ++ " at '" ++
        config.workDir.runDir k .ready ++ "'")
    else
      io (sys (.createParent .ready)) fun _ => "failed to create ready parent: " ++
        Path.join (config.workDir.nicknameDir k.nickname) "ready"
      io (sys (.move .incoming .ready)) fun _ => "failed to move incoming to ready: " ++
        config.workDir.runDir k .incoming ++ " -> " ++ config.workDir.runDir k .ready

/-- The phases in which `finish-run` takes the upload for accepted. -/
def laterPhases : List RunPhase := [.ready, .processing, .done, .failed]

theorem finishRun_run :
    (finishRun config k).run = inLaterPhase laterPhases >>= fun found =>
      if found then pure (.ok ()) else (acceptUpload config k).run := by
  have hassoc : ∀ f : Bool → ExceptT String Call Unit,
      (ExceptT.lift (inLaterPhase laterPhases) >>= f).run =
        inLaterPhase laterPhases >>= fun found => (f found).run := fun f => Prog.bind_assoc _ _ _
  refine (hassoc _).trans (congrArg _ (funext fun found => ?_))
  cases found <;> rfl

end Upload

section Accepted

variable {Tid : Type} [DecidableEq Tid] {host : Host} {config : ServerConfig} {k : RunKey} {t : Tid}
variable {w w' : RunWorld Tid} {r : Except String Unit}
variable {L : Log RunOp (fun o => o.Choice × Nat) (RunWorld Tid)}

/-- The upload is accepted if it is in `incoming` at every call. -/
def Accepted (L : Log RunOp (fun o => o.Choice × Nat) (RunWorld Tid)) (r : Except String Unit) :
    Prop :=
  (r = .ok () ∧ ∀ m ∈ L, m.1.dirs .incoming ≠ none) ∨
    r ≠ .ok () ∧ ∃ m ∈ L, m.1.dirs .incoming = none

omit [DecidableEq Tid] in
theorem Accepted.cons {m : RunWorld Tid × (o : RunOp) × (o.Choice × Nat)} (h : Accepted L r)
    (hm : m.1.dirs .incoming ≠ none) : Accepted (m :: L) r := by
  obtain ⟨hr, hall⟩ | ⟨hr, m', hm', hnone⟩ := h
  · exact .inl ⟨hr, List.forall_mem_cons.2 ⟨hm, hall⟩⟩
  · exact .inr ⟨hr, m', List.mem_cons_of_mem _ hm', hnone⟩

omit [DecidableEq Tid] in
theorem Accepted.missed {m : RunWorld Tid × (o : RunOp) × (o.Choice × Nat)} {e : String}
    (hm : m.1.dirs .incoming = none) : Accepted (m :: L) (.error e) :=
  .inr ⟨nofun, m, List.mem_cons_self, hm⟩

/-- A run that has left `incoming` before one call has left it before the next. -/
theorem Accepted.prepend {m : RunWorld Tid × (o : RunOp) × (o.Choice × Nat)} (h : Accepted L r)
    (hlater : ∃ m' ∈ L, Advance m.1 m'.1) : Accepted (m :: L) r := by
  by_cases hm : m.1.dirs .incoming = none
  · obtain ⟨m', hm', hadvance⟩ := hlater
    have hpast := hadvance.past .incoming (RunWorld.past_incoming hm)
    have hnone : m'.1.dirs .incoming = none := RunWorld.past_iff.1 hpast .incoming (le_refl _)
    obtain ⟨-, hall⟩ | ⟨hr, -⟩ := h
    · exact absurd hnone (hall m' hm')
    · exact .inr ⟨hr, m, List.mem_cons_self, hm⟩
  · exact h.cons hm

omit [DecidableEq Tid] in
theorem RunWorld.none_in_incoming {d : RunDir} (hi : w.view.Inv config k)
    (hd : w.dirs .ready = some d) : w.dirs .incoming = none := by
  refine Option.eq_none_iff_forall_ne_some.2 fun d' hd' => ?_
  exact nomatch hi.unique .ready .incoming d.core d'.core (by simp [RunWorld.view, hd])
    (by simp [RunWorld.view, hd'])

variable (config k) in
/-- The rename at the end of `finish-run`. -/
def acceptReady : ExceptT String Call Unit := do
  if ← ask (.dirExists .ready) then
    throw ("ready directory already exists for run " ++ runTitle k ++ " at '" ++
      config.workDir.runDir k .ready ++ "'")
  else
    io (sys (.createParent .ready)) fun _ => "failed to create ready parent: " ++
      Path.join (config.workDir.nicknameDir k.nickname) "ready"
    io (sys (.move .incoming .ready)) fun _ => "failed to move incoming to ready: " ++
      config.workDir.runDir k .incoming ++ " -> " ++ config.workDir.runDir k .ready

theorem acceptReady_accepted
    (h : Overtaken (watchScene host config k (fun _ => true) t Clear) (acceptReady config k).run w
      L r w') : Accepted L r ∧ ∃ m ∈ L, Advance w m.1 := by
  rw [acceptReady, ask_run_bind] at h
  obtain ⟨w₁, x, now, L₁, rfl, h₁, -, h⟩ := Overtaken.first h
  refine ⟨?_, _, List.mem_cons_self, h₁.advance⟩
  simp only [RunOp.run] at h
  cases hd₁ : w₁.dirs .ready with
  | some d₁ =>
    -- the run is in `ready`, and so it is not in `incoming`
    simp only [hd₁, Option.isSome_some, if_true] at h
    obtain ⟨rfl, rfl, -⟩ := h.ret_inv
    exact .missed (RunWorld.none_in_incoming h₁.inv hd₁)
  | none =>
    simp only [hd₁, Option.isSome_none, Bool.false_eq_true, if_false, io_run_bind] at h
    obtain ⟨w₂, x₂, now₂, L₂, rfl, h₂, -, h⟩ := Overtaken.first h
    simp only [RunOp.run, Except.mapError, checked_run] at h
    obtain ⟨w₃, x₃, now₃, L₃, rfl, h₃, -, h⟩ := Overtaken.first h
    refine Accepted.prepend (Accepted.prepend ?_ ?_) ?_
    · cases hd₃ : w₃.dirs .incoming with
      | none =>
        simp only [RunOp.run, hd₃] at h
        obtain ⟨rfl, rfl, -⟩ := h.ret_inv
        exact .missed hd₃
      | some d₃ =>
        cases hr₃ : w₃.dirs .ready with
        | none =>
          simp only [RunOp.run, hd₃, hr₃] at h
          obtain ⟨rfl, rfl, -⟩ := h.ret_inv
          exact .inl ⟨rfl, by simp [hd₃]⟩
        | some d => cases hd₃.symm.trans (RunWorld.none_in_incoming h₃.inv hr₃)
    · exact ⟨_, List.mem_cons_self, h₃.advance⟩
    · exact ⟨_, List.mem_cons_self, h₂.advance⟩

theorem acceptUpload_accepted
    (h : Overtaken (watchScene host config k (fun _ => true) t Clear) (acceptUpload config k).run w
      L r w')
    (hleased : ∀ m ∈ L, ∀ m' ∈ L, ∀ d, m.1.dirs .incoming = some d →
      leased config k m'.2.2.2 d = true) : Accepted L r := by
  rw [acceptUpload, ask_run_bind] at h
  obtain ⟨w₁, x, now, L₁, rfl, h₁, -, h⟩ := Overtaken.first h
  simp only [RunOp.run] at h
  cases hd₁ : w₁.dirs .incoming with
  | none =>
    simp only [hd₁] at h
    obtain ⟨rfl, rfl, -⟩ := h.ret_inv
    exact .missed hd₁
  | some d₁ =>
  refine Accepted.cons ?_ (by simp [hd₁])
  simp only [hd₁, Option.isSome_some, Bool.not_true, Bool.false_eq_true, if_false] at h
  rw [ask_run_bind] at h
  obtain ⟨w₂, x₂, now₂, L₂, rfl, h₂, -, h⟩ := Overtaken.first h
  simp only [RunOp.run] at h
  cases hd₂ : w₂.dirs .incoming with
  | none =>
    simp only [hd₂] at h
    obtain ⟨rfl, rfl, -⟩ := h.ret_inv
    exact .missed hd₂
  | some d₂ =>
  refine Accepted.cons ?_ (by simp [hd₂])
  obtain ⟨doc₂, lease₂, hlease₂, -, -⟩ :=
    leased_iff.1 (hleased _ (.tail _ (.head _)) _ (.head _) d₂ hd₂)
  have hhas : d₂.has (.file .lease) = true := by simp [RunDir.has, hlease₂, FileState.isMissing]
  simp only [hd₂, Option.any_some, hhas, Bool.not_true, Bool.false_eq_true, if_false,
    io_run_bind] at h
  obtain ⟨w₃, x₃, now₃, L₃, rfl, h₃, -, h⟩ := Overtaken.first h
  simp only [RunOp.run, RunWorld.look] at h
  cases hd₃ : w₃.dirs .incoming with
  | none =>
    simp only [hd₃] at h
    obtain ⟨rfl, rfl, -⟩ := h.ret_inv
    exact .missed hd₃
  | some d₃ =>
  refine Accepted.cons ?_ (by simp [hd₃])
  have hleased₃ := fun m' hm' => hleased _ (.tail _ (.tail _ (.head _))) m'
    (.tail _ (.tail _ (.tail _ hm'))) d₃ hd₃
  obtain ⟨doc₃, lease₃, hlease₃, haccepted, -⟩ :=
    leased_iff.1 (hleased _ (.tail _ (.tail _ (.head _))) _ (.head _) d₃ hd₃)
  simp only [hd₃, hlease₃, FileState.read, Except.mapError, checked_run, haccepted] at h
  rw [ask_run_bind] at h
  obtain ⟨w₄, x₄, now₄, L₄, rfl, h₄, -, h⟩ := Overtaken.first h
  obtain ⟨doc₄, lease₄, hlease₄, haccepted₄, hlater⟩ := leased_iff.1 (hleased₃ _ (.head _))
  obtain rfl : doc₄ = doc₃ := FileState.text.inj (hlease₄.symm.trans hlease₃)
  obtain rfl : lease₄ = lease₃ := Except.ok.inj (haccepted₄.symm.trans haccepted)
  have hnow : ¬ (RunOp.unixNow.run host t x₄.2 now₄ w₄).1 ≥ lease₄.expiresAtUnixSecs :=
    not_le.2 hlater
  rw [if_neg hnow] at h
  obtain ⟨haccepts, m, hm, hadvance⟩ := acceptReady_accepted h
  exact haccepts.prepend ⟨m, hm, hadvance⟩

end Accepted

section Retry

variable {Tid : Type} [DecidableEq Tid] {host : Host} {config : ServerConfig} {k : RunKey} {t : Tid}
variable {L : List (Step Tid)}

/-- From its test of `incoming` on, process `t` finds the run there at each of
its steps. -/
def FindsIncoming (k : RunKey) (t : Tid) (H : List (Step Tid)) (m : Step Tid) : Prop :=
  ∀ o x, m.2 = .call t (.run k o) x →
    (o = .dirExists .incoming ∨ ∃ W x, (W, .call t (.run k (.dirExists .incoming)) x) ∈ H) →
    (m.1.runs k).dirs .incoming ≠ none

/-- As long as the run is in `incoming`, its lease is accepted and not over. -/
def LeasedAlong (config : ServerConfig) (k : RunKey) (L : List (Step Tid)) : Prop :=
  ∀ m ∈ L, ∀ m' ∈ L, ∀ d, (m.1.runs k).dirs .incoming = some d →
    leased config k m'.1.clock d = true

theorem only_inLaterPhase {phases : List RunPhase} (h : RunPhase.incoming ∉ phases) :
    (inLaterPhase phases).Only fun o => o ≠ .dirExists .incoming := by
  induction phases with
  | nil => trivial
  | cons ph rest ih =>
    have hne : ph ≠ .incoming := fun he => h (he ▸ List.mem_cons_self)
    refine ⟨fun ho => hne (RunOp.dirExists.inj ho), fun found => ?_⟩
    cases found with
    | true => trivial
    | false => exact ih fun hm => h (List.mem_cons_of_mem _ hm)

/-- No step of `t` here is its test of `incoming`. -/
def Untested (k : RunKey) (t : Tid) (A : List (Step Tid)) : Prop :=
  ∀ W x, (W, .call t (.run k (.dirExists .incoming)) x) ∉ A

theorem always_untested {A : List (Step Tid)} (hA : Untested k t A) :
    Always (FindsIncoming k t) [] A := by
  rintro L₁ ⟨W, d⟩ L₂ rfl o x rfl (rfl | ⟨W', x', hm⟩)
  · exact absurd (List.mem_append_right _ List.mem_cons_self) (hA W x)
  · exact absurd (List.mem_append_left _ hm) (hA W' x')

/-- From the test on, every step of `t` is to find the run in `incoming`. -/
theorem always_tested {A B : List (Step Tid)} {W : World Tid}
    {x : (ServerOp.run k (.dirExists .incoming)).Choice} (hA : Untested k t A) :
    Always (FindsIncoming k t) [] (A ++ (W, .call t (.run k (.dirExists .incoming)) x) :: B) ↔
      ∀ m ∈ (W, .call t (.run k (.dirExists .incoming)) x) :: B, ∀ o x,
        m.2 = .call t (.run k o) x → (m.1.runs k).dirs .incoming ≠ none := by
  constructor
  · intro h m hm o y hcall
    obtain ⟨B₁, B₂, hsplit⟩ := List.append_of_mem hm
    refine h (A ++ B₁) m B₂ (by rw [hsplit, List.append_assoc]) o y hcall ?_
    cases B₁ with
    | nil =>
      obtain ⟨rfl, rfl⟩ := List.cons.inj hsplit
      cases hcall
      exact .inl rfl
    | cons m' B₁ =>
      obtain ⟨rfl, rfl⟩ := List.cons.inj hsplit
      exact .inr ⟨W, x, List.mem_append_right _ (List.mem_append_right _ List.mem_cons_self)⟩
  · rintro h L₁ m L₂ hsplit o y hcall hlooked
    refine h m ?_ o y hcall
    obtain ⟨A', rfl, hrest⟩ | ⟨C, rfl, hrest⟩ := List.append_eq_append_iff.1 hsplit
    · rw [hrest]
      exact List.mem_append_right _ List.mem_cons_self
    · cases C with
      | nil =>
        obtain ⟨rfl, -⟩ := List.cons.inj hrest
        exact List.mem_cons_self
      | cons m' C =>
        obtain ⟨rfl, -⟩ := List.cons.inj hrest
        obtain ⟨V, d⟩ := m
        cases hcall
        obtain rfl | ⟨W', x', hm⟩ := hlooked
        · exact absurd (List.mem_append_right _ List.mem_cons_self) (hA V y)
        · exact absurd (List.mem_append_left _ hm) (hA W' x')

/-- A finish returns `Ok` exactly when it finds the run in a later phase at
first, or in `incoming` at each step from its test on. -/
theorem finish_retries {c c' : Config Tid ServerOp ServerOp.Res (World Tid)}
    {f : Except String Unit → Action Unit} {r : Except String Unit}
    (h : Reachable (server host config) (smoothPolicy host) c)
    (hperf : Performs (server host config) (smoothPolicy host) t f
      (onRun k (finishRun config k).run) c L r c')
    (hleased : LeasedAlong config k L) :
    r = .ok () ↔ Always (FindsIncoming k t) [] L := by
  rw [finishRun_run, onRun, Embedding.embed_bind] at hperf
  obtain ⟨found, c₁, L₁, L₂, rfl, hlook, hrest⟩ := hperf.bind_inv
  have hL₁ : Untested k t L₁ := by
    intro W x hm
    have honly : (onRun k (inLaterPhase laterPhases)).Only
        fun o => o ≠ .run k (.dirExists .incoming) :=
      (only_inLaterPhase (by decide)).embed _ fun o ho he => ho (by cases he; rfl)
    exact hlook.only honly W _ x hm rfl
  cases found with
  | true =>
    obtain ⟨rfl, hothers⟩ := hrest.ret_inv
    refine iff_of_true rfl (always_untested fun W x hm => ?_)
    obtain hm | hm := List.mem_append.1 hm
    · exact hL₁ W x hm
    · exact hothers _ hm rfl
  | false =>
    have hr₁ := h.course hlook.course
    obtain ⟨L', hL', hlog⟩ := Performs.watched Clear hr₁ hrest fun _ _ _ _ hx => smoothPolicy_clear hx
    obtain ⟨A, c₂, x, c₃, B, rfl, hA, -, -, -⟩ := hrest.call_inv
    have hleased' : ∀ m ∈ L', ∀ m' ∈ L', ∀ d, m.1.dirs .incoming = some d →
        leased config k m'.2.2.2 d = true := by
      rintro ⟨w, o, y⟩ hm ⟨w', o', y'⟩ hm' d hd
      obtain ⟨W, z, hW, rfl, -⟩ := hlog.made w o y hm
      obtain ⟨W', z', hW', -, rfl⟩ := hlog.made w' o' y' hm'
      exact hleased _ (List.mem_append_right _ hW) _ (List.mem_append_right _ hW') d hd
    have hA' : Untested k t (L₁ ++ A) := by
      intro W y hm
      obtain hm | hm := List.mem_append.1 hm
      · exact hL₁ W y hm
      · exact hA _ hm rfl
    have htested := always_tested (B := B) (W := c₂.world) (x := x) hA'
    rw [List.append_assoc] at htested
    refine Iff.trans ?_ htested.symm
    obtain ⟨rfl, hall⟩ | ⟨hr, ⟨w, o, y⟩, hm, hnone⟩ := acceptUpload_accepted hL' hleased'
    · refine iff_of_true rfl ?_
      rintro ⟨W, _⟩ hm o y rfl
      obtain ⟨o', y', ho, hm'⟩ := hlog.kept W (.run k o) y (List.mem_append_right _ hm)
      exact hall _ hm'
    · refine iff_of_false hr fun hfinds => ?_
      obtain ⟨W, z, hW, rfl, -⟩ := hlog.made w o y hm
      obtain hW | hW := List.mem_append.1 hW
      · exact hA _ hW rfl
      · exact hfinds _ hW o z rfl hnone

end Retry

section Sample

/-- The leased upload, and process `false` about to finish it. -/
def uploaded : Config Bool ServerOp ServerOp.Res (World Bool) :=
  (⟨worldWith Bool (leasedRun 500) 100 .incoming, fun _ => none⟩ :
    Config Bool ServerOp ServerOp.Res (World Bool)).put false
      (some (discard (onRun sampleKey (finishRun sampleConfig sampleKey).run)))
      (worldWith Bool (leasedRun 500) 100 .incoming)

theorem uploaded_reachable :
    Reachable (server sampleHost sampleConfig) (smoothPolicy sampleHost) uploaded := by
  have hstart : Reachable (server sampleHost sampleConfig) (smoothPolicy sampleHost)
      ⟨worldWith Bool (leasedRun 500) 100 .incoming, fun _ => none⟩ :=
    .init (worldWith_init Bool (.inl rfl) ⟨rfl, rfl, rfl⟩ _ _)
  exact hstart.spawn (t := false) rfl (.finish sampleKey)

/-- Process `false` finishes the upload by a schedule, with this answer. -/
def finishes (schedule : List (Entry Bool)) (ok : Bool) : Bool :=
  (follow (smoothPolicy sampleHost) false (fun _ => pure ()) schedule
    (onRun sampleKey (finishRun sampleConfig sampleKey).run) uploaded).any fun (L, r, _) =>
      (r.toOption.isSome == ok) && L.all fun m => L.all fun m' =>
        ((m.1.runs sampleKey).dirs .incoming).all (leased sampleConfig sampleKey m'.1.clock)

theorem exists_finish (schedule : List (Entry Bool)) (ok : Bool)
    (h : finishes schedule ok = true) :
    ∃ L r c', Performs (server sampleHost sampleConfig) (smoothPolicy sampleHost) false
      (fun _ => pure ()) (onRun sampleKey (finishRun sampleConfig sampleKey).run) uploaded L r c' ∧
        LeasedAlong sampleConfig sampleKey L ∧ r.toOption.isSome = ok := by
  obtain ⟨⟨L, r, c'⟩, hfollow, htest⟩ := (Option.any_eq_true _ _).1 h
  simp only [Bool.and_eq_true, beq_iff_eq, List.all_eq_true] at htest
  obtain ⟨hr, hleased⟩ := htest
  refine ⟨L, r, c', .of_follow hfollow (by simp [uploaded, Config.put, discard]), ?_, hr⟩
  intro m hm m' hm' d hd
  have hall := hleased m hm m' hm'
  rwa [hd, Option.all_some] at hall

/-- Another finish moves the upload before this one looks for later phases. -/
theorem finish_retries_overtaken :
    ∃ L r c', Performs (server sampleHost sampleConfig) (smoothPolicy sampleHost) false
      (fun _ => pure ()) (onRun sampleKey (finishRun sampleConfig sampleKey).run) uploaded L r c' ∧
        (r = .ok () ↔ Always (FindsIncoming sampleKey false) [] L) ∧ r.toOption.isSome = true := by
  obtain ⟨L, r, c', hperf, hleased, hr⟩ := exists_finish
    ([.spawn true ⟨_, .finish sampleKey⟩] ++ steps true 11 (fun _ => false) ++
      steps false 1 fun _ => false) true (by decide +kernel)
  exact ⟨L, r, c', hperf, finish_retries uploaded_reachable hperf hleased, hr⟩

/-- Both finishes have found no later phase when the first one moves the upload;
the second one then misses the incoming directory. -/
theorem finish_overlaps :
    Reachable (server sampleHost sampleConfig) (smoothPolicy sampleHost) uploaded ∧
      ∃ L r c', Performs (server sampleHost sampleConfig) (smoothPolicy sampleHost) false
        (fun _ => pure ()) (onRun sampleKey (finishRun sampleConfig sampleKey).run) uploaded L r c' ∧
          LeasedAlong sampleConfig sampleKey L ∧ r ≠ .ok () := by
  obtain ⟨L, r, c', hperf, hleased, hr⟩ := exists_finish
    (steps false 4 (fun _ => false) ++ [.spawn true ⟨_, .finish sampleKey⟩] ++
      steps true 11 (fun _ => false) ++ steps false 1 fun _ => false) false (by decide +kernel)
  refine ⟨uploaded_reachable, L, r, c', hperf, hleased, ?_⟩
  rintro rfl
  exact nomatch hr

end Sample

end Purgery.Server
