import Purgery.Core.Containment
import Purgery.Server.Effect
import Purgery.Server.Intake.Locking

namespace Purgery

/-- The target of the plan does not depend on a working directory. -/
def ResolvedDestinationPlan.anchored (p : ResolvedDestinationPlan) : Bool :=
  Path.isAbsolute p.targetPath && Path.isAbsolute p.targetDirectory

theorem Path.isAbsolute_parent {p q : String} (hp : Path.isAbsolute p = true)
    (h : Path.parent p = some q) : Path.isAbsolute q = true := by
  unfold Path.parent at h
  split at h
  · exact nomatch h
  · cases h
    rw [if_pos hp]
    simp [Path.isAbsolute]

/-- The plan of an absolute destination. -/
theorem resolveDestination_anchored {operand : DestinationPath} {entryPath : NormalizedRelativePath}
    {kind : ManifestEntryKind} {empty : Bool} {state : DestinationState}
    {p : ResolvedDestinationPlan} (hp : Path.isAbsolute operand.path = true)
    (h : resolveDestination operand entryPath kind empty state = .ok p) : p.anchored = true := by
  have htarget : ∀ b : Bool, Path.isAbsolute
      (if b then Path.join operand.path entryPath.asStr else operand.path) = true := by
    intro b
    cases b with
    | false => exact hp
    | true => exact Path.isAbsolute_join hp
  simp only [resolveDestination] at h
  split at h
  · exact nomatch h
  split at h
  · exact nomatch h
  split at h
  · exact nomatch h
  split at h
  · exact nomatch h
  · rename_i hparent
    cases h
    simp only [ResolvedDestinationPlan.anchored, Bool.and_eq_true]
    exact ⟨htarget _, Path.isAbsolute_parent (htarget _) hparent⟩

/-- The destination of the run does not depend on a working directory. -/
def RunConfig.anchored (c : RunConfig) : Bool := Path.isAbsolute c.destination.path

namespace Server

open Purgery.Interleaving

/-- What the file parses to, if it does, satisfies `p`. -/
def FileState.all {f : FileName} (p : f.Content → Bool) : FileState f → Bool
  | .text d => d.parsed.toOption.all p
  | _ => true

theorem FileState.all_text {f : FileName} {p : f.Content → Bool} {s : FileState f}
    (h : s.all p = true) {d : Doc f.Content} {a : f.Content} (hd : s = .text d)
    (ha : d.parsed = .ok a) : p a = true := by
  subst hd
  simpa [FileState.all, ha, Except.toOption] using h

/-- The destination that the run has, or has settled on, is absolute. -/
def RunDir.anchored (d : RunDir) : Bool :=
  (d.file .runConfig).all RunConfig.anchored &&
    (d.file .plan).all ResolvedDestinationPlan.anchored

structure RunWorld.Anchored {Tid : Type} (w : RunWorld Tid) : Prop where
  dirs : ∀ ph d, ph ≠ .incoming → w.dirs ph = some d → d.anchored = true
  tmps : ∀ ph d, w.dirs ph = some d → (d.tmp .plan).all ResolvedDestinationPlan.anchored = true

/-- What a step may do to the destination of a run. -/
structure RunDir.Onward (ph : RunPhase) (d d' : RunDir) : Prop where
  runConfig : ph ≠ .incoming →
    d'.file .runConfig = d.file .runConfig ∨ d'.file .runConfig = .missing
  plan : ph ≠ .incoming →
    d'.file .plan = d.file .plan ∨ d'.file .plan = d.tmp .plan ∨ d'.file .plan = .missing
  tmp : d'.tmp .plan = d.tmp .plan ∨
    (d'.tmp .plan).all ResolvedDestinationPlan.anchored = true

theorem RunDir.Onward.refl (ph : RunPhase) (d : RunDir) : d.Onward ph d :=
  ⟨fun _ => .inl rfl, fun _ => .inl rfl, .inl rfl⟩

theorem RunDir.Onward.of_files {ph : RunPhase} {d d' d'' : RunDir} (h : d.Onward ph d') (hfile : d''.file = d'.file)
    (htmp : d''.tmp = d'.tmp) : d.Onward ph d'' :=
  ⟨by rw [hfile]; exact h.runConfig, by rw [hfile]; exact h.plan, by rw [htmp]; exact h.tmp⟩

/-- The calls that code makes with destinations it has seen to be absolute. -/
def RunOp.Steady (o : RunOp) : Prop :=
  o.Follows (fun p => p.anchored = true) ∧ ∀ ph, o = .publish ph .runConfig → ph = .incoming

/-- An incoming run is moved on with an absolute destination only, and a plan
file that is cut short does not parse to another plan. -/
def RunOp.anchors {Tid : Type} (w : RunWorld Tid) : (o : RunOp) → o.Choice → Bool
  | .move .incoming _, _ => (w.dirs .incoming).all RunDir.anchored
  | .openTmp _ .plan, (_, torn) =>
    (FileState.ofTorn torn : FileState .plan).all ResolvedDestinationPlan.anchored
  | _, _ => true

variable {Tid : Type} {w w' : RunWorld Tid} {ph : RunPhase} {d d' : RunDir}

namespace RunWorld.Anchored

theorem of_dirs (hw : w.Anchored) (h : w'.dirs = w.dirs) : w'.Anchored :=
  ⟨fun ph d hph hd => hw.dirs ph d hph (h ▸ hd), fun ph d hd => hw.tmps ph d (h ▸ hd)⟩

theorem update (hw : w.Anchored) (hd : w.dirs ph = some d) (hon : d.Onward ph d')
    (h : w'.dirs = Function.update w.dirs ph (some d')) : w'.Anchored := by
  constructor
  · intro ph' e hph he
    by_cases hne : ph' = ph
    · subst hne
      obtain rfl : d' = e := by simpa [h] using he
      have hanchored := hw.dirs ph' d hph hd
      have htmp := hw.tmps ph' d hd
      simp only [RunDir.anchored, Bool.and_eq_true] at hanchored ⊢
      refine ⟨?_, ?_⟩
      · obtain hr | hr := hon.runConfig hph
        · rw [hr]
          exact hanchored.1
        · rw [hr]
          rfl
      · obtain hp | hp | hp := hon.plan hph
        · rw [hp]
          exact hanchored.2
        · rw [hp]
          exact htmp
        · rw [hp]
          rfl
    · exact hw.dirs ph' e hph (by simpa [h, hne] using he)
  · intro ph' e he
    by_cases hne : ph' = ph
    · subst hne
      obtain rfl : d' = e := by simpa [h] using he
      obtain ht | ht := hon.tmp
      · rw [ht]
        exact hw.tmps ph' d hd
      · exact ht
    · exact hw.tmps ph' e (by simpa [h, hne] using he)

theorem setDir (hw : w.Anchored) (hd : w.dirs ph = some d) (hon : d.Onward ph d') :
    (w.setDir ph (some d')).Anchored := hw.update hd hon rfl

theorem remove (hw : w.Anchored) (h : w'.dirs = Function.update w.dirs ph none) :
    w'.Anchored := by
  have hback : ∀ ph' e, w'.dirs ph' = some e → w.dirs ph' = some e := by
    intro ph' e he
    by_cases hne : ph' = ph
    · subst hne
      simp [h] at he
    · simpa [h, hne] using he
  exact ⟨fun ph' e hph he => hw.dirs ph' e hph (hback ph' e he),
    fun ph' e he => hw.tmps ph' e (hback ph' e he)⟩

theorem map (hw : w.Anchored) {f : RunDir → RunDir} (hon : ∀ d : RunDir, d.Onward ph (f d)) :
    (w.setDir ph ((w.dirs ph).map f)).Anchored := by
  cases hd : w.dirs ph with
  | none => exact hw.of_dirs (Function.update_eq_self_iff.2 hd.symm)
  | some d => exact hw.setDir hd (hon d)

theorem change (hw : w.Anchored) {f : RunDir → Except IoError RunDir}
    (hon : ∀ d d' : RunDir, f d = .ok d' → d.Onward ph d') : (w.change ph f).2.Anchored := by
  unfold RunWorld.change
  split
  · exact hw
  · split
    · exact hw
    · exact hw.setDir ‹_› (hon _ _ ‹_›)

theorem moved (hw : w.Anchored) {src dst : RunPhase} (hd : w.dirs src = some d)
    (hd' : dst ≠ .incoming → d.anchored = true) :
    ((w.setDir src none).setDir dst (some d)).Anchored := by
  have hback : ∀ ph e, ((w.setDir src none).setDir dst (some d)).dirs ph = some e →
      ph = dst ∧ e = d ∨ w.dirs ph = some e := by
    intro ph e he
    by_cases hne : ph = dst
    · subst hne
      exact .inl ⟨rfl, by simpa [RunWorld.setDir] using he.symm⟩
    · by_cases hs : ph = src
      · subst hs
        simp [RunWorld.setDir, hne] at he
      · exact .inr (by simpa [RunWorld.setDir, hne, hs] using he)
  constructor
  · intro ph e hph he
    obtain ⟨rfl, rfl⟩ | he := hback ph e he
    · exact hd' hph
    · exact hw.dirs ph e hph he
  · intro ph e he
    obtain ⟨rfl, rfl⟩ | he := hback ph e he
    · exact hw.tmps src e hd
    · exact hw.tmps ph e he

/-- A directory without files. -/
theorem add (hw : w.Anchored) (hfile : ∀ f, d.file f = .missing) (htmp : ∀ f, d.tmp f = .missing)
    (h : w'.dirs = Function.update w.dirs ph (some d)) : w'.Anchored := by
  have hback : ∀ ph' e, w'.dirs ph' = some e → e = d ∨ w.dirs ph' = some e := by
    intro ph' e he
    by_cases hne : ph' = ph
    · subst hne
      exact .inl (by simpa [h] using he.symm)
    · exact .inr (by simpa [h, hne] using he)
  constructor
  · intro ph' e hph he
    obtain rfl | he := hback ph' e he
    · simp [RunDir.anchored, hfile, FileState.all]
    · exact hw.dirs ph' e hph he
  · intro ph' e he
    obtain rfl | he := hback ph' e he
    · simp [htmp, FileState.all]
    · exact hw.tmps ph' e he

theorem createWorkDirs (hw : w.Anchored) {now : Nat} {paths : List String} :
    (w.createWorkDirs now paths).Anchored := by
  unfold RunWorld.createWorkDirs
  split
  · rename_i d hd
    exact hw.setDir hd ((RunDir.Onward.refl .processing d).of_files rfl rfl)
  · exact hw.add (fun _ => rfl) (fun _ => rfl) rfl

end RunWorld.Anchored

namespace RunDir.Onward

theorem openTmp {f : FileName} {torn : Except String (Doc f.Content)} {now : Nat}
    (h : f = .plan → (Function.update d.tmp f (FileState.ofTorn torn) .plan).all
      ResolvedDestinationPlan.anchored = true) : d.Onward ph (d.openTmp f torn now) := by
  have htmp : Function.update d.tmp f (FileState.ofTorn torn) .plan = d.tmp .plan ∨
      (Function.update d.tmp f (FileState.ofTorn torn) .plan).all
        ResolvedDestinationPlan.anchored = true := by
    by_cases hf : f = .plan
    · exact .inr (h hf)
    · exact .inl (Function.update_of_ne (Ne.symm hf) _ _)
  unfold RunDir.openTmp
  split
  · exact { refl ph d with tmp := htmp }
  · exact { refl ph d with tmp := htmp }

theorem publish {f : FileName} {now : Nat} (h : f = .runConfig → ph = .incoming) :
    d.Onward ph (d.publish f now) := by
  cases f with
  | runConfig => exact ⟨fun hph => absurd (h rfl) hph, fun _ => .inl rfl, .inl rfl⟩
  | plan => exact ⟨fun _ => .inl rfl, fun _ => .inr (.inl rfl), .inr rfl⟩
  | _ => exact ⟨fun _ => .inl rfl, fun _ => .inl rfl, .inl rfl⟩

theorem without (e : RunEntry) : d.Onward ph (d.without e) := by
  cases e with
  | file f =>
    cases f with
    | runConfig => exact ⟨fun _ => .inr rfl, fun _ => .inl rfl, .inl rfl⟩
    | plan => exact ⟨fun _ => .inl rfl, fun _ => .inr (.inr rfl), .inl rfl⟩
    | _ => exact ⟨fun _ => .inl rfl, fun _ => .inl rfl, .inl rfl⟩
  | tmp f =>
    cases f with
    | plan => exact ⟨fun _ => .inl rfl, fun _ => .inl rfl, .inr rfl⟩
    | _ => exact ⟨fun _ => .inl rfl, fun _ => .inl rfl, .inl rfl⟩
  | _ => exact ⟨fun _ => .inl rfl, fun _ => .inl rfl, .inl rfl⟩

theorem removeEntry {e : RunEntry} {now : Nat} (h : d.removeEntry e now = .ok d') :
    d.Onward ph d' := by
  unfold RunDir.removeEntry at h
  split at h
  · cases h
    exact (without e).of_files rfl rfl
  · exact nomatch h

/-- The calls that `Edit` describes well enough. -/
theorem of_edit {o : RunOp} (he : Edit o ph d d') (ho : o.Steady)
    (hopen : o ≠ .openTmp ph .plan) (hremove : o ≠ .removeTmp ph .plan)
    (hpublish : ∀ f, o ≠ .publish ph f) : d.Onward ph d' where
  runConfig _ := by
    obtain h | ⟨rfl, -⟩ | ⟨-, h⟩ := he.file .runConfig
    · exact .inl h
    · exact absurd rfl (hpublish _)
    · exact .inr h
  plan _ := by
    obtain h | ⟨rfl, -⟩ | ⟨-, h⟩ := he.file .plan
    · exact .inl h
    · exact absurd rfl (hpublish _)
    · exact .inr (.inr h)
  tmp := by
    obtain h | rfl | ⟨dir, doc, rfl, h⟩ | rfl | rfl := he.tmp .plan
    · exact .inl h
    · exact absurd rfl hopen
    · right
      rw [h]
      cases hp : doc.parsed with
      | error e => simp [FileState.all, hp, Except.toOption]
      | ok p => simpa [FileState.all, hp, Except.toOption] using ho.1 p hp
    · exact absurd rfl (hpublish _)
    · exact absurd rfl hremove

end RunDir.Onward

variable [DecidableEq Tid] {t : Tid}

/-- A call keeps the destinations of accepted runs absolute. -/
theorem RunOp.step_anchored (host : Host) {o : RunOp} (ho : o.Steady) {x : o.Choice} (now : Nat)
    (hx : RunOp.anchors w o x = true) (hw : w.Anchored) : (o.step host t x now w).2.Anchored := by
  by_cases hs : o.succeeds x.1 = true
  swap
  · obtain ⟨failure, x⟩ := x
    cases failure with
    | none => simp [RunOp.succeeds] at hs
    | some m =>
      have hf : o.fallible = true := by simpa [RunOp.succeeds] using hs
      rw [RunOp.step_fault host hf m x]
      exact hw.of_dirs rfl
  rw [RunOp.step_run host x now hs]
  cases o with
  | openTmp ph f =>
    simp only [RunOp.run]
    split
    · exact hw
    · refine hw.setDir ‹_› (.openTmp ?_)
      rintro rfl
      rw [Function.update_self]
      exact hx
  | publish ph f =>
    simp only [RunOp.run]
    split
    · exact hw
    · rename_i d hd
      split
      · exact (hw.setDir hd (.publish fun hf => ho.2 ph (by rw [hf]))).of_dirs rfl
      · exact hw
  | removeTmp ph f => exact hw.change fun _ _ h => .removeEntry h
  | unlink dir e =>
    simp only [RunOp.run]
    split
    · exact hw
    · split
      · exact hw
      · split
        · exact hw
        · split
          · exact hw
          · exact hw.setDir ‹_› ((RunDir.Onward.without e).of_files rfl rfl)
  | rmdir ph =>
    simp only [RunOp.run]
    split
    · exact hw.of_dirs rfl
    · split
      · exact hw.remove rfl
      · exact hw.of_dirs rfl
  | createWork => exact hw.createWorkDirs
  | createWorkParent path => exact hw.createWorkDirs
  | move src dst =>
    simp only [RunOp.run]
    split
    · exact hw
    · exact hw
    · rename_i d hd hfree
      refine hw.moved hd fun _ => ?_
      by_cases hsrc : src = .incoming
      · subst hsrc
        simpa [RunOp.anchors, hd] using hx
      · exact hw.dirs src d hsrc hd
  | _ =>
    cases RunOp.run_effect host t rfl x.2 now w with
    | same h => exact hw.of_dirs h
    | edit ph d d' hd he h => exact hw.update hd (.of_edit he ho (by rintro ⟨⟩) (by rintro ⟨⟩) (by rintro _ ⟨⟩)) h
    | move src dst d ho hd hfree h => cases ho
    | create d ho hfree h => obtain ho | ⟨_, ho⟩ := ho <;> cases ho

end Server

end Purgery
