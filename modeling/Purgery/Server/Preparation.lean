import Purgery.Core.Placement
import Purgery.Server.Prepare
import Purgery.Server.Report

namespace Purgery.Server

open Purgery.Interleaving
open Path (EntryName names isAbsolute components join lastPart normalText)

section Operand

variable {raw p text : String} {destination : DestinationPath} {ns : List String}

theorem lastPart_normalText (h : ∀ n ∈ ns, EntryName n) :
    lastPart (normalText false ns).toList ≠ [] ∧
      (lastPart (normalText false ns).toList = ['.'] ↔ ns = []) := by
  by_cases hne : ns = []
  · subst hne
    exact ⟨by decide, by decide⟩
  · have htext : normalText false ns = Path.joinSlash ns := by simp [normalText, hne]
    have hname := h _ (List.getLast_mem hne)
    rw [htext, Path.lastPart_joinSlash hne h]
    refine ⟨fun hnil => hname.ne_empty (String.toList_inj.1 hnil), fun hdot => ?_, fun hnil =>
      absurd hnil hne⟩
    exact absurd (String.toList_inj.1 hdot) hname.plain.1

/-- An absolute operand with these names and this intent. -/
theorem new_absolute (habs : isAbsolute text = true) (hdots : ".." ∉ names text.toList) :
    ∃ resolved, DestinationPath.new text = .ok resolved ∧ isAbsolute resolved.path = true ∧
      resolved.intent = DestinationPath.intentOf text ∧
      components resolved.path = names text.toList := by
  have hne : text ≠ "" := by
    rintro rfl
    exact absurd habs (by decide)
  have hnew := DestinationPath.new_eq hne hdots
  obtain ⟨hcomponents, habsolute⟩ := DestinationPath.components_of_new hnew
  refine ⟨_, hnew, habsolute.trans habs, rfl, ?_⟩
  rw [hcomponents, habs]
  rfl

theorem trailingSlash_names (h : DestinationPath.new raw = .ok destination)
    (hrel : isAbsolute raw = false) (hintent : DestinationPath.intentOf raw = .trailingSlash) :
    names raw.toList ≠ [] := by
  obtain ⟨hne, -, -⟩ := DestinationPath.of_new h
  rw [DestinationPath.intentOf_eq hne] at hintent
  rw [← DestinationPath.names_trimEndSlashes]
  have hlast := DestinationPath.lastPart_trimEndSlashes
    (DestinationPath.trimEndSlashes_relative hne hrel)
  have hdot : lastPart (DestinationPath.trimEndSlashes raw.toList) ≠ ['.'] := by
    intro hdot
    rw [hdot] at hintent
    split at hintent
    · exact nomatch hintent
    · split at hintent <;> exact nomatch hintent
  exact List.ne_nil_of_mem (Path.lastPart_mem_names hlast hdot)

theorem exact_names (h : DestinationPath.new raw = .ok destination)
    (hintent : DestinationPath.intentOf raw = .exactOrExistingDirectory) :
    names raw.toList ≠ [] := by
  obtain ⟨hne, -, -⟩ := DestinationPath.of_new h
  refine DestinationPath.names_of_not_namesDirectory fun hdirectory => ?_
  exact (DestinationPath.intentOf_forced hne).2 hdirectory hintent

theorem isAbsolute_append (h : isAbsolute text = true) (rest : String) :
    isAbsolute (text ++ rest) = true := by
  cases hcs : text.toList with
  | nil => simp [isAbsolute, hcs] at h
  | cons c cs => simpa [isAbsolute, hcs] using h

theorem intentOf_slash (hlast : lastPart text.toList ≠ []) :
    DestinationPath.intentOf (text ++ "/") =
      if lastPart text.toList = ['.'] then .terminalDotSlash else .trailingSlash := by
  have htext : (text ++ "/").toList = text.toList ++ ['/'] := by simp
  have hend : lastPart (text.toList ++ ['/']) = [] := Path.lastPart_append _ _
  rw [DestinationPath.intentOf_eq (by simp), htext, if_pos hend,
    DestinationPath.trimEndSlashes_slash, DestinationPath.trimEndSlashes_self hlast]

theorem intentOf_slashDot : DestinationPath.intentOf (text ++ "/.") = .terminalDot := by
  have htext : (text ++ "/.").toList = text.toList ++ ['/', '.'] := by simp
  rw [DestinationPath.intentOf_eq (by simp), htext, Path.lastPart_append]
  rfl

theorem intentOf_slashDotSlash : DestinationPath.intentOf (text ++ "/./") = .terminalDotSlash := by
  have hdot : lastPart (text ++ "/.").toList = ['.'] := by
    have htext : (text ++ "/.").toList = text.toList ++ ['/', '.'] := by simp
    rw [htext]
    exact Path.lastPart_append _ _
  have htext : text ++ "/./" = (text ++ "/.") ++ "/" := by
    rw [String.append_assoc]
    rfl
  have hne : lastPart (text ++ "/.").toList ≠ [] := by
    rw [hdot]
    exact List.cons_ne_nil _ _
  rw [htext, intentOf_slash hne, if_pos hdot]

/-- The rebuilt operand has the names of both paths and keeps the intent. -/
theorem resolvedOperand_spec (h : DestinationPath.new raw = .ok destination)
    (hrel : isAbsolute raw = false) (hp : isAbsolute p = true) :
    isAbsolute (resolvedOperand p destination) = true ∧
      names (resolvedOperand p destination).toList = names p.toList ++ names raw.toList ∧
      DestinationPath.intentOf (resolvedOperand p destination) = destination.intent := by
  obtain ⟨-, hnames, hdestination⟩ := DestinationPath.of_new h
  have hrelative : isAbsolute destination.path = false := by
    rw [(DestinationPath.components_of_new h).2, hrel]
  have hintent : destination.intent = DestinationPath.intentOf raw := by rw [hdestination]
  have habs : isAbsolute (join p destination.path) = true := Path.isAbsolute_join hp
  have hjoined : names (join p destination.path).toList = names p.toList ++ names raw.toList := by
    rw [Path.names_join hp hrelative, DestinationPath.names_of_new h]
  obtain ⟨a, hjoin, -⟩ := Path.join_text hp hrelative
  obtain ⟨hlast, hdot⟩ : lastPart (join p destination.path).toList ≠ [] ∧
      (lastPart (join p destination.path).toList = ['.'] ↔ names raw.toList = []) := by
    rw [hjoin, Path.lastPart_append, hdestination, hrel]
    exact lastPart_normalText hnames
  have hbase : String.ofList (DestinationPath.trimEndSlashes (join p destination.path).toList) =
      join p destination.path := by
    rw [DestinationPath.trimEndSlashes_self hlast, String.ofList_toList]
  have hextended : ∀ tail : String, names tail.toList = [] →
      names (join p destination.path ++ "/" ++ tail).toList =
        names p.toList ++ names raw.toList := by
    intro tail htail
    have htext : (join p destination.path ++ "/" ++ tail).toList =
        (join p destination.path).toList ++ '/' :: tail.toList := by simp
    rw [htext, Path.names_append, hjoined, htail, List.append_nil]
  simp only [resolvedOperand, hbase]
  cases hcase : destination.intent with
  | exactOrExistingDirectory =>
    have hne := exact_names h (hintent.symm.trans hcase)
    refine ⟨habs, hjoined, ?_⟩
    have htext : join p destination.path ≠ "" := fun hempty => by
      rw [hempty] at habs
      exact absurd habs (by decide)
    rw [DestinationPath.intentOf_eq htext, if_neg hlast, if_neg (mt hdot.1 hne)]
  | trailingSlash =>
    have hne := trailingSlash_names h hrel (hintent.symm.trans hcase)
    refine ⟨isAbsolute_append habs _, ?_, ?_⟩
    · simpa using hextended "" rfl
    · rw [intentOf_slash hlast, if_neg (mt hdot.1 hne)]
  | terminalDot =>
    refine ⟨isAbsolute_append habs _, ?_, intentOf_slashDot⟩
    have htext := hextended "." (by decide)
    rwa [String.append_assoc] at htext
  | terminalDotSlash =>
    refine ⟨isAbsolute_append habs _, ?_, intentOf_slashDotSlash⟩
    have htext := hextended "./" (by decide)
    rwa [String.append_assoc] at htext

/-- The rebuilt operand is accepted, as an absolute path with the same intent. -/
theorem resolvedOperand_accepted (h : DestinationPath.new raw = .ok destination)
    (hrel : isAbsolute raw = false) (hp : isAbsolute p = true) (hdots : ".." ∉ components p) :
    ∃ resolved, DestinationPath.new (resolvedOperand p destination) = .ok resolved ∧
      isAbsolute resolved.path = true ∧ resolved.intent = destination.intent ∧
      components resolved.path = components p ++ names raw.toList := by
  obtain ⟨habs, hnames, hintent⟩ := resolvedOperand_spec h hrel hp
  obtain ⟨-, hraw, -⟩ := DestinationPath.of_new h
  rw [Path.components_absolute hp] at hdots ⊢
  have hnodots : ".." ∉ names (resolvedOperand p destination).toList := by
    rw [hnames, List.mem_append, not_or]
    exact ⟨hdots, fun hmem => (hraw _ hmem).plain.2 rfl⟩
  obtain ⟨resolved, hnew, habsolute, hsame, hcomponents⟩ := new_absolute habs hnodots
  exact ⟨resolved, hnew, habsolute, hsame.trans hintent, hcomponents.trans hnames⟩

end Operand

section Solo

variable {Tid : Type} [DecidableEq Tid] {config : ServerConfig} {k : RunKey} {host : Host}
variable {t : Tid} {ω : (o : RunOp) → o.Extra} {clock : Nat} {w : RunWorld Tid} {d : RunDir}
variable {runConfig : RunConfig}

/-- The files of an uploaded run that pass the checks of `prepare-run`. -/
structure Preparable (config : ServerConfig) (k : RunKey) (d : RunDir) (runConfig : RunConfig) :
    Prop where
  plan : ∃ doc, d.file .runConfig = .text doc ∧
    (∀ context, requireCompatibleTomlVersion doc context = .ok ()) ∧
    RunConfig.fromToml doc = .ok runConfig
  manifest : ∃ doc manifest, d.file .manifest = .text doc ∧
    (∀ context, requireCompatibleTomlVersion doc context = .ok ()) ∧
    Manifest.fromToml doc = .ok manifest ∧ validateEnvelope k runConfig manifest = .ok () ∧
    validateTransformRun config manifest runConfig = .ok ()

theorem readRunPlan_solo (hd : w.dirs .incoming = some d) (h : Preparable config k d runConfig) :
    (readRunPlan config k).run.solo (undisturbed host t ω clock) w = (.ok runConfig, w) := by
  obtain ⟨doc, hfile, hversion, hparse⟩ := h.plan
  obtain ⟨doc', manifest, hfile', hversion', hparse', henvelope, htransforms⟩ := h.manifest
  unfold readRunPlan
  rw [io_solo _ (read_solo hd hfile), checked_solo _ (a := ()) (by rw [hversion]; rfl),
    checked_solo _ (a := runConfig) (by rw [hparse]; rfl), io_solo _ (read_solo hd hfile'),
    checked_solo _ (a := ()) (by rw [hversion']; rfl),
    checked_solo _ (a := manifest) (by rw [hparse']; rfl),
    checked_solo _ (a := ()) (by rw [henvelope]; rfl),
    checked_solo _ (a := ()) (by rw [htransforms]; rfl)]
  rfl

omit [DecidableEq Tid] in
theorem phaseOf_incoming (hd : w.dirs .incoming = some d) : w.phaseOf d.id = some .incoming := by
  simp [RunWorld.phaseOf, allPhases, hd]

theorem openTmp_id (f : FileName) (torn : Except String (Doc f.Content)) (now : Nat) :
    (d.openTmp f torn now).id = d.id ∧ (d.openTmp f torn now).file = d.file ∧
      (d.openTmp f torn now).tree = d.tree ∧ (d.openTmp f torn now).has (.tmp f) = true := by
  unfold RunDir.openTmp
  refine ⟨?_, ?_, ?_, ?_⟩
  · split <;> rfl
  · split <;> rfl
  · split <;> rfl
  · split <;> simp [RunDir.has, RunDir.setTmp]

omit [DecidableEq Tid] in
theorem setDir_setDir (ph : RunPhase) (x y : Option RunDir) :
    (w.setDir ph x).setDir ph y = w.setDir ph y := by
  simp [RunWorld.setDir]

variable (host t ω clock) in
theorem writeFile_solo (f : FileName) (doc : Doc f.Content) (hd : w.dirs .incoming = some d) :
    ∃ d', (writeFile .incoming f doc).solo (undisturbed host t ω clock) w =
        (.ok (), w.setDir .incoming (some d')) ∧
      d'.tmp f = .text doc ∧ d'.file = d.file ∧ d'.tree = d.tree := by
  obtain ⟨hid, hfile, htree, htmp⟩ := openTmp_id (d := d) f (ω (.openTmp .incoming f)) clock
  generalize hopened : d.openTmp f (ω (.openTmp .incoming f)) clock = opened at hid hfile htree htmp
  have hopen : (sys (.openTmp .incoming f)).solo (undisturbed host t ω clock) w =
      (.ok d.id, w.setDir .incoming (some opened)) := by
    simp [sys, undisturbed, RunOp.step, RunOp.run, hd, hopened]
  have hat : (w.setDir .incoming (some opened)).dirs .incoming = some opened := by
    simp [RunWorld.setDir]
  have hphase := phaseOf_incoming hat
  refine ⟨{ opened.setTmp f (.text doc) with tmpMtime := clock }, ?_, ?_, hfile, htree⟩
  · unfold writeFile
    rw [Prog.solo_bind, hopen]
    have hwrite : (sys (.writeTmp d.id f doc)).solo (undisturbed host t ω clock)
        (w.setDir .incoming (some opened)) =
        (.ok (), (w.setDir .incoming (some opened)).setDir .incoming
          (some { opened.setTmp f (.text doc) with tmpMtime := clock })) := by
      rw [hid] at hphase
      simp [sys, undisturbed, RunOp.step, RunOp.run, hphase, hat, htmp]
    exact hwrite.trans (by rw [setDir_setDir])
  · simp [RunDir.setTmp]

variable (host t ω clock) in
theorem publish_solo (hd : w.dirs .incoming = some d) {doc : Doc RunConfig}
    (htmp : d.tmp .runConfig = .text doc) :
    ∃ d', (sys (.publish .incoming .runConfig)).solo (undisturbed host t ω clock) w =
        (.ok (), w.setDir .incoming (some d')) ∧
      d'.file = Function.update d.file .runConfig (.text doc) ∧ d'.tree = d.tree := by
  refine ⟨d.publish .runConfig clock, ?_, ?_, rfl⟩
  · have hhas : d.has (.tmp .runConfig) = true := by simp [RunDir.has, htmp, FileState.isMissing]
    simp [sys, undisturbed, RunOp.step, RunOp.run, hd, hhas, statusText, RunWorld.notePublished,
      RunWorld.setDir]
  · rw [← htmp]
    rfl

variable (host t ω clock) in
/-- A relative destination is replaced by an absolute one. -/
theorem resolveRunConfig_solo {cwd : String} (hcwd : isAbsolute cwd = true)
    {resolved : DestinationPath} (hd : w.dirs .incoming = some d)
    (hrel : isAbsolute runConfig.destination.path = false)
    (hnew : DestinationPath.new (resolvedOperand cwd runConfig.destination) = .ok resolved) :
    ∃ d', (resolveRunConfig (.path cwd hcwd) runConfig).run.solo (undisturbed host t ω clock) w =
        (.ok (some resolved.operand), w.setDir .incoming (some d')) ∧
      d'.file = Function.update d.file .runConfig (.text (Doc.ofValue
        { runConfig with purgeryVersion := currentPurgeryVersion, destination := resolved })) ∧
      d'.tree = d.tree := by
  obtain ⟨d₁, hwrite, htmp, hfile, htree⟩ := writeFile_solo host t ω clock .runConfig (Doc.ofValue
      { runConfig with purgeryVersion := currentPurgeryVersion, destination := resolved }) hd
  have hat : (w.setDir .incoming (some d₁)).dirs .incoming = some d₁ := by
    simp [RunWorld.setDir]
  obtain ⟨d₂, hpublish, hfile', htree'⟩ := publish_solo host t ω clock hat htmp
  refine ⟨d₂, ?_, ?_, ?_⟩
  · unfold resolveRunConfig
    rw [if_neg (by simp [hrel]), checked_solo _ (a := resolved) (by simp [resolveAgainst, hnew]; rfl),
      io_solo _ hwrite, io_solo _ hpublish, setDir_setDir]
    rfl
  · rw [hfile', hfile]
  · rw [htree', htree]

theorem Preparable.rewritten (h : Preparable config k d runConfig) {d' : RunDir}
    {resolved : DestinationPath} (hfile : d'.file = Function.update d.file .runConfig
      (.text (Doc.ofValue
        { runConfig with purgeryVersion := currentPurgeryVersion, destination := resolved }))) :
    Preparable config k d'
      { runConfig with purgeryVersion := currentPurgeryVersion, destination := resolved } := by
  obtain ⟨doc, manifest, hmanifest, hversion, hparse, henvelope, htransforms⟩ := h.manifest
  have hconfig : d'.file .runConfig = .text (Doc.ofValue
      { runConfig with purgeryVersion := currentPurgeryVersion, destination := resolved }) := by
    rw [hfile, Function.update_self]
  have hne : FileName.manifest ≠ .runConfig := by decide
  have hother : d'.file .manifest = .text doc := by
    rw [hfile, Function.update_of_ne hne, hmanifest]
  exact ⟨⟨_, hconfig, fun context => requireCompatible_current context, rfl⟩, doc, manifest,
    hother, hversion, hparse, henvelope, htransforms⟩

theorem prepareRun_solo {cwd : WorkingDirectory} {destination : Option String}
    {w' : RunWorld Tid} (hd : w.dirs .incoming = some d) (h : Preparable config k d runConfig)
    (hresolve : (resolveRunConfig cwd runConfig).run.solo (undisturbed host t ω clock) w =
      (.ok destination, w')) :
    (prepareRun config k cwd).run.solo (undisturbed host t ω clock) w =
      (.ok ⟨protocolVersion, currentPurgeryVersion, k.nickname.asStr, k.runId.asStr, destination⟩,
        w') := by
  have hask : (ask (.dirExists .incoming) : ExceptT String Call Bool).run.solo
      (undisturbed host t ω clock) w = (.ok (w.dirs .incoming).isSome, w) := rfl
  unfold prepareRun
  rw [Prog.solo_ok_bind hask, hd, if_neg (by simp), Prog.solo_ok_bind (readRunPlan_solo hd h),
    Prog.solo_ok_bind hresolve]
  rfl

variable (config k host) in
/-- A relative destination is resolved against the working directory, and only
by the first of two calls. -/
theorem destination_resolved_once (t t' : Tid) (ω ω' : (o : RunOp) → o.Extra) (clock clock' : Nat)
    (w : RunWorld Tid) (d : RunDir) (runConfig : RunConfig) (raw cwd : String)
    (again : WorkingDirectory) (hd : w.dirs .incoming = some d)
    (h : Preparable config k d runConfig) (hraw : DestinationPath.new raw = .ok runConfig.destination)
    (hrel : isAbsolute raw = false) (hcwd : isAbsolute cwd = true)
    (hdots : ".." ∉ components cwd) :
    ∃ resolved d', DestinationPath.new resolved.operand = .ok resolved ∧
      isAbsolute resolved.path = true ∧ resolved.intent = runConfig.destination.intent ∧
      Path.same resolved.path (if runConfig.destination.path = "." then cwd
        else join cwd runConfig.destination.path) = true ∧
      d'.file = Function.update d.file .runConfig (.text (Doc.ofValue
        { runConfig with purgeryVersion := currentPurgeryVersion, destination := resolved })) ∧
      d'.tree = d.tree ∧
      (prepareRun config k (.path cwd hcwd)).run.solo (undisturbed host t ω clock) w =
        (.ok ⟨protocolVersion, currentPurgeryVersion, k.nickname.asStr, k.runId.asStr,
          some resolved.operand⟩, w.setDir .incoming (some d')) ∧
      (prepareRun config k again).run.solo (undisturbed host t' ω' clock')
          (w.setDir .incoming (some d')) =
        (.ok ⟨protocolVersion, currentPurgeryVersion, k.nickname.asStr, k.runId.asStr, none⟩,
          w.setDir .incoming (some d')) := by
  obtain ⟨resolved, hnew, habs, hintent, hcomponents⟩ :=
    resolvedOperand_accepted hraw hrel hcwd hdots
  have hrelative : isAbsolute runConfig.destination.path = false := by
    rw [(DestinationPath.components_of_new hraw).2, hrel]
  obtain ⟨d', hresolve, hfile, htree⟩ := resolveRunConfig_solo host t ω clock hcwd hd
    hrelative hnew
  have hat : (w.setDir .incoming (some d')).dirs .incoming = some d' := by
    simp [RunWorld.setDir]
  refine ⟨resolved, d', ?_, habs, hintent, ?_, hfile, htree, prepareRun_solo hd h hresolve, ?_⟩
  · rw [DestinationPath.operand_of_new hnew, hnew]
  · have hnames := DestinationPath.names_of_new hraw
    unfold Path.same
    split
    · rename_i hdot
      rw [hdot] at hnames
      rw [habs, hcwd, hcomponents, ← hnames]
      simp [names, Path.splitSlash]
    · have hjoin : isAbsolute (join cwd runConfig.destination.path) = true :=
        Path.isAbsolute_join hcwd
      rw [habs, hjoin, hcomponents, Path.components_absolute hjoin,
        Path.names_join hcwd hrelative, hnames, Path.components_absolute hcwd]
      simp
  · refine prepareRun_solo hat (h.rewritten hfile) ?_
    unfold resolveRunConfig
    rw [if_pos habs]
    rfl

end Solo

section Sample

/-- A run that names the working directory as its destination. -/
def hereConfig : RunConfig :=
  ⟨currentPurgeryVersion, sampleKey.nickname, ⟨".", "./", .terminalDotSlash⟩, true⟩

def hereRun : RunDir := sampleRun.setFile .runConfig (.text (Doc.ofValue hereConfig))

theorem hereRun_preparable : Preparable sampleConfig sampleKey hereRun hereConfig where
  plan := ⟨_, rfl, fun context => requireCompatible_current context, rfl⟩
  manifest := ⟨_, sampleManifest, rfl, fun context => requireCompatible_current context, rfl,
    by decide, by decide +kernel⟩

theorem destination_resolved_once_root : ∃ (resolved : DestinationPath) (d' : RunDir),
    resolved.intent = .terminalDotSlash ∧ Path.same resolved.path "/" = true ∧
      (prepareRun sampleConfig sampleKey (.path "/" (by decide))).run.solo
          (undisturbed sampleHost () (fun o => o.plain) 0)
          ((worldWith Unit hereRun 0 .incoming).runs sampleKey) =
        (.ok ⟨protocolVersion, currentPurgeryVersion, "laptop", "r1", some resolved.operand⟩,
          ((worldWith Unit hereRun 0 .incoming).runs sampleKey).setDir .incoming (some d')) := by
  obtain ⟨resolved, d', -, -, hintent, hsame, -, -, hrun, -⟩ := destination_resolved_once
    sampleConfig sampleKey sampleHost () () (fun o => o.plain) (fun o => o.plain) 0 0
    ((worldWith Unit hereRun 0 .incoming).runs sampleKey) hereRun hereConfig "./" "/" .unavailable
    rfl hereRun_preparable (by decide) (by decide) (by decide) (by decide)
  exact ⟨resolved, d', hintent, hsame, hrun⟩

end Sample

end Purgery.Server
