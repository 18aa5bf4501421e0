import Purgery.Interleaving.Runs
import Purgery.Server.Exclusion.EntryCalls
import Purgery.Server.ExpectedOutputs

namespace Purgery.Server

open Purgery.Interleaving
open Prog (Only)
open Path (EntryName)

/-- The path below `files/` that a call looks at, and whether a symlink at its
end is followed. -/
def RunOp.source : RunOp → Option (String × Bool)
  | .stagedKind path => some (path, false)
  | .stagedTarget path => some (path, false)
  | .stagedLen path => some (path, true)
  | .stagedBytes path => some (path, true)
  | .stagedEmpty path => some (path, true)
  | .walkStaged path => some (path, true)
  | .copyToWork source _ => some (source, true)
  | _ => none

/-- A look at the staged files that finds something. -/
def RunOp.found : (o : RunOp) → o.Res → Bool
  | .stagedKind _, r => r.isOk
  | .stagedTarget _, r => r.isOk
  | .stagedLen _, r => r.isOk
  | .stagedBytes _, r => r.isOk
  | .stagedEmpty _, r => r.isOk
  | .walkStaged _, r => r.isOk
  | .copyToWork _ _, r => r.isOk
  | _, _ => false

/-- The call that does not fail is answered from the staged files. -/
def FromFiles (host : Host) (d : RunDir) (e : Exchange RunOp RunOp.Res) : Prop :=
  e.1.found e.2 = true →
    match e with
    | ⟨.stagedKind path, r⟩ => r = (stagedNode host d path).map Node.kind
    | ⟨.stagedTarget path, r⟩ => r = stagedLink host d path
    | ⟨.stagedLen path, r⟩ => r = followedLen host d path
    | ⟨.stagedBytes path, r⟩ => r = followedBytes host d path
    | ⟨.stagedEmpty path, r⟩ => r = followedEmpty host d path
    | ⟨.walkStaged path, r⟩ => r = followedWalk host d path
    | ⟨.copyToWork source _, _⟩ => (followedBytes host d source).isOk = true
    | _ => True

def RunDir.staged (d : RunDir) : Tree := (d.tree .files).getD []

/-- What the call looks at is `base` or below it, and is reached without a symlink. -/
def Direct (t : Tree) (base : String) (e : Exchange RunOp RunOp.Res) : Prop :=
  ∀ path follows, e.1.source = some (path, follows) → e.1.found e.2 = true →
    (path = base ∨ (base ++ "/").toList.isPrefixOf path.toList = true) ∧
      (if follows then throughSymlink t path else leadsOutside t path) = false

section Answers

variable {Tid : Type} [DecidableEq Tid] {host : Host} {d : RunDir}

theorem staged_congr {d' : RunDir} (h : d'.tree .files = d.tree .files) (path : String) :
    stagedNode host d' path = stagedNode host d path ∧
      followedNode host d' path = followedNode host d path := by
  unfold stagedNode followedNode
  rw [h]
  exact ⟨rfl, rfl⟩

omit [DecidableEq Tid] in
theorem look_found {α : Type} {w : RunWorld Tid} {f : RunDir → Except IoError α}
    (h : ∀ d', w.dirs .processing = some d' → f d' = f d)
    (hfound : (w.look .processing f).isOk = true) : w.look .processing f = f d := by
  unfold RunWorld.look at hfound ⊢
  cases hd : w.dirs .processing with
  | none =>
    rw [hd] at hfound
    exact nomatch hfound
  | some d' => exact h d' hd

/-- The server answers from the staged files. -/
theorem step_fromFiles (t : Tid) (o : RunOp) (x : o.Choice) (now : Nat) {w : RunWorld Tid}
    (h : ∀ d', w.dirs .processing = some d' → d'.tree .files = d.tree .files) :
    FromFiles host d ⟨o, (o.step host t x now w).1⟩ := by
  unfold RunOp.step
  split
  · cases o <;> exact fun hfound => by cases hfound
  · cases o with
    | stagedKind path =>
      refine look_found fun d' hd => ?_
      rw [(staged_congr (h d' hd) path).1]
    | stagedTarget path =>
      refine look_found fun d' hd => ?_
      rw [stagedLink, (staged_congr (h d' hd) path).1, stagedLink]
    | stagedLen path =>
      refine look_found fun d' hd => ?_
      rw [followedLen, (staged_congr (h d' hd) path).2, followedLen]
    | stagedBytes path =>
      refine look_found fun d' hd => ?_
      rw [followedBytes, (staged_congr (h d' hd) path).2, followedBytes]
    | stagedEmpty path =>
      refine look_found fun d' hd => ?_
      rw [followedEmpty, (staged_congr (h d' hd) path).2, h d' hd, followedEmpty]
    | walkStaged path =>
      refine look_found fun d' hd => ?_
      rw [followedWalk, (staged_congr (h d' hd) path).2, h d' hd, followedWalk]
    | copyToWork source path =>
      intro hfound
      simp only [RunOp.found, RunOp.run] at hfound
      split at hfound
      · cases hfound
      · rename_i bytes hlook
        have hsame := look_found (f := (followedBytes host · source)) (d := d) (fun d' hd => by
          rw [followedBytes, (staged_congr (h d' hd) source).2, followedBytes])
          (by rw [hlook]; rfl)
        change (followedBytes host d source).isOk = true
        rw [← hsame, hlook]
        rfl
    | _ => exact fun _ => trivial

end Answers

/-- As long as the answers are those of the files, the code looks only at what
is at `base` or below it, without a symlink on the way. -/
def Stays (host : Host) (d : RunDir) (base : String) {α : Type} (p : Call α) (Q : α → Prop) : Prop :=
  Prog.Safe (FromFiles host d) (fun _ e => Direct d.staged base e) (fun _ => True) p fun a _ => Q a

/-- What holds of a result that is no error. -/
def OnOk {ε α : Type} (Q : α → Prop) (r : Except ε α) : Prop := ∀ a, r = .ok a → Q a

namespace Stays

variable {host : Host} {d : RunDir} {base : String} {α β ε ε' : Type} {p : Call α} {Q M : α → Prop}

theorem of_only (h : p.Only fun o => o.source = none) : Stays host d base p fun _ => True := by
  intro A L a hruns _ _
  refine ⟨fun A' e B hL path follows hsource => ?_, trivial⟩
  rw [hruns.only h e (by simp [hL])] at hsource
  exact nomatch hsource

theorem ret {a : α} (h : Q a) : Stays host d base (.ret a) Q := Prog.Safe.ret fun _ _ => h

theorem weaken (h : Stays host d base p M) (hQ : ∀ a, M a → Q a) : Stays host d base p Q :=
  Prog.Safe.weaken h fun a _ => hQ a

theorem bind {f : α → Call β} {Z : β → Prop} (hp : Stays host d base p M)
    (hf : ∀ a, M a → Stays host d base (f a) Z) : Stays host d base (p >>= f) Z :=
  Prog.Safe.bind hp fun a A L b hruns htame hA => hf a hA A L b hruns htame trivial

theorem runBind {x : ExceptT ε Call α} {g : α → ExceptT ε Call β} {Z : β → Prop}
    (hx : Stays host d base x.run (OnOk M)) (hg : ∀ a, M a → Stays host d base (g a).run (OnOk Z)) :
    Stays host d base (x >>= g).run (OnOk Z) := by
  refine bind hx fun r hr => ?_
  cases r with
  | ok a => exact hg a (hr a rfl)
  | error e => exact ret fun b hb => nomatch hb

theorem io {c : Call (Except IoError α)} {describe : IoError → ε}
    (h : Stays host d base c (OnOk Q)) : Stays host d base (io c describe).run (OnOk Q) := by
  refine bind h fun r hr => ret fun a ha => ?_
  cases r with
  | ok b => exact hr a (congrArg _ (Except.ok.inj ha))
  | error e => exact nomatch ha

theorem adapt {x : ExceptT ε' Call α} {g : ε' → ε} (h : Stays host d base x.run (OnOk Q)) :
    Stays host d base (ExceptT.adapt g x).run (OnOk Q) := by
  refine bind h fun r hr => ret fun a ha => ?_
  cases r with
  | ok b => exact hr a (congrArg _ (Except.ok.inj ha))
  | error e => exact nomatch ha

theorem anyway {r : Call (Except ε α)} (h : Stays host d base r fun _ => True) :
    Stays host d base r (OnOk fun _ => True) := h.weaken fun _ _ _ _ => trivial

/-- One look at the files. -/
theorem look {o : RunOp} {path : String} {follows : Bool} {Q : o.Res → Prop}
    (hsource : o.source = some (path, follows))
    (hbase : path = base ∨ (base ++ "/").toList.isPrefixOf path.toList = true)
    (hdirect : (if follows then throughSymlink d.staged path else leadsOutside d.staged path) = false)
    (hQ : ∀ r, FromFiles host d ⟨o, r⟩ → Q r) : Stays host d base (sys o) Q := by
  refine Prog.Safe.perform fun A r _ hr => ⟨fun path' follows' hsource' _ => ?_, hQ r hr⟩
  obtain ⟨rfl, rfl⟩ := Prod.mk.inj (Option.some.inj (hsource.symm.trans hsource'))
  exact ⟨hbase, hdirect⟩

end Stays

section Entry

variable {host : Host} {d : RunDir} {entry : ManifestEntry} {path : String}

/-- The object at a path whose kind was asked for. -/
theorem not_throughSymlink {kind : FileKind} (hout : leadsOutside d.staged path = false)
    (hkind : (stagedNode host d path).map Node.kind = .ok kind) (hne : kind ≠ .symlink) :
    throughSymlink d.staged path = false := by
  unfold stagedNode at hkind
  unfold throughSymlink
  rw [RunDir.staged] at hout ⊢
  simp only [hout, Bool.false_eq_true, if_false, Bool.false_or] at hkind ⊢
  cases hfind : ((d.tree .files).getD []).find path with
  | none => rfl
  | some n =>
    rw [hfind] at hkind
    obtain rfl := Except.ok.inj hkind
    simpa using hne

/-- What is known of the staged object once it has been checked. -/
def Checked (d : RunDir) (entry : ManifestEntry) : Prop :=
  leadsOutside d.staged entry.stagedPath.asStr = false ∧
    (entry.kind ≠ .symlink → throughSymlink d.staged entry.stagedPath.asStr = false)

theorem verifyStaged_stays (h : throughSymlink d.staged entry.stagedPath.asStr = false) :
    Stays host d entry.stagedPath.asStr (verifyStaged host entry path).run
      (OnOk fun _ => True) := by
  refine Stays.runBind (M := fun _ => True)
    (Stays.io (Stays.look rfl (.inl rfl) h fun _ _ _ _ => trivial)) fun actual _ => ?_
  split
  · exact Stays.anyway (.ret trivial)
  · split
    · exact Stays.anyway (.ret trivial)
    · refine Stays.runBind (M := fun _ => True)
        (Stays.io (Stays.look rfl (.inl rfl) h fun _ _ _ _ => trivial)) fun bytes _ => ?_
      split <;> exact Stays.anyway (.ret trivial)

variable (config : ServerConfig) (k : RunKey)

theorem kindMatches_ne_symlink {manifest : ManifestEntryKind} {kind : FileKind}
    (h : kindMatches manifest kind = true) (hne : manifest ≠ .symlink) : kind ≠ .symlink := by
  rintro rfl
  cases manifest with
  | directory => exact nomatch h
  | regularFile => exact nomatch h
  | symlink => exact hne rfl

theorem checkStaged_stays (hout : leadsOutside d.staged entry.stagedPath.asStr = false) :
    Stays host d entry.stagedPath.asStr (checkStaged host config k entry).run
      (OnOk fun _ => Checked d entry) := by
  have hfailed : ∀ e : String, Stays host d entry.stagedPath.asStr
      (throw e : ExceptT String Call Unit).run (OnOk fun _ => Checked d entry) :=
    fun e => .ret fun _ h => nomatch h
  unfold checkStaged
  cases NormalizedRelativePath.new (Path.join "files" entry.relativePath.asStr) with
  | error e => exact hfailed _
  | ok expected =>
    change Stays host d entry.stagedPath.asStr (ite _ _ _ : ExceptT String Call Unit).run _
    split
    · exact hfailed _
    · refine Stays.runBind
        (M := fun kind => kind ≠ .symlink → throughSymlink d.staged entry.stagedPath.asStr = false)
        (Stays.io (Stays.look rfl (.inl rfl) hout fun r hr kind hkind => ?_)) fun kind hkind => ?_
      · subst hkind
        exact not_throughSymlink hout (hr rfl).symm
      · split
        · exact hfailed _
        · rename_i hmatches
          have hchecked : Checked d entry := ⟨hout, fun hne =>
            hkind (kindMatches_ne_symlink (by simpa using hmatches) hne)⟩
          split
          · rename_i hregular
            refine (Stays.adapt (verifyStaged_stays (hchecked.2 ?_))).weaken fun _ _ _ _ => hchecked
            rw [hregular]
            exact nofun
          · split
            · exact hfailed _
            · refine Stays.runBind (M := fun _ => True)
                (Stays.io (Stays.look rfl (.inl rfl) hout fun _ _ _ _ => trivial)) fun actual _ => ?_
              split
              · exact .ret fun _ _ => hchecked
              · exact hfailed _
          · exact .ret fun _ _ => hchecked

theorem copyFile_stays {base source : String}
    (hbase : source = base ∨ (base ++ "/").toList.isPrefixOf source.toList = true)
    (h : throughSymlink d.staged source = false) (path : String) :
    Stays host d base (copyFile source path) fun _ => True := by
  refine Stays.bind (M := fun _ => True) (Stays.of_only (only_sys rfl)) fun opened _ => ?_
  split
  · exact .ret trivial
  · exact Stays.look rfl hbase h fun _ _ => trivial

theorem createWorkParent_stays {base : String} (path : String) :
    Stays host d base (createWorkParent path).run (OnOk fun _ => True) :=
  Stays.anyway (Stays.of_only (only_io (only_sys rfl)))

theorem copyStagedChild_stays {base child : String}
    (hbelow : (base ++ "/").toList.isPrefixOf child.toList = true)
    (hout : leadsOutside d.staged child = false) (relativePath source : String) :
    Stays host d base (copyStagedChild relativePath source child).run (OnOk fun _ => True) := by
  refine Stays.runBind (M := fun _ => True)
    (Stays.anyway (Stays.of_only (only_io (only_sys rfl)))) fun _ _ => ?_
  refine Stays.runBind (M := fun kind => kind ≠ .symlink → throughSymlink d.staged child = false)
    (Stays.io (Stays.look rfl (.inr hbelow) hout fun r hr kind hkind => ?_)) fun kind hkind => ?_
  · subst hkind
    exact not_throughSymlink hout (hr rfl).symm
  · cases kind with
    | directory => exact Stays.anyway (Stays.of_only (only_io (only_sys rfl)))
    | regularFile =>
      refine Stays.runBind (createWorkParent_stays _) fun _ _ => ?_
      exact Stays.io (Stays.anyway (copyFile_stays (.inr hbelow) (hkind nofun) _))
    | symlink =>
      refine Stays.runBind (createWorkParent_stays _) fun _ _ => ?_
      refine Stays.runBind (M := fun _ => True)
        (Stays.io (Stays.look rfl (.inr hbelow) hout fun _ _ _ _ => trivial)) fun _ _ => ?_
      exact Stays.anyway (Stays.of_only (only_io (only_sys rfl)))
    | other => exact Stays.anyway (.ret trivial)

theorem copyStagedChildren_stays {base : String} {children : List String}
    (h : ∀ child ∈ children, (base ++ "/").toList.isPrefixOf child.toList = true ∧
      leadsOutside d.staged child = false) (relativePath source : String) :
    Stays host d base (copyStagedChildren relativePath source children).run
      (OnOk fun _ => True) := by
  induction children with
  | nil => exact Stays.anyway (.ret trivial)
  | cons child rest ih =>
    obtain ⟨⟨hbelow, hout⟩, hrest⟩ := List.forall_mem_cons.1 h
    exact Stays.runBind (copyStagedChild_stays hbelow hout relativePath source) fun _ _ => ih hrest

theorem walk_below {t : Tree} {base child : String} (h : child ∈ t.walk base) :
    (base ++ "/").toList.isPrefixOf child.toList = true ∧ leadsOutside t child = false := by
  unfold Tree.walk walkOrder at h
  rw [List.mem_insertionSort, List.mem_filter, Tree.below, List.mem_filter] at h
  exact ⟨h.1.2, by simpa using h.2⟩

theorem prepareWorkEntry_stays (h : Checked d entry) :
    Stays host d entry.stagedPath.asStr (prepareWorkEntry config k entry).run
      (OnOk fun _ => True) := by
  obtain ⟨hout, hthrough⟩ := h
  refine Stays.runBind (createWorkParent_stays _) fun _ _ => ?_
  split
  · rename_i hkind
    have hdirect := hthrough (by rw [hkind]; exact nofun)
    refine Stays.runBind (M := fun _ => True)
      (Stays.anyway (Stays.of_only (only_io (only_sys rfl)))) fun _ _ => ?_
    refine Stays.runBind (M := fun children => ∀ child ∈ children,
        (entry.stagedPath.asStr ++ "/").toList.isPrefixOf child.toList = true ∧
          leadsOutside d.staged child = false)
      (Stays.io (Stays.look rfl (.inl rfl) hdirect fun r hr children hok => ?_))
      fun children hchildren => ?_
    · subst hok
      have hanswer := hr rfl
      intro child hchild
      unfold followedWalk at hanswer
      rw [RunDir.staged] at hdirect
      simp only [hdirect, Bool.false_eq_true, if_false] at hanswer
      split at hanswer
      · obtain rfl := Except.ok.inj hanswer
        exact walk_below hchild
      · obtain rfl := Except.ok.inj hanswer
        exact nomatch hchild
      · exact nomatch hanswer
    · exact Stays.runBind (copyStagedChildren_stays hchildren _ _) fun _ _ =>
        Stays.anyway (.ret trivial)
  · rename_i hkind
    have hdirect := hthrough (by rw [hkind]; exact nofun)
    exact Stays.runBind (Stays.io (Stays.anyway (copyFile_stays (.inl rfl) hdirect _))) fun _ _ =>
      Stays.anyway (.ret trivial)
  · refine Stays.runBind (M := fun _ => True)
      (Stays.io (Stays.look rfl (.inl rfl) hout fun _ _ _ _ => trivial)) fun _ _ => ?_
    exact Stays.runBind (Stays.anyway (Stays.of_only (only_io (only_sys rfl)))) fun _ _ =>
      Stays.anyway (.ret trivial)

theorem loadOrResolveDestinationPlan_stays (h : Checked d entry) (destination : DestinationPath) :
    Stays host d entry.stagedPath.asStr (loadOrResolveDestinationPlan destination entry).run
      (OnOk fun _ => True) := by
  have hinspect : (inspectDestination destination.path).run.Only fun o => o.source = none := by
    refine Only.runBind (only_ask rfl) fun kind => ?_
    split
    · refine Only.runBind (only_ask rfl) fun target => ?_
      split <;> trivial
    all_goals trivial
  have hempty : Stays host d entry.stagedPath.asStr (sourceDirectoryEmpty entry).run
      (OnOk fun _ => True) := by
    unfold sourceDirectoryEmpty
    split
    · rename_i hkind
      exact Stays.io (Stays.look rfl (.inl rfl) (h.2 (by rw [hkind]; exact nofun)) fun _ _ _ _ =>
        trivial)
    · exact Stays.anyway (.ret trivial)
  refine Stays.runBind (M := fun _ => True) (Stays.anyway (Stays.of_only (only_ask rfl)))
    fun found _ => ?_
  split
  · refine Stays.runBind (M := fun _ => True)
      (Stays.anyway (Stays.of_only (only_io (only_sys rfl)))) fun _ _ => ?_
    exact Stays.anyway (.ret trivial)
  · refine Stays.runBind (M := fun _ => True) ?_ fun plan _ => ?_
    · exact Stays.runBind (Stays.anyway (Stays.of_only hinspect)) fun _ _ =>
        Stays.runBind hempty fun _ _ => Stays.anyway (.ret trivial)
    · refine Stays.anyway (Stays.of_only ?_)
      exact Only.runBind (only_io (only_writeFile rfl fun _ => rfl)) fun _ =>
        Only.runBind (only_io (only_sys rfl)) fun _ => trivial

theorem reports_source {o : RunOp} (h : o.reports = true) : o.source = none := by
  unfold RunOp.reports at h
  split at h <;> first | rfl | exact nomatch h

theorem importEntry_stays (hout : leadsOutside d.staged entry.stagedPath.asStr = false) (i n : Nat)
    (destination : DestinationPath) :
    Stays host d entry.stagedPath.asStr (importEntry host config k entry i n destination).run
      (OnOk fun _ => True) := by
  unfold importEntry
  split
  · exact Stays.anyway (.ret trivial)
  · refine Stays.runBind (checkStaged_stays config k hout) fun _ hchecked => ?_
    refine Stays.runBind (loadOrResolveDestinationPlan_stays hchecked destination) fun target _ => ?_
    refine Stays.runBind (prepareWorkEntry_stays config k hchecked) fun workPath _ => ?_
    split
    · exact Stays.anyway (.ret trivial)
    · exact Stays.anyway (Stays.of_only (applyTransformForTarget_only config k
        (fun _ => reports_source) rfl rfl (fun _ => rfl) _ _ _ (fun _ _ => rfl) i n _))

/-- Where the object of an entry is expected among the staged files. -/
def stagedSource (entry : ManifestEntry) : String := Path.join "files" entry.relativePath.asStr

theorem normalized_stagedSource (entry : ManifestEntry) :
    ∃ expected, NormalizedRelativePath.new (stagedSource entry) = .ok expected ∧
      expected.asStr = stagedSource entry := by
  obtain ⟨ns, hne, hns, hpath⟩ := entry.relativePath.exists_names
  have hall : ∀ n ∈ "files" :: ns, EntryName n := List.forall_mem_cons.2 ⟨by decide, hns⟩
  have hsource : stagedSource entry = Path.joinSlash ("files" :: ns) := by
    have hrel : Path.isAbsolute (Path.joinSlash ns) = false := Path.isAbsolute_joinSlash hne hns
    obtain ⟨n, rest, rfl⟩ := List.exists_cons_of_ne_nil hne
    unfold stagedSource
    rw [hpath, Path.join, hrel]
    rfl
  have hcomponents := Path.components_joinSlash (List.cons_ne_nil _ _) hall
  have hnormal : normalizeRelative (stagedSource entry) = .ok (stagedSource entry) := by
    have hdots : ".." ∉ "files" :: ns := fun hmem => (hall _ hmem).plain.2 rfl
    have hplain : ("files" :: ns).filter (· != ".") = "files" :: ns :=
      List.filter_eq_self.2 fun n hn => bne_iff_ne.2 (hall n hn).plain.1
    unfold normalizeRelative
    rw [hsource, Path.isAbsolute_joinSlash (List.cons_ne_nil _ _) hall, hcomponents]
    simp only [Bool.false_eq_true, if_false, hplain]
    rw [if_neg (by simpa using hdots)]
    rfl
  unfold NormalizedRelativePath.new
  split
  · rename_i text h
    exact ⟨_, rfl, Except.ok.inj (h.symm.trans hnormal)⟩
  · rename_i e h
    cases h.symm.trans hnormal

variable (host) in
/-- An entry whose staged path is not the expected one is refused unseen. -/
theorem importEntry_mismatch {name : String} (htransform : entry.transform = some name)
    (h : entry.stagedPath.asStr ≠ stagedSource entry) (i n : Nat) (destination : DestinationPath) :
    ∃ e, (importEntry host config k entry i n destination).run = .ret (.error e) := by
  obtain ⟨expected, hnew, hexpected⟩ := normalized_stagedSource entry
  have hne : entry.stagedPath ≠ expected := fun heq => h (heq ▸ hexpected)
  refine ⟨"staged_path mismatch: expected '" ++ expected.asStr ++ "', got '" ++
    entry.stagedPath.asStr ++ "'", ?_⟩
  unfold importEntry checkStaged
  rw [htransform, ← stagedSource, hnew]
  simp only
  rw [show (pure expected : ExceptT String Call _) >>= _ = _ from pure_bind _ _]
  rw [if_pos hne]
  rfl

variable (host) in
/-- The first call asks for the kind of the staged object; an error ends the entry. -/
theorem importEntry_first {name : String} (htransform : entry.transform = some name)
    (h : entry.stagedPath.asStr = stagedSource entry) (i n : Nat) (destination : DestinationPath) :
    ∃ g, (importEntry host config k entry i n destination).run =
        .call (.stagedKind entry.stagedPath.asStr) g ∧
      ∀ e, ∃ e', g (.error e) = .ret (.error e') := by
  obtain ⟨expected, hnew, hexpected⟩ := normalized_stagedSource entry
  have heq : ¬ entry.stagedPath ≠ expected := by
    rw [not_not]
    cases hentry : entry.stagedPath
    cases expected
    simp_all
  unfold importEntry checkStaged
  rw [htransform, ← stagedSource, hnew]
  simp only
  rw [show (pure expected : ExceptT String Call _) >>= _ = _ from pure_bind _ _]
  rw [if_neg heq]
  exact ⟨_, rfl, fun e => ⟨_, rfl⟩⟩

theorem transform_of_validated {manifest : Manifest} {runConfig : RunConfig}
    (h : validateTransformRun config manifest runConfig = .ok ()) (hentry : entry ∈ manifest.entries) :
    ∃ name, entry.transform = some name := by
  unfold validateTransformRun at h
  split at h
  · exact nomatch h
  · split at h
    · exact nomatch h
    · rename_i hlength
      obtain ⟨only, honly⟩ := List.length_eq_one_iff.1 (not_not.1 hlength)
      rw [honly] at h hentry
      obtain rfl := List.mem_singleton.1 hentry
      cases htransform : entry.transform with
      | some name => exact ⟨name, rfl⟩
      | none =>
        simp only [List.forM, htransform, bind, Except.bind] at h
        exact nomatch h

/-- What is promised of the way an entry's staged object is used. -/
structure Untraversed (d : RunDir) (entry : ManifestEntry) (L : List (Exchange RunOp RunOp.Res))
    (outcome : EntryOutcome) : Prop where
  direct : ∀ e ∈ L, Direct d.staged (stagedSource entry) e
  refused : leadsOutside d.staged (stagedSource entry) = true →
    (∃ error, outcome = failedEntry entry error) ∧ ∀ e ∈ L, ∀ c, e.1 ≠ .spawn c

theorem processManifestEntry_runs {i n : Nat} {destination : DestinationPath}
    {L : List (Exchange RunOp RunOp.Res)} {outcome : EntryOutcome}
    (h : (processManifestEntry host config k entry i n destination).Runs L outcome) :
    ∃ r, (importEntry host config k entry i n destination).run.Runs L r ∧
      ∀ e, r = .error e → outcome = failedEntry entry e := by
  obtain ⟨r, L₁, L₂, rfl, himport, hr⟩ := Prog.runs_bind.1 h
  cases r with
  | error e =>
    obtain ⟨rfl, rfl⟩ := hr
    rw [List.append_nil]
    refine ⟨_, himport, fun e' he => ?_⟩
    rw [Except.error.inj he]
  | ok paths =>
    obtain ⟨rfl, rfl⟩ := hr
    rw [List.append_nil]
    exact ⟨_, himport, fun e he => nomatch he⟩

/-- Answers that tell of an object at the path, and fail otherwise. -/
def kindOnly (host : Host) (d : RunDir) : (o : RunOp) → o.Res
  | .stagedKind path => (stagedNode host d path).map Node.kind
  | o => o.failed (.other "")

theorem kindOnly_fromFiles (o : RunOp) : FromFiles host d ⟨o, kindOnly host d o⟩ := by
  cases o with
  | stagedKind path => exact fun _ => rfl
  | _ => exact fun hfound => nomatch hfound

/-- Symlinks among the staged files are not followed exactly if none is on the
way to the object, or the entry is refused before, or there is nothing behind it. -/
theorem staged_symlinks (host : Host) (config : ServerConfig) (k : RunKey) (manifest : Manifest)
    (runConfig : RunConfig) (h : validateTransformRun config manifest runConfig = .ok ())
    (entry : ManifestEntry) (hentry : entry ∈ manifest.entries) (i n : Nat)
    (destination : DestinationPath) (d : RunDir) :
    (∀ L outcome, (processManifestEntry host config k entry i n destination).Runs L outcome →
      (∀ e ∈ L, FromFiles host d e) → Untraversed d entry L outcome) ↔
    (leadsOutside d.staged (stagedSource entry) = false ∨
      entry.stagedPath.asStr ≠ stagedSource entry ∨ host.outside (stagedSource entry) = none) := by
  obtain ⟨name, htransform⟩ := transform_of_validated config h hentry
  constructor
  · intro hruns
    by_contra hnot
    rw [not_or, not_or, not_not, Bool.not_eq_false] at hnot
    obtain ⟨hout, hstaged, hsome⟩ := hnot
    obtain ⟨object, hobject⟩ := Option.ne_none_iff_exists'.1 hsome
    obtain ⟨g, hfirst, -⟩ := importEntry_first host config k htransform hstaged i n
      destination
    obtain ⟨L, outcome, hrun, hanswers⟩ := Prog.exists_runs
      (processManifestEntry host config k entry i n destination) (kindOnly host d)
    have hfiles : ∀ e ∈ L, FromFiles host d e := by
      rintro ⟨o, r⟩ he
      obtain rfl : r = kindOnly host d o := hanswers _ he
      exact kindOnly_fromFiles o
    obtain ⟨r, himport, -⟩ := processManifestEntry_runs config k hrun
    rw [hfirst] at himport
    obtain ⟨kind, L', rfl, -⟩ := himport
    have hnode : kindOnly host d (.stagedKind entry.stagedPath.asStr) = .ok object.kind := by
      unfold kindOnly stagedNode
      rw [RunDir.staged] at hout
      simp only [hstaged, hout, if_true, hobject]
      rfl
    obtain rfl : kind = .ok object.kind := (hanswers _ (.head _)).trans hnode
    have hdirect := (hruns _ _ hrun hfiles).direct _ (.head _) _ _ rfl rfl
    rw [hstaged, if_neg Bool.false_ne_true, hout] at hdirect
    exact nomatch hdirect.2
  · intro hwhen L outcome hrun hfiles
    obtain ⟨r, himport, hfailed⟩ := processManifestEntry_runs config k hrun
    by_cases hstaged : entry.stagedPath.asStr = stagedSource entry
    · cases hout : leadsOutside d.staged (stagedSource entry) with
      | false =>
        have hclear := hout
        rw [← hstaged] at hclear
        obtain ⟨hdirect, -⟩ := importEntry_stays config k hclear i n destination [] L r himport hfiles
          trivial
        refine ⟨fun e he => ?_, fun hleads => ?_⟩
        · obtain ⟨before, after, rfl⟩ := List.append_of_mem he
          rw [← hstaged]
          exact hdirect before e after rfl
        · rw [hout] at hleads
          exact nomatch hleads
      | true =>
        have hnone : host.outside (stagedSource entry) = none := by
          obtain hclear | hmismatch | hnone := hwhen
          · rw [hout] at hclear
            exact nomatch hclear
          · exact absurd hstaged hmismatch
          · exact hnone
        have hmissing : stagedNode host d (stagedSource entry) = .error .notFound := by
          unfold stagedNode
          rw [RunDir.staged] at hout
          simp only [hout, if_true, hnone]
        obtain ⟨g, hfirst, hg⟩ := importEntry_first host config k htransform hstaged i n
          destination
        rw [hfirst] at himport
        obtain ⟨answer, L', rfl, hrest⟩ := himport
        have hanswer := hfiles _ (.head _)
        cases answer with
        | ok kind =>
          have hkind : (Except.ok kind : Except IoError FileKind) =
              (stagedNode host d entry.stagedPath.asStr).map Node.kind := hanswer rfl
          rw [hstaged, hmissing] at hkind
          exact nomatch hkind
        | error m =>
          obtain ⟨e, he⟩ := hg m
          rw [he] at hrest
          obtain ⟨rfl, rfl⟩ := hrest
          refine ⟨?_, fun _ => ⟨⟨e, hfailed e rfl⟩, ?_⟩⟩
          · refine List.forall_mem_singleton.2 fun path follows _ hfound => ?_
            exact nomatch hfound
          · exact List.forall_mem_singleton.2 fun _ => nofun
    · obtain ⟨e, hret⟩ := importEntry_mismatch host config k htransform hstaged i n
        destination
      rw [hret] at himport
      obtain ⟨rfl, rfl⟩ := himport
      exact ⟨List.forall_mem_nil _, fun _ => ⟨⟨e, hfailed e rfl⟩, List.forall_mem_nil _⟩⟩

end Entry

section Sample

def entryManifest (entry : ManifestEntry) : Manifest :=
  ⟨currentPurgeryVersion, sampleKey.runId, sampleKey.nickname, [entry]⟩

theorem staged_symlinks_plain :
    (∀ L outcome, (processManifestEntry sampleHost sampleConfig sampleKey
        (fileEntry samplePath sampleStaged) 0 1 sampleRunConfig.destination).Runs L outcome →
      (∀ e ∈ L, FromFiles sampleHost sampleRun e) →
      Untraversed sampleRun (fileEntry samplePath sampleStaged) L outcome) ↔
    (leadsOutside sampleRun.staged "files/a" = false ∨ "files/a" ≠ "files/a" ∨
      sampleHost.outside "files/a" = none) :=
  staged_symlinks sampleHost sampleConfig sampleKey
    (entryManifest (fileEntry samplePath sampleStaged)) sampleRunConfig (by decide)
    (fileEntry samplePath sampleStaged) (.head _) 0 1 sampleRunConfig.destination sampleRun

def linkPath : NormalizedRelativePath := ⟨"l/a", "l/a", by decide⟩

def linkStaged : NormalizedRelativePath := ⟨"files/l/a", "files/l/a", by decide⟩

/-- There is an empty file behind the link. -/
def linkHost : Host where
  sha256 _ := ""
  outside path := if path = "files/l/a" then some (.file []) else none
  followed path := if path = "files/l/a" then some (.file []) else none
  within _ := []

def linkRun : RunDir :=
  { sampleRun with tree := fun
    | .files => some [("files/l", .symlink "/etc")]
    | .work => some [] }

/-- A file outside of the run is imported as if it had been staged. -/
theorem staged_symlink_followed :
    validateTransformRun sampleConfig (entryManifest (fileEntry linkPath linkStaged))
        sampleRunConfig = .ok () ∧
      leadsOutside linkRun.staged "files/l/a" = true ∧
      ((processManifestEntry linkHost sampleConfig sampleKey (fileEntry linkPath linkStaged) 0 1
        sampleRunConfig.destination).solo (undisturbed linkHost () (fun o => o.plain) 0)
        ((worldWith Unit linkRun 0 .processing).runs sampleKey)).1 =
        .success .regularFile "/l/a" "l/a" [] (some "t") := by
  refine ⟨?_, ?_, ?_⟩ <;> decide +kernel

end Sample

end Purgery.Server
