import Purgery.Server.WorkCopy

namespace Purgery.Server

open Purgery.Interleaving Path

section Area

variable {Tid : Type} [DecidableEq Tid] {config : ServerConfig} {k : RunKey} {host : Host}
variable {t : Tid} {clock : Nat} {D : RunPhase → Option RunDir} {d : RunDir}
variable {Φ Ψ : Tree → Prop} {w : RunWorld Tid} {ss rs cs : List String}
variable {P : List String → Prop} {n : Node}

/-- Nothing but the work area has changed. -/
def InArea (D : RunPhase → Option RunDir) (d : RunDir) (Φ : Tree → Prop) (w : RunWorld Tid) :
    Prop :=
  ∃ T, Φ T ∧ w.dirs = Function.update D .processing (some (d.setTree .work (some T)))

omit [DecidableEq Tid] in
theorem InArea.mono (h : InArea D d Φ w) (hΦ : ∀ T, Φ T → Ψ T) : InArea D d Ψ w := by
  obtain ⟨T, hT, hw⟩ := h
  exact ⟨T, hΦ T hT, hw⟩

omit [DecidableEq Tid] in
theorem InArea.inWork {f : Tree → Except IoError Tree} (h : InArea D d Φ w)
    (hf : ∀ T, Φ T → ∃ T', f T = .ok T' ∧ Ψ T') :
    (w.inWork f).1 = .ok () ∧ InArea D d Ψ (w.inWork f).2 := by
  obtain ⟨T, hT, hw⟩ := h
  obtain ⟨T', hok, hT'⟩ := hf T hT
  have hfound : w.dirs .processing = some (d.setTree .work (some T)) := by
    rw [hw, Function.update_self]
  have htree : (d.setTree .work (some T)).tree .work = some T := by simp [RunDir.setTree]
  simp only [RunWorld.inWork, hfound, htree, hok]
  refine ⟨trivial, T', hT', ?_⟩
  rw [RunWorld.setDir, hw, Function.update_idem]
  simp [RunDir.setTree]

omit [DecidableEq Tid] in
theorem InArea.look {α : Type} {f : RunDir → Except IoError α} (h : InArea D d Φ w)
    (hf : ∀ d' : RunDir, d'.tree .files = d.tree .files → f d' = f d) :
    w.look .processing f = f d := by
  obtain ⟨T, -, hw⟩ := h
  simp only [RunWorld.look, hw, Function.update_self]
  exact hf _ (by simp [RunDir.setTree])

omit [DecidableEq Tid] in
theorem InArea.createWorkDirs {paths : List String} (h : InArea D d Φ w)
    (hf : ∀ T, Φ T → Ψ (paths.foldl (fun t p =>
      if (t.find p).isSome then t else t.insert p .dir) T)) :
    InArea D d Ψ (w.createWorkDirs clock paths) := by
  obtain ⟨T, hT, hw⟩ := h
  have hfound : w.dirs .processing = some (d.setTree .work (some T)) := by
    rw [hw, Function.update_self]
  refine ⟨_, hf T hT, ?_⟩
  simp only [RunWorld.createWorkDirs, hfound]
  rw [RunWorld.setDir, hw, Function.update_idem]
  simp [RunDir.setTree]

theorem calm_stagedKind {ε : Type} {describe : IoError → ε} {path : String}
    (h : InArea D d Φ w) (hnode : stagedNode host d path = .ok n) :
    (calmCall host t clock).Succeeds (io (sys (.stagedKind path)) describe)
      (fun kind w => kind = n.kind ∧ InArea D d Φ w) w := by
  refine calm_io (calm_sys fun _ => ?_)
  have hlook := h.look (f := fun d => (stagedNode host d path).map Node.kind)
    fun d' hd' => by rw [(staged_congr hd' path).1]
  simp only [RunOp.run, hlook, hnode]
  exact ⟨_, rfl, rfl, h⟩

theorem calm_stagedTarget {ε : Type} {describe : IoError → ε} {path target : String}
    (h : InArea D d Φ w) (hnode : stagedNode host d path = .ok (.symlink target)) :
    (calmCall host t clock).Succeeds (io (sys (.stagedTarget path)) describe)
      (fun found w => found = target ∧ InArea D d Φ w) w := by
  refine calm_io (calm_sys fun _ => ?_)
  have hlook := h.look (f := (stagedLink host · path))
    fun d' hd' => by rw [stagedLink, stagedLink, (staged_congr hd' path).1]
  have htarget : stagedLink host d path = .ok target := by rw [stagedLink, hnode]
  simp only [RunOp.run, hlook, htarget]
  exact ⟨_, rfl, rfl, h⟩

theorem calm_walkStaged {ε : Type} {describe : IoError → ε} {path : String}
    {children : List String} (h : InArea D d Φ w)
    (hwalk : followedWalk host d path = .ok children) :
    (calmCall host t clock).Succeeds (io (sys (.walkStaged path)) describe)
      (fun found w => found = children ∧ InArea D d Φ w) w := by
  refine calm_io (calm_sys fun _ => ?_)
  have hlook := h.look (f := (followedWalk host · path))
    fun d' hd' => by rw [followedWalk, followedWalk, (staged_congr hd' path).2, hd']
  simp only [RunOp.run, hlook, hwalk]
  exact ⟨_, rfl, rfl, h⟩

theorem calm_createWorkParent {path : String} (h : InArea D d Φ w)
    (hf : ∀ T, Φ T → Ψ ((ancestors path).foldl (fun t p =>
      if (t.find p).isSome then t else t.insert p .dir) T)) :
    (calmCall host t clock).Succeeds (createWorkParent path) (fun _ => InArea D d Ψ) w :=
  calm_io (calm_sys fun _ => ⟨(), rfl, h.createWorkDirs hf⟩)

theorem calm_createWorkDir {ε : Type} {describe : IoError → ε} {path : String}
    (h : InArea D d Φ w) (hf : ∀ T, Φ T → ∃ T', T.create path .dir = .ok T' ∧ Ψ T') :
    (calmCall host t clock).Succeeds (io (sys (.createWorkDir path)) describe)
      (fun _ => InArea D d Ψ) w :=
  calm_io (calm_sys fun _ => ⟨(), h.inWork hf⟩)

theorem calm_linkInWork {ε : Type} {describe : IoError → ε} {path target : String}
    (h : InArea D d Φ w) (hf : ∀ T, Φ T → ∃ T', T.create path (.symlink target) = .ok T' ∧ Ψ T') :
    (calmCall host t clock).Succeeds (io (sys (.linkInWork path target)) describe)
      (fun _ => InArea D d Ψ) w :=
  calm_io (calm_sys fun _ => ⟨(), h.inWork hf⟩)

/-- What is written first does not matter. -/
theorem calm_copyFile {ε : Type} {describe : IoError → ε} {source path : String}
    {bytes : List UInt8} (h : InArea D d Φ w) (hbytes : followedBytes host d source = .ok bytes)
    (hf : ∀ T, Φ T → ∀ torn, ∃ T' T'', T.write path torn = .ok T' ∧
      T'.write path bytes = .ok T'' ∧ Ψ T'') :
    (calmCall host t clock).Succeeds (io (copyFile source path) describe)
      (fun _ => InArea D d Ψ) w := by
  refine calm_io (Alone.wp_bind.2 (calm_sys fun torn => ?_))
  have hopened := h.inWork (f := fun T => T.write path torn)
    (Ψ := fun T' => ∃ T'', T'.write path bytes = .ok T'' ∧ Ψ T'') fun T hT => by
      obtain ⟨T', T'', hok, hrest⟩ := hf T hT torn
      exact ⟨T', hok, T'', hrest⟩
  simp only [RunOp.run, hopened.1]
  refine calm_sys fun _ => ?_
  have hlook := hopened.2.look (f := (followedBytes host · source))
    fun d' hd' => by rw [followedBytes, followedBytes, (staged_congr hd' source).2]
  have hcopied := hopened.2.inWork (f := fun T => T.write path bytes) fun T' hT' => hT'
  simp only [RunOp.run, hlook, hbytes]
  exact ⟨(), hcopied⟩

section Objects

variable {source path : String}

theorem Next.parentOf (hrs : rs ≠ []) (hnames : Names rs) (hnext : Next host d ss P cs n) {T : Tree}
    (h : Copying host d ss rs P T) : T.parentOf (joinSlash (rs ++ cs)) = .ok () :=
  parentOf_ok (h.find_above hrs hnames hnext)

/-- The directories on the way are not made again. -/
theorem calm_parent (hrs : rs ≠ []) (hnames : Names rs) (hnext : Next host d ss P cs n)
    (h : InArea D d (Copying host d ss rs P) w) :
    (calmCall host t clock).Succeeds (createWorkParent (joinSlash (rs ++ cs)))
      (fun _ => InArea D d (Copying host d ss rs P)) w := by
  refine calm_createWorkParent h fun T hT => hT.congr fun p => ?_
  rw [Tree.find_createDirs]
  cases hfind : T.find p with
  | some n => rfl
  | none =>
    by_cases hp : p ∈ ancestors (joinSlash (rs ++ cs))
    · rw [hT.find_above hrs hnames hnext p hp] at hfind
      exact nomatch hfind
    · simp [hp]

theorem create_next (hrs : rs ≠ []) (hnames : Names rs) (hnext : Next host d ss P cs n)
    {T : Tree} (h : Copying host d ss rs P T) :
    ∃ T', T.create (joinSlash (rs ++ cs)) n = .ok T' ∧
      Copying host d ss rs (fun cs' => P cs' ∨ cs' = cs) T' := by
  refine ⟨_, ?_, h.insert hrs hnames hnext⟩
  rw [Tree.create, hnext.parentOf hrs hnames h]
  simp [h.find_next hrs hnames hnext, bind, Except.bind, pure, Except.pure]

theorem write_next {bytes : List UInt8} (hrs : rs ≠ []) (hnames : Names rs)
    (hnext : Next host d ss P cs (.file bytes)) {T : Tree} (h : Copying host d ss rs P T)
    (torn : List UInt8) :
    ∃ T' T'', T.write (joinSlash (rs ++ cs)) torn = .ok T' ∧
      T'.write (joinSlash (rs ++ cs)) bytes = .ok T'' ∧
      Copying host d ss rs (fun cs' => P cs' ∨ cs' = cs) T'' := by
  have hall := hnames.append hnext.names
  have habove := h.find_above hrs hnames hnext
  refine ⟨T.insert (joinSlash (rs ++ cs)) (.file torn),
    (T.insert (joinSlash (rs ++ cs)) (.file torn)).insert (joinSlash (rs ++ cs)) (.file bytes),
    ?_, ?_, (h.insert hrs hnames hnext).congr fun p => ?_⟩
  · rw [Tree.write, hnext.parentOf hrs hnames h]
    simp [h.find_next hrs hnames hnext, bind, Except.bind, pure, Except.pure]
  · rw [Tree.write, parentOf_ok (find_insert_above (by simp [hrs]) hall habove)]
    simp [Tree.find_insert, bind, Except.bind, pure, Except.pure]
  · simp only [Tree.find_insert]
    split <;> rfl

theorem calm_directory {ε : Type} {describe : IoError → ε} (hrs : rs ≠ []) (hnames : Names rs)
    (hnext : Next host d ss P cs .dir) (h : InArea D d (Copying host d ss rs P) w) :
    (calmCall host t clock).Succeeds (io (sys (.createWorkDir (joinSlash (rs ++ cs)))) describe)
      (fun _ => InArea D d (Copying host d ss rs fun cs' => P cs' ∨ cs' = cs)) w :=
  calm_createWorkDir h fun _ hT => create_next hrs hnames hnext hT

theorem calm_file {ε : Type} {describe : IoError → ε} {bytes : List UInt8} (hrs : rs ≠ [])
    (hnames : Names rs) (hhost : host.Sound) (hnext : Next host d ss P cs (.file bytes))
    (h : InArea D d (Copying host d ss rs P) w) :
    (calmCall host t clock).Succeeds
      (io (copyFile (joinSlash (ss ++ cs)) (joinSlash (rs ++ cs))) describe)
      (fun _ => InArea D d (Copying host d ss rs fun cs' => P cs' ∨ cs' = cs)) w := by
  have hfollowed := followedNode_of_staged hhost (objectBelow_node hnext.object) nofun
  have hbytes : followedBytes host d (joinSlash (ss ++ cs)) = .ok bytes := by
    rw [followedBytes, hfollowed]
  exact calm_copyFile h hbytes fun T hT torn => write_next hrs hnames hnext hT torn

theorem calm_symlink {ε : Type} {describe describe' : IoError → ε} {target : String}
    (hrs : rs ≠ []) (hnames : Names rs) (hnext : Next host d ss P cs (.symlink target))
    (h : InArea D d (Copying host d ss rs P) w) :
    (calmCall host t clock).Succeeds (do
        let target ← io (sys (.stagedTarget (joinSlash (ss ++ cs)))) describe
        io (sys (.linkInWork (joinSlash (rs ++ cs)) target)) describe')
      (fun _ => InArea D d (Copying host d ss rs fun cs' => P cs' ∨ cs' = cs)) w := by
  refine (calm_stagedTarget h (objectBelow_node hnext.object)).bind ?_
  rintro _ w₁ ⟨rfl, h₁⟩
  exact calm_linkInWork h₁ fun _ hT => create_next hrs hnames hnext hT

/-- The names of an object that the walk has come to. -/
theorem child_path (hss : ss ≠ []) (hrs : rs ≠ []) (hrsn : Names rs) (hcs : cs ≠ [])
    (hcsn : Names cs) :
    Path.join (joinSlash rs) (String.ofList ((joinSlash (ss ++ cs)).toList.drop
      ((joinSlash ss).length + 1))) = joinSlash (rs ++ cs) := by
  rw [drop_joinSlash hss hcs, join_joinSlash hrs hcs hrsn hcsn]

theorem copyStagedChild_calm (hss : ss ≠ []) (hrs : rs ≠ []) (hrsn : Names rs)
    (hhost : host.Sound) (hcs : cs ≠ []) (hnext : Next host d ss P cs n) (hn : n ≠ .other)
    (h : InArea D d (Copying host d ss rs P) w) :
    (calmCall host t clock).Succeeds
      (copyStagedChild (joinSlash rs) (joinSlash ss) (joinSlash (ss ++ cs)))
      (fun _ => InArea D d (Copying host d ss rs fun cs' => P cs' ∨ cs' = cs)) w := by
  have hnode := objectBelow_node hnext.object
  have hstart : (calmCall host t clock).Succeeds
      (io (sys .walkNext) fun e => "failed to walk staged directory: " ++ e.message)
      (fun _ => InArea D d (Copying host d ss rs P)) w := calm_io (calm_sys fun _ => ⟨(), rfl, h⟩)
  unfold copyStagedChild
  refine hstart.bind fun _ w₁ h₁ => ?_
  refine (calm_stagedKind h₁ hnode).bind ?_
  rintro _ w₂ ⟨rfl, h₂⟩
  rw [child_path hss hrs hrsn hcs hnext.names]
  cases n with
  | dir => exact calm_directory hrs hrsn hnext h₂
  | file bytes =>
    exact (calm_parent hrs hrsn hnext h₂).bind fun _ w₃ h₃ => calm_file hrs hrsn hhost hnext h₃
  | symlink target =>
    exact (calm_parent hrs hrsn hnext h₂).bind fun _ w₃ h₃ => calm_symlink hrs hrsn hnext h₃
  | other => exact absurd rfl hn

/-- An object that is neither of these ends the copying. -/
theorem copyStagedChild_refused (hnext : Next host d ss P cs .other) (h : InArea D d Φ w)
    (relativePath source : String) :
    (calmCall host t clock).wp (copyStagedChild relativePath source (joinSlash (ss ++ cs))).run
      (fun r w => (∃ e, r = .error e) ∧ InArea D d Φ w) w := by
  have hnode := objectBelow_node hnext.object
  have hstart : (calmCall host t clock).Succeeds
      (io (sys .walkNext) fun e => "failed to walk staged directory: " ++ e.message)
      (fun _ => InArea D d Φ) w := calm_io (calm_sys fun _ => ⟨(), rfl, h⟩)
  unfold copyStagedChild
  refine Alone.wp_runBind.2 (Alone.wp_mono hstart ?_)
  rintro _ w₁ ⟨_, rfl, h₁⟩
  refine Alone.wp_runBind.2 (Alone.wp_mono (calm_stagedKind h₁ hnode) ?_)
  rintro _ w₂ ⟨_, rfl, rfl, h₂⟩
  exact ⟨⟨_, rfl⟩, h₂⟩

end Objects

section Walk

variable {paths pre rest : List String} {child : String}

/-- The objects that the walk has come to, and the directory itself. -/
def Handled (ss pre cs : List String) : Prop := Names cs ∧ (cs = [] ∨ joinSlash (ss ++ cs) ∈ pre)

theorem next_child (hss : ss ≠ []) (hssn : Names ss) (hwalk : Walkable host d ss paths)
    (horder : walkOrder paths = pre ++ child :: rest) :
    ∃ cs n, cs ≠ [] ∧ child = joinSlash (ss ++ cs) ∧ Next host d ss (Handled ss pre) cs n := by
  have hmem : child ∈ walkOrder paths := by
    rw [horder]
    exact List.mem_append_right _ List.mem_cons_self
  obtain ⟨cs, hcs, hnames, rfl, hsome⟩ := (hwalk.mem child).1 ((List.mem_insertionSort _).1 hmem)
  obtain ⟨n, hn⟩ := Option.isSome_iff_exists.1 hsome
  refine ⟨cs, n, hcs, rfl, hnames, hn, ?_, ?_⟩
  · rintro ⟨-, hnil | hpre⟩
    · exact hcs hnil
    · have hnodup : (walkOrder paths).Nodup :=
        (List.perm_insertionSort _ _).nodup_iff.2 hwalk.nodup
      rw [horder] at hnodup
      exact (List.nodup_append.1 hnodup).2.2 _ hpre _ List.mem_cons_self rfl
  · rintro as bs rfl hb
    refine ⟨hnames.left, ?_⟩
    by_cases ha : as = []
    · exact .inl ha
    · have hdir := objectBelow_dir hsome hb
      have hin : joinSlash (ss ++ as) ∈ paths :=
        (hwalk.mem _).2 ⟨as, ha, hnames.left, rfl, by rw [hdir]; rfl⟩
      rw [← List.append_assoc] at horder
      refine .inr (walkOrder_before (by simp [hss]) hb ?_ horder hin)
      rw [List.append_assoc]
      exact hssn.append hnames

theorem handled_concat (hssn : Names ss) (hcs : Names cs) :
    (fun cs' => Handled ss pre cs' ∨ cs' = cs) = Handled ss (pre ++ [joinSlash (ss ++ cs)]) := by
  funext cs'
  apply propext
  constructor
  · rintro (⟨hnames, hpre⟩ | rfl)
    · exact ⟨hnames, hpre.imp_right fun hmem => List.mem_append_left _ hmem⟩
    · exact ⟨hcs, .inr (by simp)⟩
  · rintro ⟨hnames, rfl | hmem⟩
    · exact .inl ⟨hnames, .inl rfl⟩
    · obtain hpre | hlast := List.mem_append.1 hmem
      · exact .inl ⟨hnames, .inr hpre⟩
      · have heq := joinSlash_injective (hssn.append hnames) (hssn.append hcs)
          (List.mem_singleton.1 hlast)
        exact .inr (List.append_cancel_left heq)

theorem copyStagedChildren_calm (hss : ss ≠ []) (hssn : Names ss) (hrs : rs ≠ [])
    (hrsn : Names rs) (hhost : host.Sound) (hwalk : Walkable host d ss paths)
    (hsupported : ∀ cs, Names cs → objectBelow host d ss cs ≠ some .other)
    (horder : walkOrder paths = pre ++ rest)
    (h : InArea D d (Copying host d ss rs (Handled ss pre)) w) :
    (calmCall host t clock).Succeeds (copyStagedChildren (joinSlash rs) (joinSlash ss) rest)
      (fun _ => InArea D d (Copying host d ss rs (Handled ss (walkOrder paths)))) w := by
  induction rest generalizing pre w with
  | nil =>
    rw [List.append_nil] at horder
    exact .pure (horder ▸ h)
  | cons child rest ih =>
    obtain ⟨cs, n, hcs, rfl, hnext⟩ := next_child hss hssn hwalk horder
    have hn : n ≠ .other := by
      rintro rfl
      exact hsupported cs hnext.names hnext.object
    refine (copyStagedChild_calm hss hrs hrsn hhost hcs hnext hn h).bind fun _ w₁ h₁ => ?_
    rw [handled_concat hssn hnext.names] at h₁
    exact ih (by rw [horder, List.append_assoc]; rfl) h₁

/-- A walk that comes to something else ends with an error. -/
theorem copyStagedChildren_refused (hss : ss ≠ []) (hssn : Names ss) (hrs : rs ≠ [])
    (hrsn : Names rs) (hhost : host.Sound) (hwalk : Walkable host d ss paths)
    (hother : ∃ cs, Names cs ∧ joinSlash (ss ++ cs) ∈ rest ∧ objectBelow host d ss cs = some .other)
    (horder : walkOrder paths = pre ++ rest)
    (h : InArea D d (Copying host d ss rs (Handled ss pre)) w) :
    (calmCall host t clock).wp (copyStagedChildren (joinSlash rs) (joinSlash ss) rest).run
      (fun r w => (∃ e, r = .error e) ∧ InArea D d (fun _ => True) w) w := by
  induction rest generalizing pre w with
  | nil =>
    obtain ⟨_, -, hmem, -⟩ := hother
    exact nomatch hmem
  | cons child rest ih =>
    obtain ⟨cs, n, hcs, rfl, hnext⟩ := next_child hss hssn hwalk horder
    by_cases hn : n = .other
    · subst hn
      refine Alone.wp_runBind.2 (Alone.wp_mono (copyStagedChild_refused hnext h _ _) ?_)
      rintro _ w₁ ⟨⟨e, rfl⟩, h₁⟩
      exact ⟨⟨e, rfl⟩, h₁.mono fun _ _ => trivial⟩
    · refine Alone.wp_runBind.2 (Alone.wp_mono
        (copyStagedChild_calm hss hrs hrsn hhost hcs hnext hn h) ?_)
      rintro _ w₁ ⟨_, rfl, h₁⟩
      rw [handled_concat hssn hnext.names] at h₁
      refine ih ?_ (by rw [horder, List.append_assoc]; rfl) h₁
      obtain ⟨cs', hcs', hmem, hobject⟩ := hother
      obtain heq | hmem := List.mem_cons.1 hmem
      · have hsame := List.append_cancel_left
          (joinSlash_injective (hssn.append hcs') (hssn.append hnext.names) heq)
        rw [hsame, hnext.object] at hobject
        exact absurd (Option.some_inj.1 hobject) hn
      · exact ⟨cs', hcs', hmem, hobject⟩

theorem handled_iff (hssn : Names ss) (hwalk : Walkable host d ss paths)
    (hdir : stagedNode host d (joinSlash ss) = .ok .dir) :
    Handled ss (walkOrder paths) = fun cs => Names cs ∧ (objectBelow host d ss cs).isSome = true := by
  funext cs
  apply propext
  refine and_congr_right fun hnames => ?_
  constructor
  · rintro (rfl | hmem)
    · rw [objectBelow, hdir]
      rfl
    · obtain ⟨cs', -, hcs', heq, hsome⟩ := (hwalk.mem _).1 ((List.mem_insertionSort _).1 hmem)
      rwa [List.append_cancel_left
        (joinSlash_injective (hssn.append hnames) (hssn.append hcs') heq)]
  · intro hsome
    by_cases hcs : cs = []
    · exact .inl hcs
    · exact .inr ((List.mem_insertionSort _).2 ((hwalk.mem _).2 ⟨cs, hcs, hnames, rfl, hsome⟩))

end Walk

section Entry

variable {entry : ManifestEntry}

/-- The work area holds the staged object as it is, and beside it only the
directories on the way to it. -/
structure ExactCopy (host : Host) (d : RunDir) (entry : ManifestEntry) (T : Tree) : Prop where
  same : ∀ cs, Names cs → T.find (joinSlash (components entry.relativePath.asStr ++ cs)) =
    objectBelow host d (components entry.stagedPath.asStr) cs
  above : ∀ p ∈ ancestors entry.relativePath.asStr, T.find p = some .dir
  only : ∀ p, (T.find p).isSome = true → p ∈ ancestors entry.relativePath.asStr ∨
    ∃ cs, Names cs ∧ p = joinSlash (components entry.relativePath.asStr ++ cs)

theorem Copying.exact (hrs : rs ≠ []) (hrsn : Names rs) {T : Tree}
    (h : Copying host d ss rs (fun cs => Names cs ∧ (objectBelow host d ss cs).isSome = true) T)
    (hsource : components entry.stagedPath.asStr = ss) (hpath : entry.relativePath.asStr =
      joinSlash rs) : ExactCopy host d entry T := by
  have hnames : components entry.relativePath.asStr = rs := by
    rw [hpath, components_joinSlash hrs hrsn]
  refine ⟨fun cs hcs => ?_, fun p hp => h.above p (hpath ▸ hp), fun p hp => ?_⟩
  · rw [hnames, hsource]
    cases hreached : objectBelow host d ss cs with
    | some n => rw [h.copied cs ⟨hcs, by rw [hreached]; rfl⟩, hreached]
    | none =>
      rw [← Option.not_isSome_iff_eq_none]
      intro hsome
      obtain habove | ⟨cs', ⟨hcs', hsome'⟩, heq⟩ := h.only _ hsome
      · exact below_not_mem_ancestors hrs (hrsn.append hcs) habove
      · have hsame := joinSlash_injective (hrsn.append hcs) (hrsn.append hcs') heq
        rw [← List.append_cancel_left hsame, hreached] at hsome'
        exact nomatch hsome'
  · rw [hnames, hpath]
    exact (h.only p hp).imp_right fun ⟨cs, hcs, heq⟩ => ⟨cs, hcs.1, heq⟩

theorem handled_root : (fun cs => False ∨ cs = []) = Handled ss [] := by
  funext cs
  apply propext
  constructor
  · rintro (h | rfl)
    · exact h.elim
    · exact ⟨nofun, .inl rfl⟩
  · rintro ⟨-, hcs | hmem⟩
    · exact .inr hcs
    · exact nomatch hmem

/-- What is no directory has nothing below it. -/
theorem reached_leaf (hnode : stagedNode host d (joinSlash ss) = .ok n) (hn : n ≠ .dir) :
    (fun cs => False ∨ cs = []) =
      fun cs => Names cs ∧ (objectBelow host d ss cs).isSome = true := by
  funext cs
  apply propext
  constructor
  · rintro (h | rfl)
    · exact h.elim
    · refine ⟨nofun, ?_⟩
      rw [objectBelow, hnode]
      rfl
  · rintro ⟨-, hsome⟩
    cases cs with
    | nil => exact .inr rfl
    | cons c cs =>
      have hdir : objectBelow host d ss [] = some .dir :=
        objectBelow_dir hsome (List.cons_ne_nil c cs)
      rw [objectBelow, hnode] at hdir
      exact absurd (Option.some_inj.1 hdir) hn

theorem copying_start (hrs : rs ≠ []) (hrsn : Names rs) :
    Copying host d ss rs (fun _ => False) ((ancestors (joinSlash rs)).foldl (fun t p =>
      if (t.find p).isSome then t else t.insert p .dir) []) := by
  refine ⟨fun _ => False.elim, fun p hp => ?_, fun _ => False.elim, fun p hp => .inl ?_⟩
  · rw [Tree.find_createDirs]
    simp [Tree.find, hp]
  · rw [Tree.find_createDirs] at hp
    by_contra hnot
    simp [Tree.find, hnot] at hp

/-- The staged object as it is checked before it is copied. -/
structure Copyable (host : Host) (d : RunDir) (entry : ManifestEntry) (n : Node) : Prop where
  sound : host.Sound
  proper : d.staged.Proper
  node : stagedNode host d entry.stagedPath.asStr = .ok n
  kind : kindMatches entry.kind n.kind = true

/-- The staged object is copied exactly, unless something in it is no directory, file
or symlink; nothing but the work area has changed. -/
def PreparedWork (config : ServerConfig) (k : RunKey) (host : Host) (D : RunPhase → Option RunDir)
    (d : RunDir) (entry : ManifestEntry) (r : Except String String) (w : RunWorld Tid) : Prop :=
  ∃ T, w.dirs = Function.update D .processing (some (d.setTree .work (some T))) ∧
    ((∃ cs, Names cs ∧ objectBelow host d (components entry.stagedPath.asStr) cs = some .other) →
      ∃ e, r = .error e) ∧
    ((∀ cs, Names cs → objectBelow host d (components entry.stagedPath.asStr) cs ≠ some .other) →
      r = .ok (Path.join (workDir config.workDir k) entry.relativePath.asStr) ∧
        ExactCopy host d entry T)

omit [DecidableEq Tid] in
theorem InArea.prepared (h : InArea D d (ExactCopy host d entry) w) (hall : ∀ cs, Names cs →
    objectBelow host d (components entry.stagedPath.asStr) cs ≠ some .other) :
    PreparedWork config k host D d entry
      (.ok (Path.join (workDir config.workDir k) entry.relativePath.asStr)) w := by
  obtain ⟨T, hT, hw⟩ := h
  exact ⟨T, hw, fun ⟨cs, hcs, hother⟩ => absurd hother (hall cs hcs), fun _ => ⟨rfl, hT⟩⟩

/-- A staged directory, once the directory itself is made. -/
theorem copyDirectory_prepared (hss : ss ≠ []) (hssn : Names ss) (hrs : rs ≠ []) (hrsn : Names rs)
    (hhost : host.Sound) (hproper : d.staged.Proper)
    (hstaged : entry.stagedPath.asStr = joinSlash ss) (hpath : entry.relativePath.asStr = joinSlash rs)
    (hdir : stagedNode host d (joinSlash ss) = .ok .dir) {describe : IoError → String}
    (h : InArea D d (Copying host d ss rs (Handled ss [])) w) :
    (calmCall host t clock).wp (do
        let children ← io (sys (.walkStaged (joinSlash ss))) describe
        copyStagedChildren (joinSlash rs) (joinSlash ss) children
        return Path.join (workDir config.workDir k) (joinSlash rs) : ExceptT String Call String).run
      (PreparedWork config k host D d entry) w := by
  have hsource : components entry.stagedPath.asStr = ss := by
    rw [hstaged, components_joinSlash hss hssn]
  obtain ⟨paths, hwalk⟩ := exists_walkable hhost hproper hss hssn hdir
  refine Alone.wp_runBind.2 (Alone.wp_mono (calm_walkStaged h hwalk.walk) ?_)
  rintro _ w₁ ⟨_, rfl, rfl, h₁⟩
  by_cases hother : ∃ cs, Names cs ∧ objectBelow host d ss cs = some .other
  · have hfound : ∃ cs, Names cs ∧ joinSlash (ss ++ cs) ∈ walkOrder paths ∧
        objectBelow host d ss cs = some .other := by
      obtain ⟨cs, hcs, hobject⟩ := hother
      refine ⟨cs, hcs, (List.mem_insertionSort _).2 ((hwalk.mem _).2 ⟨cs, ?_, hcs, rfl, ?_⟩), hobject⟩
      · rintro rfl
        rw [objectBelow, hdir] at hobject
        cases hobject
      · rw [hobject]
        rfl
    refine Alone.wp_runBind.2 (Alone.wp_mono
      (copyStagedChildren_refused hss hssn hrs hrsn hhost hwalk hfound rfl h₁) ?_)
    rintro _ w₂ ⟨⟨e, rfl⟩, T, -, hw⟩
    refine ⟨T, hw, fun _ => ⟨e, rfl⟩, fun hall => ?_⟩
    obtain ⟨cs, hcs, hobject⟩ := hother
    exact absurd hobject (hsource ▸ hall cs hcs)
  · have hall : ∀ cs, Names cs → objectBelow host d ss cs ≠ some .other :=
      fun cs hcs hobject => hother ⟨cs, hcs, hobject⟩
    refine Alone.wp_runBind.2 (Alone.wp_mono
      (copyStagedChildren_calm hss hssn hrs hrsn hhost hwalk hall rfl h₁) ?_)
    rintro _ w₂ ⟨_, rfl, h₂⟩
    rw [handled_iff hssn hwalk hdir] at h₂
    rw [← hpath]
    exact (h₂.mono fun _ hT => hT.exact hrs hrsn hsource hpath).prepared (hsource.symm ▸ hall)

/-- The work area is an exact copy of the staged object, or the object contains
something that is no directory, file or symlink. -/
theorem work_area_copied (config : ServerConfig) (k : RunKey) (host : Host) (t : Tid) (clock : Nat)
    (w : RunWorld Tid) (d : RunDir) (entry : ManifestEntry) (n : Node)
    (hd : w.dirs .processing = some d) (hwork : d.tree .work = some [])
    (hentry : Copyable host d entry n) :
    (calmCall host t clock).wp (prepareWorkEntry config k entry).run
      (PreparedWork config k host w.dirs d entry) w := by
  obtain ⟨ss, hss, hssn, hstaged⟩ := entry.stagedPath.exists_names
  obtain ⟨rs, hrs, hrsn, hpath⟩ := entry.relativePath.exists_names
  obtain ⟨hhost, hproper, hnode, hkind⟩ := hentry
  have hsource : components entry.stagedPath.asStr = ss := by
    rw [hstaged, components_joinSlash hss hssn]
  rw [hstaged] at hnode
  have hobject : objectBelow host d ss [] = some n := by
    rw [objectBelow, hnode]
    rfl
  have hnext : Next host d ss (fun _ => False) [] n := by
    refine ⟨by rintro _ ⟨⟩, hobject, id, fun as bs heq hb => hb ?_⟩
    simpa using (List.append_eq_nil_iff.1 heq.symm).2
  have hstart : InArea w.dirs d (fun T => T = []) w := by
    have hself : d.setTree .work (some []) = d := by
      rw [RunDir.setTree, ← hwork, Function.update_eq_self]
    exact ⟨[], rfl, by rw [hself, ← hd, Function.update_eq_self]⟩
  have hparent : (calmCall host t clock).Succeeds (createWorkParent (joinSlash rs))
      (fun _ => InArea w.dirs d (Copying host d ss rs fun _ => False)) w := by
    refine calm_createWorkParent hstart ?_
    rintro _ rfl
    exact copying_start hrs hrsn
  -- what is no directory is done once it is in place
  have hleaf : n ≠ .dir → n ≠ .other → ∀ w' : RunWorld Tid, InArea w.dirs d
      (Copying host d ss rs fun cs => False ∨ cs = []) w' → PreparedWork config k host w.dirs d entry
        (.ok (Path.join (workDir config.workDir k) entry.relativePath.asStr)) w' := by
    intro hdir hother w' h'
    rw [reached_leaf hnode hdir] at h'
    refine (h'.mono fun _ hT => hT.exact hrs hrsn hsource hpath).prepared fun cs hcs hreached => ?_
    rw [hsource] at hreached
    have hnil : False ∨ cs = [] := by
      rw [congrFun (reached_leaf hnode hdir) cs]
      exact ⟨hcs, by rw [hreached]; rfl⟩
    obtain rfl := hnil.resolve_left id
    rw [hobject] at hreached
    exact hother (Option.some_inj.1 hreached)
  unfold prepareWorkEntry
  rw [hstaged]
  refine Alone.wp_runBind.2 (Alone.wp_mono (hpath ▸ hparent) ?_)
  rintro _ w₁ ⟨_, rfl, h₁⟩
  cases hk : entry.kind with
  | directory =>
    obtain rfl : n = .dir := by
      cases n with
      | dir => rfl
      | _ => simp [hk, kindMatches, Node.kind] at hkind
    have hmade : (calmCall host t clock).Succeeds
        (io (sys (.createWorkDir (joinSlash rs))) fun e =>
          "failed to create work directory: " ++ e.message)
        (fun _ => InArea w.dirs d (Copying host d ss rs (Handled ss []))) w₁ := by
      rw [← handled_root]
      refine calm_createWorkDir h₁ fun T hT => ?_
      simpa using create_next hrs hrsn hnext hT
    rw [hpath]
    refine Alone.wp_runBind.2 (Alone.wp_mono hmade ?_)
    rintro _ w₂ ⟨_, rfl, h₂⟩
    exact copyDirectory_prepared hss hssn hrs hrsn hhost hproper hstaged hpath hnode h₂
  | regularFile =>
    obtain ⟨bytes, rfl⟩ : ∃ bytes, n = .file bytes := by
      cases n with
      | file bytes => exact ⟨bytes, rfl⟩
      | _ => simp [hk, kindMatches, Node.kind] at hkind
    have hmade : (calmCall host t clock).Succeeds
        (io (copyFile (joinSlash ss) (joinSlash rs)) fun e =>
          "failed to copy to work area: " ++ e.message)
        (fun _ => InArea w.dirs d (Copying host d ss rs fun cs => False ∨ cs = [])) w₁ := by
      simpa using calm_file hrs hrsn hhost hnext h₁
    refine Alone.wp_runBind.2 (Alone.wp_mono (hpath ▸ hmade) ?_)
    rintro _ w₂ ⟨_, rfl, h₂⟩
    exact hleaf (by rintro ⟨⟩) (by rintro ⟨⟩) w₂ h₂
  | symlink =>
    obtain ⟨target, rfl⟩ : ∃ target, n = .symlink target := by
      cases n with
      | symlink target => exact ⟨target, rfl⟩
      | _ => simp [hk, kindMatches, Node.kind] at hkind
    refine Alone.wp_runBind.2 (Alone.wp_mono (calm_stagedTarget h₁ hnode) ?_)
    rintro _ w₂ ⟨target, rfl, rfl, h₂⟩
    have hmade : (calmCall host t clock).Succeeds
        (io (sys (.linkInWork (joinSlash rs) target)) fun e =>
          "failed to create work symlink: " ++ e.message)
        (fun _ => InArea w.dirs d (Copying host d ss rs fun cs => False ∨ cs = [])) w₂ := by
      refine calm_linkInWork h₂ fun T hT => ?_
      simpa using create_next hrs hrsn hnext hT
    refine Alone.wp_runBind.2 (Alone.wp_mono (hpath ▸ hmade) ?_)
    rintro _ w₃ ⟨_, rfl, h₃⟩
    exact hleaf (by rintro ⟨⟩) (by rintro ⟨⟩) w₃ h₃

end Entry

end Area

section Sample

def nestedEntry : ManifestEntry :=
  ⟨"/l/t", ⟨"files/p/t", "files/p/t", by decide⟩, ⟨"p/t", "p/t", by decide⟩, .directory, 0, 0,
    none, none, some "t"⟩

/-- A directory in a directory, with a file and a link to it. -/
def nestedRun : RunDir :=
  { sampleRun with tree := fun
    | .files => some [("files/p", .dir), ("files/p/t", .dir), ("files/p/t/b", .dir),
        ("files/p/t/b/y", .file [7]), ("files/p/t/l", .symlink "b")]
    | .work => some [] }

theorem nestedRun_proper : nestedRun.staged.Proper := by
  have hempty : Tree.Proper [] := ⟨List.nodup_nil, nofun, fun _ _ _ h => nomatch h⟩
  have hp := hempty.grow ["files"] "p" .dir (by decide) rfl (.inl rfl)
  have ht := hp.grow ["files", "p"] "t" .dir (by decide) rfl (.inr rfl)
  have hb := ht.grow ["files", "p", "t"] "b" .dir (by decide) rfl (.inr rfl)
  have hy := hb.grow ["files", "p", "t", "b"] "y" (.file [7]) (by decide) rfl (.inr rfl)
  exact hy.grow ["files", "p", "t"] "l" (.symlink "b") (by decide) rfl (.inr rfl)

/-- A directory is copied with everything in it. -/
theorem work_area_copied_nested : ∃ T,
    ((prepareWorkEntry sampleConfig sampleKey nestedEntry).run.solo
      (fun o => (calmCall sampleHost () 0).step o o.plain)
      ((worldWith Unit nestedRun 0 .processing).runs sampleKey)).1 =
        .ok "/w/laptop/processing/r1/work/p/t" ∧ ExactCopy sampleHost nestedRun nestedEntry T := by
  have hcopied := work_area_copied sampleConfig sampleKey sampleHost () 0
    ((worldWith Unit nestedRun 0 .processing).runs sampleKey) nestedRun nestedEntry .dir rfl rfl
    ⟨⟨nofun, fun _ => List.nodup_nil, fun _ _ h => nomatch h⟩, nestedRun_proper, rfl, rfl⟩
  obtain ⟨T, -, -, hexact⟩ := Alone.wp_solo (fun o => o.plain) (fun _ => trivial) hcopied
  refine ⟨T, hexact fun cs hcs hother => ?_⟩
  have hnode := stagedNode_ok.1 (objectBelow_node hother)
  split at hnode
  · exact nomatch hnode
  · have hall : ∀ e ∈ nestedRun.staged, e.2 ≠ .other := by decide
    exact hall _ (Tree.mem_of_find hnode) rfl

end Sample

end Purgery.Server
