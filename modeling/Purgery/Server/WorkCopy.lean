import Purgery.Server.Collection
import Purgery.Server.Entry
import Purgery.Server.Staging
import Purgery.Server.Trees

namespace Purgery.Server

open Purgery.Interleaving Path

section View

/-- The object with these names below `ss`, reached without following a symlink. -/
def objectBelow (host : Host) (d : RunDir) : List String → List String → Option Node
  | ss, [] => (stagedNode host d (joinSlash ss)).toOption
  | ss, c :: cs =>
    match stagedNode host d (joinSlash ss) with
    | .ok .dir => objectBelow host d (ss ++ [c]) cs
    | _ => none

/-- A tree of files: the names on the paths are proper ones, and what holds an
object is a directory. -/
structure Tree.Proper (t : Tree) : Prop where
  nodup : (t.map Prod.fst).Nodup
  names : ∀ e ∈ t, ∃ ns, ns ≠ [] ∧ Names ns ∧ e.1 = joinSlash ns
  parent : ∀ ns n, Names (ns ++ [n]) → (t.find (joinSlash (ns ++ [n]))).isSome = true →
    ns = ["files"] ∨ t.find (joinSlash ns) = some .dir

/-- A tree with one more object in one of its directories. -/
theorem Tree.Proper.grow {t : Tree} (h : t.Proper) (ms : List String) (m : String) (node : Node)
    (hnames : Names (ms ++ [m])) (hfresh : t.find (joinSlash (ms ++ [m])) = none)
    (hparent : ms = ["files"] ∨ t.find (joinSlash ms) = some .dir) :
    (t ++ [(joinSlash (ms ++ [m]), node)]).Proper := by
  have hfind : ∀ p, (t ++ [(joinSlash (ms ++ [m]), node)]).find p =
      (t.find p).or (if p = joinSlash (ms ++ [m]) then some node else none) := by
    intro p
    rw [Tree.find, List.lookup_append, List.lookup_cons]
    by_cases hp : p = joinSlash (ms ++ [m])
    · simp [Tree.find, hp]
    · rw [beq_false_of_ne hp, if_neg hp]
      rfl
  refine ⟨?_, ?_, fun ns n hns hsome => ?_⟩
  · rw [List.map_append]
    refine List.nodup_append.2 ⟨h.nodup, List.nodup_singleton _, fun p hp q hq heq => ?_⟩
    obtain ⟨⟨p, n⟩, he, rfl⟩ := List.mem_map.1 hp
    obtain rfl : p = joinSlash (ms ++ [m]) := heq.trans (List.mem_singleton.1 hq)
    rw [Tree.find_of_mem h.nodup he] at hfresh
    exact nomatch hfresh
  · exact List.forall_mem_append.2 ⟨h.names, List.forall_mem_singleton.2
      ⟨ms ++ [m], by simp, hnames, rfl⟩⟩
  · rw [hfind] at hsome ⊢
    by_cases heq : joinSlash (ns ++ [n]) = joinSlash (ms ++ [m])
    · obtain ⟨rfl, -⟩ := List.append_inj' (joinSlash_injective hns hnames heq) rfl
      exact hparent.imp_right fun hdir => by rw [hdir, Option.some_or]
    · rw [if_neg heq, Option.or_none] at hsome
      exact (h.parent ns n hns hsome).imp_right fun hdir => by rw [hdir, Option.some_or]

/-- What symlinks lead to is a file system: only a symlink is followed, and a walk
lists what it reaches without following one. -/
structure Host.Sound (host : Host) : Prop where
  followed : ∀ p n, host.outside p = some n → n.kind ≠ .symlink → host.followed p = some n
  nodup : ∀ p, (host.within p).Nodup
  within : ∀ ss, Names ss → host.outside (joinSlash ss) = some .dir → ∀ p,
    p ∈ host.within (joinSlash ss) ↔ ∃ cs, cs ≠ [] ∧ Names cs ∧ p = joinSlash (ss ++ cs) ∧
      (host.outside p).isSome = true ∧
      ∀ as bs, cs = as ++ bs → bs ≠ [] → host.outside (joinSlash (ss ++ as)) = some .dir

/-- What a walk of the directory finds, in some order. -/
structure Walkable (host : Host) (d : RunDir) (ss : List String) (paths : List String) : Prop where
  nodup : paths.Nodup
  mem : ∀ p, p ∈ paths ↔ ∃ cs, cs ≠ [] ∧ Names cs ∧ p = joinSlash (ss ++ cs) ∧
    (objectBelow host d ss cs).isSome = true
  walk : followedWalk host d (joinSlash ss) = .ok (walkOrder paths)

variable {host : Host} {d : RunDir} {ss as bs cs : List String} {n : Node}

theorem objectBelow_append (h : objectBelow host d ss as = some .dir) (bs : List String) :
    objectBelow host d ss (as ++ bs) = objectBelow host d (ss ++ as) bs := by
  induction as generalizing ss with
  | nil => simp
  | cons a as ih =>
    unfold objectBelow at h
    split at h
    · rename_i hdir
      rw [List.cons_append, objectBelow, hdir]
      simp only
      rw [ih h]
      simp
    · exact nomatch h

theorem objectBelow_dir (h : (objectBelow host d ss (as ++ bs)).isSome = true) (hb : bs ≠ []) :
    objectBelow host d ss as = some .dir := by
  induction as generalizing ss with
  | nil =>
    obtain ⟨b, bs, rfl⟩ := List.exists_cons_of_ne_nil hb
    rw [List.nil_append, objectBelow] at h
    split at h
    · rename_i hdir
      rw [objectBelow, hdir]
      rfl
    · exact nomatch h
  | cons a as ih =>
    rw [List.cons_append, objectBelow] at h
    split at h
    · rename_i hdir
      rw [objectBelow, hdir]
      exact ih h
    · exact nomatch h

/-- An object that is reached is the one at its path. -/
theorem objectBelow_node (h : objectBelow host d ss cs = some n) :
    stagedNode host d (joinSlash (ss ++ cs)) = .ok n := by
  have hself : objectBelow host d (ss ++ cs) [] = some n := by
    obtain rfl | ⟨as, c, rfl⟩ := List.eq_nil_or_concat cs
    · simpa using h
    · rw [List.concat_eq_append] at h ⊢
      have hparent := objectBelow_dir (by rw [h]; rfl) (List.cons_ne_nil c [])
      rw [objectBelow_append hparent, objectBelow] at h
      split at h
      · rwa [List.append_assoc] at h
      · exact nomatch h
  rw [objectBelow] at hself
  cases hnode : stagedNode host d (joinSlash (ss ++ cs)) with
  | error e => simp [hnode, Except.toOption] at hself
  | ok n' =>
    rw [hnode] at hself
    exact congrArg Except.ok (Option.some_inj.1 hself)

/-- An object with nothing but directories on the way to it is reached. -/
theorem objectBelow_of_dirs (h : ∀ as bs, cs = as ++ bs → bs ≠ [] →
    stagedNode host d (joinSlash (ss ++ as)) = .ok .dir) :
    objectBelow host d ss cs = (stagedNode host d (joinSlash (ss ++ cs))).toOption := by
  induction cs generalizing ss with
  | nil => simp [objectBelow]
  | cons c cs ih =>
    have hroot := h [] (c :: cs) rfl (by simp)
    rw [List.append_nil] at hroot
    rw [objectBelow, hroot]
    have hdirs : ∀ as bs, cs = as ++ bs → bs ≠ [] →
        stagedNode host d (joinSlash (ss ++ [c] ++ as)) = .ok .dir := by
      intro as bs heq hb
      simpa using h (c :: as) bs (by rw [heq]; rfl) hb
    simpa using ih hdirs

theorem objectBelow_iff (hss : stagedNode host d (joinSlash ss) = .ok .dir) :
    (objectBelow host d ss cs).isSome = true ↔
      (stagedNode host d (joinSlash (ss ++ cs))).toOption.isSome = true ∧
      ∀ as bs, cs = as ++ bs → bs ≠ [] → stagedNode host d (joinSlash (ss ++ as)) = .ok .dir := by
  constructor
  · intro h
    obtain ⟨n, hn⟩ := Option.isSome_iff_exists.1 h
    refine ⟨by rw [objectBelow_node hn]; rfl, ?_⟩
    rintro as bs rfl hb
    exact objectBelow_node (objectBelow_dir h hb)
  · rintro ⟨hnode, hdirs⟩
    rwa [objectBelow_of_dirs hdirs]

theorem stagedNode_ok {p : String} : stagedNode host d p = .ok n ↔
    (if leadsOutside d.staged p then host.outside p else d.staged.find p) = some n := by
  unfold stagedNode
  rw [← RunDir.staged]
  dsimp only
  generalize (if leadsOutside d.staged p then host.outside p else d.staged.find p) = found
  cases found <;> simp

theorem followedNode_ok {p : String} : followedNode host d p = .ok n ↔
    (if throughSymlink d.staged p then host.followed p else d.staged.find p) = some n := by
  unfold followedNode
  rw [← RunDir.staged]
  dsimp only
  generalize (if throughSymlink d.staged p then host.followed p else d.staged.find p) = found
  cases found <;> simp

/-- Whatever is not a symlink is found by following, too. -/
theorem followedNode_of_staged (hhost : host.Sound) {p : String} (h : stagedNode host d p = .ok n)
    (hn : n.kind ≠ .symlink) : followedNode host d p = .ok n := by
  rw [stagedNode_ok] at h
  rw [followedNode_ok, throughSymlink]
  cases hout : leadsOutside d.staged p with
  | true =>
    rw [hout, if_pos rfl] at h
    exact hhost.followed p n h hn
  | false =>
    rw [hout, if_neg Bool.false_ne_true] at h
    simp [h, hn]

end View

section Walks

variable {host : Host} {d : RunDir} {ss ns cs : List String} {c : String}

theorem leadsOutside_iff (hproper : d.staged.Proper) (hne : ns ≠ []) (hns : Names ns) :
    leadsOutside d.staged (joinSlash ns) = true ↔ ∃ ms bs target, Names ms ∧ ms ≠ [] ∧ bs ≠ [] ∧
      ns = ms ++ bs ∧ d.staged.find (joinSlash ms) = some (.symlink target) := by
  simp only [leadsOutside, List.any_eq_true, Bool.and_eq_true, beq_iff_eq]
  constructor
  · rintro ⟨⟨p, m⟩, he, hkind, hbelow⟩
    obtain ⟨ms, hms, hnames, rfl⟩ := hproper.names _ he
    obtain ⟨bs, hb, rfl⟩ := (below_joinSlash hms hnames hne hns).1 hbelow
    have hfind := Tree.find_of_mem hproper.nodup he
    cases m with
    | symlink target => exact ⟨ms, bs, target, hnames, hms, hb, rfl, hfind⟩
    | _ => exact nomatch hkind
  · rintro ⟨ms, bs, target, hnames, hms, hb, rfl, hfind⟩
    exact ⟨_, Tree.mem_of_find hfind, rfl, (below_joinSlash hms hnames hne hns).2 ⟨bs, hb, rfl⟩⟩

/-- A directory leads nowhere else. -/
theorem leadsOutside_concat (hproper : d.staged.Proper) (hne : ns ≠ []) (hns : Names (ns ++ [c]))
    (hdir : d.staged.find (joinSlash ns) = some .dir) :
    leadsOutside d.staged (joinSlash (ns ++ [c])) = leadsOutside d.staged (joinSlash ns) := by
  rw [Bool.eq_iff_iff, leadsOutside_iff hproper (by simp) hns,
    leadsOutside_iff hproper hne hns.left]
  constructor
  · rintro ⟨ms, bs, target, hnames, hms, hb, heq, hfind⟩
    obtain rfl | ⟨bs', b, rfl⟩ := List.eq_nil_or_concat bs
    · exact absurd rfl hb
    · rw [List.concat_eq_append, ← List.append_assoc] at heq
      obtain ⟨rfl, -⟩ := List.append_inj' heq rfl
      refine ⟨ms, bs', target, hnames, hms, ?_, rfl, hfind⟩
      rintro rfl
      rw [List.append_nil, hfind] at hdir
      exact nomatch hdir
  · rintro ⟨ms, bs, target, hnames, hms, hb, rfl, hfind⟩
    exact ⟨ms, bs ++ [c], target, hnames, hms, by simp, by simp, hfind⟩

/-- What is reached from a directory that no symlink leads to, no symlink leads to. -/
theorem objectBelow_direct (hproper : d.staged.Proper) (hss : ss ≠ []) (h : Names (ss ++ cs))
    (hout : leadsOutside d.staged (joinSlash ss) = false)
    (hreached : (objectBelow host d ss cs).isSome = true) :
    leadsOutside d.staged (joinSlash (ss ++ cs)) = false := by
  induction cs using List.reverseRecOn with
  | nil => simpa using hout
  | append_singleton cs c ih =>
    have hdir := objectBelow_dir hreached (List.cons_ne_nil c [])
    rw [← List.append_assoc] at h ⊢
    have hdirect := ih h.left (by rw [hdir]; rfl)
    have hfind := stagedNode_ok.1 (objectBelow_node hdir)
    rw [hdirect, if_neg Bool.false_ne_true] at hfind
    rw [leadsOutside_concat hproper (List.append_ne_nil_of_left_ne_nil hss cs) h hfind, hdirect]

/-- Where no symlink leads to the directory, what is reached from it is what the tree
has below it. -/
theorem objectBelow_eq_find (hproper : d.staged.Proper) (hss : ss ≠ []) (h : Names (ss ++ cs))
    (hout : leadsOutside d.staged (joinSlash ss) = false)
    (hroot : d.staged.find (joinSlash ss) = some .dir) :
    objectBelow host d ss cs = d.staged.find (joinSlash (ss ++ cs)) := by
  have hfound : ∀ ns, Names (ss ++ ns) → (d.staged.find (joinSlash (ss ++ ns))).isSome = true →
      objectBelow host d ss ns = d.staged.find (joinSlash (ss ++ ns)) := by
    intro ns
    induction ns using List.reverseRecOn with
    | nil =>
      intro _ _
      have hnode : stagedNode host d (joinSlash ss) = .ok .dir :=
        stagedNode_ok.2 (by rw [hout, if_neg Bool.false_ne_true, hroot])
      rw [objectBelow, hnode, List.append_nil, hroot]
      rfl
    | append_singleton ns c ih =>
      intro hns hsome
      rw [← List.append_assoc] at hns hsome ⊢
      have hparent : d.staged.find (joinSlash (ss ++ ns)) = some .dir := by
        obtain hfiles | hdir := hproper.parent _ _ hns hsome
        · obtain rfl : ns = [] := by
            obtain ⟨s, ss, rfl⟩ := List.exists_cons_of_ne_nil hss
            simp only [List.cons_append, List.cons.injEq, List.append_eq_nil_iff] at hfiles
            exact hfiles.2.2
          simpa using hroot
        · exact hdir
      have hdir := ih hns.left (by rw [hparent]; rfl)
      rw [hparent] at hdir
      have hdirect := objectBelow_direct hproper hss hns.left hout (by rw [hdir]; rfl)
      have hnode : stagedNode host d (joinSlash (ss ++ ns)) = .ok .dir := objectBelow_node hdir
      rw [objectBelow_append hdir, objectBelow, hnode]
      simp only [objectBelow]
      obtain ⟨n, hn⟩ := Option.isSome_iff_exists.1 hsome
      have hself : stagedNode host d (joinSlash (ss ++ ns ++ [c])) = .ok n := by
        rw [stagedNode_ok, leadsOutside_concat hproper (List.append_ne_nil_of_left_ne_nil hss ns)
          hns hparent, hdirect, if_neg Bool.false_ne_true, hn]
      rw [hself, hn]
      rfl
  cases hfind : d.staged.find (joinSlash (ss ++ cs)) with
  | some n =>
    rw [← hfind]
    exact hfound cs h (by rw [hfind]; rfl)
  | none =>
    cases hreached : objectBelow host d ss cs with
    | none => rfl
    | some n =>
      have hdirect := objectBelow_direct hproper hss h hout (by rw [hreached]; rfl)
      have hnode := stagedNode_ok.1 (objectBelow_node hreached)
      rw [hdirect, if_neg Bool.false_ne_true, hfind] at hnode
      exact nomatch hnode

theorem walkable_inside (hproper : d.staged.Proper) (hss : ss ≠ []) (h : Names ss)
    (hout : leadsOutside d.staged (joinSlash ss) = false)
    (hroot : d.staged.find (joinSlash ss) = some .dir) :
    Walkable host d ss ((d.staged.below (joinSlash ss)).filter fun p =>
      !leadsOutside d.staged p) := by
  refine ⟨(hproper.nodup.filter _).filter _, fun p => ?_, ?_⟩
  · constructor
    · intro hp
      obtain ⟨hbelow, hdirect⟩ := List.mem_filter.1 hp
      obtain ⟨hkey, hprefix⟩ := List.mem_filter.1 hbelow
      obtain ⟨⟨_, n⟩, he, rfl⟩ := List.mem_map.1 hkey
      obtain ⟨ns, hns, hnames, hpath⟩ := hproper.names _ he
      simp only at hpath
      subst hpath
      obtain ⟨cs, hcs, rfl⟩ := (below_joinSlash hss h hns hnames).1 hprefix
      refine ⟨cs, hcs, hnames.right, rfl, ?_⟩
      rw [objectBelow_eq_find hproper hss hnames hout hroot,
        Tree.find_of_mem hproper.nodup he]
      rfl
    · rintro ⟨cs, hcs, hnames, rfl, hreached⟩
      have hall := h.append hnames
      obtain ⟨n, hn⟩ := Option.isSome_iff_exists.1 hreached
      rw [objectBelow_eq_find hproper hss hall hout hroot] at hn
      have hdirect := objectBelow_direct hproper hss hall hout hreached
      refine List.mem_filter.2 ⟨List.mem_filter.2 ⟨?_, ?_⟩, by rw [hdirect]; rfl⟩
      · exact List.mem_map.2 ⟨_, Tree.mem_of_find hn, rfl⟩
      · exact (below_joinSlash hss h (List.append_ne_nil_of_left_ne_nil hss cs) hall).2
          ⟨cs, hcs, rfl⟩
  · have hnode : stagedNode host d (joinSlash ss) = .ok .dir :=
      stagedNode_ok.2 (by rw [hout, if_neg Bool.false_ne_true, hroot])
    have hkind : (stagedNode host d (joinSlash ss)).map Node.kind = .ok .directory := by
      rw [hnode]
      rfl
    have hthrough := not_throughSymlink hout hkind nofun
    have hfollowed : followedNode host d (joinSlash ss) = .ok .dir :=
      followedNode_ok.2 (by rw [hthrough, if_neg Bool.false_ne_true, hroot])
    rw [RunDir.staged] at hthrough
    simp only [followedWalk, hfollowed, hthrough, Bool.false_eq_true, if_false]
    rfl

theorem leadsOutside_below (hproper : d.staged.Proper) (hss : ss ≠ []) (h : Names (ss ++ cs))
    (hout : leadsOutside d.staged (joinSlash ss) = true) :
    leadsOutside d.staged (joinSlash (ss ++ cs)) = true := by
  obtain ⟨ms, bs, target, hnames, hms, hb, rfl, hfind⟩ :=
    (leadsOutside_iff hproper hss h.left).1 hout
  refine (leadsOutside_iff hproper (List.append_ne_nil_of_left_ne_nil hss cs) h).2 ?_
  exact ⟨ms, bs ++ cs, target, hnames, hms, by simp [hb], by simp, hfind⟩

theorem walkable_outside (hhost : host.Sound) (hproper : d.staged.Proper) (hss : ss ≠ [])
    (h : Names ss) (hout : leadsOutside d.staged (joinSlash ss) = true)
    (hroot : host.outside (joinSlash ss) = some .dir) :
    Walkable host d ss (host.within (joinSlash ss)) := by
  have hnode : ∀ as, Names as → ∀ n, stagedNode host d (joinSlash (ss ++ as)) = .ok n ↔
      host.outside (joinSlash (ss ++ as)) = some n := by
    intro as has n
    rw [stagedNode_ok, leadsOutside_below hproper hss (h.append has) hout, if_pos rfl]
  have hdir : stagedNode host d (joinSlash ss) = .ok .dir := by
    simpa using (hnode [] (by rintro _ ⟨⟩) .dir).2 (by simpa using hroot)
  refine ⟨hhost.nodup _, fun p => ?_, ?_⟩
  · rw [hhost.within ss h hroot]
    refine exists_congr fun cs => and_congr_right fun _ => and_congr_right fun hcs =>
      and_congr_right fun hp => ?_
    subst hp
    rw [objectBelow_iff hdir]
    refine and_congr ?_ ?_
    · cases hfound : stagedNode host d (joinSlash (ss ++ cs)) with
      | ok n => simp [(hnode cs hcs n).1 hfound, Except.toOption]
      | error e =>
        cases hnone : host.outside (joinSlash (ss ++ cs)) with
        | none => simp [Except.toOption]
        | some n =>
          rw [(hnode cs hcs n).2 hnone] at hfound
          cases hfound
    · refine forall₂_congr fun as bs => forall_congr' fun heq => forall_congr' fun _ => ?_
      subst heq
      exact (hnode as hcs.left .dir).symm
  · have hthrough : throughSymlink d.staged (joinSlash ss) = true := by
      rw [throughSymlink, hout, Bool.true_or]
    have hfollowed : followedNode host d (joinSlash ss) = .ok .dir :=
      followedNode_of_staged hhost hdir (by rintro ⟨⟩)
    rw [RunDir.staged] at hthrough
    simp only [followedWalk, hfollowed, hthrough, if_true]

/-- A staged directory can be walked, wherever the symlinks on the way lead. -/
theorem exists_walkable (hhost : host.Sound) (hproper : d.staged.Proper) (hss : ss ≠ [])
    (h : Names ss) (hdir : stagedNode host d (joinSlash ss) = .ok .dir) :
    ∃ paths, Walkable host d ss paths := by
  have hfind := stagedNode_ok.1 hdir
  cases hout : leadsOutside d.staged (joinSlash ss) with
  | true =>
    rw [hout, if_pos rfl] at hfind
    exact ⟨_, walkable_outside hhost hproper hss h hout hfind⟩
  | false =>
    rw [hout, if_neg Bool.false_ne_true] at hfind
    exact ⟨_, walkable_inside hproper hss h hout hfind⟩

end Walks

section Copies

variable {host : Host} {d : RunDir} {ss rs cs : List String} {P : List String → Prop}
variable {T : Tree} {n n' : Node}

/-- The objects with these names below `ss` are copied to `rs`, and there is nothing
else but the directories on the way. -/
structure Copying (host : Host) (d : RunDir) (ss rs : List String) (P : List String → Prop)
    (T : Tree) : Prop where
  names : ∀ cs, P cs → Names cs
  above : ∀ p ∈ ancestors (joinSlash rs), T.find p = some .dir
  copied : ∀ cs, P cs → T.find (joinSlash (rs ++ cs)) = objectBelow host d ss cs
  only : ∀ p, (T.find p).isSome = true →
    p ∈ ancestors (joinSlash rs) ∨ ∃ cs, P cs ∧ p = joinSlash (rs ++ cs)

/-- The object is the next to be copied: what holds it has been. -/
structure Next (host : Host) (d : RunDir) (ss : List String) (P : List String → Prop)
    (cs : List String) (n : Node) : Prop where
  names : Names cs
  object : objectBelow host d ss cs = some n
  fresh : ¬ P cs
  parents : ∀ as bs, cs = as ++ bs → bs ≠ [] → P as

theorem Copying.congr {T' : Tree} (h : Copying host d ss rs P T)
    (hsame : ∀ p, T'.find p = T.find p) : Copying host d ss rs P T' where
  names := h.names
  above p hp := (hsame p).trans (h.above p hp)
  copied cs hcs := (hsame _).trans (h.copied cs hcs)
  only p hp := h.only p (by rwa [← hsame])

theorem Copying.find_next (hrs : rs ≠ []) (hnames : Names rs) (h : Copying host d ss rs P T)
    (hnext : Next host d ss P cs n) : T.find (joinSlash (rs ++ cs)) = none := by
  rw [← Option.not_isSome_iff_eq_none]
  intro hsome
  have hall := hnames.append hnext.names
  obtain habove | ⟨cs', hcs', heq⟩ := h.only _ hsome
  · exact below_not_mem_ancestors hrs hall habove
  · have hsame := joinSlash_injective hall (hnames.append (h.names cs' hcs')) heq
    rw [List.append_cancel_left hsame] at hnext
    exact hnext.fresh hcs'

/-- Every directory on the way is there. -/
theorem Copying.find_above (hrs : rs ≠ []) (hnames : Names rs) (h : Copying host d ss rs P T)
    (hnext : Next host d ss P cs n) :
    ∀ p ∈ ancestors (joinSlash (rs ++ cs)), T.find p = some .dir := by
  intro p hp
  obtain ⟨as, bs, ha, hb, heq, rfl⟩ :=
    (mem_ancestors (List.append_ne_nil_of_left_ne_nil hrs cs) (hnames.append hnext.names)).1 hp
  obtain ⟨ms, rfl, rfl⟩ | ⟨ms, rfl, hcs⟩ := List.append_eq_append_iff.1 heq
  · rw [h.copied ms (hnext.parents ms bs rfl hb)]
    exact objectBelow_dir (by rw [hnext.object]; rfl) hb
  · cases ms with
    | nil =>
      rw [List.append_nil] at h
      rw [List.nil_append] at hcs
      subst hcs
      have hself := h.copied [] (hnext.parents [] bs rfl hb)
      rw [List.append_nil] at hself
      rw [hself]
      have hreached : (objectBelow host d ss ([] ++ bs)).isSome = true := by
        rw [List.nil_append, hnext.object]
        rfl
      exact objectBelow_dir hreached hb
    | cons m ms =>
      refine h.above _ ((mem_ancestors hrs hnames).2 ?_)
      exact ⟨as, m :: ms, ha, by simp, rfl, rfl⟩

/-- One more object is copied. -/
theorem Copying.insert (hrs : rs ≠ []) (hnames : Names rs) (h : Copying host d ss rs P T)
    (hnext : Next host d ss P cs n) :
    Copying host d ss rs (fun cs' => P cs' ∨ cs' = cs) (T.insert (joinSlash (rs ++ cs)) n) where
  names cs' hcs' := by
    obtain hcs' | rfl := hcs'
    · exact h.names cs' hcs'
    · exact hnext.names
  above p hp := by
    have hfree := h.find_next hrs hnames hnext
    have hother : p ≠ joinSlash (rs ++ cs) := by
      rintro rfl
      rw [h.above _ hp] at hfree
      exact nomatch hfree
    rw [Tree.find_insert, if_neg hother, h.above p hp]
  copied cs' hcs' := by
    rw [Tree.find_insert]
    by_cases heq : cs' = cs
    · rw [heq, if_pos rfl, hnext.object]
    · have hold := hcs'.resolve_right heq
      have hother : joinSlash (rs ++ cs') ≠ joinSlash (rs ++ cs) := fun hpath => heq
        (List.append_cancel_left (joinSlash_injective (hnames.append (h.names cs' hold))
          (hnames.append hnext.names) hpath))
      rw [if_neg hother, h.copied cs' hold]
  only p hp := by
    rw [Tree.find_insert] at hp
    split at hp
    · rename_i heq
      exact .inr ⟨cs, .inr rfl, heq⟩
    · exact (h.only p hp).imp_right fun ⟨cs', hcs', hpath⟩ => ⟨cs', .inl hcs', hpath⟩

end Copies

end Purgery.Server
