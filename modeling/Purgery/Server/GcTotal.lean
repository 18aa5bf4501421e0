import Purgery.Core.Containment
import Purgery.Server.GcVisits

namespace Purgery.Server.Walk

section Visits

variable {config : ServerConfig} {faults : GcFaults} {now : Nat} {n : Nickname} {ph : RunPhase}
variable {top : OsName} {d : TopObject} {v : Visit} {work : WorkTree} {path : OsPath} {e : Bool}
variable {entry : OsName × Option RunObject} {entry' : OsName × Option TopObject}

theorem collectEntry_eq : collectEntry config faults now n ph top entry =
    Round.each (Visit.round config faults now) (entryVisits faults n ph top entry) := by
  obtain ⟨name, r⟩ := entry
  rw [collectEntry, entryVisits]
  cases name.toStr with
  | none => exact Round.andThen_done.symm
  | some id =>
    cases r with
    | none => rfl
    | some r =>
      cases hread : readable faults [top, phaseName ph, name] with
      | false => simp [hread, Round.each]
      | true =>
        simp only [hread, Bool.not_true, Bool.false_eq_true, if_false]
        cases RunId.new id with
        | error _ => exact Round.andThen_done.symm
        | ok runId => exact Round.andThen_done.symm

theorem collectPhase_eq : collectPhase config faults now n top d ph =
    Round.each (Visit.round config faults now) (phaseVisits faults n top d ph) := by
  rw [collectPhase, phaseVisits]
  cases d.phases ph with
  | none => rfl
  | some o =>
    cases readable faults [top, phaseName ph] with
    | false => rfl
    | true =>
      simp only [Bool.not_true, Bool.false_eq_true, if_false]
      cases o with
      | file => exact Round.andThen_done.symm
      | dir content =>
        rw [Round.each_flatMap]
        exact Round.each_congr fun _ _ => collectEntry_eq

theorem collectTop_eq : collectTop config faults now entry' =
    Round.each (Visit.round config faults now) (topVisits faults entry') := by
  obtain ⟨name, d⟩ := entry'
  rw [collectTop, topVisits]
  cases d with
  | none => rfl
  | some d =>
    cases readable faults [name] with
    | false => rfl
    | true =>
      simp only [Bool.not_true, Bool.false_eq_true, if_false]
      cases name.toStr with
      | none => rfl
      | some s =>
        simp only
        cases Nickname.new s with
        | error _ => exact Round.andThen_done.symm
        | ok n =>
          simp only [Round.each_flatMap]
          exact Round.each_congr fun _ _ => collectPhase_eq

/-- The walk is a round of its visits. -/
theorem runGc_eq : runGc config faults now work =
    Round.each (Visit.round config faults now) (visits faults work) := by
  rw [runGc, visits]
  cases readable faults [] with
  | false => rfl
  | true =>
    simp only [Bool.not_true, Bool.false_eq_true, if_false, Round.each_flatMap]
    exact Round.each_congr fun _ _ => collectTop_eq

theorem path_of_entryVisits (hv : v ∈ entryVisits faults n ph top entry) :
    v.path = [top, phaseName ph, entry.1] := by
  unfold entryVisits at hv
  split at hv
  · rw [List.mem_singleton.1 hv, Visit.path]
  · split at hv
    · exact nomatch hv
    · split at hv
      · exact nomatch hv
      · split at hv <;> rw [List.mem_singleton.1 hv, Visit.path]

theorem path_of_phaseVisits (hv : v ∈ phaseVisits faults n top d ph) :
    ∃ rest, v.path = top :: phaseName ph :: rest := by
  unfold phaseVisits at hv
  split at hv
  · exact nomatch hv
  · split at hv
    · exact nomatch hv
    · split at hv
      · exact ⟨[], by rw [List.mem_singleton.1 hv, Visit.path]⟩
      · obtain ⟨entry, -, hv⟩ := List.mem_flatMap.1 hv
        exact ⟨[entry.1], path_of_entryVisits hv⟩

theorem path_of_topVisits (hv : v ∈ topVisits faults entry') :
    ∃ rest, v.path = entry'.1 :: rest := by
  obtain ⟨name, d⟩ := entry'
  unfold topVisits at hv
  split at hv
  · exact nomatch hv
  · split at hv
    · exact nomatch hv
    · cases name with
      | bytes raw invalid => exact nomatch hv
      | text s =>
        simp only [OsName.toStr] at hv
        split at hv
        · exact ⟨[], by rw [List.mem_singleton.1 hv, Visit.path]⟩
        · obtain ⟨ph, -, hv⟩ := List.mem_flatMap.1 hv
          obtain ⟨rest, hrest⟩ := path_of_phaseVisits hv
          exact ⟨_, hrest⟩

theorem phaseName_injective {ph' : RunPhase} (h : phaseName ph = phaseName ph') : ph = ph' :=
  RunPhase.asStr_injective (OsName.text.inj h)

/-- Nothing is come to twice. -/
theorem distinct_entryVisits : ((entryVisits faults n ph top entry).map Visit.path).Nodup := by
  unfold entryVisits
  split
  · exact List.nodup_singleton _
  · split
    · exact List.nodup_nil
    · split
      · exact List.nodup_nil
      · split <;> exact List.nodup_singleton _

/-- Places that lead to different paths, each of them once. -/
theorem distinct_flatMap {α β : Type} {f : α → List Visit} {key : α → β} {xs : List α}
    (hkeys : (xs.map key).Nodup) (hf : ∀ x ∈ xs, ((f x).map Visit.path).Nodup)
    (hpath : ∀ x ∈ xs, ∀ y ∈ xs, ∀ v ∈ f x, ∀ u ∈ f y, v.path = u.path → key x = key y) :
    ((xs.flatMap f).map Visit.path).Nodup := by
  rw [List.map_flatMap, List.nodup_flatMap]
  refine ⟨hf, ?_⟩
  refine (List.pairwise_map.1 hkeys).imp_of_mem fun {x y} hx hy hne => ?_
  intro p hp hp'
  obtain ⟨v, hv, rfl⟩ := List.mem_map.1 hp
  obtain ⟨u, hu, heq⟩ := List.mem_map.1 hp'
  exact hne (hpath x hx y hy v hv u hu heq.symm)

theorem distinct_phaseVisits : ((phaseVisits faults n top d ph).map Visit.path).Nodup := by
  unfold phaseVisits
  split
  · exact List.nodup_nil
  · split
    · exact List.nodup_nil
    · split
      · exact List.nodup_singleton _
      · rename_i content hcontent
        refine distinct_flatMap content.distinct (fun _ _ => distinct_entryVisits) ?_
        intro x _ y _ v hv u hu heq
        rw [path_of_entryVisits hv, path_of_entryVisits hu] at heq
        simpa using heq

theorem distinct_topVisits : ((topVisits faults entry').map Visit.path).Nodup := by
  unfold topVisits
  split
  · exact List.nodup_nil
  · split
    · exact List.nodup_nil
    · split
      · exact List.nodup_nil
      · split
        · exact List.nodup_singleton _
        · have hphases : (allPhases.map id).Nodup := by decide
          refine distinct_flatMap hphases (fun _ _ => distinct_phaseVisits) ?_
          intro ph _ ph' _ v hv u hu heq
          obtain ⟨rest, hrest⟩ := path_of_phaseVisits hv
          obtain ⟨rest', hrest'⟩ := path_of_phaseVisits hu
          rw [hrest, hrest'] at heq
          injection heq with _ heq
          injection heq with heq _
          exact phaseName_injective heq

theorem distinct_visits : ((visits faults work).map Visit.path).Nodup := by
  unfold visits
  split
  · exact List.nodup_nil
  · refine distinct_flatMap work.distinct (fun _ _ => distinct_topVisits) ?_
    intro x _ y _ v hv u hu heq
    obtain ⟨rest, hrest⟩ := path_of_topVisits hv
    obtain ⟨rest', hrest'⟩ := path_of_topVisits hu
    rw [hrest, hrest'] at heq
    exact (List.cons.inj heq).1

end Visits

section Directories

variable {config : ServerConfig} {faults : GcFaults} {now : Nat} {v : Visit} {work : WorkTree}
variable {path : OsPath} {e : Bool}

theorem runId_error {s : String} {err : NameError} (h : RunId.new s = .error err) :
    (OsName.text s).runId? = none := by
  simp [OsName.runId?, OsName.toStr, h, Except.toOption]

theorem runId_ok {s : String} {runId : RunId} (h : RunId.new s = .ok runId) :
    (OsName.text s).runId? = some runId := by
  simp [OsName.runId?, OsName.toStr, h, Except.toOption]

theorem nickname_error {s : String} {err : NameError} (h : Nickname.new s = .error err) :
    (OsName.text s).nickname? = none := by
  simp [OsName.nickname?, OsName.toStr, h, Except.toOption]

theorem nickname_ok {s : String} {n : Nickname} (h : Nickname.new s = .ok n) :
    (OsName.text s).nickname? = some n := by
  simp [OsName.nickname?, OsName.toStr, h, Except.toOption]

theorem seen_top {s : String} (hroot : readable faults [] = true)
    (htop : readable faults [.text s] = true) : Seen faults [.text s] where
  readable q hq := by
    obtain rfl | ⟨rest, rfl, hrest⟩ := List.prefix_cons_iff.1 hq
    · exact hroot
    · rwa [List.prefix_nil.1 hrest]
  text := by simp [OsName.toStr]

theorem seen_entry {top name : OsName} {ph : RunPhase} (hroot : readable faults [] = true)
    (htop : readable faults [top] = true) (hphase : readable faults [top, phaseName ph] = true)
    (hentry : readable faults [top, phaseName ph, name] = true) (htext : top.toStr.isSome = true)
    (hname : name.toStr.isSome = true) : Seen faults [top, phaseName ph, name] where
  readable q hq := by
    obtain rfl | ⟨q₁, rfl, hq₁⟩ := List.prefix_cons_iff.1 hq
    · exact hroot
    · obtain rfl | ⟨q₂, rfl, hq₂⟩ := List.prefix_cons_iff.1 hq₁
      · exact htop
      · obtain rfl | ⟨q₃, rfl, hq₃⟩ := List.prefix_cons_iff.1 hq₂
        · exact hphase
        · rwa [List.prefix_nil.1 hq₃]
  text := by
    rw [List.forall_mem_cons, List.forall_mem_cons, List.forall_mem_singleton]
    exact ⟨htext, rfl, hname⟩

variable {n : Nickname} {ph : RunPhase} {top : OsName} {d : TopObject}
variable {entry : OsName × Option RunObject}

theorem of_entryVisits (hv : v ∈ entryVisits faults n ph top entry)
    (he : v.expired? config faults now = some e) : ∃ r, entry.2 = some r ∧
      readable faults [top, phaseName ph, entry.1] = true ∧ entry.1.toStr.isSome = true ∧
      (entry.1.runId? = none ∧ e = orphaned config now r.modified ∨ ∃ runId,
        entry.1.runId? = some runId ∧
          e = runExpired config faults now ⟨n, runId⟩ ph [top, phaseName ph, entry.1] r) := by
  obtain ⟨name, r⟩ := entry
  cases name with
  | bytes raw invalid =>
    obtain rfl := List.mem_singleton.1 hv
    exact nomatch he
  | text id =>
    cases r with
    | none => exact nomatch hv
    | some r =>
      unfold entryVisits at hv
      simp only [OsName.toStr] at hv
      split at hv
      · exact nomatch hv
      · rename_i hread
        refine ⟨r, rfl, by simpa using hread, rfl, ?_⟩
        split at hv
        · rename_i err hid
          obtain rfl := List.mem_singleton.1 hv
          exact .inl ⟨runId_error hid, (Option.some_inj.1 he).symm⟩
        · rename_i runId hid
          obtain rfl := List.mem_singleton.1 hv
          exact .inr ⟨runId, runId_ok hid, (Option.some_inj.1 he).symm⟩

theorem of_phaseVisits (hv : v ∈ phaseVisits faults n top d ph)
    (he : v.expired? config faults now = some e) :
    ∃ content, d.phases ph = some (.dir content) ∧ readable faults [top, phaseName ph] = true ∧
      ∃ entry ∈ content.entries, v ∈ entryVisits faults n ph top entry := by
  unfold phaseVisits at hv
  split at hv
  · exact nomatch hv
  · split at hv
    · exact nomatch hv
    · rename_i hread
      split at hv
      · obtain rfl := List.mem_singleton.1 hv
        exact nomatch he
      · rename_i content hcontent
        exact ⟨content, hcontent, by simpa using hread, List.mem_flatMap.1 hv⟩

/-- The directories that the walk comes to are those that it has to decide on and
that can be seen. -/
theorem visited (hv : v ∈ visits faults work) (he : v.expired? config faults now = some e) :
    Concerned config faults now work v.path e ∧ Seen faults v.path := by
  unfold visits at hv
  split at hv
  · exact nomatch hv
  · rename_i hroot
    have hroot : readable faults [] = true := by simpa using hroot
    obtain ⟨⟨top, td⟩, htop, hv⟩ := List.mem_flatMap.1 hv
    unfold topVisits at hv
    split at hv
    · exact nomatch hv
    · rename_i d hd
      obtain rfl : td = some d := hd
      split at hv
      · exact nomatch hv
      · rename_i hseen
        have hseen : readable faults [top] = true := by simpa using hseen
        cases top with
        | bytes raw invalid => exact nomatch hv
        | text s =>
          simp only [OsName.toStr] at hv
          split at hv
          · rename_i err hn
            obtain rfl := List.mem_singleton.1 hv
            obtain rfl := Option.some_inj.1 he
            exact ⟨.invalid htop (nickname_error hn), seen_top hroot hseen⟩
          · rename_i n hn
            obtain ⟨ph, -, hv⟩ := List.mem_flatMap.1 hv
            obtain ⟨content, hcontent, hphase, ⟨name, r⟩, hentry, hv⟩ := of_phaseVisits hv he
            obtain ⟨r, rfl, hread, htext, hkind⟩ := of_entryVisits hv he
            rw [path_of_entryVisits hv]
            refine ⟨?_, seen_entry hroot hseen hphase hread rfl htext⟩
            obtain ⟨hid, rfl⟩ | ⟨runId, hid, rfl⟩ := hkind
            · exact .unknown htop (nickname_ok hn) hcontent hentry hid
            · exact .run htop (nickname_ok hn) hcontent hentry hid

theorem exists_text {name : OsName} (h : name.toStr.isSome = true) : ∃ s, name = .text s := by
  cases name with
  | text s => exact ⟨s, rfl⟩
  | bytes raw invalid => exact nomatch h

theorem mem_visits (hread : readable faults [] = true) {entry : OsName × Option TopObject}
    (hentry : entry ∈ work.entries) (hv : v ∈ topVisits faults entry) : v ∈ visits faults work := by
  rw [visits, if_neg (by simp [hread])]
  exact List.mem_flatMap.2 ⟨entry, hentry, hv⟩

theorem mem_visits_entry {name id : OsName} {content : Listing (Option RunObject)} {r : RunObject}
    (hseen : Seen faults [name, phaseName ph, id]) (htop : (name, some d) ∈ work.entries)
    (hn : name.nickname? = some n) (hcontent : d.phases ph = some (.dir content))
    (hentry : (id, some r) ∈ content.entries)
    (hv : v ∈ entryVisits faults n ph name (id, some r)) : v ∈ visits faults work := by
  refine mem_visits (hseen.readable _ List.nil_prefix) htop ?_
  obtain ⟨s, rfl⟩ := exists_text (hseen.text _ List.mem_cons_self)
  have htopRead := hseen.readable [.text s] ⟨[phaseName ph, id], rfl⟩
  have hphaseRead := hseen.readable [.text s, phaseName ph] ⟨[id], rfl⟩
  have hphase : ph ∈ allPhases := by cases ph <;> decide
  rw [topVisits]
  simp only [htopRead, OsName.toStr, Bool.not_true, Bool.false_eq_true, if_false]
  cases hnew : Nickname.new s with
  | error err => simp [nickname_error hnew] at hn
  | ok n' =>
    obtain rfl : n' = n := by simpa [nickname_ok hnew] using hn
    refine List.mem_flatMap.2 ⟨ph, hphase, ?_⟩
    rw [phaseVisits, hcontent]
    simp only [hphaseRead, Bool.not_true, Bool.false_eq_true, if_false]
    exact List.mem_flatMap.2 ⟨_, hentry, hv⟩

/-- What can be seen is come to. -/
theorem Concerned.visit (h : Concerned config faults now work path e) (hseen : Seen faults path) :
    ∃ v ∈ visits faults work, v.path = path ∧ v.expired? config faults now = some e := by
  cases h with
  | @invalid name d htop hn =>
    obtain ⟨s, rfl⟩ := exists_text (hseen.text _ List.mem_cons_self)
    have hread := hseen.readable _ (List.prefix_refl _)
    refine ⟨.invalid s d, mem_visits (hseen.readable _ List.nil_prefix) htop ?_, rfl, rfl⟩
    rw [topVisits]
    simp only [hread, OsName.toStr, Bool.not_true, Bool.false_eq_true, if_false]
    cases hnew : Nickname.new s with
    | ok n => simp [nickname_ok hnew] at hn
    | error err => exact List.mem_cons_self
  | @unknown name id d n ph content r htop hn hcontent hentry hid =>
    obtain ⟨s, rfl⟩ := exists_text (hseen.text id (by simp))
    have hread := hseen.readable _ (List.prefix_refl _)
    refine ⟨.unknown n ph s [name, phaseName ph, .text s] r,
      mem_visits_entry hseen htop hn hcontent hentry ?_, rfl, rfl⟩
    unfold entryVisits
    simp only [hread, OsName.toStr, Bool.not_true, Bool.false_eq_true, if_false]
    cases hnew : RunId.new s with
    | ok runId => simp [runId_ok hnew] at hid
    | error err => exact List.mem_cons_self
  | @run name id d n ph content r runId htop hn hcontent hentry hid =>
    obtain ⟨s, rfl⟩ := exists_text (hseen.text id (by simp))
    have hread := hseen.readable _ (List.prefix_refl _)
    refine ⟨.run ⟨n, runId⟩ ph [name, phaseName ph, .text s] r,
      mem_visits_entry hseen htop hn hcontent hentry ?_, rfl, rfl⟩
    unfold entryVisits
    simp only [hread, OsName.toStr, Bool.not_true, Bool.false_eq_true, if_false]
    cases hnew : RunId.new s with
    | error err => simp [runId_error hnew] at hid
    | ok runId' =>
      obtain rfl : runId' = runId := by simpa [runId_ok hnew] using hid
      exact List.mem_cons_self

end Directories

section Total

variable {config : ServerConfig} {faults : GcFaults} {now : Nat} {v u : Visit} {work : WorkTree}
variable {path : OsPath} {e : Bool} {before after : List Visit}

/-- A directory that can be seen and is not spoiled is settled. -/
theorem Visit.settles (hv : v ∈ visits faults work) (he : v.expired? config faults now = some e)
    (hclean : v.spoiled config faults now = false) :
    Settles faults v.path e (v.round config faults now) := by
  have hread : readable faults v.path = true := (visited hv he).2.readable _ (List.prefix_refl _)
  cases v with
  | invalid name d =>
    obtain rfl := Option.some_inj.1 he
    exact expireAfter_settles hread
  | unknown n ph id path d =>
    obtain rfl := Option.some_inj.1 he
    exact expireAfter_settles hread
  | run k ph path d =>
    obtain rfl := Option.some_inj.1 he
    exact collectRun_settles hread hclean
  | blocked n ph path => exact nomatch he
  | unnamed path => exact nomatch he

theorem Visit.breaks (hv : v ∈ visits faults work)
    (hspoiled : v.spoiled config faults now = true) : Breaks (v.round config faults now) := by
  cases v with
  | invalid name d => exact nomatch hspoiled
  | unknown n ph id path d => exact nomatch hspoiled
  | run k ph path d =>
    have hdir : (Visit.run k ph path d).expired? config faults now =
        some (runExpired config faults now k ph path d) := rfl
    have hseen := (visited hv hdir).2
    exact collectRun_breaks (hseen.readable _ (List.prefix_refl _)) hspoiled
  | blocked n ph path => exact nomatch hspoiled
  | unnamed path => exact ⟨nofun, nofun⟩

/-- A round goes on if it is neither spoiled nor stuck. -/
theorem Visit.stop_iff (hv : v ∈ visits faults work) : (v.round config faults now).stop = none ↔
    v.spoiled config faults now = false ∧ v.stuck config faults now = false := by
  cases hspoiled : v.spoiled config faults now with
  | true => simp [(Visit.breaks hv hspoiled).2]
  | false =>
    cases he : v.expired? config faults now with
    | some e =>
      rw [(Visit.settles hv he hspoiled).stop]
      have hblocked : v.isBlocked = false := by
        cases v with
        | blocked n ph path => cases he
        | _ => rfl
      rw [Visit.stuck, he, hblocked]
      cases e <;> simp
    | none =>
      cases v with
      | blocked n ph path => simp [Visit.round, Visit.stuck, Visit.isBlocked, Round.halt]
      | unnamed path => cases hspoiled
      | _ => cases he

/-- A decision is about the directory that the walk has come to. -/
theorem Visit.decided_path {p : OsPath} {x : Bool} (hv : v ∈ visits faults work)
    (h : .decided p x ∈ (v.round config faults now).events) :
    v.path = p ∧ ∃ e, v.expired? config faults now = some e := by
  cases hspoiled : v.spoiled config faults now with
  | true => exact absurd h ((Visit.breaks hv hspoiled).1 p x)
  | false =>
    cases he : v.expired? config faults now with
    | some e => exact ⟨((Visit.settles hv he hspoiled).only h).symm, e, rfl⟩
    | none =>
      cases v with
      | blocked n ph path => exact nomatch h
      | unnamed path => exact nomatch h
      | _ => exact nomatch he

/-- Two places with one path are one place. -/
theorem visit_unique {before' after' : List Visit} (h : visits faults work = before ++ v :: after)
    (h' : visits faults work = before' ++ u :: after') (hpath : v.path = u.path) :
    before = before' ∧ v = u := by
  have hdistinct : ((visits faults work).map Visit.path).Nodup := distinct_visits
  rw [h, List.map_append, List.map_cons, List.nodup_append, List.nodup_cons] at hdistinct
  obtain ⟨-, ⟨hafter, -⟩, hapart⟩ := hdistinct
  have hu : u ∉ before := fun hu =>
    hapart _ (List.mem_map_of_mem hu) _ List.mem_cons_self hpath.symm
  have hu' : u ∉ after := fun hu => hafter (hpath ▸ List.mem_map_of_mem hu)
  obtain ⟨hbefore, hv, -⟩ := (List.append_cons_inj_of_notMem hu hu').1 (h.symm.trans h')
  exact ⟨hbefore, hv⟩

/-- What the walk comes to without being stopped before is clean, and if it is stuck it
is the last directory. -/
theorem Manageable.reached (h : Manageable config faults now work)
    (hreach : Round.Reaches (Visit.round config faults now) (visits faults work) before v after) :
    v ∈ visits faults work ∧ v.spoiled config faults now = false ∧
      (v.stuck config faults now = true → ∀ u ∈ after, u.expired? config faults now = none) := by
  obtain ⟨heq, hbefore⟩ := hreach
  have hmem : ∀ u ∈ before, u ∈ visits faults work := fun u hu =>
    heq ▸ List.mem_append_left _ hu
  refine ⟨heq ▸ List.mem_append_right _ List.mem_cons_self, ?_⟩
  exact h.order before v after heq fun u hu => (Visit.stop_iff (hmem u hu)).1 (hbefore u hu)

/-- The walk comes to every directory that it has to decide on. -/
theorem Manageable.reaches (h : Manageable config faults now work)
    (hc : Concerned config faults now work path e) : ∃ before v after,
      Round.Reaches (Visit.round config faults now) (visits faults work) before v after ∧
        Settles faults path e (v.round config faults now) := by
  obtain ⟨v, hv, rfl, he⟩ := hc.visit (h.seen path e hc)
  obtain ⟨before, after, heq⟩ := List.append_of_mem hv
  have hpassed : ∀ u ∈ before, (u.round config faults now).stop = none := by
    obtain hall | ⟨first, u, rest, s, ⟨hsplit, hfirst⟩, hs⟩ :=
      Round.each_cases (Visit.round config faults now) before
    · exact hall
    · have hreach : Round.Reaches (Visit.round config faults now) (visits faults work) first u
          (rest ++ v :: after) := ⟨by rw [heq, hsplit]; simp, hfirst⟩
      obtain ⟨hu, hclean, hlast⟩ := h.reached hreach
      have hstuck : u.stuck config faults now = true := by
        by_contra hfree
        rw [(Visit.stop_iff hu).2 ⟨hclean, by simpa using hfree⟩] at hs
        exact nomatch hs
      rw [hlast hstuck v (List.mem_append_right _ List.mem_cons_self)] at he
      exact nomatch he
  have hreach : Round.Reaches (Visit.round config faults now) (visits faults work) before v after :=
    ⟨heq, hpassed⟩
  exact ⟨before, v, after, hreach, Visit.settles hv he (h.reached hreach).2.1⟩

theorem Manageable.total (h : Manageable config faults now work) :
    Total config faults now work (runGc config faults now work) where
  survives := by
    intro hpanic
    rw [runGc_eq, Round.each_stop] at hpanic
    obtain ⟨before, v, after, hreach, hpanic⟩ := hpanic
    obtain ⟨hv, hclean, -⟩ := h.reached hreach
    cases he : v.expired? config faults now with
    | some e => exact (Visit.settles hv he hclean).survives hpanic
    | none =>
      cases v with
      | blocked n ph path => simp [Visit.round, Round.halt] at hpanic
      | unnamed path => cases hclean
      | _ => cases he
  decides path e hc := by
    obtain ⟨before, v, after, hreach, hsettles⟩ := h.reaches hc
    rw [runGc_eq]
    exact ⟨e, Round.mem_each.2 ⟨before, v, after, hreach, hsettles.decided⟩⟩
  deletes path hc hremoval := by
    obtain ⟨before, v, after, hreach, hsettles⟩ := h.reaches hc
    rw [runGc_eq]
    exact Round.mem_each.2 ⟨before, v, after, hreach, hsettles.removed hremoval⟩

theorem Total.manageable (h : Total config faults now work (runGc config faults now work)) :
    Manageable config faults now work := by
  have hreached : ∀ path e, Concerned config faults now work path e → ∃ before v after,
      Round.Reaches (Visit.round config faults now) (visits faults work) before v after ∧
        v.path = path ∧ v.spoiled config faults now = false ∧
          ∃ e', v.expired? config faults now = some e' := by
    intro path e hc
    obtain ⟨e', hmem⟩ := h.decides path e hc
    rw [runGc_eq, Round.mem_each] at hmem
    obtain ⟨before, v, after, hreach, hmem⟩ := hmem
    have hv : v ∈ visits faults work := hreach.1 ▸ List.mem_append_right _ List.mem_cons_self
    obtain ⟨hpath, he⟩ := Visit.decided_path hv hmem
    refine ⟨before, v, after, hreach, hpath, ?_, he⟩
    by_contra hspoiled
    exact (Visit.breaks hv (by simpa using hspoiled)).1 path e' hmem
  refine ⟨fun path e hc => ?_, fun before v after heq hbefore => ?_⟩
  · obtain ⟨before, v, after, hreach, rfl, -, e', he⟩ := hreached path e hc
    exact (visited (hreach.1 ▸ List.mem_append_right _ List.mem_cons_self) he).2
  · have hv : v ∈ visits faults work := heq ▸ List.mem_append_right _ List.mem_cons_self
    have hreach : Round.Reaches (Visit.round config faults now) (visits faults work) before v
        after := by
      refine ⟨heq, fun u hu => ?_⟩
      have hu' : u ∈ visits faults work := heq ▸ List.mem_append_left _ hu
      exact (Visit.stop_iff hu').2 (hbefore u hu)
    refine ⟨?_, fun hstuck u hu => ?_⟩
    · cases he : v.expired? config faults now with
      | some e =>
        obtain ⟨before', u, after', hreach', hpath, hclean, -⟩ :=
          hreached v.path e (visited hv he).1
        obtain ⟨-, rfl⟩ := visit_unique heq hreach'.1 hpath.symm
        exact hclean
      | none =>
        cases v with
        | blocked n ph path => rfl
        | unnamed path =>
          refine absurd ?_ h.survives
          rw [runGc_eq, Round.each_stop]
          exact ⟨before, _, after, hreach, rfl⟩
        | _ => exact nomatch he
    · refine Option.eq_none_iff_forall_ne_some.2 fun e he => ?_
      have hu' : u ∈ visits faults work := heq ▸ List.mem_append_right _ (List.mem_cons_of_mem _ hu)
      obtain ⟨before', u', after', hreach', hpath, -⟩ := hreached u.path e (visited hu' he).1
      obtain ⟨first, rest, rfl⟩ := List.append_of_mem hu
      have hplace : visits faults work = (before ++ v :: first) ++ u :: rest := by
        rw [heq]
        simp
      obtain ⟨rfl, rfl⟩ := visit_unique hplace hreach'.1 hpath.symm
      have hstop := hreach'.2 v (List.mem_append_right _ List.mem_cons_self)
      rw [Visit.stop_iff hv, hstuck] at hstop
      exact nomatch hstop.2

/-- The collection does what is asked of it on what can be managed, and on nothing
else. -/
theorem gc_isolates (config : ServerConfig) (faults : GcFaults) (now : Nat) (work : WorkTree) :
    Total config faults now work (runGc config faults now work) ↔
      Manageable config faults now work :=
  ⟨Total.manageable, Manageable.total⟩

end Total

section Strays

def strayConfig : ServerConfig where
  workDir := ⟨"/w", by decide⟩
  transforms _ := none
  gc := .default

def noFaults : GcFaults := ⟨fun _ => none, fun _ => none, fun _ => .ok false⟩

def strayName : OsName := .bytes ⟨#[0xff]⟩ (by decide)

/-- A nickname with one entry in `ready`, whose name is no text, and a directory under no
nickname that is to go. -/
def strayTree : WorkTree where
  entries :=
    [(.text "laptop", some ⟨0, fun ph => match ph with
        | .ready => some (.dir ⟨[(strayName, none)], by decide⟩)
        | _ => none⟩),
      (.text "not a nickname", some ⟨0, fun _ => none⟩)]
  distinct := by decide

/-- One stray name ends the collection with a panic, and what comes after it is left. -/
theorem gc_panics_on_stray :
    ¬Total strayConfig noFaults (2 ^ 40) strayTree (runGc strayConfig noFaults (2 ^ 40) strayTree) :=
  fun h => h.survives (by decide)

end Strays

end Purgery.Server.Walk
