import Purgery.Client.Pending

namespace Purgery.Client

open Purgery.Path

/-! What allows a client to delete an object. -/

section Names

variable {nickname nickname' id id' stateDir : String}

/-- The id of a run can be told from the nickname before it. -/
def ProperId (id : String) : Prop := '-' ∉ id.toList

theorem Ulid.proper (u : Ulid) : ProperId u.text := by
  intro hmem
  exact absurd (List.all_eq_true.1 u.valid.2 _ hmem) (by decide)

theorem append_dash_injective {as bs as' bs' : List Char} (h : '-' ∉ bs) (h' : '-' ∉ bs')
    (heq : as ++ '-' :: bs = as' ++ '-' :: bs') : as = as' ∧ bs = bs' := by
  obtain ⟨cs, hcs, hrest⟩ | ⟨cs, hcs, hrest⟩ := List.append_eq_append_iff.1 heq
  · cases cs with
    | nil => exact ⟨by simpa using hcs.symm, (List.cons.inj hrest).2⟩
    | cons c cs =>
      obtain ⟨-, rfl⟩ := List.cons.inj hrest
      exact absurd (List.mem_append_right cs List.mem_cons_self) h
  · cases cs with
    | nil => exact ⟨by simpa using hcs, (List.cons.inj hrest).2.symm⟩
    | cons c cs =>
      obtain ⟨-, rfl⟩ := List.cons.inj hrest
      exact absurd (List.mem_append_right cs List.mem_cons_self) h'

theorem runName_injective (h : ProperId id) (h' : ProperId id')
    (heq : runName nickname id = runName nickname' id') : nickname = nickname' ∧ id = id' := by
  have hlist := congrArg String.toList heq
  simp only [runName, String.toList_append, List.append_assoc] at hlist
  obtain ⟨hn, hi⟩ := append_dash_injective h h' hlist
  exact ⟨String.ext hn, String.ext hi⟩

theorem ledgerName_injective (h : ProperId id) (h' : ProperId id')
    (heq : ledgerName nickname id = ledgerName nickname' id') :
    nickname = nickname' ∧ id = id' := by
  refine runName_injective h h' (String.ext ?_)
  have hlist := congrArg String.toList heq
  simp only [ledgerName, String.toList_append, List.append_assoc,
    List.append_cancel_left_eq] at hlist
  simp only [← List.append_assoc, List.append_cancel_right_eq] at hlist
  simpa only [runName, String.toList_append] using hlist

theorem ledgerPath_eq : ledgerPath stateDir nickname id =
    (if stateDir.toList.getLast? == some '/' || stateDir == "" then stateDir
      else stateDir ++ "/") ++ ledgerName nickname id := by
  have hrelative : isAbsolute (ledgerName nickname id) = false := by
    simp [isAbsolute, ledgerName]
  unfold ledgerPath join
  rw [hrelative, if_neg Bool.false_ne_true]
  split <;> rfl

theorem ledgerPath_injective (h : ProperId id) (h' : ProperId id')
    (heq : ledgerPath stateDir nickname id = ledgerPath stateDir nickname' id') :
    nickname = nickname' ∧ id = id' := by
  rw [ledgerPath_eq, ledgerPath_eq] at heq
  refine ledgerName_injective h h' (String.ext ?_)
  have hlist := congrArg String.toList heq
  rw [String.toList_append, String.toList_append] at hlist
  exact List.append_cancel_left hlist

end Names

section Warrant

variable {h h' : List SyncEvent} {first s : DurableCleanupState} {e : CleanupEntry}
variable {es : List CleanupEntry} {status : RunStatus} {k : RunKey} {t : LocalTree}

/-- The entry as it was captured. -/
def CleanupEntry.bare (e : CleanupEntry) : CleanupEntry :=
  { e with importConfirmed := false, cleaned := false }

/-- The operation that a ledger belongs to. -/
def DurableCleanupState.OfRun (s : DurableCleanupState) (k : RunKey) : Prop :=
  s.nickname = k.nickname.asStr ∧ s.operationId = k.runId.asStr

/-- A status of the operation says that the object of the entry was imported, or a
captured directory above it. -/
def ImportReported (first : DurableCleanupState) (status : RunStatus) (e : CleanupEntry) : Prop :=
  first.OfRun status.key ∧ (importedBy status e = true ∨
    ∃ d ∈ first.entries, d.kind = .directory ∧ importedBy status d = true ∧
      below d.relativePath e.relativePath = true)

/-- After the capture the source was sent to its destination, or a status was read. -/
def Confirmed (h : List SyncEvent) (first : DurableCleanupState) (e : CleanupEntry) : Prop :=
  (∃ k source t, first.OfRun k ∧
    [.captured first, .transferred (.direct k) source t].Sublist h) ∨
  ∃ status, .reported status ∈ h ∧ ImportReported first status e

/-- The ledger is that of a capture, and its confirmations have a reason. -/
structure Warranted (h : List SyncEvent) (first s : DurableCleanupState) : Prop where
  captured : .captured first ∈ h
  nickname : s.nickname = first.nickname
  operation : s.operationId = first.operationId
  entries : s.entries.map CleanupEntry.bare = first.entries
  confirmed : ∀ e ∈ s.entries, e.importConfirmed = true → Confirmed h first e.bare

/-- The history allows to delete the object of the entry. -/
def Deletable (h : List SyncEvent) (e : CleanupEntry) : Prop :=
  ∃ first, .captured first ∈ h ∧ e.bare ∈ first.entries ∧ Confirmed h first e.bare

theorem Confirmed.mono (hpre : h <+: h') (hc : Confirmed h first e) : Confirmed h' first e := by
  obtain ⟨k, source, t, hrun, hsub⟩ | ⟨status, hmem, hreported⟩ := hc
  · exact .inl ⟨k, source, t, hrun, hsub.trans hpre.sublist⟩
  · exact .inr ⟨status, hpre.subset hmem, hreported⟩

theorem Warranted.mono (hpre : h <+: h') (hw : Warranted h first s) : Warranted h' first s :=
  ⟨hpre.subset hw.captured, hw.nickname, hw.operation, hw.entries,
    fun e he hconfirmed => (hw.confirmed e he hconfirmed).mono hpre⟩

theorem Warranted.deletable (hw : Warranted h first s) (he : e ∈ s.entries)
    (hconfirmed : e.importConfirmed = true) : Deletable h e :=
  ⟨first, hw.captured, hw.entries ▸ List.mem_map_of_mem he, hw.confirmed e he hconfirmed⟩

/-- A capture confirms nothing. -/
theorem warranted_first (hmem : .captured first ∈ h) (hbare : ∀ e ∈ first.entries, e.bare = e) :
    Warranted h first first where
  captured := hmem
  nickname := rfl
  operation := rfl
  entries := (List.map_congr_left hbare).trans (List.map_id _)
  confirmed e he hconfirmed := by
    have heq := congrArg CleanupEntry.importConfirmed (hbare e he)
    rw [hconfirmed] at heq
    exact nomatch heq

/-- Only the marks of the entries change. -/
theorem Warranted.remark (hw : Warranted h first s) (hbare : es.map CleanupEntry.bare = s.entries.map
    CleanupEntry.bare) (hconfirmed : ∀ e ∈ es, e.importConfirmed = true → Confirmed h first e.bare) :
    Warranted h first { s with entries := es } :=
  ⟨hw.captured, hw.nickname, hw.operation, hbare.trans hw.entries, hconfirmed⟩

theorem Warranted.confirmAll (hw : Warranted h first s) (hrun : first.OfRun k)
    (hsub : [.captured first, .transferred (.direct k) source t].Sublist h) :
    Warranted h first { s with entries := s.entries.map CleanupEntry.confirm } := by
  refine hw.remark ?_ fun e _ _ => .inl ⟨k, source, t, hrun, hsub⟩
  rw [List.map_map]
  rfl

theorem bare_mem (hw : Warranted h first s) (he : e ∈ s.entries) : e.bare ∈ first.entries :=
  hw.entries ▸ List.mem_map_of_mem he

theorem Warranted.confirmFrom (hw : Warranted h first s) (hrun : first.OfRun status.key)
    (hmem : .reported status ∈ h) :
    Warranted h first { s with entries := confirmEntries status s.entries } := by
  refine hw.remark ?_ fun e he hconfirmed => .inr ⟨status, hmem, hrun, ?_⟩
  · simp only [confirmEntries, List.map_map]
    rfl
  · simp only [confirmEntries, List.map_map, List.mem_map, Function.comp_apply] at he
    obtain ⟨e, he, rfl⟩ := he
    simp only [Bool.or_eq_true, List.any_eq_true, List.mem_map, List.mem_filter,
      Bool.and_eq_true, beq_iff_eq] at hconfirmed
    obtain hnamed | ⟨_, ⟨_, ⟨⟨d, hd, rfl⟩, himported, hkind⟩, rfl⟩, hbelow⟩ := hconfirmed
    · exact .inl hnamed
    · exact .inr ⟨d.bare, bare_mem hw hd, hkind, himported, hbelow⟩

end Warrant

section Described

/-- The object is the one that the entry describes. -/
def CleanupEntry.Describes (sha : List UInt8 → String) (e : CleanupEntry) (n : LocalNode) : Prop :=
  match e.kind, n with
  | .directory, .dir => True
  | .symlink, .symlink target => e.linkTarget = some target
  | .regularFile, .file bytes modified =>
    e.size = bytes.length ∧ e.mtimeNs = Client.mtimeNs modified ∧ e.sha256 = some (sha bytes)
  | _, _ => False

end Described

end Purgery.Client
