import Purgery.Core.Document

namespace Purgery

/-- A version that this program goes on with. -/
def Compatible (version : String) : Prop :=
  versionsCompatible version currentPurgeryVersion = .ok true

instance (version : String) : Decidable (Compatible version) :=
  match h : versionsCompatible version currentPurgeryVersion with
  | .ok true => .isTrue h
  | .ok false => .isFalse fun h' => by rw [Compatible, h] at h'; cases h'
  | .error _ => .isFalse fun h' => by rw [Compatible, h] at h'; cases h'

theorem compatible_current : Compatible currentPurgeryVersion := by decide

theorem requireCompatible_ok {version context : String} :
    requireCompatiblePurgeryVersion version context = .ok () ↔ Compatible version := by
  unfold requireCompatiblePurgeryVersion Compatible
  cases versionsCompatible version currentPurgeryVersion with
  | error e => exact ⟨nofun, nofun⟩
  | ok b =>
    cases b with
    | false => exact ⟨nofun, nofun⟩
    | true => exact ⟨fun _ => rfl, fun _ => rfl⟩

namespace Doc

variable {α : Type} [Document α]

/-- The record that a reader goes on with. -/
def accepted (d : Doc α) : Option α :=
  match d.probe with
  | .error _ => none
  | .ok version => if Compatible version then d.parsed.toOption else none

theorem accepted_iff {d : Doc α} {a : α} : d.accepted = some a ↔
    d.parsed = .ok a ∧ ∃ version, Document.version? a = some version ∧ Compatible version := by
  unfold accepted
  constructor
  · intro h
    split at h
    · exact nomatch h
    · rename_i version hprobe
      split at h
      · rename_i hcompatible
        cases hparsed : d.parsed with
        | error e =>
          rw [hparsed] at h
          exact nomatch h
        | ok b =>
          rw [hparsed] at h
          obtain rfl := Option.some_inj.1 h
          have hversion := d.coherent b hparsed
          rw [hprobe, Document.probe] at hversion
          split at hversion
          · rename_i v hv
            exact ⟨rfl, v, hv, (Except.ok.inj hversion) ▸ hcompatible⟩
          · exact nomatch hversion
      · exact nomatch h
  · rintro ⟨hparsed, version, hversion, hcompatible⟩
    have hprobe : d.probe = .ok version := by
      rw [d.coherent a hparsed, Document.probe, hversion]
    rw [hprobe]
    simp only [if_pos hcompatible, hparsed]
    rfl

theorem accepted_ofValue {a : α} {version : String} (h : Document.version? a = some version)
    (hcompatible : Compatible version) : (ofValue a).accepted = some a :=
  accepted_iff.2 ⟨rfl, version, h, hcompatible⟩

end Doc

/-- A reader that checks the version first and then parses. -/
theorem accepted_of_checks {α : Type} [Document α] {d : Doc α} {a : α} {context : String}
    (hversion : requireCompatibleTomlVersion d context = .ok ()) (hparsed : d.parsed = .ok a) :
    d.accepted = some a := by
  unfold requireCompatibleTomlVersion at hversion
  unfold Doc.accepted
  split at hversion
  · exact nomatch hversion
  · exact nomatch hversion
  · rename_i version hprobe
    rw [hprobe, hparsed]
    simp only [if_pos (requireCompatible_ok.1 hversion)]
    rfl

theorem checks_of_accepted {α : Type} [Document α] {d : Doc α} {a : α} (context : String)
    (h : d.accepted = some a) : requireCompatibleTomlVersion d context = .ok () := by
  unfold Doc.accepted at h
  unfold requireCompatibleTomlVersion
  split at h
  · exact nomatch h
  · rename_i version hprobe
    rw [hprobe]
    split at h
    · exact requireCompatible_ok.2 ‹_›
    · exact nomatch h

end Purgery
