import Purgery.Core.Version

namespace Purgery

inductive VersionProbeError where
  | invalidToml (error : String)
  | missingVersion
deriving DecidableEq

def VersionProbeError.message : VersionProbeError → String
  | .invalidToml e => "invalid TOML: " ++ e
  | .missingVersion => "missing purgery_version"

/-- The records that are stored as TOML text, with the `purgery_version`
that their serialization carries. -/
class Document (α : Type) where
  version? : α → Option String

def Document.probe {α : Type} [Document α] (a : α) : Except VersionProbeError String :=
  match version? a with
  | some v => .ok v
  | none => .error .missingVersion

/-- A text file as its readers see it: the version probe of the raw TOML and
the strict parse. A text that parses has the version that the record has. -/
structure Doc (α : Type) [Document α] where
  probe : Except VersionProbeError String
  parsed : Except String α
  coherent : ∀ a, parsed = .ok a → probe = Document.probe a

namespace Doc

variable {α : Type} [Document α]

def ofValue (a : α) : Doc α where
  probe := Document.probe a
  parsed := .ok a
  coherent b h := by cases h; rfl

@[simp] theorem ofValue_parsed (a : α) : (ofValue a).parsed = .ok a := rfl

@[simp] theorem ofValue_probe (a : α) : (ofValue a).probe = Document.probe a := rfl

/-- A text that is cut short: it can be classified in any way, except as the
record it was to hold. -/
def unparsed (probe : Except VersionProbeError String) (error : String) : Doc α where
  probe := probe
  parsed := .error error
  coherent _ h := nomatch h

end Doc

inductive TomlVersionCheck where
  | compatible
  | incompatible (producer : Option String) (reason : String)
  | invalidToml (error : String)
deriving DecidableEq

def checkTomlVersion {α : Type} [Document α] (d : Doc α) : TomlVersionCheck :=
  match d.probe with
  | .error (.invalidToml e) => .invalidToml e
  | .error .missingVersion =>
    .incompatible none ("missing purgery_version (current is " ++ currentPurgeryVersion ++ ")")
  | .ok v =>
    match parsePurgeryVersion v with
    | .error (.invalidFormat e) =>
      .incompatible (some v) ("invalid purgery_version string \"" ++ v ++ "\": " ++ e)
    | .error (.incompatible _ _ _) =>
      .incompatible (some v) ("producer " ++ v ++ ", current " ++ currentPurgeryVersion ++
        "; major/minor must match")
    | .ok parsed =>
      if (parsePurgeryVersion currentPurgeryVersion).toOption.any
          (fun current => parsed.major == current.major && parsed.minor == current.minor) then
        .compatible
      else
        .incompatible (some v) ("producer " ++ v ++ ", current " ++ currentPurgeryVersion ++
          "; major/minor must match")

def requireCompatibleTomlVersion {α : Type} [Document α] (d : Doc α) (context : String) :
    Except VersionError Unit :=
  match d.probe with
  | .error .missingVersion => .error (.incompatible context "(missing)" currentPurgeryVersion)
  | .error (.invalidToml e) => .error (.invalidFormat e)
  | .ok v => requireCompatiblePurgeryVersion v context

theorem checkTomlVersion_current {α : Type} [Document α] {d : Doc α}
    (h : d.probe = .ok currentPurgeryVersion) : checkTomlVersion d = .compatible := by
  have hp : parsePurgeryVersion currentPurgeryVersion = .ok ⟨0, 1, 0⟩ := by decide
  simp [checkTomlVersion, h, hp, Except.toOption]

end Purgery
