import Purgery.Core.Path

namespace Purgery

inductive PathValidationError where
  | notAbsolute
  | notRelative
  | containsDotDot
  | emptyComponent
deriving DecidableEq

/-- Lexical intent carried by a destination operand. -/
inductive DestinationIntent where
  | exactOrExistingDirectory
  | trailingSlash
  | terminalDot
  | terminalDotSlash
deriving DecidableEq

structure DestinationPath where
  path : String
  operand : String
  intent : DestinationIntent
deriving DecidableEq

namespace DestinationPath

def trimEndSlashes (cs : List Char) : List Char := (cs.reverse.dropWhile (· == '/')).reverse

def intentOf (raw : String) : DestinationIntent :=
  let trimmed := trimEndSlashes raw.toList
  let terminalDot := trimmed == ['.'] || ['/', '.'].isSuffixOf trimmed
  let slash := raw.toList.getLast? == some '/'
  if slash && terminalDot then .terminalDotSlash
  else if slash then .trailingSlash
  else if terminalDot then .terminalDot
  else .exactOrExistingDirectory

def new (raw : String) : Except PathValidationError DestinationPath :=
  if raw.isEmpty then .error .emptyComponent
  else if (Path.components raw).contains ".." then .error .containsDotDot
  else
    let components := (Path.components raw).filter (· != ".")
    let normalized :=
      if Path.isAbsolute raw then "/" ++ Path.joinSlash components
      else if components.isEmpty then "." else Path.joinSlash components
    .ok ⟨normalized, raw, intentOf raw⟩

end DestinationPath

def normalizeRelative (path : String) : Except PathValidationError String :=
  if Path.isAbsolute path then .error .notRelative
  else if (Path.components path).contains ".." then .error .containsDotDot
  else
    let result := (Path.components path).filter (· != ".")
    if result.isEmpty then .error .emptyComponent else .ok (Path.joinSlash result)

structure NormalizedRelativePath where
  asStr : String
  normalized : ∃ path, normalizeRelative path = .ok asStr

instance : DecidableEq NormalizedRelativePath := fun p q =>
  decidable_of_iff (p.asStr = q.asStr)
    ⟨fun h => by cases p; cases q; cases h; rfl, fun h => by rw [h]⟩

def NormalizedRelativePath.new (path : String) :
    Except PathValidationError NormalizedRelativePath :=
  match h : normalizeRelative path with
  | .ok s => .ok ⟨s, path, h⟩
  | .error e => .error e

inductive ManifestEntryKind where
  | directory
  | regularFile
  | symlink
deriving DecidableEq

/-- Classification of the destination operand when the plan is made. -/
inductive DestinationState where
  | missing
  | directory
  | nonDirectory
  | danglingSymlink
deriving DecidableEq

inductive DestinationPlacement where
  | exactTarget
  | directoryTarget
deriving DecidableEq

/-- The target decision that a transform and its retries use. -/
structure ResolvedDestinationPlan where
  operand : DestinationPath
  targetPath : String
  targetDirectory : String
  placement : DestinationPlacement
deriving DecidableEq

inductive DestinationResolutionError where
  | directoryRequired
  | directoryOntoNonDirectory
  | missingParent
deriving DecidableEq

def DestinationResolutionError.message : DestinationResolutionError → String
  | .directoryRequired => "destination requires a directory but is an existing non-directory"
  | .directoryOntoNonDirectory =>
    "a directory source cannot replace an existing non-directory destination"
  | .missingParent => "resolved target has no parent directory"

def resolveDestination (operand : DestinationPath) (entryPath : NormalizedRelativePath)
    (sourceKind : ManifestEntryKind) (sourceDirectoryEmpty : Bool)
    (state : DestinationState) : Except DestinationResolutionError ResolvedDestinationPlan :=
  let forcedDirectory := operand.intent != .exactOrExistingDirectory
  if forcedDirectory && (state == .nonDirectory || state == .danglingSymlink) then
    .error .directoryRequired
  else if sourceKind == .directory &&
      (state == .nonDirectory || (state == .danglingSymlink && !sourceDirectoryEmpty)) then
    .error .directoryOntoNonDirectory
  else if state == .missing && (operand.intent == .terminalDotSlash ||
      (operand.intent == .terminalDot && sourceKind == .directory && !sourceDirectoryEmpty)) then
    .error .directoryRequired
  else
    let directoryTarget := forcedDirectory || state == .directory ||
      (sourceKind == .directory && !sourceDirectoryEmpty && state != .danglingSymlink)
    let targetPath := if directoryTarget then Path.join operand.path entryPath.asStr
      else operand.path
    let placement := if directoryTarget then .directoryTarget else .exactTarget
    match Path.parent targetPath with
    | none => .error .missingParent
    | some targetDirectory => .ok ⟨operand, targetPath, targetDirectory, placement⟩

end Purgery
