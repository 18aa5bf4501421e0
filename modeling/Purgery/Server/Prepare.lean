import Purgery.Server.Inputs

namespace Purgery.Server

open Purgery.Interleaving

/-- What `current_dir` gives: the path of a working directory is absolute. -/
inductive WorkingDirectory where
  | path (p : String) (absolute : Path.isAbsolute p = true)
  | notUtf8
  | unavailable

structure PrepareRunResponse where
  protocolVersion : Nat
  purgeryVersion : String
  nickname : String
  runId : String
  destination : Option String
deriving DecidableEq

/-- A relative destination as an operand of an absolute one. -/
def resolvedOperand (cwd : String) (destination : DestinationPath) : String :=
  let resolved := Path.join cwd destination.path
  let base := String.ofList (DestinationPath.trimEndSlashes resolved.toList)
  match destination.intent with
  | .exactOrExistingDirectory => resolved
  | .trailingSlash => base ++ "/"
  | .terminalDot => base ++ "/."
  | .terminalDotSlash => base ++ "/./"

def resolveAgainst (cwd : WorkingDirectory) (destination : DestinationPath) :
    Except String DestinationPath :=
  match cwd with
  | .unavailable => .error "failed to get current working directory"
  | .notUtf8 => .error "resolved destination path is not valid UTF-8"
  | .path p _ =>
    (DestinationPath.new (resolvedOperand p destination)).mapError fun _ =>
      "resolved destination path is invalid"

section

variable (config : ServerConfig) (k : RunKey) (cwd : WorkingDirectory)

/-- The run plan that `prepare-run` finds in the incoming directory. -/
def readRunPlan : ExceptT String Call RunConfig := do
  let content ← io (sys (.read .incoming .runConfig)) fun _ => "failed to read run config"
  ExceptT.mk (pure ((requireCompatibleTomlVersion content
    ("run config " ++ filePath config k .incoming "run.toml")).mapError VersionError.message))
  let runConfig ← ExceptT.mk (pure ((RunConfig.fromToml content).mapError fun _ =>
    "failed to parse run config"))
  let content ← io (sys (.read .incoming .manifest)) fun _ => "failed to read manifest"
  ExceptT.mk (pure ((requireCompatibleTomlVersion content
    ("manifest " ++ filePath config k .incoming "manifest.toml")).mapError VersionError.message))
  let manifest ← ExceptT.mk (pure ((Manifest.fromToml content).mapError fun _ =>
    "failed to parse manifest"))
  ExceptT.mk (pure ((validateEnvelope k runConfig manifest).mapError
    ("envelope validation failed: " ++ ·)))
  ExceptT.mk (pure ((validateTransformRun config manifest runConfig).mapError
    ("run plan validation failed: " ++ ·)))
  return runConfig

/-- Put the resolved destination in place of a relative one. -/
def resolveRunConfig (runConfig : RunConfig) : ExceptT String Call (Option String) := do
  if Path.isAbsolute runConfig.destination.path then return none
  else
    let resolved ← ExceptT.mk (pure (resolveAgainst cwd runConfig.destination))
    let updated : RunConfig :=
      { purgeryVersion := currentPurgeryVersion, nickname := runConfig.nickname,
        destination := resolved, deleteAfterImport := runConfig.deleteAfterImport }
    io (writeFile .incoming .runConfig (Doc.ofValue updated)) fun _ =>
      "failed to write updated run config"
    io (sys (.publish .incoming .runConfig)) fun _ => "failed to commit updated run config"
    return some resolved.operand

def prepareRun : ExceptT String Call PrepareRunResponse := do
  if !(← ask (.dirExists .incoming)) then
    throw ("incoming directory does not exist for run " ++ k.nickname.asStr ++ "/" ++
      k.runId.asStr ++ " at '" ++ config.workDir.runDir k .incoming ++ "'")
  else
    let runConfig ← readRunPlan config k
    let destination ← resolveRunConfig cwd runConfig
    return {
      protocolVersion := protocolVersion
      purgeryVersion := currentPurgeryVersion
      nickname := k.nickname.asStr
      runId := k.runId.asStr
      destination := destination }

end

end Purgery.Server
