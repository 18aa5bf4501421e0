import Purgery.Server.Phases

namespace Purgery.Server

open Purgery.Interleaving

/-- Incompatible state is left in place; any other error fails the run. -/
inductive ProcessingError where
  | incompatible (path message : String)
  | other (message : String)
deriving DecidableEq

def ProcessingError.message : ProcessingError → String
  | .incompatible _ message => message
  | .other message => message

section Checks

variable (config : ServerConfig) (k : RunKey) (ph : RunPhase)

def checkLease : Except IoError (Doc LeaseFile) → Except ProcessingError Unit
  | .error .notFound => .ok ()
  | .error e => .error (.other ("failed to read run lease: " ++ e.message))
  | .ok contents =>
    match contents.parsed with
    | .error e => .error (.other ("failed to parse run lease: " ++ e))
    | .ok lease =>
      if lease.protocolVersion ≠ protocolVersion then
        .error (.incompatible (filePath config k ph "lease.toml")
          ("incompatible run lease protocol version: producer " ++
            toString lease.protocolVersion ++ ", current " ++ toString protocolVersion ++
            "; leaving run untouched"))
      else .ok ()

def checkRunConfig : Except IoError (Doc RunConfig) → Except ProcessingError RunConfig
  | .error e => .error (.other ("failed to read run config: " ++ e.message))
  | .ok content =>
    match checkTomlVersion content with
    | .incompatible _ reason => .error (.incompatible (filePath config k ph "run.toml")
        ("incompatible run config version: " ++ reason))
    | .invalidToml e => .error (.other ("invalid run config TOML: " ++ e))
    | .compatible =>
      (RunConfig.fromToml content).mapError fun e =>
        .other ("failed to parse run config: " ++ e)

def checkManifest : Except IoError (Doc Manifest) → Except ProcessingError Manifest
  | .error e => .error (.other ("failed to read manifest: " ++ e.message))
  | .ok content =>
    match checkTomlVersion content with
    | .incompatible _ reason => .error (.incompatible (filePath config k ph "manifest.toml")
        ("incompatible manifest version: " ++ reason))
    | .invalidToml e => .error (.other ("invalid manifest TOML: " ++ e))
    | .compatible =>
      (Manifest.fromToml content).mapError fun e =>
        .other ("failed to parse manifest: " ++ e)

def checkEnvelope (runConfig : RunConfig) (manifest : Manifest) : Except ProcessingError Unit :=
  (validateEnvelope k runConfig manifest).mapError fun e =>
    .other ("envelope validation failed: " ++ e)

end Checks

def validateRunLeaseProtocol (config : ServerConfig) (k : RunKey) (ph : RunPhase) :
    ExceptT ProcessingError Call Unit := do
  let contents ← ask (.read ph .lease)
  ExceptT.mk (pure (checkLease config k ph contents))

/-- Read and validate the inputs of a run before anything is changed. -/
def readCompatibleRunInputs (config : ServerConfig) (k : RunKey) (ph : RunPhase) :
    ExceptT ProcessingError Call (RunConfig × Manifest) := do
  validateRunLeaseProtocol config k ph
  let content ← ask (.read ph .runConfig)
  let runConfig ← ExceptT.mk (pure (checkRunConfig config k ph content))
  let content ← ask (.read ph .manifest)
  let manifest ← ExceptT.mk (pure (checkManifest config k ph content))
  ExceptT.mk (pure (checkEnvelope k runConfig manifest))
  return (runConfig, manifest)

/-- What the files of a directory amount to as inputs. -/
def RunDir.inputs (d : RunDir) (config : ServerConfig) (k : RunKey) (ph : RunPhase) :
    Except ProcessingError (RunConfig × Manifest) := do
  checkLease config k ph (d.file .lease).read
  let runConfig ← checkRunConfig config k ph (d.file .runConfig).read
  let manifest ← checkManifest config k ph (d.file .manifest).read
  checkEnvelope k runConfig manifest
  return (runConfig, manifest)

def validateTransformRun (config : ServerConfig) (manifest : Manifest) (runConfig : RunConfig) :
    Except String Unit :=
  if !runConfig.deleteAfterImport then
    .error "transform runs require delete_after_import = true"
  else if manifest.entries.length ≠ 1 then
    .error ("server run manifest must contain exactly one entry, got " ++
      toString manifest.entries.length)
  else
    manifest.entries.forM fun entry =>
      match entry.transform with
      | none => .error ("server run entry '" ++ entry.relativePath.asStr ++ "' has no transform")
      | some name =>
        match config.transforms name with
        | none => .error ("transform '" ++ name ++ "' not defined on server")
        | some d =>
          (validateTransformDefinition d).mapError fun e =>
            "transform '" ++ name ++ "' definition is invalid: " ++ e

end Purgery.Server
