import Purgery.Server.Phases

namespace Purgery.Server

open Purgery.Interleaving

section

variable (config : ServerConfig) (k : RunKey)

def runTitle : String := k.nickname.asStr ++ "/" ++ k.runId.asStr

/-- The lease of an incoming run as `heartbeat-run` and `finish-run` accept it. -/
def acceptedLease (command : String) (content : Doc LeaseFile) : Except String LeaseFile := do
  match content.probe with
  | .error e =>
    throw ("cannot " ++ command ++ " run: lease is missing purgery_version or has invalid TOML " ++
      "(producer version cannot be established) at '" ++
      filePath config k .incoming "lease.toml" ++ "': " ++ e.message)
  | .ok _ =>
    let lease ← content.parsed.mapError fun _ => "failed to parse lease file"
    (requireCompatiblePurgeryVersion lease.purgeryVersion "lease").mapError fun _ =>
      "incompatible lease version"
    if lease.protocolVersion ≠ protocolVersion then
      throw ("lease protocol version " ++ toString lease.protocolVersion ++
        " does not match expected " ++ toString protocolVersion)
    else if lease.nickname ≠ k.nickname.asStr then
      throw ("lease nickname '" ++ lease.nickname ++ "' does not match expected '" ++
        k.nickname.asStr ++ "'")
    else if lease.runId ≠ k.runId.asStr then
      throw ("lease run_id '" ++ lease.runId ++ "' does not match expected '" ++
        k.runId.asStr ++ "'")
    else return lease

def heartbeatRun : ExceptT String Call Unit := do
  if !(← ask (.dirExists .incoming)) then
    throw ("run " ++ runTitle k ++ " is not in incoming phase")
  else
    let content ← io (sys (.read .incoming .lease)) fun _ => "failed to read lease file"
    let lease ← ExceptT.mk (pure (acceptedLease config k "heartbeat" content))
    let now ← ask .unixNow
    let renewed : LeaseFile :=
      { lease with
        lastHeartbeatUnixSecs := now
        expiresAtUnixSecs := now + config.gc.incomingLeaseSecs }
    io (writeFile .incoming .lease (Doc.ofValue renewed)) fun _ => "failed to write lease"
    io (sys (.publish .incoming .lease)) fun _ => "failed to commit lease"

/-- Whether the run is in one of these phases. -/
def inLaterPhase : List RunPhase → Call Bool
  | [] => return false
  | ph :: rest => do
    if ← sys (.dirExists ph) then return true
    else inLaterPhase rest

def finishRun : ExceptT String Call Unit := do
  if ← ExceptT.lift (inLaterPhase [.ready, .processing, .done, .failed]) then return ()
  else if !(← ask (.dirExists .incoming)) then
    throw ("incoming directory does not exist for run " ++ runTitle k ++ " at '" ++
      config.workDir.runDir k .incoming ++ "'")
  else if !(← ask (.fileExists .incoming .lease)) then
    throw "cannot finish run: no lease file found, run may be incomplete"
  else
    let content ← io (sys (.read .incoming .lease)) fun _ => "failed to read lease file"
    let lease ← ExceptT.mk (pure (acceptedLease config k "finish" content))
    let now ← ask .unixNow
    if now ≥ lease.expiresAtUnixSecs then
      throw ("cannot finish run: incoming lease expired at " ++ toString lease.expiresAtUnixSecs)
    else if ← ask (.dirExists .ready) then
      throw ("ready directory already exists for run " ++ runTitle k ++ " at '" ++
        config.workDir.runDir k .ready ++ "'")
    else
      io (sys (.createParent .ready)) fun _ => "failed to create ready parent: " ++
        Path.join (config.workDir.nicknameDir k.nickname) "ready"
      io (sys (.move .incoming .ready)) fun _ => "failed to move incoming to ready: " ++
        config.workDir.runDir k .incoming ++ " -> " ++ config.workDir.runDir k .ready

end

end Purgery.Server
