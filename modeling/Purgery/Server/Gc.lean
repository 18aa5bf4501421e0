import Purgery.Server.Phases

namespace Purgery.Server

open Purgery.Interleaving

def saturatingAdd (a b : Nat) : Nat := min (a + b) (2 ^ 64 - 1)

section

variable (config : ServerConfig) (k : RunKey)

/-- The removal of a directory goes through the descriptor that was opened,
one entry after the other. -/
def unlinkEntries (dir : Nat) : List RunEntry → ExceptT String Call Unit
  | [] => return ()
  | e :: rest => do
    io (sys (.unlink dir e)) IoError.message
    unlinkEntries dir rest

def removeRun (ph : RunPhase) : ExceptT String Call Unit :=
  ExceptT.adapt (fun _ => "failed to remove expired " ++ ph.asStr ++ " run " ++
      k.runId.asStr ++ ": " ++ config.workDir.runDir k ph) do
    let (dir, entries) ← io (sys (.openDir ph)) IoError.message
    unlinkEntries dir entries
    io (sys (.rmdir ph)) IoError.message

/-- Whether a directory or file of this age is past its retention. -/
def pastRetention (now retention mtime : Nat) : Bool :=
  decide (now ≥ saturatingAdd mtime retention)

/-- Remove the run if the directory is past this retention. -/
def expireByMtime (ph : RunPhase) (now retention : Nat) : ExceptT String Call Unit := do
  let mtime ← io (sys (.modified ph (pastRetention now retention))) IoError.message
  if pastRetention now retention mtime then removeRun config k ph

def trustedLease (content : Doc LeaseFile) : Option LeaseFile :=
  match checkTomlVersion content with
  | .compatible =>
    match content.parsed with
    | .ok lease =>
      if lease.protocolVersion ≠ protocolVersion then none
      else if lease.nickname ≠ k.nickname.asStr ∨ lease.runId ≠ k.runId.asStr then none
      else some lease
    | .error _ => none
  | _ => none

/-- The lease is one that the collection trusts, and it has run out. -/
def leaseExpired (now : Nat) : Except IoError (Doc LeaseFile) → Bool
  | .error _ => false
  | .ok content => (trustedLease k content).any fun lease => decide (now ≥ lease.expiresAtUnixSecs)

/-- An untrusted lease leaves the run to the retention of orphans. -/
def collectIncoming (now : Nat) : ExceptT String Call Unit := do
  match ← ask (.readLease (leaseExpired k now)) with
  | .error _ => expireByMtime config k .incoming now config.gc.orphanRetentionSecs
  | .ok content =>
    match trustedLease k content with
    | none => expireByMtime config k .incoming now config.gc.orphanRetentionSecs
    | some lease => if now ≥ lease.expiresAtUnixSecs then removeRun config k .incoming

def collectProcessing (now : Nat) : ExceptT String Call Unit := do
  let mtime ← io (sys (.modified .processing fun _ => false)) IoError.message
  let expired := pastRetention now config.gc.processingRetentionSecs mtime
  match ← probeProcessorLockReadonly config k .processing expired with
  | some true => return ()
  | _ => if expired then removeRun config k .processing

/-- The status is what a terminal directory of this phase has to hold. -/
def classifyTerminalStatus (ph : RunPhase) : Except IoError (Doc RunStatus) → Bool
  | .error _ => false
  | .ok content =>
    match checkTomlVersion content with
    | .compatible =>
      match RunStatus.fromToml content with
      | .error _ => false
      | .ok status =>
        status.nickname == k.nickname && status.runId == k.runId &&
          match ph with
          | .done => status.state == .done || status.state == .partiallyDone
          | .failed => status.state == .failed
          | _ => false
    | _ => false

def expiryForTerminal (ph : RunPhase) (now retention : Nat) : ExceptT String Call Bool := do
  let content ← ask (.read ph .status)
  if classifyTerminalStatus k ph content then
    let mtime ← io (sys (.statusModified ph)) IoError.message
    return pastRetention now retention mtime
  else
    let mtime ← io (sys (.modified ph fun _ => false)) IoError.message
    return pastRetention now config.gc.orphanRetentionSecs mtime

def collectFailed (now : Nat) : ExceptT String Call Unit := do
  if ← expiryForTerminal config k .failed now config.gc.failedRetentionSecs then
    removeRun config k .failed

/-- Only a valid status that is exactly `done` allows the directory to be
pruned. -/
def prunable : Except IoError (Doc RunStatus) → Bool
  | .error _ => false
  | .ok content =>
    match checkTomlVersion content, RunStatus.fromToml content with
    | .compatible, .ok status =>
      status.nickname == k.nickname && status.runId == k.runId && status.state == .done
    | _, _ => false

def collectDone (now : Nat) : ExceptT String Call Unit := do
  if ← expiryForTerminal config k .done now config.gc.doneRetentionSecs then
    removeRun config k .done
  else
    let content ← ask (.read .done .status)
    if prunable k content then
      ExceptT.adapt (fun _ => "failed to prune successful terminal state: " ++
        config.workDir.runDir k .done) (pruneSuccessTerminal .done)

def collectRun (ph : RunPhase) (now : Nat) : ExceptT String Call Unit :=
  match ph with
  | .incoming => collectIncoming config k now
  | .ready => expireByMtime config k .ready now config.gc.readyRetentionSecs
  | .processing => collectProcessing config k now
  | .done => collectDone config k now
  | .failed => collectFailed config k now

end

end Purgery.Server
