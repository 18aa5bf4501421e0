import Purgery.Server.Calls

namespace Purgery.Server

/-- The calls that a server process makes as far as an incoming run is
concerned: a collection that started at `now` decides as it should, and nobody
but a heartbeat and a finish change the directory. -/
def RunOp.Timely (config : ServerConfig) (k : RunKey) (now : Nat) : RunOp → Prop
  | .readLease dooms => dooms = leaseExpired k now
  | .modified .incoming dooms =>
    dooms = pastRetention now config.gc.orphanRetentionSecs ∨ ∀ m, dooms m = false
  | .lockExists ph sweep => ph = .incoming → sweep = false
  | .openLockReadonly ph sweep => ph = .incoming → sweep = false
  | .probeFlock ph _ sweep => ph = .incoming → sweep = false
  | .openTmp ph f => ph = .incoming → f = .lease
  | .publish ph f => ph = .incoming → f = .lease
  | .removeFile ph _ => ph ≠ .incoming
  | .removeTmp ph _ => ph ≠ .incoming
  | .removeLock ph => ph ≠ .incoming
  | .breakTree ph _ => ph ≠ .incoming
  | .removeTree ph _ => ph ≠ .incoming
  | .openLock ph => ph ≠ .incoming
  | .move src dst => dst ≠ .incoming ∧ (src = .incoming → dst = .ready)
  | _ => True

theorem RunOp.Issued.timely {config : ServerConfig} {k : RunKey} {now : Nat} {o : RunOp}
    (h : o.Issued config k now) : o.Timely config k now := by
  cases o with
  | lockExists ph sweep =>
    rintro rfl
    exact h.resolve_left nofun
  | modified ph dooms =>
    cases ph with
    | incoming => exact h
    | _ => trivial
  | openLockReadonly ph sweep | probeFlock ph ino sweep =>
    obtain rfl := h
    exact nofun
  | openTmp ph f | publish ph f =>
    rintro rfl
    cases f <;> first | rfl | exact nomatch h
  | removeFile ph f | removeTmp ph f =>
    rintro rfl
    simp [RunOp.Issued, RunPhase.terminal] at h
  | removeLock ph | breakTree ph s | removeTree ph s | openLock ph =>
    rintro rfl
    simp [RunOp.Issued, RunPhase.terminal, RunPhase.queued] at h
  | move src dst =>
    cases src <;> cases dst <;> simp_all [RunOp.Issued, RunOp.Timely, LeadsTo]
  | readLease dooms => exact h
  | _ => trivial

end Purgery.Server
