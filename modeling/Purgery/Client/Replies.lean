import Purgery.Core.Records

namespace Purgery.Client

/-- What the client makes of the status that the server printed. -/
def readStatus (output : Doc RunStatus) : Except String RunStatus :=
  match RunStatus.fromToml output with
  | .error _ => .error "failed to parse status response"
  | .ok status =>
    match requireCompatiblePurgeryVersion status.purgeryVersion "status" with
    | .error _ => .error "server returned incompatible status version"
    | .ok _ => .ok status

end Purgery.Client
