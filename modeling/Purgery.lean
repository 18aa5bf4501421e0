import Purgery.Core.Containment
import Purgery.Interleaving.Alone
import Purgery.Interleaving.Schedule
import Purgery.Pipe.Readers
import Purgery.Server.Report
import Purgery.Server.UploadSafety
import Purgery.Server.Snapshot
import Purgery.Server.TerminalAnswer
import Purgery.Server.Scanning
import Purgery.Server.Finishing
import Purgery.Server.LostRace
import Purgery.Server.Preparation
import Purgery.Server.Classification
import Purgery.Server.Staging
import Purgery.Server.Polling
import Purgery.Server.Intake.Atomic
import Purgery.Server.Intake.Subcommands
import Purgery.Client.RemoteCommand
import Purgery.Client.Confirmation
import Purgery.Client.Split.Sentinel
import Purgery.Client.Split.Shapes
import Purgery.Client.Split.Layout
import Purgery.Server.Trees
import Purgery.Server.Inodes
import Purgery.Server.Collection
import Purgery.Server.WorkCopy
import Purgery.Server.WorkArea
import Purgery.Server.Retention
import Purgery.Client.Cleanup
import Purgery.Client.Source
import Purgery.Client.Captured
import Purgery.Client.Cleaning
import Purgery.Client.CleanupPass
import Purgery.Client.Completion
import Purgery.Core.Rounds
import Purgery.Server.GcWalk
import Purgery.Server.Isolation
import Purgery.Server.GcVisits
import Purgery.Server.GcTotal
import Purgery.Client.Authority
