import Lynox.Bulk.SendOnce
import Lynox.Bulk.Atomic
import Lynox.Bulk.Family
import Lynox.Bulk.PreviewCap
import Lynox.Bulk.JudgeClaims
import Lynox.Bulk.ResumeSends
import Lynox.Bulk.Checksum
import Lynox.Orchestrator.Runs
import Lynox.Budget.Caps
import Lynox.Egress.Narrowed
import Lynox.Egress.ShellSet
import Lynox.Triggers.Consent
import Lynox.Tar.RoundTrip
import Lynox.Approvals.Queued
import Lynox.Approvals.SentOnce
import Lynox.Secrets.Scope
import Lynox.Migration.Complete
import Lynox.Changeset.Rollback
import Lynox.Subjects.OneName
import Lynox.Subjects.Reaped
import Lynox.Subjects.Money
import Lynox.Calendar.Ics
import Lynox.Orchestrator.EventText
import Lynox.Triggers.Retries
import Lynox.Triggers.OneRun
import Lynox.Triggers.Told
import Lynox.Collections.Counted
import Lynox.Collections.SubjectFilter
import Lynox.Collections.Where
import Lynox.Backup.Signed
import Lynox.Backup.Whole
import Lynox.Orchestrator.Cycles
import Lynox.Orchestrator.Phases
import Lynox.Stream.RunBuffer
import Lynox.Messages.ToolPairs
import Lynox.Orchestrator.Renamed
import Lynox.Bulk.Refusals
import Lynox.Markup.NormalForm
import Lynox.Markup.Deletion
import Lynox.Bulk.HostBudget
import Lynox.Bulk.Connections
import Lynox.Bulk.Csv
import Lynox.Outbound.Question
import Lynox.Outbound.Gated
import Lynox.Guard.CurlForm
import Lynox.Guard.Braces
import Lynox.Guard.Glob
import Lynox.Orchestrator.Parameters
import Lynox.Schedule.Scheduled
import Lynox.Egress.HelloChunks
import Lynox.Network.AddressText
import Lynox.Network.Redirects
import Lynox.Secrets.JwtScan
import Lynox.Messages.Translate
import Lynox.Memory.Recall
import Lynox.Memory.Trimmed
import Lynox.Bulk.Values
import Lynox.Messages.BlobsStay
import Lynox.Backup.Folding
import Lynox.Secrets.Rotation
