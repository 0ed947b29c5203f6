import PiCloud.Accounting.ResourceJournal
import PiCloud.Accounting.ResourceMetering
import PiCloud.Attachments.Packing
import PiCloud.Attachments.Reachability
import PiCloud.Control.BootFencing
import PiCloud.Control.InputQueueView
import PiCloud.Durable.HistoryReading
import PiCloud.Durable.LiveRecovery
import PiCloud.Durable.PagedScans
import PiCloud.Durable.RejectedCommits
import PiCloud.Durable.SessionHostOwners
import PiCloud.EventLog.OffsetOrder
import PiCloud.EventLog.ReaderPosition
import PiCloud.EventLog.ReplySettlement
import PiCloud.EventLog.SessionWriter
import PiCloud.Gateway.MeteringJournal
import PiCloud.Gateway.ModelContext
import PiCloud.Protocol.PreviewPipeline
import PiCloud.Runtime.BoundaryAgreement
import PiCloud.Runtime.EnvelopeRoundTrip
import PiCloud.Runtime.LiveStream
import PiCloud.Runtime.PublicationOrder
import PiCloud.Runtime.SealProjection
import PiCloud.Runtime.SubscriptionDelivery
import PiCloud.Sandbox.AgentRunFencing
import PiCloud.Sandbox.BindingRoutes
import PiCloud.Sandbox.RuntimeHealth
import PiCloud.Supervisor.HostedClose
import PiCloud.Supervisor.RemoteHandover
import PiCloud.Supervisor.SettlementGate
import PiCloud.Supervisor.ToolPresentation
import PiCloud.Supervisor.ToolReadiness
import PiCloud.Supervisor.WorldState
import PiCloud.Web.LiveWindow
import PiCloud.Web.PresentationRows
import PiCloud.Web.RunObservationStore
import PiCloud.Web.SnapshotAgreement
import PiCloud.Web.Sse
import PiCloud.Worker.PermitProgress
import PiCloud.Workspace.SeedPlacement
import PiCloud.Workspace.TransferSafety
