import TraceReport.Main
import TraceReport.Proofs.CommandLine.Limits
import TraceReport.Proofs.Report
import TraceReport.Proofs.Clock
import TraceReport.Proofs.Retiming
import TraceReport.Proofs.Track.Names
import TraceReport.Proofs.Track.Lanes
import TraceReport.Proofs.Payload.Plain
import TraceReport.Proofs.Payload.RoundTrip
import TraceReport.Proofs.Line.QuotedValues
import TraceReport.Proofs.Load.Range
import TraceReport.Proofs.Load.Occupancy
import TraceReport.Proofs.Load.Delay
import TraceReport.Proofs.Conversion.CoreTime
import TraceReport.Proofs.Conversion.UserTracks
import TraceReport.Proofs.Conversion.Times
import TraceReport.Proofs.Conversion.Intake
import TraceReport.Proofs.Conversion.Sources
import TraceReport.Proofs.Conversion.Views
import TraceReport.Proofs.Conversion.AllowList
import TraceReport.Proofs.Conversion.IgnoreRules
import TraceReport.Proofs.Conversion.Schedule
import TraceReport.Proofs.Conversion.Intervals
import TraceReport.Proofs.Conversion.ScheduleNames
import TraceReport.Proofs.Conversion.GroupLanes
import TraceReport.Proofs.Conversion.Acceptance
import TraceReport.Proofs.Conversion.Concatenation
import TraceReport.Proofs.Conversion.Rejection
import TraceReport.Proofs.Conversion.Streaming
import TraceReport.Proofs.Conversion.Delay
import TraceReport.Proofs.Conversion.BootTime
import TraceReport.Proofs.Conversion.Windows
import TraceReport.Proofs.Conversion.Accounting
import TraceReport.Proofs.Conversion.Order
import TraceReport.Proofs.Conversion.GroupCopies
import TraceReport.Proofs.Conversion.Markers
import TraceReport.Proofs.Conversion.LineEnds
import TraceReport.Proofs.Conversion.Retention
import TraceReport.Proofs.Conversion.SpareCores
import TraceReport.Proofs.Conversion.Panels
import TraceReport.Proofs.Line.Stamps
import TraceReport.Proofs.Line.ProcessName
import TraceReport.Proofs.Line.Padding
import TraceReport.Proofs.Track.LastNotes
import TraceReport.Proofs.Host
import TraceReport.Proofs.CommandLine.ListedCores
import TraceReport.Proofs.Payload.Structured
import TraceReport.Proofs.Json.Grammar
import TraceReport.Proofs.Json.Reading
import TraceReport.Proofs.Conversion.Members
import TraceReport.Proofs.Payload.Splitting
import TraceReport.Proofs.Session
import TraceReport.Proofs.Settings.Acceptance
import TraceReport.Proofs.Track.IdleLanes
import TraceReport.Proofs.Payload.ShortScope
import TraceReport.Proofs.Access.Lines
