import TaskMonitor.Framing.Writer
import TaskMonitor.Main
import TaskMonitor.Proofs.Framing.Blocks
import TaskMonitor.Proofs.Framing.Partial
import TaskMonitor.Proofs.Framing.Recovery
import TaskMonitor.Proofs.Framing.Segments
import TaskMonitor.Proofs.Framing.Stream
import TaskMonitor.Proofs.Json.Agreement
import TaskMonitor.Proofs.Json.Cut
import TaskMonitor.Proofs.Json.Nested
import TaskMonitor.Proofs.Json.Numeral
import TaskMonitor.Proofs.Json.Quoted
import TaskMonitor.Proofs.Json.Step
import TaskMonitor.Proofs.Json.Written
import TaskMonitor.Proofs.Rpc.Cut
import TaskMonitor.Proofs.Rpc.Message
import TaskMonitor.Proofs.Session.Attribution
import TaskMonitor.Proofs.Session.Device
import TaskMonitor.Proofs.Session.Exchange
import TaskMonitor.Proofs.Session.Replay
import TaskMonitor.Proofs.Session.Run
import TaskMonitor.Proofs.Text.Utf8
import TaskMonitor.Proofs.Snapshot.Strict
import TaskMonitor.Session.Dialogue
import TaskMonitor.Proofs.Framing.Encoding
import TaskMonitor.Proofs.Framing.Decoding
import TaskMonitor.Proofs.Toml.Quoted
import TaskMonitor.Proofs.Toml.Scalar
import TaskMonitor.Proofs.Toml.Document
import TaskMonitor.Proofs.Settings.File
import TaskMonitor.Proofs.Json.Token
import TaskMonitor.Proofs.Json.Tree
import TaskMonitor.Proofs.Json.Layout
import TaskMonitor.Proofs.Json.Taken
import TaskMonitor.Proofs.Rpc.Layout
import TaskMonitor.Proofs.Report.Latest
import TaskMonitor.Proofs.Session.Requests
import TaskMonitor.Proofs.Text.Paragraphs
import TaskMonitor.Proofs.Watch.Reports
import TaskMonitor.Proofs.Json.Pretty
import TaskMonitor.Proofs.Watch.Documents
import TaskMonitor.Proofs.Report.Overwritten
import TaskMonitor.Proofs.Report.Table
import TaskMonitor.Proofs.Session.Buffering
import TaskMonitor.Proofs.Json.Double
import TaskMonitor.Proofs.Json.Indented
import TaskMonitor.Proofs.Report.Listing
import TaskMonitor.Proofs.Snapshot.Gaps
import TaskMonitor.Proofs.Session.Limits
import TaskMonitor.Proofs.Settings.Overrides
import TaskMonitor.Proofs.Json.Places
import TaskMonitor.Proofs.Rpc.Integers
import TaskMonitor.Framing.Turns
import TaskMonitor.Proofs.Framing.Progress
import TaskMonitor.Proofs.Number.TotalOrder
import TaskMonitor.Proofs.Report.Extremes
import TaskMonitor.Proofs.Number.Rounding
import TaskMonitor.Proofs.Number.Nearest
import TaskMonitor.Proofs.Number.Spelled
import TaskMonitor.Proofs.Watch.Interval
import TaskMonitor.Proofs.Session.Staleness
