import InkServer.CommandLine
import InkServer.Disk.Basic
import InkServer.Disk.Operations
import InkServer.Disk.Resolve
import InkServer.Json.Basic
import InkServer.Json.Reader
import InkServer.Json.Record
import InkServer.Json.Writer
import InkServer.Main
import InkServer.Number.Binary64
import InkServer.Number.Shortest
import InkServer.Path.Basic
import InkServer.Path.Lexical
import InkServer.Path.Normal
import InkServer.Process.Act
import InkServer.Process.Basic
import InkServer.Process.Image
import InkServer.Process.Installation
import InkServer.Process.Supervision
import InkServer.Rpc.Frame
import InkServer.Rpc.Message
import InkServer.Rpc.Params
import InkServer.Rpc.Pending
import InkServer.Run.Launch
import InkServer.Run.Output
import InkServer.Run.Request
import InkServer.Run.Slot
import InkServer.Run.Vigil
import InkServer.Service.Commands
import InkServer.Service.Delivery
import InkServer.Service.Documents
import InkServer.Service.Job
import InkServer.Service.Publication
import InkServer.Service.Ready
import InkServer.Service.World
import InkServer.Session.Basic
import InkServer.Session.Terms
import InkServer.Session.Turn
import InkServer.Settings.Basic
import InkServer.Settings.Decode
import InkServer.Settings.Expansion
import InkServer.Settings.File
import InkServer.Shell.Arithmetic
import InkServer.Shell.Condition
import InkServer.Shell.Evaluation
import InkServer.Shell.Expansion
import InkServer.Shell.Format
import InkServer.Shell.Pattern
import InkServer.Shell.Program
import InkServer.Shell.Reader
import InkServer.Shell.Script
import InkServer.Shell.State
import InkServer.Shell.Word
import InkServer.Story.Diagnostic
import InkServer.Story.Event
import InkServer.Story.Line
import InkServer.Story.LineBuffer
import InkServer.Story.Scan
import InkServer.Text.Blank
import InkServer.Text.Digit
import InkServer.Text.Numeral
import InkServer.Text.Printable
import InkServer.Text.Quoted
import InkServer.Text.Raw
import InkServer.Text.Split
import InkServer.Text.Utf8
import InkServer.Toml.Basic
import InkServer.Toml.Reader
import InkServer.Toml.Scalar
import InkServer.Tool.Lookup
import InkServer.Uri.Address
import InkServer.Uri.File
import InkServer.Uri.Host
import InkServer.Uri.Percent
import InkServer.Workspace.Caller
import InkServer.Workspace.Copy
import InkServer.Workspace.Edit
import InkServer.Workspace.Entry
import InkServer.Workspace.Folder
import InkServer.Workspace.Registry
import InkServer.Workspace.SourceFilter
import InkServer.Proofs.Association
import InkServer.Proofs.Flight.Basic
import InkServer.Proofs.Flight.Passes
import InkServer.Proofs.Flight.Generation
import InkServer.Proofs.Flight.Action
import InkServer.Proofs.Flight.WakeUp
import InkServer.Proofs.Flight.Listening
import InkServer.Proofs.Flight.SingleFlight
import InkServer.Proofs.Flight.Attendance
import InkServer.Proofs.Text.Numeral
import InkServer.Proofs.Text.Pieces
import InkServer.Proofs.Text.Utf8
import InkServer.Proofs.Path.Components
import InkServer.Proofs.Copy.Scratch
import InkServer.Proofs.Path.Normal
import InkServer.Proofs.Flight.Provenance
import InkServer.Proofs.Disk.Walk
import InkServer.Proofs.Disk.Operations
import InkServer.Proofs.Path.Lexical
import InkServer.Proofs.Job.Course
import InkServer.Proofs.Ownership
import InkServer.Proofs.Copy.Effect
import InkServer.Proofs.Job.Ready
import InkServer.Proofs.Job.Edit
import InkServer.Proofs.Job.Compile
import InkServer.Proofs.Path.Inside
import InkServer.Proofs.Path.Relative
import InkServer.Proofs.Disk.Tree
import InkServer.Proofs.Disk.Change
import InkServer.Proofs.Copy.Place
import InkServer.Proofs.Copy.Tree
import InkServer.Proofs.Copy.Overlay
import InkServer.Proofs.Copy.Confinement
import InkServer.Proofs.Copy.Correspondence
import InkServer.Proofs.Disk.Descent
import InkServer.Proofs.Copy.Exact
import InkServer.Proofs.Copy.Sources
import InkServer.Proofs.Copy.Ending
import InkServer.Proofs.Copy.Mirror
import InkServer.Proofs.Copy.Nesting
import InkServer.Proofs.Job.Overlay
import InkServer.Proofs.Job.Renewal
import InkServer.Proofs.Job.Unsaved
import InkServer.Proofs.Job.Watch
import InkServer.Proofs.Run.Oversight
import InkServer.Proofs.Run.Slot
import InkServer.Proofs.Run.Outcome
import InkServer.Proofs.Publication.Lists
import InkServer.Proofs.Job.Making
import InkServer.Proofs.Job.Stretch
import InkServer.Proofs.Job.Custody
import InkServer.Proofs.Publication.History
import InkServer.Proofs.Publication.Removal
import InkServer.Proofs.Publication.Overlap
import InkServer.Proofs.Story.Line
import InkServer.Proofs.Story.Chunks
import InkServer.Proofs.Rpc.Frame
import InkServer.Proofs.Rpc.Header
import InkServer.Proofs.Rpc.Exchange
import InkServer.Proofs.Session.Stage
import InkServer.Proofs.Session.Conduct
import InkServer.Proofs.Session.LifeCycle
import InkServer.Proofs.Session.Reaction
import InkServer.Proofs.Session.Dialogue
import InkServer.Proofs.Session.Crew
import InkServer.Proofs.Session.Inquiry
import InkServer.Proofs.Session.Manning
import InkServer.Proofs.Session.Progress
import InkServer.Proofs.Session.Sending
import InkServer.Proofs.Session.Response
import InkServer.Proofs.Path.Order
import InkServer.Proofs.Path.Legible
import InkServer.Proofs.Path.Agreement
import InkServer.Proofs.Path.Composition
import InkServer.Proofs.Uri.Percent
import InkServer.Proofs.Uri.RoundTrip
import InkServer.Proofs.Publication.Spelling
import InkServer.Proofs.Publication.Grouping
import InkServer.Proofs.Publication.Commute
import InkServer.Proofs.Job.Account
import InkServer.Proofs.Job.Gates
import InkServer.Proofs.Job.Launch
import InkServer.Proofs.Story.Grammar
import InkServer.Proofs.Story.Recognition
import InkServer.Proofs.Run.Output
import InkServer.Proofs.Job.Repair
import InkServer.Proofs.Job.Closing
import InkServer.Proofs.Settings.Tiers
import InkServer.Proofs.Settings.Template
import InkServer.Proofs.Tool.Memory
