import Statechart.Action
import Statechart.Binary.Basic
import Statechart.Checkpoint.Basic
import Statechart.Checkpoint.Uuid
import Statechart.Checkpoint.Written
import Statechart.Completion
import Statechart.Config
import Statechart.Configuration.Basic
import Statechart.Configuration.History
import Statechart.Configuration.Resolve
import Statechart.Definition.Build
import Statechart.Definition.Layout
import Statechart.Definition.Lowering
import Statechart.Definition.Problem
import Statechart.Definition.Reading
import Statechart.Definition.References
import Statechart.Definition.State
import Statechart.Definition.Structure
import Statechart.Descriptor
import Statechart.Domain
import Statechart.Event
import Statechart.Failure
import Statechart.Interpreter.Actor
import Statechart.Interpreter.Basic
import Statechart.Interpreter.Nested
import Statechart.Interpreter.Perform
import Statechart.Interpreter.Restore
import Statechart.Interpreter.Run
import Statechart.Interpreter.Scheduler
import Statechart.Interpreter.Service
import Statechart.Journal
import Statechart.Json.Access
import Statechart.Json.Basic
import Statechart.Json.Document
import Statechart.Json.Text
import Statechart.KeyPath
import Statechart.Listing
import Statechart.Machine
import Statechart.Macrostep
import Statechart.Microstep
import Statechart.Plan
import Statechart.Proofs.Accepted
import Statechart.Proofs.Actors
import Statechart.Proofs.Addressing
import Statechart.Proofs.Agenda
import Statechart.Proofs.Announcement
import Statechart.Proofs.Arising
import Statechart.Proofs.Binary
import Statechart.Proofs.Biography
import Statechart.Proofs.Bracketing
import Statechart.Proofs.Build
import Statechart.Proofs.Cascade
import Statechart.Proofs.Checkpoint
import Statechart.Proofs.Completion
import Statechart.Proofs.Conclusion
import Statechart.Proofs.Conflicts
import Statechart.Proofs.Course
import Statechart.Proofs.Delivery
import Statechart.Proofs.Descendants
import Statechart.Proofs.Diagnosis
import Statechart.Proofs.Domain
import Statechart.Proofs.Effects
import Statechart.Proofs.Evaluation
import Statechart.Proofs.Frame
import Statechart.Proofs.History
import Statechart.Proofs.Idempotence
import Statechart.Proofs.Invariant
import Statechart.Proofs.Invocations
import Statechart.Proofs.JsonText
import Statechart.Proofs.Keeping
import Statechart.Proofs.KeyPath
import Statechart.Proofs.Layout
import Statechart.Proofs.Leaves
import Statechart.Proofs.Legal
import Statechart.Proofs.Lifecycle
import Statechart.Proofs.Limit
import Statechart.Proofs.Locality
import Statechart.Proofs.Log
import Statechart.Proofs.Lowering
import Statechart.Proofs.Macrostep
import Statechart.Proofs.Mailbox
import Statechart.Proofs.Microstep
import Statechart.Proofs.Names
import Statechart.Proofs.Operations
import Statechart.Proofs.Origin
import Statechart.Proofs.Orthogonal
import Statechart.Proofs.Ownership
import Statechart.Proofs.Perform
import Statechart.Proofs.Planning
import Statechart.Proofs.Play
import Statechart.Proofs.Policies
import Statechart.Proofs.Punctual
import Statechart.Proofs.Queue
import Statechart.Proofs.Reading
import Statechart.Proofs.Recall
import Statechart.Proofs.References
import Statechart.Proofs.Refusal
import Statechart.Proofs.Regular
import Statechart.Proofs.Report
import Statechart.Proofs.Requirements
import Statechart.Proofs.Resolve
import Statechart.Proofs.Restoration
import Statechart.Proofs.Resumption
import Statechart.Proofs.Selection
import Statechart.Proofs.Sequence
import Statechart.Proofs.Session
import Statechart.Proofs.Settle
import Statechart.Proofs.Shape
import Statechart.Proofs.Simulation
import Statechart.Proofs.Standards
import Statechart.Proofs.StateValue
import Statechart.Proofs.Timeout
import Statechart.Proofs.TimerNames
import Statechart.Proofs.Timers
import Statechart.Proofs.Timestamps
import Statechart.Proofs.Trace
import Statechart.Proofs.Tracing
import Statechart.Proofs.Trail
import Statechart.Proofs.WellFormed
import Statechart.Proofs.Worklist
import Statechart.Proofs.Written
import Statechart.Registry
import Statechart.Script.Behaviour
import Statechart.Script.Blueprint
import Statechart.Script.Condition
import Statechart.Script.Context
import Statechart.Script.Reading
import Statechart.Script.Services
import Statechart.Selection
import Statechart.Snapshot
import Statechart.Sorted.Map
import Statechart.Sorted.Set
import Statechart.StateValue
import Statechart.Text.Hex
import Statechart.Text.Hidden
import Statechart.Text.Literal
import Statechart.Time.Clock
import Statechart.Time.Date
import Statechart.Time.Duration
import Statechart.Time.Reading
import Statechart.Time.Timestamp
import Statechart.Tree.Basic
import Statechart.Tree.Node
import Statechart.Turn
