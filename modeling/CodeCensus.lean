import CodeCensus.Command.Level
import CodeCensus.Command.Line
import CodeCensus.Command.Report
import CodeCensus.Command.Request
import CodeCensus.Command.Run
import CodeCensus.Count
import CodeCensus.Decimal
import CodeCensus.Decimal.Double
import CodeCensus.Decimal.Shortest
import CodeCensus.Decimal.Spelled
import CodeCensus.Entry
import CodeCensus.Environment
import CodeCensus.Fault
import CodeCensus.Files.Basic
import CodeCensus.Files.Disk
import CodeCensus.Files.Memory
import CodeCensus.Forest.Basic
import CodeCensus.Forest.Place
import CodeCensus.Forest.Walk
import CodeCensus.Main
import CodeCensus.Outline
import CodeCensus.Path
import CodeCensus.Path.Expansion
import CodeCensus.Path.Location
import CodeCensus.Project.Event
import CodeCensus.Project.Failure
import CodeCensus.Project.Reader
import CodeCensus.Project.Script
import CodeCensus.Project.Session
import CodeCensus.Rose
import CodeCensus.Settings.Basic
import CodeCensus.Settings.Document
import CodeCensus.Settings.Loading
import CodeCensus.Settings.Merge
import CodeCensus.Settings.VariablePath
import CodeCensus.Settings.VariableTree
import CodeCensus.Settings.Variables
import CodeCensus.Source.Blanking
import CodeCensus.Source.Declaration
import CodeCensus.Source.Member
import CodeCensus.Source.Recognizer
import CodeCensus.Source.TypeBody
import CodeCensus.Text.Addition
import CodeCensus.Text.Alphabetic
import CodeCensus.Text.Character
import CodeCensus.Text.Mark
import CodeCensus.Text.Numeral
import CodeCensus.Text.Order
import CodeCensus.Text.Split
import CodeCensus.Toml.Document
import CodeCensus.Toml.Number
import CodeCensus.Toml.Quoted
import CodeCensus.Toml.Value
import CodeCensus.Toml.Writer
import CodeCensus.Tree.Audit
import CodeCensus.Tree.Basic
import CodeCensus.Tree.Change
import CodeCensus.Tree.Drawing
import CodeCensus.Proofs.Amendment
import CodeCensus.Proofs.Shape
import CodeCensus.Proofs.Growth
import CodeCensus.Proofs.Continuity
import CodeCensus.Proofs.History
import CodeCensus.Proofs.Materialization
import CodeCensus.Proofs.Count
import CodeCensus.Proofs.Propagation
import CodeCensus.Proofs.Mutation
import CodeCensus.Proofs.Refinement
import CodeCensus.Proofs.Evolution
import CodeCensus.Proofs.Balance
import CodeCensus.Proofs.Recount
import CodeCensus.Proofs.Reading
import CodeCensus.Proofs.Drift
import CodeCensus.Proofs.Paths
import CodeCensus.Proofs.Holdings
import CodeCensus.Proofs.Terrain
import CodeCensus.Proofs.Lookup
import CodeCensus.Proofs.Upkeep
import CodeCensus.Proofs.Tracking
import CodeCensus.Proofs.Survey
import CodeCensus.Proofs.Scanning
import CodeCensus.Proofs.FileChange
import CodeCensus.Proofs.Maintenance
import CodeCensus.Proofs.Recognition
import CodeCensus.Proofs.Size
import CodeCensus.Proofs.Course
import CodeCensus.Proofs.Refusal
import CodeCensus.Proofs.FailedEvent
import CodeCensus.Proofs.Excess
import CodeCensus.Proofs.Mirror
import CodeCensus.Proofs.Announcement
import CodeCensus.Proofs.Broadcast
import CodeCensus.Proofs.Population
import CodeCensus.Proofs.AuditListing
import CodeCensus.Proofs.FreshScan
import CodeCensus.Proofs.Surplus
import CodeCensus.Proofs.Cover
import CodeCensus.Proofs.Ledger
import CodeCensus.Proofs.SplitCharacter
import CodeCensus.Proofs.SourceTexts
import CodeCensus.Proofs.Target
import CodeCensus.Proofs.TopEvents
import CodeCensus.Proofs.Descent
import CodeCensus.Proofs.Inventory
import CodeCensus.Proofs.Braces
import CodeCensus.Proofs.Declarations
import CodeCensus.Proofs.Splitting
import CodeCensus.Proofs.Tokens
import CodeCensus.Proofs.Search
import CodeCensus.Proofs.Replacement
import CodeCensus.Proofs.Revision
import CodeCensus.Proofs.Alteration
import CodeCensus.Proofs.Commutation
import CodeCensus.Proofs.Layout
import CodeCensus.Proofs.Decoding
import CodeCensus.Proofs.Undoing
import CodeCensus.Proofs.Repetition
import CodeCensus.Proofs.Members
import CodeCensus.Proofs.Formatting
import CodeCensus.Proofs.Merging
import CodeCensus.Proofs.Annotations
import CodeCensus.Proofs.Initializers
import CodeCensus.Proofs.Traversal
import CodeCensus.Proofs.Detachment
import CodeCensus.Proofs.Ascent
import CodeCensus.Proofs.Quotation
import CodeCensus.Proofs.Documents
import CodeCensus.Proofs.Storage
