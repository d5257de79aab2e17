import RenameServer.Authority
import RenameServer.Document
import RenameServer.Edit.Basic
import RenameServer.Edit.Map
import RenameServer.Endpoint
import RenameServer.Event
import RenameServer.Fault
import RenameServer.FileTree
import RenameServer.Frame
import RenameServer.Host
import RenameServer.Job
import RenameServer.Json.Access
import RenameServer.Json.Basic
import RenameServer.Json.Display
import RenameServer.Json.Key
import RenameServer.Json.Printer
import RenameServer.Json.Reader
import RenameServer.Json.Writing
import RenameServer.LineIndex
import RenameServer.Log
import RenameServer.Lookup
import RenameServer.Main
import RenameServer.Message
import RenameServer.Number.Binary64
import RenameServer.Number.Integer
import RenameServer.Number.Shortest
import RenameServer.Options
import RenameServer.Path
import RenameServer.Position
import RenameServer.Preset
import RenameServer.Program
import RenameServer.Proofs.Accounts
import RenameServer.Proofs.Admission
import RenameServer.Proofs.Alignment
import RenameServer.Proofs.AllOrNothing
import RenameServer.Proofs.Announcing
import RenameServer.Proofs.Answerable
import RenameServer.Proofs.Applying
import RenameServer.Proofs.Atomicity
import RenameServer.Proofs.Bodies
import RenameServer.Proofs.Boundaries
import RenameServer.Proofs.Braces
import RenameServer.Proofs.Buffering
import RenameServer.Proofs.Cadence
import RenameServer.Proofs.Canonical
import RenameServer.Proofs.CodeUnits
import RenameServer.Proofs.Compatible
import RenameServer.Proofs.Components
import RenameServer.Proofs.Conversations
import RenameServer.Proofs.Courses
import RenameServer.Proofs.Cursor
import RenameServer.Proofs.Declarations
import RenameServer.Proofs.Delegation
import RenameServer.Proofs.Delivery
import RenameServer.Proofs.Disjointness
import RenameServer.Proofs.Drawing
import RenameServer.Proofs.Emissions
import RenameServer.Proofs.Encoding
import RenameServer.Proofs.FileAnswers
import RenameServer.Proofs.FilePaths
import RenameServer.Proofs.Framing
import RenameServer.Proofs.Gate
import RenameServer.Proofs.Grouping
import RenameServer.Proofs.HeaderBlocks
import RenameServer.Proofs.Headers
import RenameServer.Proofs.Intake
import RenameServer.Proofs.Interpolation
import RenameServer.Proofs.Jobs
import RenameServer.Proofs.Lexemes
import RenameServer.Proofs.LineEndTokens
import RenameServer.Proofs.LineEnds
import RenameServer.Proofs.Literals
import RenameServer.Proofs.Lookups
import RenameServer.Proofs.Meaning
import RenameServer.Proofs.Messages
import RenameServer.Proofs.Mirroring
import RenameServer.Proofs.MovedEdits
import RenameServer.Proofs.MovedSources
import RenameServer.Proofs.Neighbours
import RenameServer.Proofs.Nesting
import RenameServer.Proofs.Notices
import RenameServer.Proofs.Occurrences
import RenameServer.Proofs.OpenOrder
import RenameServer.Proofs.Outcomes
import RenameServer.Proofs.Pieces
import RenameServer.Proofs.PositionOrder
import RenameServer.Proofs.Positions
import RenameServer.Proofs.Presentable
import RenameServer.Proofs.Reading
import RenameServer.Proofs.Regions
import RenameServer.Proofs.Relexing
import RenameServer.Proofs.Relocation
import RenameServer.Proofs.Renaming
import RenameServer.Proofs.Replies
import RenameServer.Proofs.Reports
import RenameServer.Proofs.Respelling
import RenameServer.Proofs.Responses
import RenameServer.Proofs.RoundTrips
import RenameServer.Proofs.Scanning
import RenameServer.Proofs.Scoping
import RenameServer.Proofs.Sending
import RenameServer.Proofs.Settling
import RenameServer.Proofs.Sharing
import RenameServer.Proofs.Snapshots
import RenameServer.Proofs.Splice
import RenameServer.Proofs.Strategies
import RenameServer.Proofs.Streams
import RenameServer.Proofs.Survival
import RenameServer.Proofs.Tidiness
import RenameServer.Proofs.TokenStructure
import RenameServer.Proofs.Totality
import RenameServer.Proofs.Translation
import RenameServer.Proofs.UnderCursor
import RenameServer.Proofs.Undoing
import RenameServer.Proofs.Values
import RenameServer.Proofs.WholeWords
import RenameServer.Proofs.Writing
import RenameServer.Rename.Chain
import RenameServer.Rename.Reference
import RenameServer.Rename.Renamer
import RenameServer.Rename.Service
import RenameServer.Rename.Step
import RenameServer.Rename.Variable
import RenameServer.Server
import RenameServer.Session
import RenameServer.Source.Lexeme
import RenameServer.Source.Name
import RenameServer.Source.Scope
import RenameServer.Source.Token
import RenameServer.Stream
import RenameServer.Text.Character
import RenameServer.Text.Printable
import RenameServer.Text.Quoted
import RenameServer.Text.Ragged
import RenameServer.Text.Utf8
import RenameServer.Uri
import RenameServer.Workspace
