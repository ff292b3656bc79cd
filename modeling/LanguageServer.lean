import LanguageServer.Client.Call
import LanguageServer.Client.Handle
import LanguageServer.Client.Link
import LanguageServer.Client.Payload
import LanguageServer.Client.Pending
import LanguageServer.Command
import LanguageServer.Document.Lines
import LanguageServer.Document.Offset
import LanguageServer.Document.Payload
import LanguageServer.Document.Position
import LanguageServer.Document.Store
import LanguageServer.File.Path
import LanguageServer.File.Tree
import LanguageServer.Frame
import LanguageServer.Json.Decimal
import LanguageServer.Json.Reader
import LanguageServer.Json.Value
import LanguageServer.Json.Writer
import LanguageServer.Main
import LanguageServer.Message.Envelope
import LanguageServer.Message.Error
import LanguageServer.Message.Id
import LanguageServer.Message.Method
import LanguageServer.Progress.Payload
import LanguageServer.Progress.Tracker
import LanguageServer.Proofs.Client.Endings
import LanguageServer.Proofs.Client.Exchange
import LanguageServer.Proofs.Client.Fates
import LanguageServer.Proofs.Client.Outcomes
import LanguageServer.Proofs.Client.Talk
import LanguageServer.Proofs.Document.Canonical
import LanguageServer.Proofs.Document.Clamping
import LanguageServer.Proofs.Document.Lines
import LanguageServer.Proofs.Document.Lives
import LanguageServer.Proofs.Document.Mirror
import LanguageServer.Proofs.Document.Position
import LanguageServer.Proofs.Frame.Header
import LanguageServer.Proofs.Frame.Stream
import LanguageServer.Proofs.Frame.Truncation
import LanguageServer.Proofs.Json.RoundTrip
import LanguageServer.Proofs.Json.Token
import LanguageServer.Proofs.Message.Grammar
import LanguageServer.Proofs.Message.RoundTrip
import LanguageServer.Proofs.Progress.Protocol
import LanguageServer.Proofs.Server.Answers
import LanguageServer.Proofs.Server.Cancellation
import LanguageServer.Proofs.Server.Closing
import LanguageServer.Proofs.Server.Desk
import LanguageServer.Proofs.Server.Documents
import LanguageServer.Proofs.Server.Encoding
import LanguageServer.Proofs.Server.Frame
import LanguageServer.Proofs.Server.Heard
import LanguageServer.Proofs.Server.Lifecycle
import LanguageServer.Proofs.Server.RangedChanges
import LanguageServer.Proofs.Server.Refusal
import LanguageServer.Proofs.Server.TokenWork
import LanguageServer.Proofs.Server.Tracing
import LanguageServer.Proofs.Server.Turns
import LanguageServer.Proofs.Server.Twins
import LanguageServer.Proofs.Server.Unread
import LanguageServer.Proofs.Server.Untraced
import LanguageServer.Proofs.Settings.Expansion
import LanguageServer.Proofs.Sorting
import LanguageServer.Proofs.Table
import LanguageServer.Proofs.Text.Bytes
import LanguageServer.Proofs.Token.Apply
import LanguageServer.Proofs.Token.Chain
import LanguageServer.Proofs.Token.Coding
import LanguageServer.Proofs.Token.Cut
import LanguageServer.Proofs.Token.Grouping
import LanguageServer.Proofs.Token.Joined
import LanguageServer.Proofs.Token.Lexemes
import LanguageServer.Proofs.Token.Marks
import LanguageServer.Proofs.Token.Modifiers
import LanguageServer.Proofs.Token.Moves
import LanguageServer.Proofs.Token.Overlap
import LanguageServer.Proofs.Token.Restore
import LanguageServer.Proofs.Token.ResultId
import LanguageServer.Proofs.Token.Scanning
import LanguageServer.Proofs.Token.Splicing
import LanguageServer.Proofs.Token.Sweep
import LanguageServer.Proofs.Wire.Catalogue
import LanguageServer.Proofs.Wire.Forms
import LanguageServer.Proofs.Wire.Reads
import LanguageServer.Proofs.Wire.Returns
import LanguageServer.Proofs.Wire.Stable
import LanguageServer.Server.Agent
import LanguageServer.Server.Basic
import LanguageServer.Server.Connection
import LanguageServer.Server.Dispatch
import LanguageServer.Server.Host
import LanguageServer.Server.Program
import LanguageServer.Server.Run
import LanguageServer.Server.Script
import LanguageServer.Server.Work
import LanguageServer.Session.Capabilities
import LanguageServer.Session.Payload
import LanguageServer.Session.State
import LanguageServer.Settings.Basic
import LanguageServer.Settings.Expansion
import LanguageServer.Settings.Files
import LanguageServer.Text.Blank
import LanguageServer.Text.Bytes
import LanguageServer.Text.Quoted
import LanguageServer.Text.Unprintable
import LanguageServer.Text.Utf8
import LanguageServer.Token.Cache
import LanguageServer.Token.Compaction
import LanguageServer.Token.Data
import LanguageServer.Token.Diff
import LanguageServer.Token.Edit
import LanguageServer.Token.Legend
import LanguageServer.Token.Lexical
import LanguageServer.Token.Myers
import LanguageServer.Token.Payload
import LanguageServer.Token.Script
import LanguageServer.Toml.Document
import LanguageServer.Toml.Quoted
import LanguageServer.Toml.Scalar
import LanguageServer.Toml.Table
import LanguageServer.Toml.Value
import LanguageServer.Wire.Codec
import LanguageServer.Wire.Fault
import LanguageServer.Wire.Record
