import Gostman.Auth.Challenges
import Gostman.Auth.Digest
import Gostman.Binary.Accepted
import Gostman.Binary.Cbor
import Gostman.Binary.CborKept
import Gostman.Binary.Grammar
import Gostman.Binary.Item
import Gostman.Binary.Kept
import Gostman.Binary.MessagePack
import Gostman.Binary.MessagePackKept
import Gostman.Binary.Texts
import Gostman.Binary.Tree
import Gostman.Binary.WellFormed
import Gostman.Capture.Hold
import Gostman.Capture.Journal
import Gostman.Capture.Settled
import Gostman.Commits.Graph
import Gostman.Commits.Lanes
import Gostman.Contract.Segment
import Gostman.Curl.Exact
import Gostman.Curl.Guess
import Gostman.Curl.ReadBack
import Gostman.Curl.Words
import Gostman.Diff.LineDiff
import Gostman.Exact.Json
import Gostman.Exact.Reader
import Gostman.Flows.Agree
import Gostman.Flows.Answering
import Gostman.Flows.Asked
import Gostman.Flows.Budget
import Gostman.Flows.Compact
import Gostman.Flows.Conditions
import Gostman.Flows.Copies
import Gostman.Flows.DeclaredOrder
import Gostman.Flows.Duplicated
import Gostman.Flows.Editing
import Gostman.Flows.Edits
import Gostman.Flows.Ending
import Gostman.Flows.Engine.Answers
import Gostman.Flows.Engine.Steps
import Gostman.Flows.Engine.Turn
import Gostman.Flows.English
import Gostman.Flows.Index
import Gostman.Flows.Inherited
import Gostman.Flows.Json
import Gostman.Flows.Model
import Gostman.Flows.Moves
import Gostman.Flows.Names
import Gostman.Flows.Nesting
import Gostman.Flows.Places
import Gostman.Flows.Ready
import Gostman.Flows.Recorded
import Gostman.Flows.Removed
import Gostman.Flows.RenamedStep
import Gostman.Flows.Renaming
import Gostman.Flows.Restores
import Gostman.Flows.Running
import Gostman.Flows.Runs
import Gostman.Flows.Saving
import Gostman.Flows.Standing
import Gostman.Flows.Text
import Gostman.Flows.Validate
import Gostman.Flows.Values
import Gostman.Format.Formatted
import Gostman.Format.Lexer
import Gostman.Format.Reader
import Gostman.Format.Tokens
import Gostman.Format.Values
import Gostman.Fuzz.Circles
import Gostman.Fuzz.Endings
import Gostman.Fuzz.Generate
import Gostman.Fuzz.Schema
import Gostman.Go.Json
import Gostman.Go.JsonKept
import Gostman.Go.Text
import Gostman.Headers.Inherit
import Gostman.Importer.Bru
import Gostman.Importer.BruEntries
import Gostman.Importer.BruKept
import Gostman.Importer.BruRoundTrip
import Gostman.Importer.Contained
import Gostman.Importer.HttpRequest
import Gostman.Importer.HurlBrackets
import Gostman.Importer.HurlContent
import Gostman.Importer.HurlEntry
import Gostman.Importer.HurlExport
import Gostman.Importer.HurlForm
import Gostman.Importer.HurlFound
import Gostman.Importer.HurlKept
import Gostman.Importer.HurlLines
import Gostman.Importer.HurlParse
import Gostman.Importer.HurlRoundTrip
import Gostman.Importer.HurlWritten
import Gostman.Js.Numeral
import Gostman.Js.Value
import Gostman.Lib.Base64
import Gostman.Lib.Chase
import Gostman.Lib.CommonSublist
import Gostman.Lib.Decided
import Gostman.Lib.Doubles
import Gostman.Lib.EcmaJson
import Gostman.Lib.EcmaRead
import Gostman.Lib.EcmaWritten
import Gostman.Lib.Forest
import Gostman.Lib.Framing
import Gostman.Lib.FreeName
import Gostman.Lib.Fuel
import Gostman.Lib.Grammar
import Gostman.Lib.Layers
import Gostman.Lib.Leftmost
import Gostman.Lib.Lines
import Gostman.Lib.Outline
import Gostman.Lib.Peel
import Gostman.Lib.Percent
import Gostman.Lib.Reading
import Gostman.Lib.Record
import Gostman.Lib.Spaced
import Gostman.Lib.Spans
import Gostman.Lib.Stable
import Gostman.Lib.Trimmed
import Gostman.Lib.Uncycle
import Gostman.Lib.Uppermost
import Gostman.Lib.UriComponent
import Gostman.Lib.Utf16
import Gostman.Lib.Utf8
import Gostman.Lib.Yields
import Gostman.LoadTest.Histogram
import Gostman.LoadTest.Run
import Gostman.Mock.Pattern
import Gostman.Mock.Routing
import Gostman.Mock.Table
import Gostman.Openapi.Accepted
import Gostman.Openapi.Budgets
import Gostman.Openapi.Diff
import Gostman.Openapi.Itself
import Gostman.Openapi.Meaning
import Gostman.Openapi.Same
import Gostman.Openapi.Schemas
import Gostman.Openapi.Sound
import Gostman.Openapi.Value
import Gostman.Placeholders.Alike
import Gostman.Placeholders.Fill
import Gostman.Placeholders.Pattern
import Gostman.Placeholders.Settled
import Gostman.Query.Encoded
import Gostman.Query.QueryString
import Gostman.Query.Split
import Gostman.Query.Survives
import Gostman.Query.Written
import Gostman.Realtime.Mqtt
import Gostman.Redact.Clean
import Gostman.Redact.Learned
import Gostman.Redact.Model
import Gostman.Runner.Bookkeeping
import Gostman.Runner.Drive
import Gostman.Runner.Host
import Gostman.Runner.Ledger
import Gostman.Runner.Rows
import Gostman.Runner.Script
import Gostman.Schedule.Held
import Gostman.Schedule.Jumps
import Gostman.Schedule.Model
import Gostman.Schedule.PassedOver
import Gostman.Schedule.Recorded
import Gostman.Schedule.Runs
import Gostman.Schedule.Units
import Gostman.Scopes.Alike
import Gostman.Scopes.Model
import Gostman.Specs.Applied
import Gostman.Specs.Partition
import Gostman.Specs.Sync
import Gostman.Stream.Batches
import Gostman.Stream.Delivered
import Gostman.Stream.Interpretation
import Gostman.Stream.Parser
import Gostman.Stream.Reading
import Gostman.Stream.Truncated
import Gostman.Tabs.Conflicts
import Gostman.Tabs.Reconcile
import Gostman.Tree.Collection
import Gostman.Tree.Depth
import Gostman.Tree.Moved
import Gostman.Tree.Patched
import Gostman.Tree.Selection
import Gostman.Tree.Shown
import Gostman.Tree.Siblings
import Gostman.Workspace.Arrange
import Gostman.Workspace.DotEnv
import Gostman.Workspace.JsonText
import Gostman.Workspace.Nodes
import Gostman.Workspace.Order
import Gostman.Workspace.RequestFile
import Gostman.Workspace.Secrets
import Gostman.Workspace.SharedOrder
import Gostman.Workspace.Unknown
import Gostman.Workspace.Withheld
import Gostman.Zip.Limits
import Gostman.Zip.Reader
