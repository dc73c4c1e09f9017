import CoChange.Analysis
import CoChange.AnalysisConfig
import CoChange.AnalysisConfig.Json
import CoChange.Binary.Codec
import CoChange.Binary64.Basic
import CoChange.Binary64.Text
import CoChange.ByteSize
import CoChange.Checkpoint.Metadata
import CoChange.Checkpoint.Store
import CoChange.CodeUnit
import CoChange.CommandLine.Basic
import CoChange.CommandLine.Check
import CoChange.CommandLine.Json
import CoChange.CommandLine.Parser
import CoChange.Commit
import CoChange.Commit.Json
import CoChange.Correlation
import CoChange.Decimal.Literal
import CoChange.Digest.Sha256
import CoChange.EditScript.Alignment
import CoChange.EditScript.Basic
import CoChange.EditScript.Compaction
import CoChange.EditScript.Json
import CoChange.EditScript.LineDiff
import CoChange.Engine
import CoChange.Engine.Binary
import CoChange.Engine.Json
import CoChange.EngineError
import CoChange.FileSystem
import CoChange.FormatVersion
import CoChange.HistoryError
import CoChange.Json.Basic
import CoChange.Json.Decode
import CoChange.Json.Parser
import CoChange.Json.Printer
import CoChange.LineIndex
import CoChange.Logging.Config
import CoChange.Logging.Level
import CoChange.MergeLog
import CoChange.Metrics.Basic
import CoChange.Metrics.Binary
import CoChange.Metrics.Json
import CoChange.OutputFormat
import CoChange.Partition
import CoChange.Program
import CoChange.Proofs.Accounting
import CoChange.Proofs.Binary
import CoChange.Proofs.Binary.Envelope
import CoChange.Proofs.Binary.Ordering
import CoChange.Proofs.Binary.Truncation
import CoChange.Proofs.Binary64.Quotient
import CoChange.Proofs.Binary64.Rounding
import CoChange.Proofs.Binary64.Text
import CoChange.Proofs.Binary64.Truncation
import CoChange.Proofs.ByteSize.Format
import CoChange.Proofs.ByteSize.Parse
import CoChange.Proofs.ByteSize.Rounding
import CoChange.Proofs.Capping
import CoChange.Proofs.Checkpoint.Interruption
import CoChange.Proofs.Checkpoint.Metadata
import CoChange.Proofs.Checkpoint.Position
import CoChange.Proofs.Checkpoint.Resuming
import CoChange.Proofs.Checkpoint.Saving
import CoChange.Proofs.Correlation
import CoChange.Proofs.Decimal.Ratio
import CoChange.Proofs.Decimal.Shortest
import CoChange.Proofs.EditScript
import CoChange.Proofs.FileSystem
import CoChange.Proofs.Inventory.Basic
import CoChange.Proofs.Inventory.Reordering
import CoChange.Proofs.Journal.Basic
import CoChange.Proofs.Journal.Description
import CoChange.Proofs.Journal.Refinement
import CoChange.Proofs.Json
import CoChange.Proofs.Json.Address
import CoChange.Proofs.Merging
import CoChange.Proofs.Metrics.Document
import CoChange.Proofs.Metrics.Hotness
import CoChange.Proofs.Metrics.Pairs
import CoChange.Proofs.Metrics.Ranking
import CoChange.Proofs.Metrics.Share
import CoChange.Proofs.Metrics.Totals
import CoChange.Proofs.Partition
import CoChange.Proofs.RawReport
import CoChange.Proofs.Registry.Absorption
import CoChange.Proofs.Registry.Bare
import CoChange.Proofs.Registry.Conservation
import CoChange.Proofs.Registry.Coupling
import CoChange.Proofs.Registry.Event
import CoChange.Proofs.Registry.Identity
import CoChange.Proofs.Registry.Index
import CoChange.Proofs.Registry.Reached
import CoChange.Proofs.Registry.Regular
import CoChange.Proofs.Registry.Relabelling
import CoChange.Proofs.Registry.Removal
import CoChange.Proofs.Registry.Rename
import CoChange.Proofs.Registry.TableOrder
import CoChange.Proofs.Registry.TouchSet
import CoChange.Proofs.Registry.Trail
import CoChange.Proofs.Registry.Volume
import CoChange.Proofs.Report.Colours
import CoChange.Proofs.Report.Leaves
import CoChange.Proofs.Report.Saved
import CoChange.Proofs.Run.Chunked
import CoChange.Proofs.Run.Complete
import CoChange.Proofs.Run.RepeatedMerges
import CoChange.Proofs.Run.ShardFailure
import CoChange.Proofs.Selector.Condition
import CoChange.Proofs.Selector.Extraction
import CoChange.Proofs.Selector.Grammar
import CoChange.Proofs.Selector.Parser
import CoChange.Proofs.Selector.Selection
import CoChange.Proofs.Selector.Split
import CoChange.Proofs.Settings.Flattening
import CoChange.Proofs.Settings.Lookup
import CoChange.Proofs.Settings.Precedence
import CoChange.Proofs.Settings.Resuming
import CoChange.Proofs.Sharding
import CoChange.Proofs.SortedMap
import CoChange.Proofs.SortedMap.Sum
import CoChange.Proofs.Text
import CoChange.Proofs.Text.Joined
import CoChange.Proofs.Text.Trim
import CoChange.Proofs.Timestamp
import CoChange.Proofs.Toml.Document
import CoChange.Proofs.Tree.Address
import CoChange.Proofs.Tree.Extent
import CoChange.Proofs.Yaml.BlockText
import CoChange.Proofs.Yaml.Lexer
import CoChange.Proofs.Yaml.NodeReader
import CoChange.Proofs.Yaml.NumberText
import CoChange.Proofs.Yaml.PlainText
import CoChange.Proofs.Yaml.QuotedText
import CoChange.Proofs.Yaml.Reader
import CoChange.Proofs.Yaml.Scalar
import CoChange.Proofs.Yaml.ScalarTokens
import CoChange.Proofs.Yaml.Structure
import CoChange.Proofs.Yaml.WrittenText
import CoChange.RawReport
import CoChange.RawReport.Json
import CoChange.Registry.Basic
import CoChange.Report.Document
import CoChange.Report.Generic
import CoChange.Report.Saved
import CoChange.Report.Style
import CoChange.Report.Table
import CoChange.Report.Text
import CoChange.Repository.Basic
import CoChange.Repository.Commits
import CoChange.Repository.Content
import CoChange.Repository.Delta
import CoChange.Repository.Order
import CoChange.Repository.Rename
import CoChange.Repository.Similarity
import CoChange.Run.Basic
import CoChange.Run.Chunked
import CoChange.Run.Sharded
import CoChange.Selector.Basic
import CoChange.Selector.Parser
import CoChange.Selector.Split
import CoChange.Settings.Basic
import CoChange.Settings.Toml
import CoChange.Setup
import CoChange.SortedMap.Basic
import CoChange.Source.Bracket
import CoChange.Source.DeclarationOutline
import CoChange.Source.IndentOutline
import CoChange.Source.ItemOutline
import CoChange.Source.Language
import CoChange.Source.Outline
import CoChange.Source.Reader
import CoChange.Text.Blank
import CoChange.Text.Case
import CoChange.Text.Lines
import CoChange.Text.Number
import CoChange.Text.Utf8
import CoChange.Text.Width
import CoChange.Timestamp
import CoChange.Toml.Basic
import CoChange.Toml.Building
import CoChange.Toml.Datetime
import CoChange.Toml.Parser
import CoChange.Toml.Printer
import CoChange.Tree.Basic
import CoChange.Tree.Json
import CoChange.Yaml.Basic
import CoChange.Yaml.Character
import CoChange.Yaml.Fault
import CoChange.Yaml.Node
import CoChange.Yaml.Printer
import CoChange.Yaml.Reader
import CoChange.Yaml.Scalar
import CoChange.Yaml.ScalarText
import CoChange.Yaml.Token
