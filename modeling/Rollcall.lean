import Rollcall.Admission.Gate
import Rollcall.Admission.Quota
import Rollcall.Admission.Refresh
import Rollcall.Admission.Table
import Rollcall.Admission.Whitelist
import Rollcall.Analysis.Identity
import Rollcall.Analysis.Period
import Rollcall.Analysis.Report
import Rollcall.Analysis.Run
import Rollcall.Analysis.Source
import Rollcall.Analysis.Timeline
import Rollcall.Analysis.Uptime
import Rollcall.Command.Line
import Rollcall.Command.Run
import Rollcall.Command.Usage
import Rollcall.Config.Analyzer
import Rollcall.Config.Basic
import Rollcall.Config.Layers
import Rollcall.Config.Path
import Rollcall.Config.Service
import Rollcall.Config.Setting
import Rollcall.Digest
import Rollcall.FileTree
import Rollcall.Json.Number
import Rollcall.Json.Reader
import Rollcall.Json.Shape
import Rollcall.Json.Skip
import Rollcall.Json.Text
import Rollcall.Ledger
import Rollcall.Main
import Rollcall.Net.SocketAddress
import Rollcall.Number.Binary64
import Rollcall.Number.DecimalText
import Rollcall.Number.Fixed
import Rollcall.Number.Power
import Rollcall.Proofs.Admission.BlankLines
import Rollcall.Proofs.Admission.Covers
import Rollcall.Proofs.Admission.Gate
import Rollcall.Proofs.Admission.Prune
import Rollcall.Proofs.Admission.Quota
import Rollcall.Proofs.Admission.Refresh
import Rollcall.Proofs.Admission.Separation
import Rollcall.Proofs.Admission.Table
import Rollcall.Proofs.Admission.Whitelist
import Rollcall.Proofs.Analysis.Cadence
import Rollcall.Proofs.Analysis.Days
import Rollcall.Proofs.Analysis.Identity
import Rollcall.Proofs.Analysis.NetworkName
import Rollcall.Proofs.Analysis.Period
import Rollcall.Proofs.Analysis.Prefix
import Rollcall.Proofs.Analysis.Repeats
import Rollcall.Proofs.Analysis.Report
import Rollcall.Proofs.Analysis.Rows
import Rollcall.Proofs.Analysis.Source
import Rollcall.Proofs.Analysis.Timeline
import Rollcall.Proofs.Analysis.Uptime
import Rollcall.Proofs.Analysis.Window
import Rollcall.Proofs.Config.Analyzer
import Rollcall.Proofs.Json.Number
import Rollcall.Proofs.Json.Shape
import Rollcall.Proofs.Json.Text
import Rollcall.Proofs.Ledger
import Rollcall.Proofs.List
import Rollcall.Proofs.Number.Binary64
import Rollcall.Proofs.Retry
import Rollcall.Proofs.Retry.Schedule
import Rollcall.Proofs.Schema.Carried
import Rollcall.Proofs.Schema.History
import Rollcall.Proofs.Schema.Lock
import Rollcall.Proofs.Schema.Outage
import Rollcall.Proofs.Schema.Pairing
import Rollcall.Proofs.Schema.RoundTrip
import Rollcall.Proofs.Schema.Run
import Rollcall.Proofs.Schema.Script
import Rollcall.Proofs.Schema.Stage
import Rollcall.Proofs.Schema.StrayRow
import Rollcall.Proofs.Service.Metrics
import Rollcall.Proofs.Service.Whitelist
import Rollcall.Proofs.Storage.Backend
import Rollcall.Proofs.Storage.Bucket
import Rollcall.Proofs.Storage.Confinement
import Rollcall.Proofs.Storage.Directory
import Rollcall.Proofs.Storage.DroppedTables
import Rollcall.Proofs.Storage.Filing
import Rollcall.Proofs.Storage.Folder
import Rollcall.Proofs.Storage.Key
import Rollcall.Proofs.Storage.Puts
import Rollcall.Proofs.Storage.ReadBack
import Rollcall.Proofs.Storage.Refusal
import Rollcall.Proofs.Storage.Resave
import Rollcall.Proofs.Storage.SeparateBlocks
import Rollcall.Proofs.Storage.Tree
import Rollcall.Proofs.Storage.UniqueRow
import Rollcall.Proofs.Storage.WideRow
import Rollcall.Proofs.Submission.Assembly
import Rollcall.Proofs.Submission.Block
import Rollcall.Proofs.Submission.Body
import Rollcall.Proofs.Submission.Key
import Rollcall.Proofs.Submission.Path
import Rollcall.Proofs.Submission.Request
import Rollcall.Proofs.Submission.Submitter
import Rollcall.Proofs.Text.Base64
import Rollcall.Proofs.Text.Blank
import Rollcall.Proofs.Text.Decimal
import Rollcall.Proofs.Text.Hex
import Rollcall.Proofs.Text.Octets
import Rollcall.Proofs.Text.Split
import Rollcall.Proofs.Time.Calendar
import Rollcall.Proofs.Time.Clock
import Rollcall.Proofs.Time.Field
import Rollcall.Proofs.Time.Instant
import Rollcall.Proofs.Time.Rfc3339
import Rollcall.Proofs.Time.Stamp
import Rollcall.Retry
import Rollcall.Retry.Rehearsal
import Rollcall.Schema.Bundled
import Rollcall.Schema.Migration
import Rollcall.Schema.Migrator
import Rollcall.Schema.Script
import Rollcall.Schema.Statement
import Rollcall.Service.Basic
import Rollcall.Service.Metrics
import Rollcall.Storage.Backend
import Rollcall.Storage.Connection
import Rollcall.Storage.Database
import Rollcall.Storage.Error
import Rollcall.Storage.Folder
import Rollcall.Storage.Key
import Rollcall.Storage.ObjectStore
import Rollcall.Storage.Tables
import Rollcall.Submission.Assembly
import Rollcall.Submission.Basic
import Rollcall.Submission.Body
import Rollcall.Submission.Path
import Rollcall.Submission.Request
import Rollcall.Text.Base64
import Rollcall.Text.Blank
import Rollcall.Text.Decimal
import Rollcall.Text.Hex
import Rollcall.Text.Split
import Rollcall.Time.Calendar
import Rollcall.Time.Field
import Rollcall.Time.Instant
import Rollcall.Time.Rfc3339
import Rollcall.Time.Span
import Rollcall.Time.SpanText
import Rollcall.Toml.Document
import Rollcall.Toml.Moment
import Rollcall.Toml.Number
import Rollcall.Toml.Parser
import Rollcall.Toml.Text
import Rollcall.Toml.Value
