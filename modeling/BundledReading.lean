import BundledReading.Buffer
import BundledReading.Bytes
import BundledReading.Coder.Basic
import BundledReading.Coder.Catalogue
import BundledReading.Coder.Compact
import BundledReading.Coder.Plain
import BundledReading.Coder.Varint
import BundledReading.CommandLine.Arguments
import BundledReading.CommandLine.Log
import BundledReading.CommandLine.Program
import BundledReading.Config.Document
import BundledReading.Config.Environment
import BundledReading.Config.Error
import BundledReading.Config.Json
import BundledReading.Config.Json.Fault
import BundledReading.Config.Load
import BundledReading.Config.Path
import BundledReading.Config.Setting
import BundledReading.Config.Strict
import BundledReading.Config.Toml.Document
import BundledReading.Config.Toml.Moment
import BundledReading.Config.Toml.Number
import BundledReading.Config.Toml.Table
import BundledReading.Config.Toml.Text
import BundledReading.Config.Typed
import BundledReading.Contract.Checks
import BundledReading.Contract.Model
import BundledReading.Contract.Reading
import BundledReading.Element
import BundledReading.Executor.Schedule
import BundledReading.Executor.State
import BundledReading.Executor.Step
import BundledReading.Failure
import BundledReading.Main
import BundledReading.Numeric.Binary64
import BundledReading.Numeric.Notation
import BundledReading.Numeric.Reading
import BundledReading.Numeric.Shortest
import BundledReading.Options
import BundledReading.Proofs.BundleReading
import BundledReading.Proofs.BundleShape
import BundledReading.Proofs.CanonicalCodes
import BundledReading.Proofs.CheckedCalls
import BundledReading.Proofs.CommandLine.ArgumentLists
import BundledReading.Proofs.CommandLine.Echo
import BundledReading.Proofs.CommandLine.Lines
import BundledReading.Proofs.CommandLine.Outcomes
import BundledReading.Proofs.CompactLayout
import BundledReading.Proofs.Config.Conversions
import BundledReading.Proofs.Config.DistinctKeys
import BundledReading.Proofs.Config.ExactOptions
import BundledReading.Proofs.Config.FieldByField
import BundledReading.Proofs.Config.FoundFiles
import BundledReading.Proofs.Config.Json.Tokens
import BundledReading.Proofs.Config.Json.Values
import BundledReading.Proofs.Config.KeyPaths
import BundledReading.Proofs.Config.Layers
import BundledReading.Proofs.Config.OrderedLabels
import BundledReading.Proofs.Config.Toml.PlainLines
import BundledReading.Proofs.Config.Toml.PlainValues
import BundledReading.Proofs.Config.Variables
import BundledReading.Proofs.Construction
import BundledReading.Proofs.Contract.Compliance
import BundledReading.Proofs.Contract.InMemory
import BundledReading.Proofs.Contract.Instalments
import BundledReading.Proofs.Contract.Readings
import BundledReading.Proofs.Contract.Soundness
import BundledReading.Proofs.Division
import BundledReading.Proofs.Elements
import BundledReading.Proofs.ErasedTables
import BundledReading.Proofs.ExactlyOnce
import BundledReading.Proofs.Executor.Abort
import BundledReading.Proofs.Executor.CheckedRuns
import BundledReading.Proofs.Executor.FixedSchedule
import BundledReading.Proofs.Executor.Invariant
import BundledReading.Proofs.Executor.MainLoop
import BundledReading.Proofs.Executor.Outcome
import BundledReading.Proofs.Executor.Rebalancing
import BundledReading.Proofs.Executor.Refinement
import BundledReading.Proofs.Executor.Shares
import BundledReading.Proofs.Executor.StaticRuns
import BundledReading.Proofs.Executor.Tasks
import BundledReading.Proofs.Executor.Transitions
import BundledReading.Proofs.NearestNumbers
import BundledReading.Proofs.NumberTexts
import BundledReading.Proofs.QuotientOrder
import BundledReading.Proofs.ReaderCalls
import BundledReading.Proofs.ReaderProgress
import BundledReading.Proofs.ReaderSteps
import BundledReading.Proofs.RegistryHistories
import BundledReading.Proofs.RoundTrips
import BundledReading.Proofs.Rounding
import BundledReading.Proofs.SelfDelimiting
import BundledReading.Proofs.SessionSplits
import BundledReading.Proofs.ShortestDecimals
import BundledReading.Proofs.SizeEstimates
import BundledReading.Proofs.StaticSplits
import BundledReading.Proofs.Tiling
import BundledReading.Proofs.Utf8Forms
import BundledReading.Proofs.Utf8Grammar
import BundledReading.Proofs.VarintGrammar
import BundledReading.Proofs.WholeReading
import BundledReading.Proofs.WrittenNumbers
import BundledReading.Reader
import BundledReading.Registry
import BundledReading.Session
import BundledReading.Source
import BundledReading.Text.Cased
import BundledReading.Text.CodeRanges
import BundledReading.Text.LowerCase
import BundledReading.Text.Printable
import BundledReading.Text.Quoted
import BundledReading.Text.Utf8
