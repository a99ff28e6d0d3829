import CodeAtlas.Bytes
import CodeAtlas.Bytes.Cursor
import CodeAtlas.CommandLine.Arguments
import CodeAtlas.CommandLine.Fault
import CodeAtlas.CommandLine.Help
import CodeAtlas.CommandLine.LogChannel
import CodeAtlas.CommandLine.Registry
import CodeAtlas.CommandLine.Report
import CodeAtlas.CommandLine.Settings
import CodeAtlas.CommandLine.Value
import CodeAtlas.Container.Basic
import CodeAtlas.Container.Fault
import CodeAtlas.Container.Stream
import CodeAtlas.Database.AddressMap
import CodeAtlas.Database.Basic
import CodeAtlas.Database.Fault
import CodeAtlas.Database.Frames
import CodeAtlas.Database.FunctionTable
import CodeAtlas.Database.Info
import CodeAtlas.Database.InlineRange
import CodeAtlas.Database.InlineStep
import CodeAtlas.Database.LineTable
import CodeAtlas.Database.ModuleList
import CodeAtlas.Database.ModuleRecords
import CodeAtlas.Database.Record
import CodeAtlas.Database.Strings
import CodeAtlas.Database.Symbols
import CodeAtlas.Database.Types
import CodeAtlas.DebugId
import CodeAtlas.Failure
import CodeAtlas.Files.FileSystem
import CodeAtlas.Files.Machine
import CodeAtlas.Files.Path
import CodeAtlas.Files.Tree
import CodeAtlas.Image.Basic
import CodeAtlas.Image.Export
import CodeAtlas.Image.Fault
import CodeAtlas.Image.Identity
import CodeAtlas.Image.Location
import CodeAtlas.Image.Section
import CodeAtlas.Image.SymbolRecord
import CodeAtlas.Image.Symbols
import CodeAtlas.Image.Unwind
import CodeAtlas.Lookup.Address
import CodeAtlas.Lookup.AddressText
import CodeAtlas.Lookup.Answer
import CodeAtlas.Lookup.AnswerText
import CodeAtlas.Lookup.Bisection
import CodeAtlas.Lookup.FileKind
import CodeAtlas.Lookup.Session
import CodeAtlas.Lookup.Sorting
import CodeAtlas.Lookup.Sorting.Partition
import CodeAtlas.Lookup.SymbolMap
import CodeAtlas.Lookup.SymbolSource
import CodeAtlas.Main
import CodeAtlas.Mangled
import CodeAtlas.Mangled.Decorated
import CodeAtlas.Permalink
import CodeAtlas.Permalink.Memo
import CodeAtlas.Permalink.Toolchain
import CodeAtlas.Permalink.Url
import CodeAtlas.Proofs.Bytes.Encoding
import CodeAtlas.Proofs.Bytes.Holds
import CodeAtlas.Proofs.Bytes.Overrun
import CodeAtlas.Proofs.Bytes.Reading
import CodeAtlas.Proofs.Bytes.RequestWords
import CodeAtlas.Proofs.Bytes.Requests
import CodeAtlas.Proofs.Bytes.Slice
import CodeAtlas.Proofs.CommandLine.Passes
import CodeAtlas.Proofs.CommandLine.Positions
import CodeAtlas.Proofs.CommandLine.Rounds
import CodeAtlas.Proofs.CommandLine.Spellings
import CodeAtlas.Proofs.Container.BlockReading
import CodeAtlas.Proofs.Container.Content
import CodeAtlas.Proofs.Container.Directory
import CodeAtlas.Proofs.Container.DirectoryReading
import CodeAtlas.Proofs.Container.Placement
import CodeAtlas.Proofs.Container.Stitching
import CodeAtlas.Proofs.Container.Stored
import CodeAtlas.Proofs.Container.StoredStream
import CodeAtlas.Proofs.Container.WellFormed
import CodeAtlas.Proofs.Container.Writing
import CodeAtlas.Proofs.Database.FunctionIndex
import CodeAtlas.Proofs.Database.FunctionRecords
import CodeAtlas.Proofs.Database.FunctionSymbols
import CodeAtlas.Proofs.Database.HiddenLines
import CodeAtlas.Proofs.Database.History
import CodeAtlas.Proofs.Database.InlineFrames
import CodeAtlas.Proofs.Database.InlineeNames
import CodeAtlas.Proofs.Database.InternedPaths
import CodeAtlas.Proofs.Database.LayoutIndependence
import CodeAtlas.Proofs.Database.LineBlocks
import CodeAtlas.Proofs.Database.LineEncoding
import CodeAtlas.Proofs.Database.LineInformation
import CodeAtlas.Proofs.Database.Lookup
import CodeAtlas.Proofs.Database.ModuleEncoding
import CodeAtlas.Proofs.Database.ModuleSubstreams
import CodeAtlas.Proofs.Database.MovedAddresses
import CodeAtlas.Proofs.Database.NameMap
import CodeAtlas.Proofs.Database.NamedStreams
import CodeAtlas.Proofs.Database.Nesting
import CodeAtlas.Proofs.Database.NumberForms
import CodeAtlas.Proofs.Database.PathNumbers
import CodeAtlas.Proofs.Database.ProcedureRecords
import CodeAtlas.Proofs.Database.PublicLimits
import CodeAtlas.Proofs.Database.RangeOrder
import CodeAtlas.Proofs.Database.RecordEncoding
import CodeAtlas.Proofs.Database.SameStreams
import CodeAtlas.Proofs.Database.ScopeForest
import CodeAtlas.Proofs.Database.ScopeSymbols
import CodeAtlas.Proofs.Database.SpanOrder
import CodeAtlas.Proofs.Database.StepEncoding
import CodeAtlas.Proofs.Database.StoredModuleList
import CodeAtlas.Proofs.Database.StoredProgram
import CodeAtlas.Proofs.Database.TypeEncoding
import CodeAtlas.Proofs.Database.TypeNames
import CodeAtlas.Proofs.DebugId.Spelling
import CodeAtlas.Proofs.Files.SearchOrder
import CodeAtlas.Proofs.Image.AddressKinds
import CodeAtlas.Proofs.Image.CompanionRecord
import CodeAtlas.Proofs.Image.ExportTable
import CodeAtlas.Proofs.Image.FunctionExtents
import CodeAtlas.Proofs.Image.FunctionList
import CodeAtlas.Proofs.Image.InferredStops
import CodeAtlas.Proofs.Image.Lookup
import CodeAtlas.Proofs.Image.ObjectSymbols
import CodeAtlas.Proofs.Image.SectionSpans
import CodeAtlas.Proofs.Image.StoredData
import CodeAtlas.Proofs.Image.UnwindChain
import CodeAtlas.Proofs.Image.UnwindLink
import CodeAtlas.Proofs.Lookup.AddressText
import CodeAtlas.Proofs.Lookup.Closest
import CodeAtlas.Proofs.Lookup.Companion
import CodeAtlas.Proofs.Lookup.ExternalFiles
import CodeAtlas.Proofs.Lookup.LastGreatest
import CodeAtlas.Proofs.Lookup.Opened
import CodeAtlas.Proofs.Lookup.OpenedOnce
import CodeAtlas.Proofs.Lookup.Ordered
import CodeAtlas.Proofs.Mangled.DecoratedNames
import CodeAtlas.Proofs.Outcome
import CodeAtlas.Proofs.Permalink.AskedOnce
import CodeAtlas.Proofs.Permalink.Forms
import CodeAtlas.Proofs.Permalink.Gitiles
import CodeAtlas.Proofs.Permalink.Memo
import CodeAtlas.Proofs.Permalink.Toolchain
import CodeAtlas.Proofs.Permalink.Url
import CodeAtlas.Proofs.SourceServer.AllowList
import CodeAtlas.Proofs.SourceServer.Composition
import CodeAtlas.Proofs.SourceServer.Depth
import CodeAtlas.Proofs.SourceServer.Directory
import CodeAtlas.Proofs.SourceServer.Grammar
import CodeAtlas.Proofs.SourceServer.Headings
import CodeAtlas.Proofs.SourceServer.Retrieval
import CodeAtlas.Proofs.Text.Delimiters
import CodeAtlas.Proofs.Text.LineScan
import CodeAtlas.Proofs.Text.Numeral
import CodeAtlas.Proofs.Text.Pieces
import CodeAtlas.Proofs.Text.Utf8
import CodeAtlas.Proofs.Text.Wrapping
import CodeAtlas.SourceServer.Expression
import CodeAtlas.SourceServer.Fault
import CodeAtlas.SourceServer.Index
import CodeAtlas.SourceServer.Permalinks
import CodeAtlas.Text
import CodeAtlas.Text.Fields
import CodeAtlas.Text.Numeral
import CodeAtlas.Text.Utf8
import CodeAtlas.Text.Wrapping
