import ImportAtlas.Data.Dict
import ImportAtlas.Text.Ranges
import ImportAtlas.Text.Digit
import ImportAtlas.Text.Printable
import ImportAtlas.Text.Blank
import ImportAtlas.Text.Literal
import ImportAtlas.Number.Shortest
import ImportAtlas.Text.Utf8
import ImportAtlas.Data.Value
import ImportAtlas.Json.Parser
import ImportAtlas.Json.Printer
import ImportAtlas.Path
import ImportAtlas.FileTree
import ImportAtlas.Url.Authority
import ImportAtlas.Url.Parts
import ImportAtlas.Url.Join
import ImportAtlas.Url.File
import ImportAtlas.Source.Chars
import ImportAtlas.Source.Lexeme
import ImportAtlas.Source.Cursor
import ImportAtlas.Source.Record
import ImportAtlas.Source.Import
import ImportAtlas.Source.Export
import ImportAtlas.Source.Progress
import ImportAtlas.Source.Scan
import ImportAtlas.Package.Id
import ImportAtlas.Package.Builtin
import ImportAtlas.Error
import ImportAtlas.Environment
import ImportAtlas.Package.Manifest
import ImportAtlas.Data.Digraph
import ImportAtlas.Package.Graph
import ImportAtlas.Toml.Scalar
import ImportAtlas.Toml.Table
import ImportAtlas.Toml.Parser
import ImportAtlas.Settings
import ImportAtlas.Package.Installation
import ImportAtlas.Package.Reader
import ImportAtlas.ImportMap.Basic
import ImportAtlas.ImportMap.Target
import ImportAtlas.ImportMap.Match
import ImportAtlas.ImportMap.Clean
import ImportAtlas.ImportMap.Rebase
import ImportAtlas.ImportMap.Flatten
import ImportAtlas.ImportMap.Document
import ImportAtlas.Resolver.Reference
import ImportAtlas.Resolver.Basic
import ImportAtlas.Trace.Run
import ImportAtlas.Project.Basic
import ImportAtlas.Project.Meaning
import ImportAtlas.Project.Build
import ImportAtlas.Trace.Graph
import ImportAtlas.Trace.Document
import ImportAtlas.CommandLine.Arguments
import ImportAtlas.CommandLine.Request
import ImportAtlas.CommandLine.Perform
import ImportAtlas.Main
import ImportAtlas.Proofs.Dict
import ImportAtlas.Proofs.Outcomes
import ImportAtlas.Proofs.Match
import ImportAtlas.Proofs.Redundancy
import ImportAtlas.Proofs.Choice
import ImportAtlas.Proofs.Resolve
import ImportAtlas.Proofs.Preservation
import ImportAtlas.Proofs.Cleaning
import ImportAtlas.Proofs.Tracing
import ImportAtlas.Proofs.Replay
import ImportAtlas.Proofs.Usage
import ImportAtlas.Proofs.Sufficiency
import ImportAtlas.Proofs.Filtering
import ImportAtlas.Proofs.Calls
import ImportAtlas.Proofs.Reading
import ImportAtlas.Proofs.Draft
import ImportAtlas.Proofs.Schedule
import ImportAtlas.Proofs.Simulation
import ImportAtlas.Proofs.Paths
import ImportAtlas.Proofs.Reordering
import ImportAtlas.Proofs.Writers
import ImportAtlas.Proofs.WellNamed
import ImportAtlas.Proofs.Surroundings
import ImportAtlas.Proofs.FolderUrls
import ImportAtlas.Proofs.Visibility
import ImportAtlas.Proofs.Productions
import ImportAtlas.Proofs.Lexemes
import ImportAtlas.Proofs.ImportStatements
import ImportAtlas.Proofs.ExportStatements
import ImportAtlas.Proofs.Additions
import ImportAtlas.Proofs.Exactness
import ImportAtlas.Proofs.Reachability
import ImportAtlas.Proofs.Concurrency
import ImportAtlas.Proofs.Rounds
import ImportAtlas.Proofs.Liveness
import ImportAtlas.Proofs.Turns
import ImportAtlas.Proofs.Lockstep
import ImportAtlas.Proofs.TraceSchedules
import ImportAtlas.Proofs.Decoding
import ImportAtlas.Proofs.FileParts
import ImportAtlas.Proofs.References
import ImportAtlas.Proofs.FiniteProjects
import ImportAtlas.Proofs.Termination
import ImportAtlas.Proofs.Recleaning
import ImportAtlas.Proofs.Requirements
import ImportAtlas.Proofs.Availability
import ImportAtlas.Proofs.Visits
import ImportAtlas.Proofs.Escaping
import ImportAtlas.Proofs.Places
import ImportAtlas.Proofs.Moving
import ImportAtlas.Proofs.Respelling
import ImportAtlas.Proofs.Rewriting
import ImportAtlas.Proofs.Rebasing
import ImportAtlas.Proofs.Weight
import ImportAtlas.Proofs.Targets
import ImportAtlas.Proofs.Locations
import ImportAtlas.Proofs.InstalledFiles
import ImportAtlas.Proofs.JsonText
import ImportAtlas.Proofs.Documents
import ImportAtlas.Proofs.Products
import ImportAtlas.Proofs.Flattening
import ImportAtlas.Proofs.Viewpoint
import ImportAtlas.Proofs.TidyProjects
import ImportAtlas.Proofs.Mirroring
import ImportAtlas.Proofs.Judgements
import ImportAtlas.Proofs.Detours
import ImportAtlas.Proofs.Bases
import ImportAtlas.Proofs.MapBase
import ImportAtlas.Proofs.Inquiries
import ImportAtlas.Proofs.Production
import ImportAtlas.Proofs.DeclaredExports
import ImportAtlas.Proofs.ExitCodes
import ImportAtlas.Proofs.Slashes
import ImportAtlas.Proofs.Arguments
import ImportAtlas.Proofs.LeadingTrivia
import ImportAtlas.Proofs.Templates
import ImportAtlas.Proofs.Rearranging
import ImportAtlas.Proofs.NamedParts
import ImportAtlas.Proofs.MeantParts
import ImportAtlas.Proofs.Indices
import ImportAtlas.Proofs.IndexedLexemes
import ImportAtlas.Proofs.IndexedStatements
import ImportAtlas.Proofs.IndexedScan
import ImportAtlas.Proofs.Conflicts
import ImportAtlas.Proofs.RoundTrips
import ImportAtlas.Proofs.RootedMaps
import ImportAtlas.Proofs.Extending
import ImportAtlas.Proofs.NormalForms
import ImportAtlas.Proofs.Isolation
import ImportAtlas.Proofs.Identifiers
import ImportAtlas.Proofs.ModuleGraphs
import ImportAtlas.Proofs.BackwardSearch
import ImportAtlas.Proofs.AliasKeys
