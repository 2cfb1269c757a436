import Treeshake.Assembly
import Treeshake.Bundle
import Treeshake.Command.Flag
import Treeshake.Command.Request
import Treeshake.Command.Run
import Treeshake.Config
import Treeshake.Draft.Basic
import Treeshake.Draft.Fault
import Treeshake.Draft.Indent
import Treeshake.Draft.Map
import Treeshake.Error
import Treeshake.Fetch.Glob
import Treeshake.Fetch.Graph
import Treeshake.Fetch.Package
import Treeshake.Fetch.Pipeline
import Treeshake.Fetch.Storage
import Treeshake.Graph.Basic
import Treeshake.Graph.Bind
import Treeshake.Graph.Declaration
import Treeshake.Graph.Liveness
import Treeshake.Graph.Names
import Treeshake.Graph.Order
import Treeshake.Graph.Render
import Treeshake.Graph.Trace
import Treeshake.Json.Basic
import Treeshake.Json.Reader
import Treeshake.Location
import Treeshake.Module.Basic
import Treeshake.Module.External
import Treeshake.Module.Split
import Treeshake.Module.Statement
import Treeshake.Output.Exports
import Treeshake.Output.Options
import Treeshake.Output.Wrapper
import Treeshake.Path
import Treeshake.Report
import Treeshake.Scope.Analysis
import Treeshake.Scope.Forest
import Treeshake.SourceMap.Basic
import Treeshake.SourceMap.Collapse
import Treeshake.SourceMap.Fault
import Treeshake.SourceMap.Mappings
import Treeshake.SourceMap.Text
import Treeshake.SourceMap.Vlq
import Treeshake.Syntax.Node
import Treeshake.Syntax.Reader
import Treeshake.Table
import Treeshake.Text.Base64
import Treeshake.Text.Blank
import Treeshake.Text.Identifier
import Treeshake.Text.Indentation
import Treeshake.Text.Offset
import Treeshake.Text.Width
import Treeshake.Toml.Basic
import Treeshake.Toml.Printer
import Treeshake.Toml.Reader
import Treeshake.Toml.Scalar
import Treeshake.Main
import Treeshake.Proofs.Text.Pieces
import Treeshake.Proofs.Path.Simplified
import Treeshake.Proofs.Path.Rooted
import Treeshake.Proofs.Path.Relative
import Treeshake.Proofs.Draft.Cells
import Treeshake.Proofs.Draft.Edits
import Treeshake.Proofs.Draft.Places
import Treeshake.Proofs.SourceMap.Vlq
import Treeshake.Proofs.SourceMap.Groups
import Treeshake.Proofs.Assembly.Layout
import Treeshake.Proofs.Draft.Map
import Treeshake.Proofs.SourceMap.Mappings
import Treeshake.Proofs.SourceMap.Sums
import Treeshake.Proofs.Assembly.Changes
import Treeshake.Proofs.Assembly.Map
import Treeshake.Proofs.Graph.Build
import Treeshake.Proofs.Graph.Growth
import Treeshake.Proofs.Graph.Trace
import Treeshake.Proofs.Graph.Meaning
import Treeshake.Proofs.Graph.Bind
import Treeshake.Proofs.Graph.Linked
import Treeshake.Proofs.Graph.Marking
import Treeshake.Proofs.Graph.Effects
import Treeshake.Proofs.Graph.Scan
import Treeshake.Proofs.Graph.Liveness
import Treeshake.Proofs.Graph.Observed
import Treeshake.Proofs.Fetch.Graph
import Treeshake.Proofs.Graph.Reorder
import Treeshake.Proofs.Graph.Order
import Treeshake.Proofs.Graph.Undisturbed
import Treeshake.Proofs.Fetch.Tasks
import Treeshake.Proofs.Fetch.Canonical
import Treeshake.Proofs.Renumber.Graph
import Treeshake.Proofs.Renumber.Bind
import Treeshake.Proofs.Renumber.Mark
import Treeshake.Proofs.Renumber.Names
import Treeshake.Proofs.Renumber.Output
import Treeshake.Proofs.Fetch.Arrival
import Treeshake.Proofs.Fetch.Independence
import Treeshake.Proofs.Scope.Displace
import Treeshake.Proofs.Graph.Resolve
import Treeshake.Proofs.Graph.Built
import Treeshake.Proofs.Graph.Capture
import Treeshake.Proofs.Graph.Shown
import Treeshake.Proofs.SourceMap.Collapse
import Treeshake.Proofs.Graph.Registers
import Treeshake.Proofs.Graph.Distinct
import Treeshake.Proofs.Graph.Fuel
import Treeshake.Proofs.Graph.Circles
import Treeshake.Proofs.Draft.Hires
import Treeshake.Proofs.Fetch.Texts
import Treeshake.Proofs.Graph.Rendered
import Treeshake.Proofs.Bundle.Sources
import Treeshake.Proofs.Bundle.Origins
import Treeshake.Proofs.Graph.Exports
import Treeshake.Proofs.Graph.Missing
import Treeshake.Proofs.Graph.Members
import Treeshake.Proofs.Draft.Stretch
import Treeshake.Proofs.Graph.Contribution
import Treeshake.Proofs.Graph.Local
import Treeshake.Proofs.Graph.Written
import Treeshake.Proofs.Fetch.Proper
import Treeshake.Proofs.Bundle.Accepted
import Treeshake.Proofs.Bundle.Literals
import Treeshake.Proofs.Draft.Commute
import Treeshake.Proofs.Draft.Untouched
import Treeshake.Proofs.Draft.Snipped
import Treeshake.Proofs.Text.Identifier
import Treeshake.Proofs.Module.Tiling
import Treeshake.Proofs.Scope.Apart
import Treeshake.Proofs.Fetch.Numbering
import Treeshake.Proofs.Assembly.Indented
import Treeshake.Proofs.Graph.Called
import Treeshake.Proofs.Graph.Legal
import Treeshake.Proofs.Graph.Outside
import Treeshake.Proofs.Graph.Search
import Treeshake.Proofs.Graph.Precedence
import Treeshake.Proofs.Graph.Enumerated
import Treeshake.Proofs.Module.Exports
import Treeshake.Proofs.Graph.Mode
import Treeshake.Proofs.Scope.Stations
import Treeshake.Proofs.Scope.Blocks
import Treeshake.Proofs.Bundle.Wiring
import Treeshake.Proofs.Scope.Lookup
import Treeshake.Proofs.Fetch.Package
import Treeshake.Proofs.Graph.Chains
import Treeshake.Proofs.Graph.Closure
import Treeshake.Proofs.Draft.Indented
import Treeshake.Proofs.Module.Suggested
import Treeshake.Proofs.Scope.Declared
import Treeshake.Proofs.Graph.Declared
