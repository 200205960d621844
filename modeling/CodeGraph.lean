import CodeGraph.Analyzer
import CodeGraph.Catalog
import CodeGraph.Centrality.Betweenness
import CodeGraph.Centrality.Degree
import CodeGraph.Centrality.PageRank
import CodeGraph.Centrality.Statistics
import CodeGraph.Community
import CodeGraph.Community.Louvain
import CodeGraph.Community.Modularity
import CodeGraph.Community.Network
import CodeGraph.Community.Propagation
import CodeGraph.Component
import CodeGraph.Config
import CodeGraph.Config.Expansion
import CodeGraph.Config.Loading
import CodeGraph.Config.Merge
import CodeGraph.Config.Template
import CodeGraph.Config.Validation
import CodeGraph.Cost
import CodeGraph.Decimal.Binary
import CodeGraph.Decimal.Figures
import CodeGraph.Decimal.Reader
import CodeGraph.Decimal.Rounding
import CodeGraph.Decimal.Shortest
import CodeGraph.Decimal.Written
import CodeGraph.Failure
import CodeGraph.Files
import CodeGraph.Format.Fault
import CodeGraph.Format.Json
import CodeGraph.Format.Timestamp
import CodeGraph.Format.Toml
import CodeGraph.Format.Toml.Scalar
import CodeGraph.Format.Toml.Table
import CodeGraph.Format.Yaml
import CodeGraph.Format.Yaml.Cursor
import CodeGraph.Format.Yaml.Lexer
import CodeGraph.Format.Yaml.Node
import CodeGraph.Format.Yaml.Scalar
import CodeGraph.Format.Yaml.Timestamp
import CodeGraph.Format.Yaml.Token
import CodeGraph.Graph
import CodeGraph.Graph.Index
import CodeGraph.Graph.Query
import CodeGraph.Graph.Reader
import CodeGraph.Impact
import CodeGraph.Journal
import CodeGraph.Journal.Clock
import CodeGraph.Journal.Layout
import CodeGraph.Journal.Message
import CodeGraph.Journal.Session
import CodeGraph.Path.Budget
import CodeGraph.Path.Critical
import CodeGraph.Path.Search
import CodeGraph.Path.Shortest
import CodeGraph.Proofs.Centrality.Betweenness
import CodeGraph.Proofs.Centrality.Dependency
import CodeGraph.Proofs.Centrality.ShortestPaths
import CodeGraph.Proofs.Component
import CodeGraph.Proofs.Path.ByCost
import CodeGraph.Proofs.Path.ByHops
import CodeGraph.Proofs.Path.Problem
import CodeGraph.Proofs.Path.Shortest
import CodeGraph.Proofs.Snapshot
import CodeGraph.Proofs.Traversal
import CodeGraph.Runs
import CodeGraph.Scalar
import CodeGraph.Smell
import CodeGraph.Smell.Cycle
import CodeGraph.Smell.Detection
import CodeGraph.Smell.GodObject
import CodeGraph.Smell.Metrics
import CodeGraph.Smell.Shotgun
import CodeGraph.Smell.Thresholds
import CodeGraph.Table
import CodeGraph.Tag
import CodeGraph.Text.Blank
import CodeGraph.Text.Case
import CodeGraph.Text.Digit
import CodeGraph.Text.Printable
import CodeGraph.Text.Quoted
import CodeGraph.Text.Radix
import CodeGraph.Text.Word
import CodeGraph.Traversal
import CodeGraph.Value
import CodeGraph.Value.Entries
import CodeGraph.Value.Order
import CodeGraph.Value.Reading
import CodeGraph.Value.Sorting
import CodeGraph.Value.Text
import CodeGraph.Proofs.Path.EdgeOrder
import CodeGraph.Proofs.Path.Ties
import CodeGraph.Proofs.Answers
import CodeGraph.Proofs.Path.Listing
import CodeGraph.Proofs.Path.UnitCosts
import CodeGraph.Proofs.Path.Candidates
import CodeGraph.Proofs.Path.Critical
import CodeGraph.Proofs.Fields
import CodeGraph.Proofs.Cost
import CodeGraph.Proofs.Community
import CodeGraph.Proofs.Impact
import CodeGraph.Proofs.Community.Partition
import CodeGraph.Proofs.Community.Ties
import CodeGraph.Proofs.Community.Louvain
import CodeGraph.Proofs.Community.Modularity
import CodeGraph.Proofs.Decimal
import CodeGraph.Proofs.Order
import CodeGraph.Proofs.Community.Propagation
import CodeGraph.Proofs.Community.Levels
import CodeGraph.Proofs.Community.Orderable
import CodeGraph.Proofs.Community.Stability
import CodeGraph.Proofs.Impact.Scores
import CodeGraph.Proofs.Impact.Agreement
import CodeGraph.Proofs.Centrality.PageRank
import CodeGraph.Proofs.Reading
import CodeGraph.Proofs.Config
import CodeGraph.Proofs.Smell.Metrics
import CodeGraph.Proofs.Smell.Detection
import CodeGraph.Proofs.Analyzer.Measures
import CodeGraph.Proofs.Analyzer.Survey
import CodeGraph.Proofs.Analyzer.Smells
import CodeGraph.Proofs.Analyzer.Impact
import CodeGraph.Proofs.Impact.Depth
import CodeGraph.Proofs.Config.RoundTrip
import CodeGraph.Proofs.Config.Overlay
import CodeGraph.Proofs.Config.Merge
import CodeGraph.Proofs.Config.Loading
import CodeGraph.Proofs.Centrality.Convergence
import CodeGraph.Proofs.Path.Weights
import CodeGraph.Proofs.Config.Readable
import CodeGraph.Proofs.Path.Itemized
import CodeGraph.Proofs.Path.LeastWalk
import CodeGraph.Proofs.Path.Extremes
import CodeGraph.Proofs.Centrality.Normalized
import CodeGraph.Proofs.Community.Range
import CodeGraph.Proofs.Community.Connected
import CodeGraph.Proofs.Smell.Acyclic
import CodeGraph.Proofs.Smell.Variation
import CodeGraph.Proofs.Smell.Kinds
import CodeGraph.Proofs.Config.Expansion
import CodeGraph.Proofs.Community.Contraction
import CodeGraph.Proofs.Community.Moves
import CodeGraph.Proofs.Smell.Spread
import CodeGraph.Proofs.Weights
import CodeGraph.Proofs.Index
import CodeGraph.Proofs.Journal.Endings
import CodeGraph.Proofs.Journal.Scopes
