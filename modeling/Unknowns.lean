import Unknowns.Ascending
import Unknowns.Cell
import Unknowns.Comm.Exchange
import Unknowns.Comm.Rounds
import Unknowns.Comm.Tags
import Unknowns.Comm.World
import Unknowns.DofKey
import Unknowns.Error
import Unknowns.Field.BlockLayout
import Unknowns.Field.Pattern
import Unknowns.Field.Registry
import Unknowns.Graph.Csr
import Unknowns.Graph.MinimumDegree
import Unknowns.Graph.Permutation
import Unknowns.Graph.Quotient
import Unknowns.IndexMap
import Unknowns.Json
import Unknowns.Json.Form
import Unknowns.Json.Parser
import Unknowns.Json.Quotation
import Unknowns.Log
import Unknowns.Manager
import Unknowns.Manager.Build
import Unknowns.Manager.Builder
import Unknowns.Memory
import Unknowns.Mesh
import Unknowns.Mesh.Assembled
import Unknowns.Negotiation
import Unknowns.Numbering
import Unknowns.Overlap
import Unknowns.Ownership
import Unknowns.RowGraph
import Unknowns.SubEntity
import Unknowns.Table
import Unknowns.Text.Hidden
import Unknowns.Text.Quoted
import Unknowns.Total
import Unknowns.Wire.Bytes
import Unknowns.Wire.Record
import Unknowns.Proofs.Wire.RoundTrip
import Unknowns.Proofs.World.Exchange
import Unknowns.Proofs.Negotiation.Outcome
import Unknowns.Proofs.Negotiation.Claims
import Unknowns.Proofs.Negotiation.Owners
import Unknowns.Proofs.Negotiation.Gids
import Unknowns.Proofs.Negotiation.Exact
import Unknowns.Proofs.Negotiation.Ghosts
import Unknowns.Proofs.Negotiation.Readiness
import Unknowns.Proofs.Negotiation.Agreement
import Unknowns.Proofs.Build.Crew
import Unknowns.Proofs.Build.AllOrNone
import Unknowns.Proofs.Build.Couplings
import Unknowns.Proofs.Build.Ids
import Unknowns.Proofs.Build.Graphs
import Unknowns.Proofs.Graph.Elimination
import Unknowns.Proofs.Graph.Quotient.Links
import Unknowns.Proofs.Graph.Quotient.Making
import Unknowns.Proofs.Graph.Quotient.Groups
import Unknowns.Proofs.Graph.Quotient.Described
import Unknowns.Proofs.Graph.Quotient.Eliminate
import Unknowns.Proofs.Graph.Quotient.References
import Unknowns.Proofs.Graph.Quotient.Queue
import Unknowns.Proofs.Graph.Quotient.Run
import Unknowns.Proofs.Graph.Quotient.Initial
import Unknowns.Proofs.Graph.Quotient.Spared
import Unknowns.Proofs.Graph.Quotient.Weights
import Unknowns.Proofs.Graph.Quotient.Degrees
import Unknowns.Proofs.Graph.Quotient.Passes
import Unknowns.Proofs.Graph.Quotient.Merging
import Unknowns.Proofs.Graph.Quotient.Coalesced
import Unknowns.Proofs.Graph.Quotient.Discipline
import Unknowns.Proofs.Graph.Forest
import Unknowns.Proofs.Graph.Quotient.Thin
import Unknowns.Proofs.Graph.Permutation
import Unknowns.Proofs.Graph.Relabel
import Unknowns.Proofs.Graph.Stored
import Unknowns.Proofs.Graph.Reads
import Unknowns.Proofs.Graph.EdgeLists
import Unknowns.Proofs.Graph.Ordering
import Unknowns.Proofs.Graph.Canonical
import Unknowns.Proofs.Graph.Action
import Unknowns.Proofs.Build.LocalGraphs
import Unknowns.Proofs.Build.Elements
import Unknowns.Proofs.Build.Distribution
import Unknowns.Proofs.World.Course
import Unknowns.Proofs.Build.Series
import Unknowns.Proofs.World.Ways
import Unknowns.Proofs.Wire.Faithful
import Unknowns.Proofs.Build.Overlap
import Unknowns.Proofs.World.Replies
import Unknowns.Proofs.World.Deliveries
import Unknowns.Proofs.World.Arrivals
import Unknowns.Proofs.World.Transposed
import Unknowns.Proofs.World.Concatenation
import Unknowns.Proofs.Negotiation.Statuses
import Unknowns.Proofs.Negotiation.Bookkeeping
import Unknowns.Proofs.Negotiation.Completeness
import Unknowns.Proofs.Manager.Freshness
import Unknowns.Proofs.Manager.Registrations
import Unknowns.Proofs.Negotiation.Designations
import Unknowns.Proofs.Build.Designations
import Unknowns.Proofs.Field.Numbering
import Unknowns.Proofs.Field.Merge
import Unknowns.Proofs.Field.Keys
import Unknowns.Proofs.Outcomes
import Unknowns.Proofs.Mesh.Connectivity
import Unknowns.Proofs.Mesh.Calls
import Unknowns.Proofs.Mesh.Assembly
import Unknowns.Proofs.Mesh.FromNodes
import Unknowns.Proofs.Mesh.Edges
import Unknowns.Proofs.Negotiation.Alone
import Unknowns.Proofs.Build.Alone
import Unknowns.Proofs.Field.Faults
import Unknowns.Proofs.Build.Refusals
import Unknowns.Proofs.Manager.Serial
import Unknowns.Proofs.Field.Fingerprint
import Unknowns.Proofs.Build.Comparison
import Unknowns.Proofs.Json.Written
import Unknowns.Proofs.Json.Forms
import Unknowns.Proofs.Index.Lookup
import Unknowns.Proofs.Index.Maps
import Unknowns.Proofs.Graph.Quotient.Represented
import Unknowns.Proofs.Graph.Quotient.Kinds
import Unknowns.Proofs.Graph.Quotient.Accounts
import Unknowns.Proofs.Graph.Invariants
import Unknowns.Proofs.Cell.Simplices
