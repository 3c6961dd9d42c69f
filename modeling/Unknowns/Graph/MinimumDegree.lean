import Unknowns.Graph.Quotient
import Unknowns.Log

/-!
# Minimum degree orderings

`MinimumDegree.order` finds an order in which to eliminate the nodes of a sparse
symmetric matrix so that few entries of its factor become nonzero: it always
eliminates nodes whose neighbours are bounded to be fewest.
-/

namespace Unknowns

/-- An order of elimination, and the graph under the labels that it gives. -/
structure EliminationOrder where
  /-- Its `newToOld` lists the nodes as they are eliminated. -/
  permutation : Permutation
  /-- The graph relabelled. -/
  graph : Csr
  stats : OrderingStats
deriving DecidableEq

namespace MinimumDegree

/-- Orders the nodes of a graph, which is checked and normalised first. -/
def order (g : Csr) (aggressive : Bool) : Except Error EliminationOrder := do
  let g ← g.normalise
  let q := (Quotient.ofGraph g aggressive).eliminateAll
  let p ← Permutation.ofNewToOld q.order
  let relabelled ← g.permute p
  .ok ⟨p, relabelled, q.stats⟩

/-- What an ordering reports about itself. -/
def report (r : EliminationOrder) : LogLine :=
  let s := r.stats
  ⟨.info, s!"[amd] n={r.graph.numNodes} edges={r.graph.numEdges} passes={s.passes}" ++
    s!" pivots={s.pivots} merged={s.merged} absorbed={s.absorbed} nnz(L)~{s.fill}"⟩

end MinimumDegree

end Unknowns
