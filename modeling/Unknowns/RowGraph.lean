import Unknowns.Graph.Csr
import Unknowns.IndexMap
import Unknowns.Table

/-!
# Coupled unknowns

Two unknowns are coupled when some element refers to both.  `Couplings` lists
for each global id the ids coupled to it, itself included.  A `RowGraph` holds
such lists for the rows of an index map: the pattern of nonzeros of the rows of
a matrix that one rank stores.
-/

namespace Unknowns

/-- For each global id the ids coupled to it, ascending. -/
abbrev Couplings := Table UInt64 (List UInt64)

namespace Couplings

/-- All ids of one element are coupled to one another. -/
def addElement (c : Couplings) (gids : List UInt64) : Couplings :=
  (ascending gids).foldl
    (fun c row => c.update row fun cols => ascending (gids ++ cols.getD [])) c

/-- The couplings of a list of elements, each given by its ids. -/
def ofElements (elements : List (List UInt64)) : Couplings :=
  elements.foldl addElement Table.empty

/-- Rows with their columns, one pair for each coupling. -/
def pairs (c : Couplings) : List (UInt64 × UInt64) :=
  c.entries.flatMap fun e => e.2.map fun col => (e.1, col)

end Couplings

/-- The columns of the rows of an index map. -/
structure RowGraph where
  rows : IndexMap
  /-- The columns of each row, ascending, in the order of the rows. -/
  columns : List (List UInt64)
deriving DecidableEq

namespace RowGraph

/-- The columns that a list of pairs gives to a row; a row is always coupled to itself. -/
def columnsOf (pairs : List (UInt64 × UInt64)) (row : UInt64) : List UInt64 :=
  ascending (row :: pairs.filterMap fun p => if p.1 = row then some p.2 else none)

/-- The graph of a list of pairs of row and column; pairs of other rows are ignored. -/
def ofPairs (rows : IndexMap) (pairs : List (UInt64 × UInt64)) : RowGraph :=
  ⟨rows, rows.gids.map (columnsOf pairs)⟩

/-- The graph of a table of couplings. -/
def ofCouplings (rows : IndexMap) (c : Couplings) : RowGraph := ofPairs rows c.pairs

/-- Number of rows. -/
def numRows (g : RowGraph) : Nat := g.columns.length

/-- Number of stored couplings. -/
def numEntries (g : RowGraph) : Nat := g.columns.flatten.length

/-- The columns of the row of a global id. -/
def rowByGid? (g : RowGraph) (gid : UInt64) : Option (List UInt64) :=
  (g.rows.lid? gid).bind fun lid => g.columns[lid]?

/-- The local entries that a row is coupled to, other than itself. -/
def localEdges (rows : IndexMap) (lid : Nat) (columns : List UInt64) : List (Nat × Nat) :=
  columns.filterMap fun c =>
    (rows.lid? c).bind fun j => if j = lid then none else some (lid, j)

/-- The graph between the local entries: ids that are not rows are dropped, and a coupling counts in
both directions. -/
def localGraph (g : RowGraph) : Except Error Csr :=
  Csr.ofEdges g.numRows (g.columns.zipIdx.flatMap fun r => localEdges g.rows r.2 r.1)

end RowGraph

end Unknowns
