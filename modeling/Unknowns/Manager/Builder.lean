import Unknowns.Numbering

/-!
# Builders of maps and graphs

After a build, index maps and row graphs are made by a `Builder`, which reads the
numbering and the couplings of the build.  `Builder.standard` makes the usual
ones; the others differ from it in one place each.
-/

namespace Unknowns

/-- What a builder may read. -/
structure BuildContext where
  numbering : Numbering
  /-- What the elements of this rank couple. -/
  couplings : Couplings
  /-- What the elements of other ranks couple to unknowns owned here. -/
  remoteRows : List (UInt64 × UInt64)

/-- How to make maps and graphs. -/
structure Builder where
  /-- The owned ids. -/
  map : BuildContext → Except Error IndexMap
  /-- The owned ids and the ghosts. -/
  overlapMap : BuildContext → Except Error IndexMap
  /-- The couplings of the owned ids. -/
  graph : BuildContext → IndexMap → Except Error RowGraph
  /-- The couplings of all ids that occur here. -/
  overlapGraph : BuildContext → IndexMap → Except Error RowGraph

namespace Builder

/-- The owned ids followed by the ghosts, each ascending. -/
def overlapGids (n : Numbering) : List UInt64 := n.ownedGids ++ n.ghosts.map (·.gid)

/-- Owned ids ascend, ghosts follow them; the graph of the owned ids takes in what other ranks
couple to them, the graph of the overlap only what is coupled here. -/
def standard : Builder where
  map c := IndexMap.ofGids c.numbering.ownedGids c.numbering.numGlobal
  overlapMap c := IndexMap.ofGids (overlapGids c.numbering) c.numbering.numGlobal
  graph c rows := .ok (RowGraph.ofPairs rows (c.couplings.pairs ++ c.remoteRows))
  overlapGraph c rows := .ok (RowGraph.ofCouplings rows c.couplings)

/-- The standard builder with another list of owned ids. -/
def withOwnedGids (f : List UInt64 → List UInt64) : Builder :=
  { standard with map := fun c => IndexMap.ofGids (f c.numbering.ownedGids) c.numbering.numGlobal }

/-- Owned ids descend. -/
def reversed : Builder := withOwnedGids List.reverse

/-- The first owned id occurs twice, so there is no map. -/
def duplicated : Builder := withOwnedGids fun gids => gids ++ gids.take 1

/-- Only the first half of the owned ids. -/
def halved : Builder := withOwnedGids fun gids => gids.take (gids.length / 2)

/-- Ghosts are sorted in among the owned ids. -/
def sortedOverlap : Builder :=
  { standard with
    overlapMap := fun c =>
      IndexMap.ofGids ((overlapGids c.numbering).mergeSort (· ≤ ·)) c.numbering.numGlobal }

/-- The graph holds only what other ranks couple. -/
def remoteOnly : Builder :=
  { standard with graph := fun c rows => .ok (RowGraph.ofPairs rows c.remoteRows) }

/-- There is no graph of the owned ids. -/
def refusing : Builder :=
  { standard with graph := fun _ _ => .error (.graphMalformed .refused) }

end Builder

end Unknowns
