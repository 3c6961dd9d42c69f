import Unknowns.Graph.Permutation
import Unknowns.Ascending
import Unknowns.Memory

/-!
# Sparse graphs

A `Csr` holds an undirected graph on the nodes `0, …, n - 1` as compressed rows:
the neighbours of all nodes in one list, and the offsets at which the rows begin
and end.  Any two lists can be held; `Csr.check` tells whether they describe a
symmetric graph, in this order:

1. there is a first offset, it is 0, and the last is the number of entries;
2. offsets do not decrease;
3. all entries are nodes;
4. with `j` in row `i`, `i` is in row `j`.

`Csr.normalise` then drops loops and repetitions and sorts the rows.
-/

namespace Unknowns

/-- A graph in compressed rows, as stored. -/
structure Csr where
  /-- Where each row begins; the last entry is where the last row ends. -/
  offsets : List Nat
  /-- The rows, one after the other. -/
  targets : List Nat
deriving DecidableEq

namespace Csr

/-- The offsets of rows stored one after the other, the first at `start`. -/
def offsetsFrom (start : Nat) : List (List Nat) → List Nat
  | [] => [start]
  | row :: rest => start :: offsetsFrom (start + row.length) rest

/-- Compresses a list of rows. -/
def ofRows (rows : List (List Nat)) : Csr := ⟨offsetsFrom 0 rows, rows.flatten⟩

/-- The graph with `n` nodes and no edges; its offsets must have room in memory. -/
def edgeless (n : Nat) : Except Error Csr := do
  let count ← counted (word? (n + 1))
  reserve count 8
  .ok ⟨List.replicate count 0, []⟩

/-- Number of nodes. -/
def numNodes (g : Csr) : Nat := g.offsets.length - 1

/-- Number of undirected edges, each being stored twice. -/
def numEdges (g : Csr) : Nat := g.targets.length / 2

/-- Row `i`, if its offsets are stored and lie within the entries. -/
def row? (g : Csr) (i : Nat) : Option (List Nat) := do
  let a ← g.offsets[i]?
  let b ← g.offsets[i + 1]?
  if a ≤ b ∧ b ≤ g.targets.length then some ((g.targets.drop a).take (b - a)) else none

/-- The neighbours of a node. -/
def neighbors (g : Csr) (i : Nat) : Except Error (List Nat) :=
  match g.row? i with
  | some row => .ok row
  | none => .error .indexOutOfBounds

/-- The difference of the offsets of a row. -/
def degree (g : Csr) (i : Nat) : Except Error Nat :=
  match g.offsets[i]?, g.offsets[i + 1]? with
  | some a, some b => if a ≤ b then .ok (b - a) else .error .overflow
  | _, _ => .error .indexOutOfBounds

/-- All rows; a row whose offsets are unusable counts as empty. -/
def rows (g : Csr) : List (List Nat) := (List.range g.numNodes).map fun i => (g.row? i).getD []

/-- A row without its own node, sorted and without repetitions. -/
def normalRow (i : Nat) (row : List Nat) : List Nat := (ascending row).filter (· ≠ i)

/-- Rows with every row normalised, counted from row `i`. -/
def normalRows (i : Nat) : List (List Nat) → List (List Nat)
  | [] => []
  | row :: rest => normalRow i row :: normalRows (i + 1) rest

/-- The first pair of neighbouring offsets that decreases. -/
def decreasingAt? (i : Nat) : List Nat → Option Nat
  | a :: b :: rest => if a > b then some i else decreasingAt? (i + 1) (b :: rest)
  | _ => none

/-- The first entry, row by row, that is not one of `n` nodes. -/
def firstStray? (n : Nat) (rows : List (List Nat)) : Option (Nat × Nat) :=
  rows.zipIdx.findSome? fun r => (r.1.find? fun j => n ≤ j).map fun j => (r.2, j)

/-- The first entry, row by row and within a row by node, without its reverse. -/
def firstOneWay? (rows : List (List Nat)) : Option (Nat × Nat) :=
  rows.zipIdx.findSome? fun r =>
    ((ascending r.1).find? fun j => j ≠ r.2 ∧ r.2 ∉ (rows[j]?).getD []).map fun j => (r.2, j)

/-- Checks that the stored lists describe a symmetric graph. -/
def check (g : Csr) : Except Error Unit :=
  match g.offsets.head?, g.offsets.getLast? with
  | some first, some last =>
    if first ≠ 0 then .error (.graphMalformed (.firstOffset first))
    else if last ≠ g.targets.length then
      .error (.graphMalformed (.lastOffset last g.targets.length))
    else
      match decreasingAt? 0 g.offsets, firstStray? g.numNodes g.rows, firstOneWay? g.rows with
      | some i, _, _ => .error (.graphMalformed (.decreasing i))
      | none, some (i, j), _ => .error (.nodeOutOfRange i j g.numNodes)
      | none, none, some (i, j) => .error (.asymmetricGraph i j)
      | none, none, none => .ok ()
  | _, _ => .error (.graphMalformed .noOffsets)

/-- The checked graph with normal rows. -/
def normalise (g : Csr) : Except Error Csr := do
  g.check
  .ok (ofRows (normalRows 0 g.rows))

/-- Checks that the graph is symmetric and its rows are normal. -/
def validate (g : Csr) : Except Error Unit := do
  g.check
  match g.rows.zipIdx.find? fun r => normalRow r.2 r.1 ≠ r.1 with
  | some r => .error (.graphMalformed (.rowNotNormal r.2))
  | none => .ok ()

/-- The first edge with an end that is not one of `n` nodes; the other end is named first. -/
def checkEdges (n : Nat) : List (Nat × Nat) → Except Error Unit
  | [] => .ok ()
  | (a, b) :: rest =>
    if a ≥ n then .error (.nodeOutOfRange b a n)
    else if b ≥ n then .error (.nodeOutOfRange a b n)
    else checkEdges n rest

/-- The nodes that a list of edges joins with `i`. -/
def joined (i : Nat) (edges : List (Nat × Nat)) : List Nat :=
  edges.filterMap fun e => if e.1 = i then some e.2 else if e.2 = i then some e.1 else none

/-- The graph on `n` nodes with the given edges, whatever their direction; loops are dropped. -/
def ofEdges (n : Nat) (edges : List (Nat × Nat)) : Except Error Csr := do
  checkEdges n edges
  .ok (ofRows ((List.range n).map fun i => normalRow i (joined i edges)))

/-- The new row of an old node: its neighbours under their new labels, sorted. -/
def relabelledRow (g : Csr) (p : Permutation) (new : Nat) : Except Error (List Nat) := do
  let old ← p.oldIndex new
  let row ← g.neighbors old
  let labels ← row.mapM p.newIndex
  .ok (labels.mergeSort (· ≤ ·))

/-- The graph in which node `i` has the label `p.newIndex i`. -/
def permute (g : Csr) (p : Permutation) : Except Error Csr :=
  if p.size ≠ g.numNodes then
    .error (.invalidPermutation (.wrongLength p.size g.numNodes))
  else do
    let rows ← (List.range g.numNodes).mapM (g.relabelledRow p)
    .ok (ofRows rows)

end Csr

end Unknowns
