import Unknowns.Memory

/-!
# Patterns of a field

A field pattern numbers the unknowns of one field on a reference cell from 0
and says which of them sit on which sub-cell, a sub-cell being named by its
dimension and its position among the sub-entities of that dimension.

Uniform patterns put the same number of unknowns on every sub-cell of a
dimension, and number them by dimension and sub-cell.  The numbers are counted
in 64-bit words, and there is no pattern where the count would pass the largest
word.
-/

namespace Unknowns

/-- The unknowns of one field on a reference cell, as a table. -/
structure SubCellTable where
  cell : Cell
  /-- Number of unknowns of the field. -/
  numDofs : Nat
  /-- The unknowns of each sub-cell, by dimension and position. -/
  indices : List (List (List Nat))
deriving DecidableEq

/-- The unknowns of one sub-cell; none where the table has no entry. -/
def SubCellTable.dofsAt (t : SubCellTable) (dim subCell : Nat) : List Nat :=
  (((t.indices[dim]?).getD [])[subCell]?).getD []

/-- How the unknowns of a field sit on a reference cell. -/
inductive FieldPattern where
  /-- A pattern that declares how many unknowns each sub-cell of a dimension carries. -/
  | uniform (dofsPerDim : List Nat) (table : SubCellTable)
  /-- Any other pattern. -/
  | tabulated (table : SubCellTable)
deriving DecidableEq

namespace FieldPattern

/-- The table of unknowns. -/
def table : FieldPattern → SubCellTable
  | uniform _ t => t
  | tabulated t => t

/-- The reference cell. -/
def cell (p : FieldPattern) : Cell := p.table.cell

/-- Number of unknowns of the field. -/
def numDofs (p : FieldPattern) : Nat := p.table.numDofs

/-- Dimension of the reference cell. -/
def dimension (p : FieldPattern) : Nat := p.cell.dimension

/-- Number of sub-cells of a dimension. -/
def subCellCount (p : FieldPattern) (dim : Nat) : Except Error Nat :=
  counted (p.cell.subEntityCount? dim)

/-- The unknowns on one sub-cell. -/
def subCellIndices (p : FieldPattern) (dim subCell : Nat) : List Nat := p.table.dofsAt dim subCell

/-- Number of unknowns on a sub-cell of dimension `dim`: as declared, or else as found on the
first sub-cell, if there is one. -/
def numDofsPerEntity (p : FieldPattern) (dim : Nat) : Except Error Nat :=
  match p with
  | uniform dofs _ => .ok ((dofs[dim]?).getD 0)
  | tabulated t => do
    let count ← p.subCellCount dim
    .ok (if count = 0 then 0 else (t.dofsAt dim 0).length)

/-- Whether two patterns are defined on the same reference cell. -/
def sameGeometry (p q : FieldPattern) : Bool := p.cell = q.cell

/-- Consecutive numbers. -/
structure Run where
  first : Nat
  length : Nat
deriving DecidableEq

/-- The numbers of a run, ascending. -/
def Run.toList (r : Run) : List Nat := List.range' r.first r.length

/-- The run of `k` numbers from `first` on. -/
def Run.ofCount (first k : Nat) : Except Error Run := do
  let _ ← counted (word? (first + k))
  reserve k 8
  .ok ⟨first, k⟩

@[simp] theorem Run.length_toList (r : Run) : r.toList.length = r.length := by
  simp [Run.toList]

/-- The runs of `count` sub-cells with `k` numbers each, from `next` on. -/
def runsFrom (k next : Nat) : Nat → Except Error (List Run)
  | 0 => .ok []
  | count + 1 => do
    let run ← Run.ofCount next k
    let others ← runsFrom k (next + k) count
    .ok (run :: others)

/-- The runs of the sub-cells of all dimensions from `dim` on, with so many numbers for each sub-cell
of a dimension, where `next` numbers are taken; and how many numbers are taken in the end. -/
def uniformRuns (cell : Cell) (dim next : Nat) : List Nat → Except Error (List (List Run) × Nat)
  | [] => .ok ([], next)
  | k :: rest => do
    let count ← counted (cell.subEntityCount? dim)
    let runs ← runsFrom k next count
    let (others, last) ← uniformRuns cell (dim + 1) (next + count * k) rest
    .ok (runs :: others, last)

/-- The uniform pattern with `dofsPerDim[d]` unknowns on each sub-cell of dimension `d`. -/
def ofCounts (cell : Cell) (dofsPerDim : List Nat) : Except Error FieldPattern := do
  let (runs, numDofs) ← uniformRuns cell 0 0 dofsPerDim
  .ok (.uniform dofsPerDim ⟨cell, numDofs, runs.map fun rs => rs.map Run.toList⟩)

/-- The uniform pattern on a cell.  Dimensions that are not mentioned carry no unknowns; those
above the cell's own must not be mentioned. -/
def ofDofsPerDim (cell : Cell) (dofsPerDim : List Nat) : Except Error FieldPattern :=
  if dofsPerDim.length > cell.dimension + 1 then
    .error (.subCellOutOfRange (dofsPerDim.length - 1) 0)
  else
    ofCounts cell (dofsPerDim ++ List.replicate (cell.dimension + 1 - dofsPerDim.length) 0)

/-- The pattern with `components` unknowns on every node. -/
def nodal (cell : Cell) (components : Nat) : Except Error FieldPattern :=
  ofCounts cell (components :: List.replicate cell.dimension 0)

/-- The pattern in words. -/
def text : FieldPattern → String
  | uniform dofs t =>
    "UniformPattern \x7b cell_type: " ++ t.cell.text ++ ", dofs_per_dim: " ++ numbersText dofs ++
      " \x7d"
  | tabulated t => t.cell.text

end FieldPattern

end Unknowns
