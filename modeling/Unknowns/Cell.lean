import Unknowns.Total

/-!
# Reference cells

A reference cell is the shape that all elements of a block share.  It has
sub-entities of each dimension up to its own: nodes (0), edges (1), faces (2),
and in its own dimension exactly one, the cell itself.

| cell | dimension | sub-entities by dimension |
| --- | ---: | --- |
| vertex | 0 | 1 |
| segment | 1 | 2, 1 |
| triangle | 2 | 3, 3, 1 |
| quadrilateral | 2 | 4, 4, 1 |
| polygon with `n` corners | 2 | `n`, `n`, 1 |
| tetrahedron | 3 | 4, 6, 4, 1 |
| hexahedron | 3 | 8, 12, 6, 1 |
| prism | 3 | 6, 9, 5, 1 |
| pyramid | 3 | 5, 8, 5, 1 |
| simplex of dimension `d` | `d` | `d + 1` over `k + 1`, for each `k ≤ d` |

Counts are made up in machine words of 64 bits.  The binomial coefficients of a
simplex are multiplied up factor by factor, and where one of the products is no
word the sub-entities cannot be counted.  So counting is partial, and whatever
counts the sub-entities of a cell first (to merge patterns, to add an element)
goes no further with a cell that is not `Cell.Countable`.
-/

namespace Unknowns

/-- Number of values of a machine word of 64 bits. -/
def wordSize : Nat := UInt64.size

/-- A number that is a word. -/
def word? (n : Nat) : Option Nat := if n < wordSize then some n else none

theorem word?_eq_some_iff {n m : Nat} : word? n = some m ↔ n < wordSize ∧ m = n := by
  rw [word?, Option.ite_none_right_eq_some, Option.some_inj, @eq_comm _ n m]

/-- The binomial coefficient of `n` and `k`, built up factor by factor; each product must be a word
before it is divided. -/
def binomial? (n k : Nat) : Option Nat :=
  if k > n then some 0
  else (List.range (min k (n - k))).foldlM (fun acc i => (word? (acc * (n - i))).map (· / (i + 1))) 1

/-- The shape of a mesh element. -/
inductive Cell where
  | vertex
  | segment
  | triangle
  | quadrilateral
  | tetrahedron
  | hexahedron
  | prism
  | pyramid
  /-- A plane cell with any number of corners. -/
  | polygon (corners : UInt8)
  /-- The simplex of any dimension. -/
  | simplex (dim : UInt8)
deriving DecidableEq

namespace Cell

/-- Without any field to say otherwise, a cell is a vertex. -/
instance : Inhabited Cell := ⟨vertex⟩

/-- Topological dimension. -/
def dimension : Cell → Nat
  | vertex => 0
  | segment => 1
  | triangle | quadrilateral | polygon _ => 2
  | tetrahedron | hexahedron | prism | pyramid => 3
  | simplex d => d.toNat

/-- Number of sub-entities of a dimension below the cell's own. -/
def faceCount? : Cell → Nat → Option Nat
  | segment, 0 => some 2
  | triangle, _ => some 3
  | quadrilateral, _ => some 4
  | polygon n, _ => some n.toNat
  | tetrahedron, 1 => some 6
  | tetrahedron, _ => some 4
  | hexahedron, 0 => some 8
  | hexahedron, 1 => some 12
  | hexahedron, _ => some 6
  | prism, 0 => some 6
  | prism, 1 => some 9
  | prism, _ => some 5
  | pyramid, 1 => some 8
  | pyramid, _ => some 5
  | simplex d, k => binomial? (d.toNat + 1) (k + 1)
  | _, _ => some 0

/-- Number of sub-entities of dimension `dim`: one in the cell's own dimension, none above it. -/
def subEntityCount? (c : Cell) (dim : Nat) : Option Nat :=
  if dim > c.dimension then some 0
  else if dim = c.dimension then some 1
  else c.faceCount? dim

/-- Counts for the dimensions `0, …, c.dimension`. -/
def subEntityCounts? (c : Cell) : Option (List Nat) :=
  (List.range (c.dimension + 1)).mapM c.subEntityCount?

/-- Number of sub-entities of all dimensions, the cell included. -/
def totalSubEntities? (c : Cell) : Option Nat := do word? (total (← c.subEntityCounts?))

/-- The sub-entities of the cell can be counted. -/
def Countable (c : Cell) : Prop := c.totalSubEntities?.isSome

instance (c : Cell) : Decidable c.Countable := inferInstanceAs (Decidable (_ = true))

/-! What follows is for cells whose sub-entities have been counted already. -/

/-- Number of sub-entities of dimension `dim` of a cell that can be counted. -/
def subEntityCount (c : Cell) (dim : Nat) : Nat := (c.subEntityCount? dim).getD 0

/-- Counts for the dimensions `0, …, c.dimension` of a cell that can be counted. -/
def subEntityCounts (c : Cell) : List Nat :=
  (List.range (c.dimension + 1)).map c.subEntityCount

/-- Number of sub-entities of all dimensions of a cell that can be counted. -/
def totalSubEntities (c : Cell) : Nat := total c.subEntityCounts

/-- The name of the cell, with its number where it has one. -/
def text : Cell → String
  | vertex => "Vertex"
  | segment => "Segment"
  | triangle => "Triangle"
  | quadrilateral => "Quadrilateral"
  | tetrahedron => "Tetrahedron"
  | hexahedron => "Hexahedron"
  | prism => "Prism"
  | pyramid => "Pyramid"
  | polygon n => s!"Polygon({n.toNat})"
  | simplex d => s!"Simplex({d.toNat})"

@[simp] theorem length_subEntityCounts (c : Cell) : c.subEntityCounts.length = c.dimension + 1 := by
  simp [subEntityCounts]

/-- The nodes of a simplex can always be counted. -/
example : (simplex 255).subEntityCount? 0 = some 256 := by decide

/-- The triangles of a simplex of a high dimension can be too. -/
example : (simplex 200).subEntityCount? 2 = some 1333300 ∧ ¬(simplex 200).Countable := by decide

end Cell

end Unknowns
