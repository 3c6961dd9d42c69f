import Unknowns.Error

/-!
# Meshes as the numbering sees them

A `Mesh` answers questions about the elements that one rank holds.  Elements
are grouped into blocks of one reference cell each.  The connectivity of an
element lists its sub-entities by dimension: all nodes in reference order, then
all edges, then the faces, then the cell itself.
-/

namespace Unknowns

/-- The connectivity of the elements of one rank. -/
structure Mesh where
  /-- Element blocks, ascending. -/
  blockIds : List BlockId
  /-- Reference cell of a block. -/
  blockCell : BlockId → Option Cell
  /-- Elements of a block. -/
  blockElements : BlockId → Option (List Nat)
  /-- Number of elements of all blocks. -/
  numElements : Nat
  /-- The block of an element. -/
  elementBlock : Nat → Option BlockId
  /-- The sub-entities of an element, by dimension. -/
  connectivity : Nat → Option (List SubEntity)
  /-- The rank that the mesh designates as owner of a sub-entity. -/
  entityOwner : SubEntity → Option Nat

/-- One row of a table of blocks: number, cell and elements. -/
structure BlockRow where
  block : BlockId
  cell : Option Cell
  elements : List Nat

/-- A mesh that answers from tables as they stand: the first row of a block counts, and what the
tables leave out is unknown.  Nothing makes the tables agree with one another, and no sub-entity
has a designated owner. -/
def Mesh.ofTables (blocks : List BlockRow) (numElements : Nat) (elementBlocks : List (Option BlockId))
    (connectivity : List (Option (List SubEntity))) : Mesh where
  blockIds := blocks.map (·.block)
  blockCell b := (blocks.find? (·.block = b)).bind (·.cell)
  blockElements b := (blocks.find? (·.block = b)).map (·.elements)
  numElements := numElements
  elementBlock e := (elementBlocks[e]?).join
  connectivity e := (connectivity[e]?).join
  entityOwner _ := none

end Unknowns
