import Unknowns.Memory
import Unknowns.Mesh
import Unknowns.Table

/-!
# Meshes put together element by element

An `AssembledMesh` starts without blocks.  Blocks are declared with their
reference cell, and elements are appended to a declared block either with all
their sub-entities or from their nodes alone, where the edges of a plane cell
get their ids from their end nodes.  Elements are numbered from 0 in the order
in which they were added.

The steps are programs of `Assembly`, which write into the tables of a mesh one
after another.  A step that fails keeps what it wrote before.
-/

namespace Unknowns

/-- A declared block. -/
structure Block where
  cell : Cell
  /-- Its elements, ascending. -/
  elements : List Nat
deriving DecidableEq

/-- A mesh held in memory. -/
structure AssembledMesh where
  blocks : Table BlockId Block
  /-- The sub-entities of each element. -/
  connectivity : Array (List SubEntity)
  /-- The block of each element. -/
  elementBlocks : Array BlockId
  /-- Designated owners. -/
  owners : Table SubEntity Nat
deriving DecidableEq

/-- Steps that put a mesh together. -/
abbrev Assembly := ExceptT Error (StateM AssembledMesh)

namespace Assembly

/-- The reference cell of a declared block. -/
def cellOf (block : BlockId) : Assembly Cell := do
  match (← get).blocks.get? block with
  | some b => return b.cell
  | none => throw (.unknownBlock block)

/-- The number of the next element. -/
def nextElement : Assembly Nat := return (← get).connectivity.size

/-- Declares a block; to declare it again with the same cell changes nothing. -/
def addBlock (block : BlockId) (cell : Cell) : Assembly Unit := do
  match (← get).blocks.get? block with
  | some b =>
    if b.cell = cell then return ()
    else throw (.patternMismatch block .none (.redeclared b.cell cell))
  | none => modify fun m => { m with blocks := m.blocks.insert block ⟨cell, []⟩ }

/-- The sub-entities of an element whose ids are given by dimension, counted from `dim`. -/
def subEntities (dim : Nat) : List (List UInt64) → List SubEntity
  | [] => []
  | ids :: rest => ids.map (SubEntity.mk dim.toUInt8) ++ subEntities (dim + 1) rest

/-- Writes one more element into each table. -/
def push (block : BlockId) (connectivity : List SubEntity) : Assembly Unit := do
  let element ← nextElement
  modify fun m => { m with connectivity := m.connectivity.push connectivity }
  modify fun m => { m with elementBlocks := m.elementBlocks.push block }
  match (← get).blocks.get? block with
  | some b => modify fun m =>
    { m with blocks := m.blocks.insert block { b with elements := b.elements ++ [element] } }
  | none => return ()

/-- Bytes of a sub-entity in a list. -/
def entityWidth : Nat := 16

/-- Appends an element whose sub-entities are listed by dimension, as many of each as the cell
has; answers the number of the element. -/
def addElement (block : BlockId) (entities : List (List UInt64)) : Assembly Nat := do
  let cell ← cellOf block
  let element ← nextElement
  let expected ← MonadExcept.ofExcept (counted cell.totalSubEntities?)
  if entities.map List.length = cell.subEntityCounts then do
    MonadExcept.ofExcept (reserve entities.flatten.length entityWidth)
    push block (subEntities 0 entities)
    return element
  else
    throw (.connectivityMismatch element expected entities.flatten.length)

/-- Each node with the node after it, the last node being followed by the first. -/
def pairsAround (nodes : List UInt64) : List (UInt64 × UInt64) :=
  nodes.zip (nodes.drop 1 ++ nodes.take 1)

/-- The id of the edge between two nodes. -/
def edgeBetween (a b : UInt64) : Except Error UInt64 :=
  match edgeGid? a b with
  | some g => .ok g
  | none => .error (.edgeIdOverflow a b)

/-- The ids of the edges around a plane cell.  The first pair that has no id is the error. -/
def edgesAround (nodes : List UInt64) : Except Error (List UInt64) :=
  (pairsAround nodes).mapM fun p => edgeBetween p.1 p.2

/-- Appends an element of dimension at most two from its nodes and the id of its cell. -/
def addElementFromNodes (block : BlockId) (nodes : List UInt64) (cellGid : UInt64) :
    Assembly Nat := do
  let cell ← cellOf block
  let element ← nextElement
  let expected ← MonadExcept.ofExcept (counted (cell.subEntityCount? 0))
  if nodes.length ≠ expected then
    throw (.connectivityMismatch element expected nodes.length)
  else
    match cell.dimension with
    | 0 => addElement block [[cellGid]]
    | 1 => addElement block [nodes, [cellGid]]
    | 2 => do
      let edges ← MonadExcept.ofExcept (edgesAround nodes)
      addElement block [nodes, edges, [cellGid]]
    | _ => do
      let expected ← MonadExcept.ofExcept (counted cell.totalSubEntities?)
      throw (.connectivityMismatch element expected (nodes.length + 1))

/-- Designates the owner of a sub-entity; the latest designation counts. -/
def setOwner (entity : SubEntity) (rank : Nat) : Assembly Unit :=
  modify fun m => { m with owners := m.owners.insert entity rank }

/-- The answer of a step with the mesh that it leaves, if it succeeds. -/
def outcome {α : Type} (p : Assembly α) (m : AssembledMesh) : Except Error (α × AssembledMesh) :=
  match p.run m with
  | (.ok a, m') => .ok (a, m')
  | (.error e, _) => .error e

end Assembly

namespace AssembledMesh

/-- The mesh without blocks. -/
def empty : AssembledMesh := ⟨∅, #[], #[], ∅⟩

instance : EmptyCollection AssembledMesh := ⟨empty⟩

/-- The mesh with one more block, unless its cell is another one than before. -/
def addBlock (m : AssembledMesh) (block : BlockId) (cell : Cell) : Except Error AssembledMesh :=
  ((Assembly.addBlock block cell).outcome m).map (·.2)

/-- The mesh with one more element, and the number of the element. -/
def addElement (m : AssembledMesh) (block : BlockId) (entities : List (List UInt64)) :
    Except Error (Nat × AssembledMesh) :=
  (Assembly.addElement block entities).outcome m

/-- The mesh with one more element that is made from its nodes, and the number of the element. -/
def addElementFromNodes (m : AssembledMesh) (block : BlockId) (nodes : List UInt64)
    (cellGid : UInt64) : Except Error (Nat × AssembledMesh) :=
  (Assembly.addElementFromNodes block nodes cellGid).outcome m

/-- The mesh with a designated owner. -/
def setOwner (m : AssembledMesh) (entity : SubEntity) (rank : Nat) : AssembledMesh :=
  ((Assembly.setOwner entity rank).run m).2

/-- The answers of an assembled mesh. -/
def toMesh (m : AssembledMesh) : Mesh where
  blockIds := m.blocks.keys
  blockCell b := (m.blocks.get? b).map (·.cell)
  blockElements b := (m.blocks.get? b).map (·.elements)
  numElements := m.connectivity.size
  elementBlock e := m.elementBlocks[e]?
  connectivity e := m.connectivity[e]?
  entityOwner x := m.owners.get? x

end AssembledMesh

end Unknowns
