import Unknowns.Proofs.Cell.Counting
import Unknowns.Proofs.Mesh.Connectivity
import Unknowns.Proofs.Outcomes

/-!
# What the steps of an assembly do

Each step that puts a mesh together first looks whether it can be done.  It writes
all that it has to write, or it fails and has written nothing:

* `takes_perform`: what a call can do to a mesh, whatever its arguments are;
* `Assembly.run_addElement`, `Assembly.run_addElementFromNodes`: which of it happens.
-/

namespace Unknowns

open Assembly (subEntities entityWidth)

namespace AssembledMesh

/-- One more block, without elements. -/
def withBlock (m : AssembledMesh) (block : BlockId) (cell : Cell) : AssembledMesh :=
  { m with blocks := m.blocks.insert block ⟨cell, []⟩ }

/-- One more element in a block that is declared as `b`. -/
def withElement (m : AssembledMesh) (block : BlockId) (b : Block)
    (connectivity : List SubEntity) : AssembledMesh :=
  { m with
    blocks := m.blocks.insert block { b with elements := b.elements ++ [m.connectivity.size] }
    connectivity := m.connectivity.push connectivity
    elementBlocks := m.elementBlocks.push block }

end AssembledMesh

namespace Assembly

variable {m : AssembledMesh} {block : BlockId} {b : Block}

/-! ### Steps on a declared block -/

theorem run_cellOf_of_none (h : m.blocks.get? block = none) :
    (cellOf block).run m = (.error (.unknownBlock block), m) := by
  rw [cellOf, run_bind run_get, h]
  rfl

theorem run_counted {cell : Cell} (h : cell.Countable) :
    (MonadExcept.ofExcept (counted cell.totalSubEntities?) : Assembly Nat).run m =
      (.ok cell.totalSubEntities, m) := by
  rw [run_ofExcept, counted_total, if_pos h]

theorem run_counted_error {cell : Cell} (h : ¬cell.Countable) :
    (MonadExcept.ofExcept (counted cell.totalSubEntities?) : Assembly Nat).run m =
      (.error .overflow, m) := by
  rw [run_ofExcept, counted_total, if_neg h]

theorem run_nextElement : nextElement.run m = (.ok m.connectivity.size, m) := rfl

section
variable (h : m.blocks.get? block = some b)
include h

theorem run_cellOf : (cellOf block).run m = (.ok b.cell, m) := by
  rw [cellOf, run_bind run_get, h]
  rfl

/-- What is written of an element reaches all tables. -/
theorem run_push (connectivity : List SubEntity) :
    (push block connectivity).run m = (.ok (), m.withElement block b connectivity) := by
  rw [push, run_bind run_nextElement, run_bind (run_modify _), run_bind (run_modify _),
    run_bind run_get]
  dsimp only
  rw [h]
  rfl

/-- **An element whose ids are as many as those of the cell is added**, and no other. -/
theorem run_addElement (ids : List (List UInt64)) :
    (addElement block ids).run m =
      if b.cell.Countable then
        if ids.map List.length = b.cell.subEntityCounts then
          if fits ids.flatten.length entityWidth then
            (.ok m.connectivity.size, m.withElement block b (subEntities 0 ids))
          else (.error .outOfMemory, m)
        else
          (.error (.connectivityMismatch m.connectivity.size b.cell.totalSubEntities
            ids.flatten.length), m)
      else (.error .overflow, m) := by
  rw [addElement, run_bind (run_cellOf h), run_bind run_nextElement]
  by_cases hcountable : b.cell.Countable
  · rw [run_bind (run_counted hcountable), if_pos hcountable]
    split
    · unfold reserve
      split
      · rw [run_bind (run_ofExcept _), run_bind (run_push h _)]
        rfl
      · rw [run_bind_error (run_ofExcept _)]
    · rfl
  · rw [run_bind_error (run_counted_error hcountable), if_neg hcountable]

/-- An element that is given by its nodes is added as one whose ids are given by dimension. -/
theorem run_addElementFromNodes (nodes : List UInt64) (cellGid : UInt64) :
    (addElementFromNodes block nodes cellGid).run m =
      if nodes.length ≠ b.cell.subEntityCount 0 then
        (.error (.connectivityMismatch m.connectivity.size (b.cell.subEntityCount 0)
          nodes.length), m)
      else
        match b.cell.dimension with
        | 0 => (addElement block [[cellGid]]).run m
        | 1 => (addElement block [nodes, [cellGid]]).run m
        | 2 =>
          match edgesAround nodes with
          | .ok edges => (addElement block [nodes, edges, [cellGid]]).run m
          | .error e => (.error e, m)
        | _ =>
          if b.cell.Countable then
            (.error (.connectivityMismatch m.connectivity.size b.cell.totalSubEntities
              (nodes.length + 1)), m)
          else (.error .overflow, m) := by
  rw [addElementFromNodes, run_bind (run_cellOf h), run_bind run_nextElement,
    Cell.subEntityCount?_zero, counted_some, run_bind (run_ofExcept _)]
  split
  · rfl
  · match b.cell.dimension with
    | 0 => rfl
    | 1 => rfl
    | 2 =>
      cases edgesAround nodes with
      | ok edges => exact run_bind (run_ofExcept _)
      | error e => exact run_bind_error (run_ofExcept _)
    | _ + 3 =>
      by_cases hcountable : b.cell.Countable
      · exact (run_bind (run_counted hcountable)).trans (if_pos hcountable).symm
      · exact (run_bind_error (run_counted_error hcountable)).trans (if_neg hcountable).symm

end

theorem run_addBlock (m : AssembledMesh) (block : BlockId) (cell : Cell) :
    (addBlock block cell).run m =
      match m.blocks.get? block with
      | some b =>
        (if b.cell = cell then .ok ()
          else .error (.patternMismatch block .none (.redeclared b.cell cell)), m)
      | none => (.ok (), m.withBlock block cell) := by
  rw [addBlock, run_bind run_get]
  cases m.blocks.get? block with
  | none => rfl
  | some b =>
    dsimp only
    split <;> rfl

theorem run_addElement_of_none (h : m.blocks.get? block = none) (ids : List (List UInt64)) :
    (addElement block ids).run m = (.error (.unknownBlock block), m) := by
  rw [addElement, run_bind_error (run_cellOf_of_none h)]

theorem run_addElementFromNodes_of_none (h : m.blocks.get? block = none) (nodes : List UInt64)
    (cellGid : UInt64) :
    (addElementFromNodes block nodes cellGid).run m = (.error (.unknownBlock block), m) := by
  rw [addElementFromNodes, run_bind_error (run_cellOf_of_none h)]

end Assembly

/-! ### Calls -/

/-- A call of one of the steps. -/
inductive Call where
  | addBlock (block : BlockId) (cell : Cell)
  | addElement (block : BlockId) (ids : List (List UInt64))
  | addElementFromNodes (block : BlockId) (nodes : List UInt64) (cellGid : UInt64)
  | setOwner (entity : SubEntity) (rank : Nat)
deriving DecidableEq

/-- What a call does; it answers the number of the element that it added, if it adds one. -/
def Call.perform : Call → Assembly (Option Nat)
  | addBlock block cell => do
    Assembly.addBlock block cell
    return none
  | addElement block ids => do
    let element ← Assembly.addElement block ids
    return some element
  | addElementFromNodes block nodes cellGid => do
    let element ← Assembly.addElementFromNodes block nodes cellGid
    return some element
  | setOwner entity rank => do
    Assembly.setOwner entity rank
    return none

/-- What a call may answer, with the mesh that it leaves. -/
inductive Takes (m : AssembledMesh) : Except Error (Option Nat) → AssembledMesh → Prop
  | refused (e : Error) : Takes m (.error e) m
  /-- A block was declared again. -/
  | kept : Takes m (.ok none) m
  | designated (owners : Table SubEntity Nat) : Takes m (.ok none) { m with owners := owners }
  | declared {block : BlockId} (cell : Cell) (h : m.blocks.get? block = none) :
    Takes m (.ok none) (m.withBlock block cell)
  | added {block : BlockId} {b : Block} {ids : List (List UInt64)}
    (h : m.blocks.get? block = some b) (hcountable : b.cell.Countable)
    (hids : ids.map List.length = b.cell.subEntityCounts)
    (hfits : fits ids.flatten.length entityWidth) :
    Takes m (.ok (some m.connectivity.size)) (m.withElement block b (subEntities 0 ids))

section
variable (m : AssembledMesh)

theorem takes_addElement (block : BlockId) (ids : List (List UInt64)) :
    Takes m (((Assembly.addElement block ids).run m).1.map some)
      ((Assembly.addElement block ids).run m).2 := by
  cases h : m.blocks.get? block with
  | none =>
    rw [Assembly.run_addElement_of_none h]
    exact .refused _
  | some b =>
    rw [Assembly.run_addElement h]
    split
    · next hcountable =>
      split
      · next hids =>
        split
        · next hfits => exact .added h hcountable hids hfits
        · exact .refused _
      · exact .refused _
    · exact .refused _

theorem takes_addElementFromNodes (block : BlockId) (nodes : List UInt64) (cellGid : UInt64) :
    Takes m (((Assembly.addElementFromNodes block nodes cellGid).run m).1.map some)
      ((Assembly.addElementFromNodes block nodes cellGid).run m).2 := by
  cases h : m.blocks.get? block with
  | none =>
    rw [Assembly.run_addElementFromNodes_of_none h]
    exact .refused _
  | some b =>
    rw [Assembly.run_addElementFromNodes h]
    split
    · exact .refused _
    · split
      · exact takes_addElement ..
      · exact takes_addElement ..
      · cases Assembly.edgesAround nodes with
        | ok edges => exact takes_addElement ..
        | error e => exact .refused _
      · split <;> exact .refused _

/-- **What a call can do to a mesh.** -/
theorem takes_perform (call : Call) : Takes m (call.perform.run m).1 (call.perform.run m).2 := by
  cases call with
  | addBlock block cell =>
    rw [Call.perform, run_map, Assembly.run_addBlock]
    cases h : m.blocks.get? block with
    | none => exact .declared cell h
    | some b =>
      by_cases hcell : b.cell = cell
      · simpa [hcell] using .kept
      · simpa [hcell] using .refused _
  | addElement block ids =>
    rw [Call.perform, run_map]
    exact takes_addElement ..
  | addElementFromNodes block nodes cellGid =>
    rw [Call.perform, run_map]
    exact takes_addElementFromNodes ..
  | setOwner entity rank => exact .designated _

end

end Unknowns
