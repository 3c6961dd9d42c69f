import Unknowns.Proofs.Mesh.Assembly

/-!
# Elements that are given by their nodes

An element of dimension one or two that is given by its nodes lists these nodes in
the order given, then its edges if it has any, then the cell.  A cell of dimension
zero has one place only, and it takes the id of the cell: the node that was given
is not recorded (`point_forgets_node`).

* `FromNodes.connectivity_eq`: the connectivity of such an element, also after later calls;
* `FromNodes.lists_nodes`: two such elements have a node in common exactly when they were
  given a common id for it.
-/

namespace Unknowns

open Assembly (subEntities)

/-- The ids by dimension of an element that is given by its nodes. -/
inductive Listed (cell : Cell) (nodes : List UInt64) (cellGid : UInt64) :
    List (List UInt64) → Prop
  | point (h : cell.dimension = 0) : Listed cell nodes cellGid [[cellGid]]
  | line (h : cell.dimension = 1) : Listed cell nodes cellGid [nodes, [cellGid]]
  | plane (h : cell.dimension = 2) {edges : List UInt64}
    (hedges : Assembly.edgesAround nodes = .ok edges) :
    Listed cell nodes cellGid [nodes, edges, [cellGid]]

/-- An element of a mesh was given by its nodes, maybe some calls ago. -/
inductive FromNodes (cell : Cell) (nodes : List UInt64) (cellGid : UInt64) (e : Nat) :
    AssembledMesh → Prop
  | added {m : AssembledMesh} {block : BlockId} (hcell : m.toMesh.blockCell block = some cell)
    (h : ((Assembly.addElementFromNodes block nodes cellGid).run m).1 = .ok e) :
    FromNodes cell nodes cellGid e ((Assembly.addElementFromNodes block nodes cellGid).run m).2
  | later {m : AssembledMesh} (h : FromNodes cell nodes cellGid e m) (call : Call) :
    FromNodes cell nodes cellGid e (call.perform.run m).2

namespace Assembly

variable {m : AssembledMesh} {block : BlockId} {b : Block} {e : Nat}

theorem addElement_of_ok (hb : m.blocks.get? block = some b) {ids : List (List UInt64)}
    (h : ((addElement block ids).run m).1 = .ok e) :
    e = m.connectivity.size ∧
      ((addElement block ids).run m).2 = m.withElement block b (subEntities 0 ids) := by
  rw [run_addElement hb] at h ⊢
  split at h
  · next hcountable =>
    rw [if_pos hcountable]
    split at h
    · next hids =>
      rw [if_pos hids]
      split at h
      · next hfits =>
        rw [if_pos hfits]
        exact ⟨(Except.ok.inj h).symm, rfl⟩
      · cases h
    · cases h
  · cases h

/-- **What is added of an element that is given by its nodes.** -/
theorem addElementFromNodes_of_ok (hb : m.blocks.get? block = some b) {nodes : List UInt64}
    {cellGid : UInt64} (h : ((addElementFromNodes block nodes cellGid).run m).1 = .ok e) :
    ∃ ids, Listed b.cell nodes cellGid ids ∧ e = m.connectivity.size ∧
      ((addElementFromNodes block nodes cellGid).run m).2 =
        m.withElement block b (subEntities 0 ids) := by
  rw [run_addElementFromNodes hb] at h ⊢
  split at h
  · cases h
  · next hlength =>
    rw [if_neg hlength]
    split at h
    · next hdim => exact ⟨_, .point hdim, addElement_of_ok hb h⟩
    · next hdim => exact ⟨_, .line hdim, addElement_of_ok hb h⟩
    · next hdim =>
      cases hedges : edgesAround nodes with
      | error e =>
        rw [hedges] at h
        cases h
      | ok edges =>
        rw [hedges] at h
        exact ⟨_, .plane hdim hedges, addElement_of_ok hb h⟩
    · split at h <;> cases h

end Assembly

namespace FromNodes

variable {cell : Cell} {nodes : List UInt64} {cellGid : UInt64} {e : Nat} {m : AssembledMesh}

/-- **The connectivity of an element that was given by its nodes.** -/
theorem connectivity_eq (h : FromNodes cell nodes cellGid e m) :
    ∃ ids, Listed cell nodes cellGid ids ∧
      m.toMesh.connectivity e = some (subEntities 0 ids) := by
  induction h with
  | added hcell h =>
    obtain ⟨b, hb, rfl⟩ := Option.map_eq_some_iff.1 hcell
    obtain ⟨ids, hids, rfl, hm⟩ := Assembly.addElementFromNodes_of_ok hb h
    refine ⟨ids, hids, ?_⟩
    rw [hm]
    exact Array.getElem?_push_size
  | later _ call ih =>
    obtain ⟨ids, hids, he⟩ := ih
    exact ⟨ids, hids, (takes_perform _ call).only_adds.connectivity _ _ he⟩

end FromNodes

/-! ### Nodes -/

/-- The ids that an element takes for its nodes: a cell of dimension zero is its own node. -/
def Cell.nodeIds (cell : Cell) (nodes : List UInt64) (cellGid : UInt64) : List UInt64 :=
  if cell.dimension = 0 then [cellGid] else nodes

section
variable {cell : Cell} {nodes : List UInt64} {cellGid : UInt64} {ids : List (List UInt64)}

theorem Listed.length_le (h : Listed cell nodes cellGid ids) : ids.length ≤ 3 := by
  cases h <;> simp

theorem Listed.getElem?_zero (h : Listed cell nodes cellGid ids) :
    ids[0]? = some (cell.nodeIds nodes cellGid) := by
  cases h <;> simp [Cell.nodeIds, *]

theorem Listed.nodes_eq (h : Listed cell nodes cellGid ids) :
    ofDimension 0 (subEntities 0 ids) = (cell.nodeIds nodes cellGid).map SubEntity.node := by
  have hlength := h.length_le
  have hentries := ofDimension_subEntities (by omega : 0 + ids.length ≤ 256) 0
  rw [h.getElem?_zero] at hentries
  exact hentries

end

section
variable {cell₁ cell₂ : Cell} {nodes₁ nodes₂ : List UInt64} {cellGid₁ cellGid₂ : UInt64}
  {e₁ e₂ : Nat} {m₁ m₂ : AssembledMesh}

/-- **Elements that are given by their nodes list these as their nodes**, a cell of dimension zero
its own id instead.  So two of them, of one mesh or of two, have a node in common exactly when the
ids that they take for their nodes have one in common. -/
theorem FromNodes.lists_nodes (h₁ : FromNodes cell₁ nodes₁ cellGid₁ e₁ m₁)
    (h₂ : FromNodes cell₂ nodes₂ cellGid₂ e₂ m₂) :
    ∃ connectivity₁ connectivity₂, m₁.toMesh.connectivity e₁ = some connectivity₁ ∧
      m₂.toMesh.connectivity e₂ = some connectivity₂ ∧
      ofDimension 0 connectivity₁ = (cell₁.nodeIds nodes₁ cellGid₁).map SubEntity.node ∧
      ofDimension 0 connectivity₂ = (cell₂.nodeIds nodes₂ cellGid₂).map SubEntity.node ∧
      ((∃ id, SubEntity.node id ∈ connectivity₁ ∧ SubEntity.node id ∈ connectivity₂) ↔
        ∃ id, id ∈ cell₁.nodeIds nodes₁ cellGid₁ ∧ id ∈ cell₂.nodeIds nodes₂ cellGid₂) := by
  obtain ⟨ids₁, hlisted₁, hget₁⟩ := h₁.connectivity_eq
  obtain ⟨ids₂, hlisted₂, hget₂⟩ := h₂.connectivity_eq
  refine ⟨_, _, hget₁, hget₂, hlisted₁.nodes_eq, hlisted₂.nodes_eq, exists_congr fun id => ?_⟩
  exact and_congr (mk_mem_iff 0 hlisted₁.nodes_eq id) (mk_mem_iff 0 hlisted₂.nodes_eq id)

end

/-- Two blocks, a triangle in one and a segment that touches it in the other. -/
def triangleAndSegment : AssembledMesh :=
  AssembledMesh.empty.after [.addBlock 0 .triangle, .addBlock 1 .segment,
    .addElementFromNodes 0 [1, 2, 3] 10, .addElementFromNodes 1 [3, 4] 20]

theorem FromNodes.lists_nodes_triangle :
    ∃ triangle segment, triangleAndSegment.toMesh.connectivity 0 = some triangle ∧
      triangleAndSegment.toMesh.connectivity 1 = some segment ∧
      ofDimension 0 triangle = [.node 1, .node 2, .node 3] ∧
      ∃ id, SubEntity.node id ∈ triangle ∧ SubEntity.node id ∈ segment := by
  have htriangle : FromNodes .triangle [1, 2, 3] 10 0 triangleAndSegment :=
    .later (@FromNodes.added .triangle [1, 2, 3] 10 0
      (AssembledMesh.empty.after [.addBlock 0 .triangle, .addBlock 1 .segment]) 0 rfl rfl)
      (.addElementFromNodes 1 [3, 4] 20)
  have hsegment : FromNodes .segment [3, 4] 20 1 triangleAndSegment :=
    @FromNodes.added .segment [3, 4] 20 1 (AssembledMesh.empty.after
      [.addBlock 0 .triangle, .addBlock 1 .segment, .addElementFromNodes 0 [1, 2, 3] 10]) 1 rfl rfl
  obtain ⟨c₁, c₂, hget₁, hget₂, hnodes₁, -, hshared⟩ := htriangle.lists_nodes hsegment
  exact ⟨c₁, c₂, hget₁, hget₂, hnodes₁, hshared.2 ⟨3, by decide, by decide⟩⟩

/-- A vertex whose node is 5, and a segment that does not touch it. -/
def vertexAndSegment : AssembledMesh :=
  AssembledMesh.empty.after [.addBlock 0 .vertex, .addBlock 1 .segment,
    .addElementFromNodes 0 [5] 7, .addElementFromNodes 1 [7, 8] 20]

/-- **A cell of dimension zero does not list the node that it was given**: the vertex with node 5
lists its cell id 7 in the place of the node, and appears to touch a segment with the nodes 7 and
8. -/
theorem point_forgets_node :
    FromNodes .vertex [5] 7 0 vertexAndSegment ∧ FromNodes .segment [7, 8] 20 1 vertexAndSegment ∧
      vertexAndSegment.toMesh.connectivity 0 = some [.node 7] ∧
      vertexAndSegment.toMesh.connectivity 1 = some [.node 7, .node 8, .edge 20] := by
  refine ⟨?_, ?_, rfl, rfl⟩
  · exact .later (@FromNodes.added .vertex [5] 7 0
      (AssembledMesh.empty.after [.addBlock 0 .vertex, .addBlock 1 .segment]) 0 rfl rfl)
      (.addElementFromNodes 1 [7, 8] 20)
  · exact @FromNodes.added .segment [7, 8] 20 1 (AssembledMesh.empty.after
      [.addBlock 0 .vertex, .addBlock 1 .segment, .addElementFromNodes 0 [5] 7]) 1 rfl rfl

end Unknowns
