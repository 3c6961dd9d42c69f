import Unknowns.Proofs.Graph.Quotient.Run
import Unknowns.Proofs.Graph.Rows

/-!
# The quotient graph before any elimination

In the beginning every node of the graph is a variable that stands for itself and
lists its row.  When the rows are normal this is a sound description of the graph
(`steady_ofGraph`), from which every elimination can start.
-/

namespace Unknowns

namespace Quotient

variable {rows : List (List Nat)} {aggressive : Bool}

/-- Every node is a variable that lists its row. -/
theorem node_ofGraph (v : Nat) :
    (ofGraph (.ofRows rows) aggressive).node v =
      ⟨.variable, rows.getD v [], [], [], 1, [], (rows.getD v []).length⟩ := by
  rw [node, ofGraph, Csr.rows_ofRows, Array.getD_eq_getD_getElem?, List.getElem?_toArray,
    List.getElem?_map, List.getD_eq_getElem?_getD]
  cases rows[v]? <;> rfl

@[simp] theorem size_ofGraph : (ofGraph (.ofRows rows) aggressive).nodes.size = rows.length := by
  rw [ofGraph, Csr.rows_ofRows, List.size_toArray, List.length_map]

theorem live_ofGraph {v : Nat} : (ofGraph (.ofRows rows) aggressive).Live v ↔ v < rows.length := by
  rw [Live, size_ofGraph, node_ofGraph]
  exact and_iff_left rfl

theorem not_element_ofGraph {e : Nat} : ¬ (ofGraph (.ofRows rows) aggressive).Element e := by
  rw [Element, node_ofGraph]
  exact fun h => NodeKind.noConfusion h

theorem group_ofGraph (v : Nat) : (ofGraph (.ofRows rows) aggressive).group v = [v] := by
  rw [group, node_ofGraph]

theorem joined_ofGraph {L : Nat → List Nat} {u v : Nat} :
    (ofGraph (.ofRows rows) aggressive).Joined L u v ↔ v ∈ rows.getD u [] := by
  rw [Joined, node_ofGraph]
  simp

theorem linked_ofGraph (h : Csr.NormalRows rows) (L : Nat → List Nat) :
    (ofGraph (.ofRows rows) aggressive).Linked L where
  vars_ascending {v} _ := by
    rw [node_ofGraph]
    exact h.ascending v
  elems_ascending {v} _ := by
    rw [node_ofGraph]
    exact .nil
  vars_live {u v} _ hu := by
    rw [node_ofGraph] at hu
    exact live_ofGraph.2 (h.lt hu)
  vars_symm {u v} _ hu := by
    rw [node_ofGraph] at hu ⊢
    exact h.symm hu
  vars_loopless {v} _ := by
    rw [node_ofGraph]
    exact h.loopless v
  mem_elems {e v} _ := by
    rw [node_ofGraph]
    exact ⟨fun he => absurd he List.not_mem_nil, fun he => absurd he.1 not_element_ofGraph⟩
  list_nodup he := absurd he not_element_ofGraph
  list_live he := absurd he not_element_ofGraph
  apart he := absurd he not_element_ofGraph

theorem grouped_ofGraph : (ofGraph (.ofRows rows) aggressive).Grouped where
  order_nodup := List.nodup_nil
  group_nodup {v} _ := by
    rw [group_ofGraph]
    exact List.nodup_singleton v
  group_apart {u v x} _ _ hu hv := by
    rw [group_ofGraph, List.mem_singleton] at hu hv
    exact hu.symm.trans hv
  order_apart _ _ := List.not_mem_nil
  mem_iff {x} := by
    rw [size_ofGraph]
    constructor
    · intro hx
      exact Or.inr ⟨x, live_ofGraph.2 hx, self_mem_group x⟩
    · rintro (hx | ⟨v, hv, hx⟩)
      · exact absurd hx List.not_mem_nil
      · rw [group_ofGraph, List.mem_singleton] at hx
        rw [hx]
        exact live_ofGraph.1 hv
  weight {v} _ := by
    rw [group_ofGraph, node_ofGraph]
    rfl

/-- **In the beginning the graph described is the graph itself.** -/
theorem adjacent_ofGraph (h : Csr.NormalRows rows) (L : Nat → List Nat) {x y : Nat} :
    (ofGraph (.ofRows rows) aggressive).Adjacent L x y ↔ y ∈ rows.getD x [] := by
  constructor
  · rintro ⟨hne, u, v, -, -, hx, hy, huv⟩
    rw [group_ofGraph, List.mem_singleton] at hx hy
    subst hx hy
    exact joined_ofGraph.1 (huv.resolve_left hne)
  · intro hy
    have hne : x ≠ y := fun he => h.loopless x (he ▸ hy)
    refine ⟨hne, x, y, live_ofGraph.2 (h.lt (h.symm hy)), live_ofGraph.2 (h.lt hy),
      self_mem_group x, self_mem_group y, Or.inr (joined_ofGraph.2 hy)⟩

theorem sound_ofGraph (h : Csr.NormalRows rows) (aggressive : Bool) :
    (ofGraph (.ofRows rows) aggressive).Sound (Csr.ofRows rows).adjacency where
  linked := linked_ofGraph h _
  grouped := grouped_ofGraph
  describes x y := by
    rw [adjacent_ofGraph h]
    exact Csr.mem_adjacency_ofRows
  fill := rfl

theorem queued_ofGraph : (ofGraph (.ofRows rows) aggressive).Queued where
  ascending := pairwise_ascending _
  mem_iff {c} := by
    rw [live_ofGraph, node_ofGraph, ofGraph, mem_ascending, Csr.rows_ofRows, List.mem_map]
    constructor
    · rintro ⟨r, hr, rfl⟩
      have hget : rows[r.2]? = some r.1 := List.mem_zipIdx_iff_getElem?.1 hr
      refine ⟨(List.getElem?_eq_some_iff.1 hget).1, ?_⟩
      rw [List.getD_eq_getElem?_getD, hget]
      rfl
    · rintro ⟨hlt, hdegree⟩
      have hget : rows[c.node]? = some (rows.getD c.node []) := by
        rw [List.getD_eq_getElem?_getD, List.getElem?_eq_getElem hlt, Option.getD_some]
      refine ⟨(rows.getD c.node [], c.node), List.mem_zipIdx_iff_getElem?.2 hget, ?_⟩
      rw [← show c.degree = (rows.getD c.node []).length from hdegree]

theorem referenced_ofGraph : (ofGraph (.ofRows rows) aggressive).Referenced where
  merged {v i} hv := by
    rw [node_ofGraph] at hv
    cases hv
  absorbed {v e} hv := by
    rw [node_ofGraph] at hv
    cases hv

/-- **Every elimination can start from a graph with normal rows.** -/
theorem steady_ofGraph (h : Csr.NormalRows rows) (aggressive : Bool) :
    (ofGraph (.ofRows rows) aggressive).Steady (Csr.ofRows rows).adjacency :=
  ⟨sound_ofGraph h aggressive, queued_ofGraph, referenced_ofGraph⟩

end Quotient

end Unknowns
