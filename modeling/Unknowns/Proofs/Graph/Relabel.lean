import Unknowns.Proofs.Graph.Permutation
import Unknowns.Proofs.Graph.Rows

/-!
# Relabelled graphs

Under a sound permutation a graph with normal rows has the rows `relabelledRows`
(`NormalRows.permute`): node `i` is adjacent to `j` when the nodes that had these
labels were (`mem_relabelledRows`).  The rows are normal again
(`NormalRows.relabelledRows`), and the inverse permutation leads back to the same
graph (`NormalRows.permute_inverse`).
-/

namespace Unknowns

namespace Csr

variable {rows : List (List Nat)} {p : Permutation}

/-- The row of the node with label `new`, under the new labels. -/
def relabelled (rows : List (List Nat)) (p : Permutation) (new : Nat) : List Nat :=
  ((rows.getD (p.node new) []).map p.label).mergeSort (· ≤ ·)

/-- The rows of a graph under new labels. -/
def relabelledRows (rows : List (List Nat)) (p : Permutation) : List (List Nat) :=
  (List.range rows.length).map (relabelled rows p)

@[simp] theorem length_relabelledRows (rows : List (List Nat)) (p : Permutation) :
    (relabelledRows rows p).length = rows.length := by
  rw [relabelledRows, List.length_map, List.length_range]

theorem getD_relabelledRows (p : Permutation) {i : Nat} (hi : i < rows.length) :
    (relabelledRows rows p).getD i [] = relabelled rows p i := by
  rw [List.getD_eq_getElem?_getD, relabelledRows, List.getElem?_map, List.getElem?_range hi]
  rfl

theorem getD_relabelledRows_of_le (p : Permutation) {i : Nat} (hi : rows.length ≤ i) :
    (relabelledRows rows p).getD i [] = [] := by
  rw [List.getD_eq_getElem?_getD, List.getElem?_eq_none (by rwa [length_relabelledRows])]
  rfl

/-- Only nodes have neighbours. -/
theorem lt_length_of_mem {i j : Nat} (h : j ∈ rows.getD i []) : i < rows.length := by
  refine Nat.lt_of_not_le fun hle => ?_
  rw [List.getD_eq_getElem?_getD, List.getElem?_eq_none hle] at h
  cases h

namespace NormalRows

variable (h : NormalRows rows) (hp : p.Bijection rows.length)
include h

/-- **Normal rows are determined by the adjacency** that they hold. -/
theorem ext {rows' : List (List Nat)} (h' : NormalRows rows') (hlength : rows.length = rows'.length)
    (hmem : ∀ i j, j ∈ rows.getD i [] ↔ j ∈ rows'.getD i []) : rows = rows' := by
  refine List.ext_getElem hlength fun i hi hi' => ?_
  have hrow := eq_of_mem_iff (h.ascending i) (h'.ascending i) (hmem i)
  rwa [List.getD_eq_getElem?_getD, List.getElem?_eq_getElem hi, List.getD_eq_getElem?_getD,
    List.getElem?_eq_getElem hi'] at hrow

include hp

/-- **Relabelling succeeds.** -/
theorem permute : (ofRows rows).permute p = .ok (ofRows (relabelledRows rows p)) := by
  have hrow : ∀ new ∈ List.range rows.length,
      (ofRows rows).relabelledRow p new = .ok (relabelled rows p new) := by
    intro new hnew
    have hlt : new < rows.length := List.mem_range.1 hnew
    have hneighbors : (ofRows rows).neighbors (p.node new) = .ok (rows.getD (p.node new) []) := by
      rw [neighbors, row?_ofRows, List.getD_eq_getElem?_getD,
        List.getElem?_eq_getElem (hp.node_lt hlt), Option.getD_some]
    have hlabels : (rows.getD (p.node new) []).mapM p.newIndex =
        .ok ((rows.getD (p.node new) []).map p.label) :=
      mapM_eq_ok fun j hj => hp.newIndex (h.lt hj)
    simp only [relabelledRow, hp.oldIndex hlt, hneighbors, hlabels, bind, Except.bind, relabelled]
  rw [Csr.permute, numNodes_ofRows, hp.size_eq, if_neg (not_not.2 rfl), mapM_eq_ok hrow]
  rfl

/-- **Adjacency under the new labels** is that of the nodes that have them. -/
theorem mem_relabelledRows {i j : Nat} :
    j ∈ (relabelledRows rows p).getD i [] ↔
      i < rows.length ∧ j < rows.length ∧ p.node j ∈ rows.getD (p.node i) [] := by
  by_cases hi : i < rows.length
  · rw [getD_relabelledRows p hi, relabelled, List.mem_mergeSort, List.mem_map]
    constructor
    · rintro ⟨k, hk, rfl⟩
      have hlt := h.lt hk
      exact ⟨hi, hp.label_lt hlt, by rwa [hp.node_label hlt]⟩
    · rintro ⟨-, hj, hm⟩
      exact ⟨p.node j, hm, hp.label_node hj⟩
  · rw [getD_relabelledRows_of_le p (Nat.le_of_not_lt hi)]
    exact ⟨fun hj => absurd hj List.not_mem_nil, fun hj => absurd hj.1 hi⟩

/-- Sorting the new labels of a row leaves no two equal. -/
theorem pairwise_relabelled (new : Nat) : (relabelled rows p new).Pairwise Before := by
  have hnodup : ((rows.getD (p.node new) []).map p.label).Nodup := by
    refine (nodup_of_pairwise (h.ascending _)).map_on fun i hi j hj he => ?_
    exact hp.label_inj (h.lt hi) (h.lt hj) he
  have hsorted : (relabelled rows p new).Pairwise fun a b => decide (a ≤ b) = true :=
    List.pairwise_mergeSort (by simpa using fun a b c => Nat.le_trans) (by simpa using Nat.le_total) _
  have hdistinct : (relabelled rows p new).Nodup := (List.mergeSort_perm ..).nodup_iff.2 hnodup
  refine (hsorted.and hdistinct).imp fun {a b} hab => ?_
  exact Nat.compare_eq_lt.2 (Nat.lt_of_le_of_ne (of_decide_eq_true hab.1) hab.2)

/-- **A relabelled graph has normal rows.** -/
theorem relabelledRows : NormalRows (relabelledRows rows p) where
  ascending i := by
    by_cases hi : i < rows.length
    · rw [getD_relabelledRows p hi]
      exact h.pairwise_relabelled hp i
    · rw [getD_relabelledRows_of_le p (Nat.le_of_not_lt hi)]
      exact .nil
  lt {i j} hj := by
    rw [length_relabelledRows]
    exact ((h.mem_relabelledRows hp).1 hj).2.1
  loopless i hi := h.loopless _ ((h.mem_relabelledRows hp).1 hi).2.2
  symm {i j} hj := by
    obtain ⟨hi, hj, hm⟩ := (h.mem_relabelledRows hp).1 hj
    exact (h.mem_relabelledRows hp).2 ⟨hj, hi, h.symm hm⟩

/-- **A relabelling keeps adjacency.** -/
theorem label_mem_relabelledRows {u v : Nat} (hu : u < rows.length) (hv : v < rows.length) :
    p.label v ∈ (Csr.relabelledRows rows p).getD (p.label u) [] ↔ v ∈ rows.getD u [] := by
  rw [h.mem_relabelledRows hp, hp.node_label hu, hp.node_label hv]
  exact ⟨fun hm => hm.2.2, fun hm => ⟨hp.label_lt hu, hp.label_lt hv, hm⟩⟩

/-- **The inverse permutation leads back.** -/
theorem permute_inverse :
    (ofRows (Csr.relabelledRows rows p)).permute p.inverse = .ok (ofRows rows) := by
  have hnormal := h.relabelledRows hp
  have hinverse : p.inverse.Bijection (Csr.relabelledRows rows p).length := by
    rw [length_relabelledRows]
    exact hp.inverse
  rw [hnormal.permute hinverse]
  refine congrArg (fun rs => Except.ok (ofRows rs)) ?_
  refine (hnormal.relabelledRows hinverse).ext h (by simp) fun i j => ?_
  rw [hnormal.mem_relabelledRows hinverse, length_relabelledRows, Permutation.node_inverse]
  constructor
  · rintro ⟨hi, hj, hm⟩
    exact (h.label_mem_relabelledRows hp hi hj).1 hm
  · intro hm
    have hi := lt_length_of_mem hm
    exact ⟨hi, h.lt hm, (h.label_mem_relabelledRows hp hi (h.lt hm)).2 hm⟩

end NormalRows

end Csr

end Unknowns
