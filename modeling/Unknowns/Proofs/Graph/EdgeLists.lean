import Mathlib.Combinatorics.Enumerative.DoubleCounting
import Mathlib.Data.Set.Card
import Unknowns.Proofs.Graph.Stored

/-!
# Edges of sparse graphs

A list of edges makes a graph when the ends of all edges are nodes
(`ofEdges_eq_ok_iff`).  Its rows are normal, and they join the ends of each edge but
loops (`mem_edgeRows`).

In a graph with normal rows every edge stands in the rows of both its ends, so half the
number of entries is the number of edges (`NormalRows.length_targets`).
-/

namespace Unknowns

namespace Csr

/-! ### Graphs of lists of edges -/

theorem checkEdges_eq_ok_iff {n : Nat} {edges : List (Nat × Nat)} :
    checkEdges n edges = .ok () ↔ ∀ e ∈ edges, e.1 < n ∧ e.2 < n := by
  induction edges with
  | nil => simp [checkEdges]
  | cons e edges ih =>
    rw [checkEdges, List.forall_mem_cons, ← ih]
    split
    · next hfirst => exact iff_of_false nofun fun h => Nat.not_le.2 h.1.1 hfirst
    · next hfirst =>
      split
      · next hsecond => exact iff_of_false nofun fun h => Nat.not_le.2 h.1.2 hsecond
      · next hsecond =>
        exact (and_iff_right ⟨Nat.not_le.1 hfirst, Nat.not_le.1 hsecond⟩).symm

/-- Apart from `i`, the nodes joined with `i` are the other ends of its edges. -/
theorem mem_joined {i j : Nat} (hne : i ≠ j) {edges : List (Nat × Nat)} :
    j ∈ joined i edges ↔ (i, j) ∈ edges ∨ (j, i) ∈ edges := by
  rw [joined, List.mem_filterMap]
  constructor
  · rintro ⟨⟨a, b⟩, he, hj⟩
    split at hj
    · next ha =>
      obtain rfl : a = i := ha
      obtain rfl : b = j := Option.some.inj hj
      exact .inl he
    · split at hj
      · next hb =>
        obtain rfl : b = i := hb
        obtain rfl : a = j := Option.some.inj hj
        exact .inr he
      · cases hj
  · rintro (he | he)
    · exact ⟨(i, j), he, if_pos rfl⟩
    · exact ⟨(j, i), he, by rw [if_neg hne.symm, if_pos rfl]⟩

/-- The rows of the graph of a list of edges. -/
def edgeRows (n : Nat) (edges : List (Nat × Nat)) : List (List Nat) :=
  (List.range n).map fun i => normalRow i (joined i edges)

@[simp] theorem length_edgeRows (n : Nat) (edges : List (Nat × Nat)) :
    (edgeRows n edges).length = n := by
  rw [edgeRows, List.length_map, List.length_range]

section
variable {n i : Nat} {edges : List (Nat × Nat)}

theorem getD_edgeRows (hi : i < n) : (edgeRows n edges).getD i [] = normalRow i (joined i edges) := by
  rw [List.getD_eq_getElem?_getD, edgeRows, List.getElem?_map, List.getElem?_range hi]
  rfl

theorem mem_edgeRows {j : Nat} :
    j ∈ (edgeRows n edges).getD i [] ↔ i < n ∧ i ≠ j ∧ ((i, j) ∈ edges ∨ (j, i) ∈ edges) := by
  by_cases hi : i < n
  · rw [getD_edgeRows hi, mem_normalRow, and_iff_right hi]
    constructor
    · rintro ⟨hj, hne⟩
      exact ⟨hne.symm, (mem_joined hne.symm).1 hj⟩
    · rintro ⟨hne, he⟩
      exact ⟨(mem_joined hne).2 he, hne.symm⟩
  · refine iff_of_false (fun hj => hi ?_) fun h => hi h.1
    have hlt := lt_length_of_mem hj
    rwa [length_edgeRows] at hlt

/-- **The rows of a list of edges are normal** if all ends are nodes. -/
theorem normalRows_edgeRows (h : ∀ e ∈ edges, e.1 < n ∧ e.2 < n) : NormalRows (edgeRows n edges) where
  ascending i := by
    by_cases hi : i < n
    · rw [getD_edgeRows hi]
      exact pairwise_normalRow i _
    · rw [List.getD_eq_getElem?_getD, List.getElem?_eq_none (by rw [length_edgeRows]; omega)]
      exact .nil
  lt {i j} hj := by
    rw [length_edgeRows]
    obtain ⟨-, -, he | he⟩ := mem_edgeRows.1 hj
    · exact (h _ he).2
    · exact (h _ he).1
  loopless i hi := (mem_edgeRows.1 hi).2.1 rfl
  symm {i j} hj := by
    obtain ⟨hi, hne, he⟩ := mem_edgeRows.1 hj
    have hlt : j < n := he.elim (fun he => (h _ he).2) fun he => (h _ he).1
    exact mem_edgeRows.2 ⟨hlt, hne.symm, he.symm⟩

/-- The ends of each edge but loops are joined if they all are nodes. -/
theorem mem_edgeRows_of_lt (h : ∀ e ∈ edges, e.1 < n ∧ e.2 < n) {j : Nat} :
    j ∈ (edgeRows n edges).getD i [] ↔ ((i, j) ∈ edges ∨ (j, i) ∈ edges) ∧ i ≠ j := by
  rw [mem_edgeRows, and_comm (a := i ≠ j), and_iff_right_iff_imp]
  rintro ⟨he | he, -⟩
  · exact (h _ he).1
  · exact (h _ he).2

/-- **Which lists of edges make a graph**, and which one. -/
theorem ofEdges_eq_ok_iff {g : Csr} :
    ofEdges n edges = .ok g ↔ (∀ e ∈ edges, e.1 < n ∧ e.2 < n) ∧ g = ofRows (edgeRows n edges) := by
  rw [ofEdges, bind_eq_ok_iff]
  constructor
  · rintro ⟨_, hcheck, hg⟩
    exact ⟨checkEdges_eq_ok_iff.1 hcheck, (Except.ok.inj hg).symm⟩
  · rintro ⟨hcheck, rfl⟩
    exact ⟨(), checkEdges_eq_ok_iff.2 hcheck, rfl⟩

end

/-! ### Numbers of edges -/

/-- The pairs of adjacent nodes, the smaller node first. -/
def edges (g : Csr) : Set (Nat × Nat) := {e | e.1 < e.2 ∧ g.Lists e.1 e.2}

section
variable {G : Adjacency} {n : Nat} (h : G.Undirected) (hlt : ∀ u, ∀ v ∈ G u, v < n)
include h

/-- The neighbours of a node lie below it or above it. -/
theorem card_above_add_card_below (u : Nat) :
    ((G u).filter (u < ·)).card + ((G u).filter (· < u)).card = (G u).card := by
  have hbelow : (G u).filter (· < u) = (G u).filter (¬ u < ·) := by
    refine Finset.filter_congr fun v hv => ?_
    have hne : v ≠ u := fun he => h.loopless u (he ▸ hv)
    omega
  rw [hbelow, Finset.card_filter_add_card_filter_not]

include hlt

/-- As many neighbours lie above their nodes as below. -/
theorem sum_card_above_eq :
    ∑ u ∈ Finset.range n, ((G u).filter (u < ·)).card =
      ∑ u ∈ Finset.range n, ((G u).filter (· < u)).card := by
  have habove : ∀ u ∈ Finset.range n, (G u).filter (u < ·) =
      Finset.bipartiteAbove (fun u v => u < v ∧ v ∈ G u) (Finset.range n) u := by
    intro u _
    ext v
    simp only [Finset.bipartiteAbove, Finset.mem_filter, Finset.mem_range]
    exact ⟨fun hv => ⟨hlt u v hv.1, hv.2, hv.1⟩, fun hv => ⟨hv.2.2, hv.2.1⟩⟩
  have hbelow : ∀ u ∈ Finset.range n, (G u).filter (· < u) =
      Finset.bipartiteBelow (fun v u => v < u ∧ u ∈ G v) (Finset.range n) u := by
    intro u _
    ext v
    simp only [Finset.bipartiteBelow, Finset.mem_filter, Finset.mem_range]
    exact ⟨fun hv => ⟨hlt u v hv.1, hv.2, h.symm hv.1⟩, fun hv => ⟨h.symm hv.2.2, hv.2.1⟩⟩
  rw [Finset.sum_congr rfl fun u hu => congrArg _ (habove u hu),
    Finset.sum_congr rfl fun u hu => congrArg _ (hbelow u hu)]
  exact Finset.sum_card_bipartiteAbove_eq_sum_card_bipartiteBelow _

end

/-- **Half the entries are edges.** -/
theorem NormalRows.length_targets {rows : List (List Nat)} (h : NormalRows rows) :
    (ofRows rows).targets.length = 2 * (ofRows rows).edges.ncard := by
  have hG := h.undirected
  have hlt : ∀ u, ∀ v ∈ (ofRows rows).adjacency u, v < rows.length := fun u v hv =>
    h.lt (mem_adjacency_ofRows.1 hv)
  have hedges : (ofRows rows).edges = ((Finset.range rows.length).sigma fun u =>
      ((ofRows rows).adjacency u).filter (u < ·)).map (Equiv.sigmaEquivProd Nat Nat).toEmbedding := by
    ext ⟨u, v⟩
    simp only [edges, Set.mem_ofPred_eq, Finset.coe_map, Set.mem_image, Finset.mem_coe,
      Finset.mem_sigma, Finset.mem_range, Finset.mem_filter, lists_ofRows, mem_adjacency_ofRows]
    constructor
    · rintro ⟨huv, hv⟩
      exact ⟨⟨u, v⟩, ⟨lt_length_of_mem hv, hv, huv⟩, rfl⟩
    · rintro ⟨⟨u', v'⟩, ⟨-, hv, huv⟩, he⟩
      obtain ⟨rfl, rfl⟩ := Prod.mk.inj he
      exact ⟨huv, hv⟩
  rw [hedges, Set.ncard_coe_finset, Finset.card_map, Finset.card_sigma, ← h.sum_card_adjacency,
    Nat.two_mul]
  conv_rhs => rhs; rw [sum_card_above_eq hG hlt]
  rw [← Finset.sum_add_distrib]
  exact Finset.sum_congr rfl fun u _ => (card_above_add_card_below hG u).symm

end Csr

end Unknowns
