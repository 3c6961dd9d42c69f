import Unknowns.Proofs.Graph.EdgeLists
import Unknowns.Proofs.Graph.Ordering
import Unknowns.Proofs.Graph.Reads

/-!
# Normal graphs are canonical

Of the graphs that are accepted, those with as many nodes and the same adjacent nodes
are normalised to the same graph, however their rows are ordered and whatever loops and
repetitions these have.  The same graph is made of any list of its edges, and it is
ordered as they are: `normalise_canonical`.
-/

namespace Unknowns

namespace Csr

/-- The same nodes stand in the same rows, apart from loops. -/
def SameAdjacency (g g' : Csr) : Prop :=
  g'.numNodes = g.numNodes ∧ ∀ i j, i ≠ j → (g'.Lists i j ↔ g.Lists i j)

/-- The rows of an accepted graph list what stands in them. -/
theorem WellFormed.lists_iff {g : Csr} (h : g.WellFormed) {i j : Nat} :
    g.Lists i j ↔ j ∈ g.rows.getD i [] := by
  have hlists : (ofRows g.rows).Lists i j ↔ j ∈ g.rows.getD i [] := lists_ofRows
  rwa [h.toTiled.ofRows_rows] at hlists

theorem WellFormed.normalise {g : Csr} (h : g.WellFormed) :
    g.normalise = .ok (ofRows (normalRows 0 g.rows)) := normalise_of_check (check_eq_ok_iff.2 h)

theorem WellFormed.normalRows {g : Csr} (h : g.WellFormed) : NormalRows (normalRows 0 g.rows) :=
  (closed_of_check (check_eq_ok_iff.2 h)).normalRows

/-- Normal rows list what stands in the rows of the accepted graph, without loops. -/
theorem WellFormed.mem_normalRows {g : Csr} (h : g.WellFormed) {i j : Nat} :
    j ∈ (Csr.normalRows 0 g.rows).getD i [] ↔ g.Lists i j ∧ i ≠ j := by
  rw [getD_normalRows, mem_normalRow, h.lists_iff, ne_comm]

/-- **Graphs with the same adjacent nodes** have the same normal rows. -/
theorem WellFormed.normalRows_eq {g g' : Csr} (h : g.WellFormed) (h' : g'.WellFormed)
    (hsame : g.SameAdjacency g') : Csr.normalRows 0 g'.rows = Csr.normalRows 0 g.rows := by
  refine h'.normalRows.ext h.normalRows (by simp [hsame.1]) fun i j => ?_
  rw [h'.mem_normalRows, h.mem_normalRows]
  exact and_congr_left fun hne => hsame.2 i j hne

/-- **A list of the edges of a graph** has its normal rows. -/
theorem WellFormed.edgeRows_eq_iff {g : Csr} (h : g.WellFormed) {edges : List (Nat × Nat)}
    (hlt : ∀ e ∈ edges, e.1 < g.numNodes ∧ e.2 < g.numNodes) :
    edgeRows g.numNodes edges = Csr.normalRows 0 g.rows ↔
      ∀ i j, i ≠ j → (g.Lists i j ↔ (i, j) ∈ edges ∨ (j, i) ∈ edges) := by
  have hedges : ∀ i j, j ∈ (edgeRows g.numNodes edges).getD i [] ↔
      ((i, j) ∈ edges ∨ (j, i) ∈ edges) ∧ i ≠ j := fun i j => mem_edgeRows_of_lt hlt
  constructor
  · intro heq i j hne
    have hsame := (hedges i j).symm.trans (heq ▸ h.mem_normalRows)
    rw [and_iff_left hne, and_iff_left hne] at hsame
    exact hsame.symm
  · intro hsame
    refine (normalRows_edgeRows hlt).ext h.normalRows (by simp) fun i j => ?_
    rw [hedges, h.mem_normalRows]
    exact and_congr_left fun hne => (hsame i j hne).symm

end Csr

namespace MinimumDegree

/-- What is ordered is the normal graph. -/
theorem order_congr {g g' : Csr} (h : g.normalise = g'.normalise) (aggressive : Bool) :
    order g aggressive = order g' aggressive := by
  rw [order, order, h]

end MinimumDegree

open MinimumDegree in
/-- **Which graphs are accepted, and what is made of them.**

* No read of the check goes behind the end of a list, and it accepts just the well-formed graphs;
  normalising fails as the check does.
* Otherwise the normal graph is valid.  It has the same nodes and the same adjacent nodes, without
  loops and without repetitions, so half its entries are its edges.
* It is normal itself, and all well-formed graphs with the same adjacent nodes are normalised to it,
  so all of them are ordered alike.
* It is made of just those lists of edges whose ends are nodes and which join the same nodes. -/
theorem Csr.normalise_canonical (g : Csr) :
    g.checkReads = g.check ∧ g.check ≠ .error .indexOutOfBounds ∧
    (g.check = .ok () ↔ g.WellFormed) ∧
    (∀ e, g.normalise = .error e ↔ g.check = .error e) ∧
    (g.WellFormed → ∃ h, g.normalise = .ok h ∧ h.validate = .ok () ∧ h.numNodes = g.numNodes ∧
      (∀ i j, h.Lists i j ↔ g.Lists i j ∧ i ≠ j) ∧
      (∀ i row, h.row? i = some row → row.Pairwise (· < ·)) ∧
      h.targets.length = 2 * h.edges.ncard ∧ h.numEdges = h.edges.ncard ∧
      h.normalise = .ok h ∧ (∀ aggressive, order h aggressive = order g aggressive) ∧
      (∀ g', g'.WellFormed → g.SameAdjacency g' → g'.normalise = .ok h ∧
        ∀ aggressive, order g' aggressive = order g aggressive) ∧
      ∀ edges, ofEdges g.numNodes edges = .ok h ↔
        (∀ e ∈ edges, e.1 < g.numNodes ∧ e.2 < g.numNodes) ∧
          ∀ i j, i ≠ j → (g.Lists i j ↔ (i, j) ∈ edges ∨ (j, i) ∈ edges)) := by
  refine ⟨checkReads_eq g, check_ne_indexOutOfBounds g, check_eq_ok_iff,
    fun e => normalise_eq_error_iff, fun hg => ?_⟩
  have hnormal := hg.normalise
  have hrows := hg.normalRows
  have hcount := hrows.length_targets
  refine ⟨_, hnormal, hrows.validate, by simp, fun i j => ?_, fun i row hrow => ?_, hcount, ?_,
    hrows.normalise, fun aggressive => ?_, fun g' hg' hsame => ⟨?_, fun aggressive => ?_⟩,
    fun edges => ?_⟩
  · rw [lists_ofRows, hg.mem_normalRows]
  · have hascending := hrows.ascending i
    rw [row?_ofRows] at hrow
    rw [List.getD_eq_getElem?_getD, hrow] at hascending
    exact hascending.imp Nat.compare_eq_lt.1
  · rw [numEdges, hcount]
    omega
  · exact order_congr (hrows.normalise.trans hnormal.symm) aggressive
  · rw [hg'.normalise, hg.normalRows_eq hg' hsame]
  · exact order_congr (by rw [hg'.normalise, hg.normalRows_eq hg' hsame, hnormal]) aggressive
  · rw [ofEdges_eq_ok_iff]
    refine and_congr_right fun hlt => ?_
    rw [← hg.edgeRows_eq_iff hlt]
    constructor
    · intro he
      rw [← Csr.rows_ofRows (edgeRows _ _), ← he, Csr.rows_ofRows]
    · intro he
      rw [he]

/-- A square with its rows in another order, without the loop and the repetition. -/
def MinimumDegree.turnedSquare : Csr := ⟨[0, 2, 4, 6, 8], [3, 1, 2, 0, 3, 1, 0, 2]⟩

open MinimumDegree in
/-- Two ways to store a square, and a list of its edges with a loop, make the same graph. -/
theorem Csr.normalise_canonical_square : ∃ h : Csr, h = .ofRows [[1, 3], [0, 2], [1, 3], [0, 2]] ∧
    square.WellFormed ∧ turnedSquare.WellFormed ∧ square.SameAdjacency turnedSquare ∧
    square.normalise = .ok h ∧ turnedSquare.normalise = .ok h ∧
    ofEdges 4 [(1, 0), (1, 2), (3, 2), (0, 3), (2, 2), (0, 1)] = .ok h ∧
    order turnedSquare true = order square true ∧ h.edges.ncard = 4 := by
  obtain ⟨-, -, hcheck, -, hall⟩ := normalise_canonical square
  have hsquare : square.WellFormed := hcheck.1 rfl
  have hturned : turnedSquare.WellFormed := check_eq_ok_iff.1 rfl
  obtain ⟨h, hnormal, -, -, -, -, hlength, -, -, -, hsame, -⟩ := hall hsquare
  obtain rfl : h = .ofRows [[1, 3], [0, 2], [1, 3], [0, 2]] := (Except.ok.inj hnormal).symm
  have hadjacency : square.SameAdjacency turnedSquare := by
    refine ⟨rfl, fun i j hne => ?_⟩
    have hrows : Csr.normalRows 0 turnedSquare.rows = Csr.normalRows 0 square.rows := rfl
    have hlists := hturned.mem_normalRows (i := i) (j := j)
    rw [hrows, hsquare.mem_normalRows, and_iff_left hne, and_iff_left hne] at hlists
    exact hlists.symm
  have hcount : 8 = 2 * (ofRows [[1, 3], [0, 2], [1, 3], [0, 2]]).edges.ncard := hlength
  exact ⟨_, rfl, hsquare, hturned, hadjacency, hnormal, (hsame _ hturned hadjacency).1, rfl,
    (hsame _ hturned hadjacency).2 true, by omega⟩

end Unknowns
