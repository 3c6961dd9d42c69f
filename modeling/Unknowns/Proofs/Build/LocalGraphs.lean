import Unknowns.Proofs.Build.Couplings
import Unknowns.Proofs.Graph.EdgeLists
import Unknowns.Proofs.Graph.Ordering

/-!
# From pairs of ids to a graph of local entries

The rows of a graph are filled pair by pair (`fillRows`), each pair going to the local
entry of its row, and what a row has in the end is the set of its columns
(`fillRows_eq`).  So neither the order of the pairs nor repetitions matter
(`ofPairs_congr`).

The graph of local entries joins two of them when either has the other as a column
(`mem_localEdges`); columns that are not rows, and rows that are coupled in one
direction only, do not keep it from being valid, and so from being ordered:
`localGraph_symmetrises`.
-/

namespace Unknowns

namespace RowGraph

/-- Row `lid` has the column `c`. -/
def HasColumn (g : RowGraph) (lid : Nat) (c : UInt64) : Prop :=
  ∃ row, g.columns[lid]? = some row ∧ c ∈ row

/-- The columns of all rows as numbers, one row after the other, and the offsets of the rows. -/
def compressed (g : RowGraph) : Csr := .ofRows (g.columns.map fun row => row.map UInt64.toNat)

/-- Puts the column of a pair into the row of the pair, if there is one. -/
def addPair (rows : IndexMap) (columns : List (List UInt64)) (p : UInt64 × UInt64) :
    List (List UInt64) :=
  match rows.lid? p.1 with
  | some lid => columns.modify lid (insertAscending p.2)
  | none => columns

/-- Rows filled pair by pair, each of them beginning with its own id. -/
def fillRows (rows : IndexMap) (pairs : List (UInt64 × UInt64)) : List (List UInt64) :=
  pairs.foldl (addPair rows) (rows.gids.map fun gid => [gid])

section
variable {rows : IndexMap} {pairs pairs' : List (UInt64 × UInt64)}

/-! ### Rows -/

theorem columnsOf_congr {gid : UInt64} (h : ∀ c, (gid, c) ∈ pairs' ↔ (gid, c) ∈ pairs) :
    columnsOf pairs' gid = columnsOf pairs gid :=
  eq_of_mem_iff (pairwise_ascending _) (pairwise_ascending _) fun c => by
    rw [mem_columnsOf, mem_columnsOf, h]

/-- **Only the pairs of the rows matter**, whatever their order and multiplicity. -/
theorem ofPairs_congr (h : ∀ gid ∈ rows.gids, ∀ c, (gid, c) ∈ pairs' ↔ (gid, c) ∈ pairs) :
    ofPairs rows pairs' = ofPairs rows pairs := by
  rw [ofPairs, ofPairs]
  exact congrArg _ (List.map_congr_left fun gid hgid => columnsOf_congr (h gid hgid))

/-- One more pair puts its column into its row, if it has one. -/
theorem addPair_map_columnsOf (p : UInt64 × UInt64) :
    addPair rows (rows.gids.map (columnsOf pairs)) p =
      rows.gids.map (columnsOf (pairs ++ [p])) := by
  have hother : ∀ gid, gid ≠ p.1 → columnsOf pairs gid = columnsOf (pairs ++ [p]) gid := by
    intro gid hne
    refine (columnsOf_congr fun c => ?_).symm
    rw [List.mem_append, List.mem_singleton, or_iff_left]
    exact fun he => hne (congrArg Prod.fst he)
  cases hlid : rows.lid? p.1 with
  | none =>
    rw [addPair, hlid]
    refine List.map_congr_left fun gid hgid => hother gid fun he => ?_
    exact List.idxOf?_eq_none_iff.1 hlid (he ▸ hgid)
  | some lid =>
    rw [addPair, hlid]
    refine List.ext_getElem? fun i => ?_
    rw [List.getElem?_modify, List.getElem?_map, List.getElem?_map]
    cases hgid : rows.gids[i]? with
    | none => rfl
    | some gid =>
      refine congrArg some ?_
      show (if lid = i then insertAscending p.2 (columnsOf pairs gid) else columnsOf pairs gid) = _
      by_cases hi : lid = i
      · subst hi
        obtain rfl := Option.some.inj ((IndexMap.lid?_eq_some_iff.1 hlid).symm.trans hgid)
        rw [if_pos rfl]
        refine eq_of_mem_iff (pairwise_insertAscending (pairwise_ascending _))
          (pairwise_ascending _) fun c => ?_
        rw [mem_insertAscending, mem_columnsOf, mem_columnsOf, List.mem_append,
          List.mem_singleton, Prod.ext_iff, and_iff_right rfl]
        tauto
      · rw [if_neg hi]
        refine hother gid fun he => hi ?_
        have hback := IndexMap.lid?_eq_some_iff.2 hgid
        rw [he, hlid] at hback
        exact Option.some.inj hback

/-- **The rows are filled with their columns.** -/
theorem fillRows_eq (rows : IndexMap) (pairs : List (UInt64 × UInt64)) :
    fillRows rows pairs = (ofPairs rows pairs).columns := by
  have hfold : ∀ before : List (UInt64 × UInt64),
      pairs.foldl (addPair rows) (rows.gids.map (columnsOf before)) =
        rows.gids.map (columnsOf (before ++ pairs)) := by
    induction pairs with
    | nil => simp
    | cons p pairs ih =>
      intro before
      rw [List.foldl_cons, addPair_map_columnsOf, ih, List.append_assoc, List.singleton_append]
  exact hfold []

end

/-! ### Edges between local entries -/

/-- All couplings between different local entries, as edges. -/
def edges (g : RowGraph) : List (Nat × Nat) :=
  g.columns.zipIdx.flatMap fun r => localEdges g.rows r.2 r.1

theorem mem_localEdges {rows : IndexMap} {lid : Nat} {columns : List UInt64} {i j : Nat} :
    (i, j) ∈ localEdges rows lid columns ↔
      i = lid ∧ i ≠ j ∧ ∃ c ∈ columns, rows.gid? j = some c := by
  simp only [localEdges, List.mem_filterMap, Option.bind_eq_some_iff, IndexMap.lid?_eq_some_iff]
  constructor
  · rintro ⟨c, hc, k, hk, he⟩
    split at he
    · cases he
    · next hne =>
      obtain ⟨rfl, rfl⟩ := Prod.mk.inj (Option.some.inj he)
      exact ⟨rfl, Ne.symm hne, c, hc, hk⟩
  · rintro ⟨rfl, hne, c, hc, hj⟩
    exact ⟨c, hc, j, hj, if_neg hne.symm⟩

/-- **An edge leads from a row to another** that it has as a column. -/
theorem mem_edges {g : RowGraph} {i j : Nat} :
    (i, j) ∈ g.edges ↔ i ≠ j ∧ ∃ c, g.rows.gid? j = some c ∧ g.HasColumn i c := by
  simp only [edges, List.mem_flatMap, mem_localEdges, HasColumn, List.mem_zipIdx_iff_getElem?]
  constructor
  · rintro ⟨⟨row, lid⟩, hrow, rfl, hne, c, hc, hj⟩
    exact ⟨hne, c, hj, row, hrow, hc⟩
  · rintro ⟨hne, c, hj, row, hrow, hc⟩
    exact ⟨(row, i), hrow, rfl, hne, c, hc, hj⟩

section
variable (rows : IndexMap) (pairs : List (UInt64 × UInt64))

@[simp] theorem numRows_ofPairs : (ofPairs rows pairs).numRows = rows.size := List.length_map ..

/-- **The ends of all edges are rows.** -/
theorem edges_lt : ∀ e ∈ (ofPairs rows pairs).edges, e.1 < rows.size ∧ e.2 < rows.size := by
  rintro ⟨i, j⟩ he
  obtain ⟨-, c, hj, row, hrow, -⟩ := mem_edges.1 he
  obtain ⟨hi, -⟩ := List.getElem?_eq_some_iff.1 hrow
  obtain ⟨hj, -⟩ := List.getElem?_eq_some_iff.1 hj
  exact ⟨numRows_ofPairs rows pairs ▸ hi, hj⟩

/-- **The graph of local entries exists**, with the rows of the edges. -/
theorem localGraph_ofPairs : (ofPairs rows pairs).localGraph =
    .ok (.ofRows (Csr.edgeRows rows.size (ofPairs rows pairs).edges)) := by
  rw [localGraph, numRows_ofPairs]
  exact Csr.ofEdges_eq_ok_iff.2 ⟨edges_lt rows pairs, rfl⟩

/-- **From pairs to rows, and from rows to a graph that can be ordered**, whatever the pairs.

* Filling the rows pair by pair gives each local entry the ascending columns of its id: that id, and
  all that are paired with it.  They are found by the local entry and by the id, and stand between
  the offsets of the row where all rows are stored one after the other.
* Pairs of other rows do not matter, nor the order of the pairs or repetitions; the pairs can be
  those of a table of couplings.
* The graph of local entries is made and valid.  It joins different entries when one has the id of
  the other as a column, and it is ordered. -/
theorem localGraph_symmetrises :
    fillRows rows pairs = (ofPairs rows pairs).columns ∧ (ofPairs rows pairs).numRows = rows.size ∧
    (∀ lid gid, rows.gid? lid = some gid → ∃ row, (ofPairs rows pairs).columns[lid]? = some row ∧
      row.Pairwise (· < ·) ∧ (∀ c, c ∈ row ↔ c = gid ∨ (gid, c) ∈ pairs) ∧
      (ofPairs rows pairs).rowByGid? gid = some row ∧
      (ofPairs rows pairs).compressed.row? lid = some (row.map UInt64.toNat)) ∧
    (∀ pairs', (∀ gid ∈ rows.gids, ∀ c, (gid, c) ∈ pairs' ↔ (gid, c) ∈ pairs) →
      ofPairs rows pairs' = ofPairs rows pairs) ∧
    (∀ t : Couplings, (∀ gid ∈ rows.gids, ∀ c, c ∈ (t.get? gid).getD [] ↔ (gid, c) ∈ pairs) →
      ofCouplings rows t = ofPairs rows pairs) ∧
    ∃ l, (ofPairs rows pairs).localGraph = .ok l ∧ l.validate = .ok () ∧ l.numNodes = rows.size ∧
      (∀ i j a b, i ≠ j → rows.gid? i = some a → rows.gid? j = some b →
        (l.Lists i j ↔ (ofPairs rows pairs).HasColumn i b ∨ (ofPairs rows pairs).HasColumn j a)) ∧
      ∀ aggressive, ∃ r, MinimumDegree.order l aggressive = .ok r := by
  have hnormal := Csr.normalRows_edgeRows (edges_lt rows pairs)
  refine ⟨fillRows_eq rows pairs, numRows_ofPairs rows pairs, fun lid gid hgid => ?_,
    fun pairs' h => ofPairs_congr h, fun t h => ofPairs_congr fun gid hgid c => ?_, _,
    localGraph_ofPairs rows pairs, hnormal.validate, by simp, fun i j a b hne hi hj => ?_,
    fun aggressive => ⟨_, MinimumDegree.order_eq_ok hnormal aggressive hnormal.normalise⟩⟩
  · have hrow : (ofPairs rows pairs).columns[lid]? = some (columnsOf pairs gid) :=
      (List.getElem?_map ..).trans (congrArg _ hgid)
    refine ⟨_, hrow, pairwise_columnsOf pairs gid, fun c => mem_columnsOf,
      rowByGid?_ofPairs_eq_some_iff.2 ⟨List.mem_of_getElem? hgid, rfl⟩, ?_⟩
    rw [compressed, Csr.row?_ofRows, List.getElem?_map, hrow]
    rfl
  · rw [Couplings.mem_pairs]
    exact h gid hgid c
  · rw [Csr.lists_ofRows, Csr.mem_edgeRows_of_lt (edges_lt rows pairs), and_iff_left hne, mem_edges,
      mem_edges, and_iff_right hne, and_iff_right hne.symm]
    have hrows : (ofPairs rows pairs).rows = rows := rfl
    simp only [hrows, hi, hj, Option.some.injEq, exists_eq_left']

end

/-- Two rows in descending order.  One has the other as a column, one a column that is no row, and
there is a pair of a row that is not there. -/
theorem localGraph_symmetrises_two : ∃ rows : IndexMap, ∃ l : Csr, rows.gids = [5, 4] ∧
    (ofPairs rows [(4, 9), (5, 4), (7, 5)]).columns = [[4, 5], [4, 9]] ∧
    ofPairs rows [(5, 4), (4, 9), (4, 9)] = ofPairs rows [(4, 9), (5, 4), (7, 5)] ∧
    (ofPairs rows [(4, 9), (5, 4), (7, 5)]).localGraph = .ok l ∧ l.Lists 0 1 ∧ l.Lists 1 0 ∧
    ∃ r, MinimumDegree.order l true = .ok r := by
  let rows : IndexMap := ⟨[5, 4], 10, by simp, by simp⟩
  obtain ⟨-, -, -, hcongr, -, l, hl, -, -, hlists, horder⟩ :=
    localGraph_symmetrises rows [(4, 9), (5, 4), (7, 5)]
  have hcolumn : (ofPairs rows [(4, 9), (5, 4), (7, 5)]).HasColumn 0 4 :=
    ⟨[4, 5], by decide, by decide⟩
  refine ⟨rows, l, rfl, by decide, hcongr _ ?_, hl, ?_, ?_, horder true⟩
  · simp [rows]
  · exact (hlists 0 1 5 4 (by decide) rfl rfl).2 (.inl hcolumn)
  · exact (hlists 1 0 4 5 (by decide) rfl rfl).2 (.inr hcolumn)

end RowGraph

end Unknowns
