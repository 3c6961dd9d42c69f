import Unknowns.Field.Pattern
import Unknowns.Proofs.Cell.Simplices
import Unknowns.Proofs.Lists
import Unknowns.Proofs.Outcomes

/-!
# Patterns as numberings

A pattern numbers the unknowns of a field if its sub-cells have each of the numbers
below its count once: `dofs` are the numbers that the sub-cells of its cell have,
and `Numbers` says that these are the numbers below `numDofs` in some order.

Uniform patterns count through their sub-cells, so they list these numbers in
ascending order (`dofs_ofCounts`), and only cells whose sub-entities can be counted
have them.
-/

namespace Unknowns

namespace FieldPattern

/-- The numbers that the sub-cells of the cell have, by dimension and position. -/
def dofs (p : FieldPattern) : List Nat :=
  (List.range (p.cell.dimension + 1)).flatMap fun dim =>
    (List.range (p.cell.subEntityCount dim)).flatMap fun subCell => p.subCellIndices dim subCell

/-- The sub-cells have each number below the count once, and no others. -/
def Numbers (p : FieldPattern) : Prop := p.dofs.Perm (List.range p.numDofs)

/-- The pattern is one that is built from the numbers of unknowns on sub-cells. -/
def Built (cell : Cell) (p : FieldPattern) : Prop :=
  (∃ dofsPerDim, ofDofsPerDim cell dofsPerDim = .ok p) ∨ ∃ k, nodal cell k = .ok p

/-! ### Tables -/

/-- **A table with an entry for each sub-cell** lists its entries. -/
theorem dofs_eq_flatten {p : FieldPattern} (hdims : p.table.indices.length = p.cell.dimension + 1)
    (hcells : ∀ dim cs, p.table.indices[dim]? = some cs → cs.length = p.cell.subEntityCount dim) :
    p.dofs = p.table.indices.flatten.flatten := by
  have hrow : ∀ dim ∈ List.range (p.cell.dimension + 1),
      (List.range (p.cell.subEntityCount dim)).flatMap (p.subCellIndices dim) =
        ((p.table.indices[dim]?).getD []).flatten := fun dim hdim => by
    rw [List.mem_range, ← hdims] at hdim
    have hget := List.getElem?_eq_getElem hdim
    have hentries := flatMap_getElem?_range p.table.indices[dim] fun ids => ids.getD []
    rw [hcells dim _ hget] at hentries
    rw [hget, Option.getD_some]
    refine Eq.trans (List.flatMap_congr fun c _ => ?_) (hentries.trans List.flatMap_id)
    rw [subCellIndices, SubCellTable.dofsAt, hget, Option.getD_some]
  rw [dofs, List.flatMap_congr hrow, ← hdims,
    flatMap_getElem?_range p.table.indices fun cs => (cs.getD []).flatten, List.flatten_flatten]
  rfl

/-! ### Uniform patterns -/

theorem ofCount_eq_ok {first k : Nat} {r : Run} (h : Run.ofCount first k = .ok r) :
    r = ⟨first, k⟩ := by
  obtain ⟨_, -, h⟩ := bind_eq_ok_iff.1 h
  obtain ⟨_, -, h⟩ := bind_eq_ok_iff.1 h
  exact (Except.ok.inj h).symm

/-- The runs of one dimension follow one another. -/
theorem runsFrom_eq_ok {k next n : Nat} {runs : List Run} (h : runsFrom k next n = .ok runs) :
    runs.length = n ∧ (runs.map Run.toList).flatten = List.range' next (n * k) := by
  induction n generalizing next runs with
  | zero =>
    obtain rfl := Except.ok.inj h
    simp
  | succ n ih =>
    obtain ⟨run, hrun, h⟩ := bind_eq_ok_iff.1 h
    obtain ⟨others, hothers, h⟩ := bind_eq_ok_iff.1 h
    obtain rfl := Except.ok.inj h
    obtain rfl := ofCount_eq_ok hrun
    obtain ⟨hlength, hflatten⟩ := ih hothers
    refine ⟨by rw [List.length_cons, hlength], ?_⟩
    rw [List.map_cons, List.flatten_cons, hflatten, Run.toList, List.range'_append_1, Nat.add_comm k,
      ← Nat.succ_mul]

/-- There is a run for each sub-cell of each dimension, and they follow one another. -/
structure Consecutive (cell : Cell) (dim next last : Nat) (ks : List Nat)
    (runs : List (List Run)) : Prop where
  length_eq : runs.length = ks.length
  counts : ∀ i rs, runs[i]? = some rs → cell.subEntityCount? (dim + i) = some rs.length
  le : next ≤ last
  flatten_eq : (runs.map fun rs => rs.map Run.toList).flatten.flatten =
    List.range' next (last - next)

/-- **The runs of all dimensions follow one another.** -/
theorem uniformRuns_eq_ok {cell : Cell} {dim next last : Nat} {ks : List Nat}
    {runs : List (List Run)} (h : uniformRuns cell dim next ks = .ok (runs, last)) :
    Consecutive cell dim next last ks runs := by
  induction ks generalizing dim next last runs with
  | nil =>
    obtain ⟨rfl, rfl⟩ := Prod.mk.inj (Except.ok.inj h)
    exact ⟨rfl, fun i rs hrs => by simp at hrs, Nat.le_refl _, by simp⟩
  | cons k ks ih =>
    obtain ⟨count, hcount, h⟩ := bind_eq_ok_iff.1 h
    obtain ⟨first, hfirst, h⟩ := bind_eq_ok_iff.1 h
    obtain ⟨⟨others, last'⟩, hothers, h⟩ := bind_eq_ok_iff.1 h
    obtain ⟨rfl, rfl⟩ := Prod.mk.inj (Except.ok.inj h)
    obtain ⟨hlength, hflatten⟩ := runsFrom_eq_ok hfirst
    obtain ⟨hlengths, hcounts, hle, hrest⟩ := ih hothers
    have hnext : next ≤ last' := Nat.le_trans (Nat.le_add_right ..) hle
    refine ⟨by rw [List.length_cons, hlengths, List.length_cons], fun i rs hrs => ?_, hnext, ?_⟩
    · cases i with
      | zero =>
        obtain rfl := Option.some.inj hrs
        rw [hlength]
        exact counted_eq_ok_iff.1 hcount
      | succ i =>
        rw [← hcounts i rs hrs, Nat.add_right_comm, Nat.add_assoc]
    · rw [List.map_cons, List.flatten_cons, List.flatten_append, hrest, hflatten,
        List.range'_append_1]
      congr 1
      omega

/-- **A uniform pattern numbers its unknowns in order**, on a cell that can be counted. -/
theorem dofs_ofCounts {cell : Cell} {ks : List Nat} {p : FieldPattern}
    (hlength : ks.length = cell.dimension + 1) (hp : ofCounts cell ks = .ok p) :
    p.cell = cell ∧ cell.Countable ∧ p.dofs = List.range p.numDofs := by
  obtain ⟨⟨runs, last⟩, hruns, hp⟩ := bind_eq_ok_iff.1 hp
  obtain rfl := Except.ok.inj hp
  obtain ⟨hlengths, hcounts, -, hflatten⟩ := uniformRuns_eq_ok hruns
  refine ⟨rfl, Cell.countable_of_isSome fun dim hdim => ?_, ?_⟩
  · have hlt : dim < runs.length := by omega
    have hcount := hcounts dim _ (List.getElem?_eq_getElem hlt)
    rw [Nat.zero_add] at hcount
    rw [hcount]
    rfl
  · rw [dofs_eq_flatten]
    · refine hflatten.trans ?_
      rw [Nat.sub_zero, ← List.range_eq_range']
      rfl
    · rw [table, List.length_map, hlengths]
      exact hlength
    · intro dim cs hcs
      rw [table, List.getElem?_map] at hcs
      obtain ⟨rs, hrs, rfl⟩ := Option.map_eq_some_iff.1 hcs
      have hcount := hcounts dim rs hrs
      rw [Nat.zero_add] at hcount
      show _ = cell.subEntityCount dim
      rw [Cell.subEntityCount, hcount, List.length_map, Option.getD_some]

/-- **Patterns that are built** number their unknowns on a cell that can be counted. -/
theorem Built.numbers {cell : Cell} {p : FieldPattern} (h : p.Built cell) :
    p.cell = cell ∧ cell.Countable ∧ p.Numbers := by
  have hcounts : ∃ ks, ks.length = cell.dimension + 1 ∧ ofCounts cell ks = .ok p := by
    rcases h with ⟨ks, hp⟩ | ⟨k, hp⟩
    · unfold ofDofsPerDim at hp
      split at hp
      · cases hp
      · next hlength =>
        refine ⟨_, ?_, hp⟩
        rw [List.length_append, List.length_replicate]
        omega
    · exact ⟨_, by rw [List.length_cons, List.length_replicate], hp⟩
  obtain ⟨ks, hlength, hp⟩ := hcounts
  obtain ⟨hcell, hcountable, hdofs⟩ := dofs_ofCounts hlength hp
  exact ⟨hcell, hcountable, .of_eq hdofs⟩

end FieldPattern

end Unknowns
