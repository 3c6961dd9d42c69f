import Mathlib.Data.List.Nodup
import Unknowns.RowGraph
import Unknowns.Proofs.Index.Lookup

/-!
# Couplings as a relation

A table of couplings stands for the pairs of ids that occur in one element
(`mem_ofElements`, `mem_pairs`).  The row of a graph is the ascending list of the
columns that a list of pairs gives to it, itself included (`mem_columnsOf`,
`rowByGid?_ofPairs_eq_some_iff`).
-/

namespace Unknowns

namespace Couplings

/-- Two ids occur in one of the elements. -/
def Joined (elements : List (List UInt64)) (g c : UInt64) : Prop :=
  ∃ gids ∈ elements, g ∈ gids ∧ c ∈ gids

theorem mem_foldl_update (gids rows : List UInt64) (t : Couplings) (g c : UInt64) :
    c ∈ ((rows.foldl (fun t row => t.update row fun cols => ascending (gids ++ cols.getD [])) t).get?
        g).getD [] ↔
      c ∈ (t.get? g).getD [] ∨ g ∈ rows ∧ c ∈ gids := by
  induction rows generalizing t with
  | nil => simp
  | cons row rows ih =>
    rw [List.foldl_cons, ih, Table.get?_update]
    by_cases hrow : g = row
    · subst hrow
      simp only [if_true, Option.getD_some, mem_ascending, List.mem_append, List.mem_cons, true_or,
        true_and]
      grind
    · simp [hrow]

theorem mem_addElement (t : Couplings) (gids : List UInt64) (g c : UInt64) :
    c ∈ ((t.addElement gids).get? g).getD [] ↔
      c ∈ (t.get? g).getD [] ∨ g ∈ gids ∧ c ∈ gids := by
  rw [addElement, mem_foldl_update, mem_ascending]

/-- **An id is coupled to those that occur in one element with it.** -/
theorem mem_ofElements {elements : List (List UInt64)} {g c : UInt64} :
    c ∈ ((ofElements elements).get? g).getD [] ↔ Joined elements g c := by
  have hfold : ∀ t : Couplings, c ∈ ((elements.foldl addElement t).get? g).getD [] ↔
      c ∈ (t.get? g).getD [] ∨ Joined elements g c := by
    induction elements with
    | nil => simp [Joined]
    | cons gids elements ih =>
      intro t
      rw [List.foldl_cons, ih, mem_addElement, or_assoc]
      simp only [Joined, List.mem_cons, exists_eq_or_imp]
  have hempty : c ∉ ((Table.empty : Couplings).get? g).getD [] := List.not_mem_nil
  rw [ofElements, hfold, or_iff_right hempty]

theorem mem_pairs {t : Couplings} {g c : UInt64} : (g, c) ∈ t.pairs ↔ c ∈ (t.get? g).getD [] := by
  simp only [pairs, List.mem_flatMap, List.mem_map, Prod.mk.injEq]
  constructor
  · rintro ⟨⟨row, cols⟩, he, col, hcol, rfl, rfl⟩
    rw [Table.mem_entries_iff.1 he]
    exact hcol
  · intro hc
    cases hg : t.get? g with
    | none =>
      rw [hg] at hc
      cases hc
    | some cols =>
      rw [hg] at hc
      exact ⟨(g, cols), Table.mem_entries_iff.2 hg, c, hc, rfl, rfl⟩

theorem Joined.symm {elements : List (List UInt64)} {g c : UInt64} (h : Joined elements g c) :
    Joined elements c g := by
  obtain ⟨gids, hmem, hg, hc⟩ := h
  exact ⟨gids, hmem, hc, hg⟩

end Couplings

namespace RowGraph

theorem mem_columnsOf {pairs : List (UInt64 × UInt64)} {g c : UInt64} :
    c ∈ columnsOf pairs g ↔ c = g ∨ (g, c) ∈ pairs := by
  rw [columnsOf, mem_ascending, List.mem_cons, List.mem_filterMap]
  refine or_congr_right ⟨?_, fun h => ⟨(g, c), h, if_pos rfl⟩⟩
  rintro ⟨⟨row, col⟩, hmem, hcol⟩
  split at hcol
  · next hrow =>
    obtain rfl : row = g := hrow
    obtain rfl := Option.some.inj hcol
    exact hmem
  · cases hcol

theorem pairwise_columnsOf (pairs : List (UInt64 × UInt64)) (g : UInt64) :
    (columnsOf pairs g).Pairwise (· < ·) :=
  (pairwise_ascending _).imp fun h => Std.compare_eq_lt.1 h

/-- **The ids of the map have rows**, which are made of their pairs, and no others have. -/
theorem rowByGid?_ofPairs_eq_some_iff {rows : IndexMap} {pairs : List (UInt64 × UInt64)}
    {g : UInt64} {row : List UInt64} :
    (ofPairs rows pairs).rowByGid? g = some row ↔ g ∈ rows.gids ∧ row = columnsOf pairs g := by
  simp only [rowByGid?, Option.bind_eq_some_iff, ofPairs, IndexMap.lid?_eq_some_iff, IndexMap.gid?,
    List.getElem?_map]
  constructor
  · rintro ⟨lid, hlid, hrow⟩
    rw [hlid] at hrow
    exact ⟨List.mem_of_getElem? hlid, (Option.some.inj hrow).symm⟩
  · rintro ⟨hg, rfl⟩
    obtain ⟨lid, hlid⟩ := List.mem_iff_getElem?.1 hg
    exact ⟨lid, hlid, congrArg _ hlid⟩

end RowGraph

end Unknowns
