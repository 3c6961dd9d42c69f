import Unknowns.Proofs.Field.Merge

/-!
# The keys of an element

The connectivity of an element lists its sub-entities by dimension.  A place of the
layout finds its sub-entity there, after those of the lower dimensions
(`entityBase`).  Sub-cells of different dimensions have different positions, all of
them within the list (`position_lt`, `position_inj`), so looking them up never
fails, and different places have different keys if the sub-entities are different.

Merging counts the sub-entities of the cell first, so a merged layout has a cell whose
sub-entities a word can count, and there is no other condition.
-/

namespace Unknowns

namespace BlockLayout

variable {cell : Cell} {dim dim' subCell subCell' : Nat}

/-! ### Positions -/

theorem entityBase_succ (h : dim ≤ cell.dimension) :
    entityBase cell (dim + 1) = entityBase cell dim + cell.subEntityCount dim := by
  have hlt : dim < cell.subEntityCounts.length := by
    rw [Cell.length_subEntityCounts]
    omega
  have hget : cell.subEntityCounts[dim] = cell.subEntityCount dim := by
    simp [Cell.subEntityCounts]
  rw [entityBase, List.take_succ_eq_append_getElem hlt, total_append, hget]
  rfl

theorem entityBase_le (h : dim ≤ dim') : entityBase cell dim ≤ entityBase cell dim' := by
  induction h with
  | refl => exact Nat.le_refl _
  | @step m _ ih =>
    refine Nat.le_trans ih ?_
    by_cases hm : m ≤ cell.dimension
    · rw [entityBase_succ hm]
      exact Nat.le_add_right ..
    · have hlength : cell.subEntityCounts.length ≤ m := by
        rw [Cell.length_subEntityCounts]
        omega
      refine Nat.le_of_eq ?_
      rw [entityBase, entityBase, List.take_of_length_le hlength,
        List.take_of_length_le (Nat.le_succ_of_le hlength)]

/-- There are sub-cells up to the dimension of the cell only. -/
theorem le_dimension_of_lt (h : subCell < cell.subEntityCount dim) : dim ≤ cell.dimension := by
  by_contra hdim
  rw [subEntityCount_eq_zero (Nat.lt_of_not_le hdim)] at h
  exact Nat.not_lt_zero _ h

/-- **The positions of a dimension** end before those of the next. -/
theorem position_lt_base (h : subCell < cell.subEntityCount dim) (hdim : dim < dim') :
    entityBase cell dim + subCell < entityBase cell dim' := by
  have hbase : entityBase cell (dim + 1) ≤ entityBase cell dim' := entityBase_le hdim
  rw [entityBase_succ (le_dimension_of_lt h)] at hbase
  omega

/-- **Every position lies within the list** of all sub-entities. -/
theorem position_lt (h : subCell < cell.subEntityCount dim) :
    entityBase cell dim + subCell < total cell.subEntityCounts := by
  have hlast := position_lt_base h (Nat.lt_succ_of_le (le_dimension_of_lt h))
  have hall : entityBase cell cell.dimension.succ = total cell.subEntityCounts := by
    rw [entityBase, List.take_of_length_le (Nat.le_of_eq (Cell.length_subEntityCounts cell))]
  exact hall ▸ hlast

/-- **No two sub-cells have one position.** -/
theorem position_inj (h : subCell < cell.subEntityCount dim)
    (h' : subCell' < cell.subEntityCount dim')
    (heq : entityBase cell dim + subCell = entityBase cell dim' + subCell') :
    dim = dim' ∧ subCell = subCell' := by
  have hdim : dim = dim' := by
    rcases Nat.lt_trichotomy dim dim' with hlt | hdim | hgt
    · have := position_lt_base h hlt
      omega
    · exact hdim
    · have := position_lt_base h' hgt
      omega
  subst hdim
  exact ⟨rfl, Nat.add_left_cancel heq⟩

/-! ### Looking the positions up -/

variable {l : BlockLayout} {element : Nat} {connectivity : List SubEntity}

/-- **Only the length of the connectivity** can be wrong about it. -/
theorem elementKeys_eq_mismatch_iff :
    l.elementKeys element connectivity =
        .error (.connectivityMismatch element l.connectivityLength connectivity.length) ↔
      connectivity.length ≠ l.connectivityLength := by
  unfold elementKeys
  split
  · next hne => exact iff_of_true rfl hne
  · next heq =>
    refine iff_of_false (fun hc => ?_) heq
    obtain ⟨d, -, hd⟩ := exists_of_mapM_eq_error hc
    unfold keyAt at hd
    split at hd
    · cases hd
    · cases hd

/-- **No position is missed** in a connectivity of the right length. -/
theorem exists_elementKeys (hl : l.Complete)
    (hlength : connectivity.length = l.connectivityLength) :
    ∃ ks, l.elementKeys element connectivity = .ok ks := by
  rw [elementKeys, if_neg (not_not.2 hlength)]
  refine ⟨_, mapM_eq_ok (g := fun d =>
    ⟨(connectivity[entityBase l.cell d.dim + d.subCell]?).getD default, d.field, d.component⟩)
    fun d hd => ?_⟩
  obtain ⟨s, hs, rfl⟩ := List.mem_map.1 hd
  obtain ⟨o, ho⟩ := List.mem_iff_getElem?.1 hs
  have hlt : entityBase l.cell s.place.dim + s.place.subCell < connectivity.length := by
    rw [hlength]
    exact position_lt (place_of_getElem? hl ho).1
  rw [keyAt, List.getElem?_eq_getElem hlt, Option.getD_some]

/-- **Different places have different keys** if the sub-entities are different. -/
theorem nodup_elementKeys (hl : l.Merged) {ks : List DofKey}
    (hks : l.elementKeys element connectivity = .ok ks) (hnodup : connectivity.Nodup) :
    ks.Nodup := by
  obtain ⟨hlength, hget⟩ := getElem?_elementKeys hks
  refine List.pairwise_iff_getElem.2 fun i j hi hj hij heq => ?_
  have hi' : i < l.slots.length := Nat.lt_of_lt_of_eq hi hlength
  have hj' : j < l.slots.length := Nat.lt_of_lt_of_eq hj hlength
  have hs := List.getElem?_eq_getElem hi'
  have ht := List.getElem?_eq_getElem hj'
  obtain ⟨x, hx, hkx⟩ := hget i _ hs
  obtain ⟨y, hy, hky⟩ := hget j _ ht
  rw [List.getElem?_eq_getElem hi] at hkx
  rw [List.getElem?_eq_getElem hj, ← heq, hkx] at hky
  obtain ⟨rfl, hfield, hcomponent⟩ := DofKey.mk.inj (Option.some.inj hky)
  have hposition := (List.getElem?_inj (List.getElem?_eq_some_iff.1 hx).1 hnodup).1 (hx.trans hy.symm)
  obtain ⟨hdim, hcell⟩ := position_inj (place_of_getElem? hl.complete hs).1
    (place_of_getElem? hl.complete ht).1 hposition
  have hbefore := List.pairwise_iff_getElem.1 hl.pairwise_layout i j (by simpa [layout] using hi')
    (by simpa [layout] using hj') hij
  simp only [layout, List.getElem_map, LocalDof.Precedes] at hbefore
  omega

/-- **The keys of an element.**  Asked for a merged layout they are refused exactly if the connectivity
has the wrong length.  Otherwise there is one for each place: on the sub-entity that stands at the
place's position, for its field and component; and if the sub-entities are different, so are the
keys. -/
theorem elementKeys_of_merge {fields : List (Nat × FieldPattern)} {l : BlockLayout}
    (hl : merge fields = .ok l) (element : Nat) (connectivity : List SubEntity) :
    (l.elementKeys element connectivity =
        .error (.connectivityMismatch element l.connectivityLength connectivity.length) ↔
      connectivity.length ≠ l.connectivityLength) ∧
    total l.cell.subEntityCounts < wordSize ∧
    (connectivity.length = l.connectivityLength →
      ∃ ks, l.elementKeys element connectivity = .ok ks ∧ ks.length = l.numDofs ∧
        (∀ (j : Nat) (d : LocalDof), l.layout[j]? = some d → ∃ x,
          connectivity[total (l.cell.subEntityCounts.take d.dim) + d.subCell]? = some x ∧
            ks[j]? = some ⟨x, d.field, d.component⟩) ∧
        (connectivity.Nodup → ks.Nodup)) := by
  obtain ⟨-, -, hmerged⟩ := merge_eq_ok_iff.1 hl
  refine ⟨elementKeys_eq_mismatch_iff, hmerged.countable.total_lt, fun hlength => ?_⟩
  obtain ⟨ks, hks⟩ : ∃ ks, l.elementKeys element connectivity = .ok ks :=
    exists_elementKeys hmerged.complete hlength
  obtain ⟨hcount, hget⟩ := getElem?_elementKeys hks
  refine ⟨ks, hks, hcount, fun j d hd => ?_, nodup_elementKeys hmerged hks⟩
  rw [layout, List.getElem?_map, Option.map_eq_some_iff] at hd
  obtain ⟨s, hs, rfl⟩ := hd
  exact hget j s hs

/-- On a segment with its ends 7 and 9, and itself, two cubic fields have eight different keys. -/
theorem elementKeys_of_merge_cubic : ∃ l ks, merge [(5, cubic), (2, cubic)] = .ok l ∧
    l.elementKeys 0 [⟨0, 7⟩, ⟨0, 9⟩, ⟨1, 3⟩] = .ok ks ∧ ks.length = 8 ∧ ks.Nodup ∧
      ks[7]? = some ⟨⟨1, 3⟩, 5, 1⟩ := by
  obtain ⟨l, hl, hcell, hcount, hlast⟩ : ∃ l, merge [(5, cubic), (2, cubic)] = .ok l ∧
      l.cell = .segment ∧ l.numDofs = 8 ∧ l.layout[7]? = some ⟨1, 0, 5, 1⟩ := by
    refine ⟨⟨.segment, firstPatterns [(5, cubic), (2, cubic)], _⟩, rfl, rfl, ?_, ?_⟩
    · decide +kernel
    · decide +kernel
  obtain ⟨-, -, hkeys⟩ := elementKeys_of_merge hl 0 [⟨0, 7⟩, ⟨0, 9⟩, ⟨1, 3⟩]
  have hlength : [(⟨0, 7⟩ : SubEntity), ⟨0, 9⟩, ⟨1, 3⟩].length = l.connectivityLength := by
    rw [connectivityLength, hcell]
    decide
  obtain ⟨ks, hks, hn, hget, hnodup⟩ := hkeys hlength
  obtain ⟨x, hx, hkx⟩ := hget 7 _ hlast
  rw [hcell] at hx
  obtain rfl : (⟨1, 3⟩ : SubEntity) = x := Option.some.inj hx
  exact ⟨l, ks, hl, hks, hn.trans hcount, hnodup (by decide), hkx⟩

end BlockLayout

end Unknowns
