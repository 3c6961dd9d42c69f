import Unknowns.Mesh.Assembled
import Unknowns.Proofs.Lists

/-!
# Connectivities by dimension

The ids of an element are given by dimension, and its connectivity lists them one
dimension after another.  As many as a cell has sub-entities of each dimension
fill the cell (`Cell.FilledBy`), and what was given for a dimension can be read off
the connectivity again (`ofDimension_subEntities`).
-/

namespace Unknowns

open Assembly (subEntities)

namespace Cell

theorem dimension_lt (cell : Cell) : cell.dimension < 256 := by
  cases cell with
  | simplex d => exact d.toNat_lt
  | _ => simp [dimension]

/-- Sub-entities by dimension: first as many nodes as the cell has, then its edges, and so on.  All
these can be counted. -/
def FilledBy (cell : Cell) (connectivity : List SubEntity) : Prop :=
  cell.Countable ∧ connectivity.map (·.dim.toNat) =
    (List.range (cell.dimension + 1)).flatMap fun dim => .replicate (cell.subEntityCount dim) dim

/-- What fills a cell has as many entries as the cell has sub-entities. -/
theorem FilledBy.length {cell : Cell} {connectivity : List SubEntity}
    (h : cell.FilledBy connectivity) : connectivity.length = total cell.subEntityCounts := by
  have hlength := congrArg List.length h.2
  rw [List.length_map, length_flatMap] at hlength
  rw [hlength, subEntityCounts]
  simp only [List.length_replicate]

end Cell

/-- The sub-entities of one dimension, in the order in which they are listed. -/
def ofDimension (dim : Nat) (connectivity : List SubEntity) : List SubEntity :=
  connectivity.filter fun x => x.dim.toNat = dim

theorem mem_ofDimension {dim : Nat} {connectivity : List SubEntity} {x : SubEntity} :
    x ∈ ofDimension dim connectivity ↔ x ∈ connectivity ∧ x.dim.toNat = dim := by
  simp [ofDimension]

/-- If the ids of one dimension are known, so is which of its sub-entities are listed. -/
theorem mk_mem_iff (dim : UInt8) {ids : List UInt64} {connectivity : List SubEntity}
    (h : ofDimension dim.toNat connectivity = ids.map (SubEntity.mk dim)) (id : UInt64) :
    ⟨dim, id⟩ ∈ connectivity ↔ id ∈ ids := by
  have hlisted : ⟨dim, id⟩ ∈ ofDimension dim.toNat connectivity ↔ ⟨dim, id⟩ ∈ connectivity :=
    mem_ofDimension.trans (and_iff_left rfl)
  rw [← hlisted, h]
  simp

theorem length_subEntities (dim : Nat) (ids : List (List UInt64)) :
    (subEntities dim ids).length = ids.flatten.length := by
  induction ids generalizing dim with
  | nil => rfl
  | cons ids rest ih => simp [subEntities, ih]

theorem toNat_toUInt8 {dim : Nat} (h : dim < 256) : dim.toUInt8.toNat = dim :=
  Nat.mod_eq_of_lt h

section
variable {dim : Nat} {ids : List (List UInt64)}

theorem map_dim_subEntities {count : Nat → Nat} (hdim : dim + ids.length ≤ 256)
    (hcount : ids.map List.length = (List.range' dim ids.length).map count) :
    (subEntities dim ids).map (·.dim.toNat) =
      (List.range' dim ids.length).flatMap fun d => .replicate (count d) d := by
  induction ids generalizing dim with
  | nil => rfl
  | cons ids rest ih =>
    rw [List.length_cons] at hdim
    rw [List.length_cons, List.range'_succ, List.map_cons, List.map_cons] at hcount
    obtain ⟨hhead, htail⟩ := List.cons.inj hcount
    have hfirst : (ids.map (SubEntity.mk dim.toUInt8)).map (·.dim.toNat) =
        .replicate (count dim) dim := by
      simp [← hhead, toNat_toUInt8 (by omega : dim < 256), Function.comp_def, List.map_const']
    rw [subEntities, List.map_append, hfirst, ih (by omega) htail, List.length_cons,
      List.range'_succ, List.flatMap_cons]

theorem le_dim_of_mem_subEntities (hdim : dim + ids.length ≤ 256) {x : SubEntity}
    (hx : x ∈ subEntities dim ids) : dim ≤ x.dim.toNat := by
  induction ids generalizing dim with
  | nil => cases hx
  | cons ids rest ih =>
    rw [List.length_cons] at hdim
    rcases List.mem_append.1 hx with hx | hx
    · obtain ⟨g, -, rfl⟩ := List.mem_map.1 hx
      exact Nat.le_of_eq (toNat_toUInt8 (by omega : dim < 256)).symm
    · exact Nat.le_of_succ_le (ih (by omega) hx)

/-- **What was given for a dimension is what is listed of it**, in the same order. -/
theorem ofDimension_subEntities (hdim : dim + ids.length ≤ 256) (i : Nat) :
    ofDimension (dim + i) (subEntities dim ids) =
      (ids[i]?.getD []).map (SubEntity.mk (dim + i).toUInt8) := by
  induction ids generalizing dim i with
  | nil => rfl
  | cons ids rest ih =>
    rw [List.length_cons] at hdim
    have hrest : ∀ x ∈ subEntities (dim + 1) rest, dim + 1 ≤ x.dim.toNat :=
      fun x => le_dim_of_mem_subEntities (by omega)
    have hown : ∀ x ∈ ids.map (SubEntity.mk dim.toUInt8), x.dim.toNat = dim := by
      intro x hx
      obtain ⟨g, -, rfl⟩ := List.mem_map.1 hx
      exact toNat_toUInt8 (by omega)
    unfold ofDimension at ih ⊢
    rw [subEntities, List.filter_append]
    cases i with
    | zero =>
      rw [List.filter_eq_self.2 fun x hx => by simpa using hown x hx,
        List.filter_eq_nil_iff.2 fun x hx => by simpa using Nat.ne_of_gt (hrest x hx)]
      simp
    | succ i =>
      rw [List.filter_eq_nil_iff.2 fun x hx => by simpa using (hown x hx).trans_ne (by omega),
        List.nil_append, show dim + (i + 1) = dim + 1 + i by omega, ih (by omega)]
      simp

/-- Ids of the right number for each dimension fill the cell. -/
theorem filledBy_subEntities {cell : Cell} (hcountable : cell.Countable)
    (h : ids.map List.length = cell.subEntityCounts) : cell.FilledBy (subEntities 0 ids) := by
  refine ⟨hcountable, ?_⟩
  have hlength : ids.length = cell.dimension + 1 := by
    rw [← List.length_map, h, Cell.length_subEntityCounts]
  have hdim := cell.dimension_lt
  rw [Cell.subEntityCounts, List.range_eq_range', ← hlength] at h
  rw [map_dim_subEntities (by omega) h, List.range_eq_range', hlength]

end

end Unknowns
