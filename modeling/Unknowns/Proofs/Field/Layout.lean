import Unknowns.Field.BlockLayout
import Unknowns.Proofs.Lists
import Unknowns.Proofs.Outcomes

/-!
# Places of a layout

A layout has a place for every unknown of every field, and the places of one
field on one sub-cell stand in it in the order of their components.

* `mem_allSlots`: which places there are;
* `slots_on_subCell`: the places of a field on a sub-cell, picked out of the layout, are just its
  slots there;
* `subCellOffsets_eq_ok`: the `i`-th offset of a field on a sub-cell is the place of component `i`,
  and every place is found so;
* `key_of_offset`, `offset_of_key`: so the keys of an element stand at these offsets.
-/

namespace Unknowns

namespace Table

variable {κ ν : Type} [Ord κ] [Std.TransOrd κ] [Std.LawfulEqOrd κ] [DecidableEq κ]

/-- Entries that are inserted stand over what was there. -/
theorem get?_foldl_insert_entries {es : List (κ × ν)} (h : es.Pairwise fun a b => Before a.1 b.1)
    (t : Table κ ν) (k : κ) :
    (es.foldl (fun t e => t.insert e.1 e.2) t).get? k = (find k es).or (t.get? k) := by
  induction es generalizing t with
  | nil => rfl
  | cons e es ih =>
    obtain ⟨j, v⟩ := e
    have hj := List.pairwise_cons.1 h
    rw [List.foldl_cons, ih hj.2, get?_insert]
    by_cases hk : k = j
    · subst hk
      have hnone : find k es = none := by
        cases hfind : find k es with
        | none => rfl
        | some w =>
          exact absurd (hj.1 (k, w) ((find_eq_some hj.2).1 hfind)) (not_before_self k)
      simp [hnone, find, Std.ReflCmp.compare_self]
    · simp [hk, find]

theorem get?_override (t u : Table κ ν) (k : κ) :
    (t.override u).get? k = (u.get? k).or (t.get? k) :=
  get?_foldl_insert_entries u.sorted t k

/-- In ascending order entries make the table that has them. -/
theorem get?_ofList {es : List (κ × ν)} (h : es.Pairwise fun a b => Before a.1 b.1) (k : κ) :
    (ofList es).get? k = find k es := by
  rw [ofList, get?_foldl_insert_entries h]
  exact Option.or_none

omit [Std.TransOrd κ] [Std.LawfulEqOrd κ] [DecidableEq κ] in
theorem get?_of_isEmpty {t : Table κ ν} (h : t.isEmpty = true) (k : κ) : t.get? k = none := by
  rw [get?, List.isEmpty_iff.1 h]
  rfl

theorem isEmpty_of_forall {t : Table κ ν} (h : ∀ k, t.get? k = none) : t.isEmpty = true := by
  refine List.isEmpty_iff.2 (List.eq_nil_iff_forall_not_mem.2 fun e he => ?_)
  have hget : t.get? e.1 = some e.2 := mem_entries_iff.1 he
  rw [h e.1] at hget
  cases hget

end Table

namespace BlockLayout

/-! ### Slots -/

theorem mem_fieldSlots {dim subCell field : Nat} {p : FieldPattern} {s : Slot} :
    s ∈ fieldSlots dim subCell field p ↔
      s.place.dim = dim ∧ s.place.subCell = subCell ∧ s.place.field = field ∧
        (p.subCellIndices dim subCell)[s.place.component]? = some s.dof := by
  obtain ⟨⟨d, c, f, i⟩, dof⟩ := s
  simp only [fieldSlots, List.mem_map, List.mem_zipIdx_iff_getElem?, Slot.mk.injEq,
    LocalDof.mk.injEq, Prod.exists]
  constructor
  · rintro ⟨dof, i, hget, ⟨rfl, rfl, rfl, rfl⟩, rfl⟩
    exact ⟨rfl, rfl, rfl, hget⟩
  · rintro ⟨rfl, rfl, rfl, hget⟩
    exact ⟨dof, i, hget, ⟨rfl, rfl, rfl, rfl⟩, rfl⟩

theorem getElem?_fieldSlots {dim subCell field i : Nat} {p : FieldPattern} :
    (fieldSlots dim subCell field p)[i]? =
      ((p.subCellIndices dim subCell)[i]?).map fun dof => ⟨⟨dim, subCell, field, i⟩, dof⟩ := by
  rw [fieldSlots, List.getElem?_map, List.getElem?_zipIdx, Option.map_map]
  simp only [Nat.zero_add]
  rfl

theorem subEntityCount_eq_zero {cell : Cell} {dim : Nat} (h : cell.dimension < dim) :
    cell.subEntityCount dim = 0 := by
  rw [Cell.subEntityCount, Cell.subEntityCount?, if_pos h, Option.getD_some]

/-- **A layout has a place for each unknown of each field on each sub-cell.** -/
theorem mem_allSlots {cell : Cell} {fields : List (Nat × FieldPattern)} {s : Slot} :
    s ∈ allSlots cell fields ↔
      s.place.subCell < cell.subEntityCount s.place.dim ∧
        ∃ p, (s.place.field, p) ∈ fields ∧
          (p.subCellIndices s.place.dim s.place.subCell)[s.place.component]? = some s.dof := by
  simp only [allSlots, List.mem_flatMap, List.mem_range, mem_fieldSlots, Prod.exists]
  constructor
  · rintro ⟨dim, -, subCell, hcell, field, p, hp, rfl, rfl, rfl, hget⟩
    exact ⟨hcell, p, hp, hget⟩
  · rintro ⟨hcell, p, hp, hget⟩
    refine ⟨_, ?_, _, hcell, _, p, hp, rfl, rfl, rfl, hget⟩
    by_contra hdim
    rw [subEntityCount_eq_zero (by omega)] at hcell
    exact Nat.not_lt_zero _ hcell

/-- Whether a slot is one of a field on a sub-cell. -/
def On (field dim subCell : Nat) (s : Slot) : Prop :=
  s.place.field = field ∧ s.place.dim = dim ∧ s.place.subCell = subCell

instance (field dim subCell : Nat) : DecidablePred (On field dim subCell) := fun s =>
  inferInstanceAs (Decidable (s.place.field = field ∧ s.place.dim = dim ∧ s.place.subCell = subCell))

/-- **The places of a field on a sub-cell are its slots there.** -/
theorem slots_on_subCell {cell : Cell} {fields : List (Nat × FieldPattern)}
    {field dim subCell : Nat} {p : FieldPattern} (hnodup : (fields.map (·.1)).Nodup)
    (hp : (field, p) ∈ fields) (hcell : subCell < cell.subEntityCount dim) :
    (allSlots cell fields).filter (On field dim subCell) = fieldSlots dim subCell field p := by
  have hdim : dim ∈ List.range (cell.dimension + 1) := by
    by_contra hdim
    rw [subEntityCount_eq_zero (by rw [List.mem_range] at hdim; omega)] at hcell
    exact Nat.not_lt_zero _ hcell
  have hon : ∀ s ∈ fieldSlots dim subCell field p, On field dim subCell s := fun s hs => by
    obtain ⟨hd, hc, hf, -⟩ := mem_fieldSlots.1 hs
    exact ⟨hf, hd, hc⟩
  rw [allSlots, filter_flatMap_of_only List.nodup_range hdim,
    filter_flatMap_of_only List.nodup_range (List.mem_range.2 hcell),
    filter_flatMap_of_only hnodup.of_map hp, List.filter_eq_self.2 fun s hs => decide_eq_true (hon s hs)]
  · rintro ⟨f, q⟩ hq hne s hs
    refine decide_eq_false fun hs' => hne ?_
    have hf : f = field := (mem_fieldSlots.1 hs).2.2.1.symm.trans hs'.1
    subst hf
    exact (List.inj_on_of_nodup_map hnodup) hq hp rfl
  · rintro c - hne s hs
    refine decide_eq_false fun hs' => hne ?_
    obtain ⟨f, -, hs⟩ := List.mem_flatMap.1 hs
    exact (mem_fieldSlots.1 hs).2.1.symm.trans hs'.2.2
  · rintro d - hne s hs
    refine decide_eq_false fun hs' => hne ?_
    obtain ⟨c, -, hs⟩ := List.mem_flatMap.1 hs
    obtain ⟨f, -, hs⟩ := List.mem_flatMap.1 hs
    exact (mem_fieldSlots.1 hs).1.symm.trans hs'.2.1

/-! ### Offsets -/

/-- The places of the slots that satisfy `p`, looked up, are these slots. -/
theorem map_getElem?_filter_range {α : Type} (xs : List α) (p : α → Bool) :
    ((List.range xs.length).filter fun i => (xs[i]?).any p).map (xs[·]?) =
      (xs.filter p).map some := by
  have hfilter : ((List.range xs.length).map (xs[·]?)).filter (·.any p) =
      (xs.map some).filter (·.any p) := by rw [map_getElem?_range]
  rw [List.filter_map, List.filter_map] at hfilter
  exact hfilter

/-- The layout is that of its fields. -/
def Complete (l : BlockLayout) : Prop := l.slots = allSlots l.cell l.fields.entries

variable {l : BlockLayout} {field dim subCell : Nat} {p : FieldPattern}

/-- **The offsets of a field on a sub-cell** are the places of its components there, in order. -/
theorem subCellOffsets_eq_ok (h : l.Complete) (hp : l.fields.get? field = some p)
    (hcell : subCell < l.cell.subEntityCount dim) :
    ∃ os, l.subCellOffsets field dim subCell = .ok os ∧
      os.length = (p.subCellIndices dim subCell).length ∧
      ∀ i o : Nat, os[i]? = some o ↔
        ∃ s : Slot, l.slots[o]? = some s ∧ s.place = ⟨dim, subCell, field, i⟩ := by
  let os := (List.range l.slots.length).filter fun i => (l.slots[i]?).any (On field dim subCell)
  have hos : os.map (l.slots[·]?) = (fieldSlots dim subCell field p).map some := by
    rw [map_getElem?_filter_range, h,
      slots_on_subCell l.fields.nodup_keys (Table.mem_entries_iff.2 hp) hcell]
  have hforward : ∀ i o : Nat, os[i]? = some o →
      ∃ s : Slot, l.slots[o]? = some s ∧ s.place = ⟨dim, subCell, field, i⟩ := by
    intro i o hio
    have hget := congrArg (·[i]?) hos
    simp only [List.getElem?_map, hio, Option.map_some, getElem?_fieldSlots, Option.map_map] at hget
    obtain ⟨dof, -, hdof⟩ := Option.map_eq_some_iff.1 hget.symm
    exact ⟨_, hdof.symm, rfl⟩
  refine ⟨os, ?_, ?_, fun i o => ⟨hforward i o, ?_⟩⟩
  · rw [subCellOffsets, if_neg (by simp [Table.contains, hp]), if_neg (Nat.not_le.2 hcell)]
    rfl
  · have hlength := congrArg List.length hos
    simpa [fieldSlots] using hlength
  · rintro ⟨s, hs, hplace⟩
    have hlt := (List.getElem?_eq_some_iff.1 hs).1
    have hmem : o ∈ os := by
      refine List.mem_filter.2 ⟨List.mem_range.2 hlt, ?_⟩
      rw [hs]
      exact decide_eq_true ⟨by rw [hplace], by rw [hplace], by rw [hplace]⟩
    obtain ⟨j, hj⟩ := List.mem_iff_getElem?.1 hmem
    obtain ⟨t, ht, hplace'⟩ := hforward j o hj
    obtain rfl : s = t := Option.some.inj (hs.symm.trans ht)
    have hij : i = j := (LocalDof.mk.inj (hplace.symm.trans hplace')).2.2.2
    rw [hij]
    exact hj

/-- Only a field of the layout has offsets, and only on a sub-cell of its cell. -/
theorem of_subCellOffsets_eq_ok {offsets : List Nat}
    (h : l.subCellOffsets field dim subCell = .ok offsets) :
    (∃ p, l.fields.get? field = some p) ∧ subCell < l.cell.subEntityCount dim := by
  unfold subCellOffsets at h
  split at h
  · cases h
  · next hcontains =>
    split at h
    · cases h
    · next hcell =>
      refine ⟨Option.ne_none_iff_exists'.1 ?_, Nat.not_le.1 hcell⟩
      simpa [Table.contains] using hcontains

/-- Every place is on a sub-cell of a field. -/
theorem place_of_getElem? (h : l.Complete) {o : Nat} {s : Slot} (hs : l.slots[o]? = some s) :
    s.place.subCell < l.cell.subEntityCount s.place.dim ∧
      ∃ p, l.fields.get? s.place.field = some p := by
  have hmem := List.mem_of_getElem? hs
  rw [h] at hmem
  obtain ⟨hcell, p, hp, -⟩ := mem_allSlots.1 hmem
  exact ⟨hcell, p, Table.mem_entries_iff.1 hp⟩

/-! ### Keys -/

/-- **The keys of an element**, place by place. -/
theorem getElem?_elementKeys {element : Nat} {connectivity : List SubEntity} {ks : List DofKey}
    (h : l.elementKeys element connectivity = .ok ks) :
    ks.length = l.numDofs ∧ ∀ (o : Nat) (s : Slot), l.slots[o]? = some s →
      ∃ x, connectivity[entityBase l.cell s.place.dim + s.place.subCell]? = some x ∧
        ks[o]? = some ⟨x, s.place.field, s.place.component⟩ := by
  unfold elementKeys at h
  split at h
  · cases h
  · obtain ⟨hlength, hget⟩ := getElem?_of_mapM h
    refine ⟨by rw [hlength, layout, List.length_map, numDofs], fun o s hs => ?_⟩
    have hplace : l.layout[o]? = some s.place := by rw [layout, List.getElem?_map, hs, Option.map_some]
    obtain ⟨k, hk, hkey⟩ := hget o s.place hplace
    unfold keyAt at hkey
    split at hkey
    · next x hx => exact ⟨x, hx, hk.trans (congrArg some (Except.ok.inj hkey).symm)⟩
    · cases hkey

section
variable {element : Nat} {connectivity : List SubEntity} {ks : List DofKey}

/-- At the offset of component `i` of a field on a sub-cell stands the key of this component on the
sub-entity that the connectivity has for the sub-cell. -/
theorem key_of_offset (hl : l.Complete) (hks : l.elementKeys element connectivity = .ok ks)
    {offsets : List Nat} (hoffsets : l.subCellOffsets field dim subCell = .ok offsets)
    {i o : Nat} (ho : offsets[i]? = some o) :
    ∃ x, connectivity[entityBase l.cell dim + subCell]? = some x ∧ ks[o]? = some ⟨x, field, i⟩ := by
  obtain ⟨⟨p, hp⟩, hcell⟩ := of_subCellOffsets_eq_ok hoffsets
  obtain ⟨os, hos, -, hget⟩ := subCellOffsets_eq_ok hl hp hcell
  obtain rfl := Except.ok.inj (hos.symm.trans hoffsets)
  obtain ⟨s, hs, hplace⟩ := (hget i o).1 ho
  obtain ⟨x, hx, hkey⟩ := (getElem?_elementKeys hks).2 o s hs
  rw [hplace] at hx hkey
  exact ⟨x, hx, hkey⟩

/-- Every key of an element stands at such an offset. -/
theorem offset_of_key (hl : l.Complete) (hks : l.elementKeys element connectivity = .ok ks)
    {o : Nat} {k : DofKey} (hk : ks[o]? = some k) :
    ∃ dim subCell offsets, subCell < l.cell.subEntityCount dim ∧
      connectivity[entityBase l.cell dim + subCell]? = some k.entity ∧
      l.subCellOffsets k.field dim subCell = .ok offsets ∧ offsets[k.component]? = some o := by
  obtain ⟨hlength, hget⟩ := getElem?_elementKeys hks
  have ho : o < l.slots.length := by
    have hlt := (List.getElem?_eq_some_iff.1 hk).1
    rw [hlength] at hlt
    exact hlt
  have hs := List.getElem?_eq_getElem ho
  obtain ⟨x, hx, hkey⟩ := hget o _ hs
  obtain rfl := Option.some.inj (hk.symm.trans hkey)
  obtain ⟨hcell, p, hp⟩ := place_of_getElem? hl hs
  obtain ⟨os, hos, -, hplace⟩ := subCellOffsets_eq_ok hl hp hcell
  exact ⟨_, _, os, hcell, hx, hos, (hplace _ _).2 ⟨_, hs, rfl⟩⟩

end

/-! ### Merging -/

theorem get?_foldl_firstPatterns (es : List (Nat × FieldPattern)) (t : Table Nat FieldPattern)
    (k : Nat) :
    (es.foldl (fun t f => t.update f.1 fun old => old.getD f.2) t).get? k =
      (t.get? k).or (Table.find k es) := by
  induction es generalizing t with
  | nil => exact Option.or_none.symm
  | cons e es ih =>
    rw [List.foldl_cons, ih, Table.get?_update]
    by_cases hk : k = e.1
    · subst hk
      cases ht : t.get? e.1 <;> simp [Table.find, Std.ReflCmp.compare_self]
    · simp [hk, Table.find]

/-- The patterns of a table are all first patterns. -/
theorem firstPatterns_entries (t : Table Nat FieldPattern) : firstPatterns t.entries = t := by
  refine Table.ext_get? fun k => ?_
  rw [firstPatterns, get?_foldl_firstPatterns]
  rfl

/-- **Merging a table of patterns of one cell gives the layout of its fields on that cell.** -/
theorem merge_eq_ok {t : Table Nat FieldPattern} {cell : Cell} (hne : t.isEmpty = false)
    (hcell : ∀ e ∈ t.entries, e.2.cell = cell) (h : merge t.entries = .ok l) :
    l.cell = cell ∧ l.fields = t ∧ l.Complete := by
  have hhead : (t.values.head?.map (·.cell)).getD default = cell := by
    obtain ⟨es, sorted⟩ := t
    cases es with
    | nil => cases hne
    | cons e es => exact hcell e (List.mem_cons_self ..)
  unfold merge at h
  simp only [firstPatterns_entries, hhead] at h
  obtain ⟨_, -, h⟩ := bind_eq_ok_iff.1 h
  obtain ⟨_, -, h⟩ := bind_eq_ok_iff.1 h
  obtain ⟨_, -, h⟩ := bind_eq_ok_iff.1 h
  obtain rfl := Except.ok.inj h
  exact ⟨rfl, rfl, rfl⟩

end BlockLayout

end Unknowns
