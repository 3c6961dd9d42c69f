import Unknowns.Proofs.Field.Layout
import Unknowns.Proofs.Field.Numbering

/-!
# Merging patterns

Merging goes through the slots of all fields and stops at the first that is out of
range or met before; in the end every unknown must have been met.  So it accepts
the patterns of one cell that number their unknowns, and no others
(`checkPlaces_eq_ok_iff`), if the sub-entities of the cell can be counted.

A merged layout has a place for each unknown of each field, and no other places
(`Merged`).  The offsets of the fields are three views of one thing: the places in
order, the places by field and number, and the places by field and sub-cell.
-/

namespace Unknowns

/-- The unknown that has the slot: its field, and its number in the field's pattern. -/
def Slot.unknown (s : Slot) : Nat × Nat := (s.place.field, s.dof)

/-- Place `a` comes before place `b`: by dimension, sub-cell, field and component. -/
def LocalDof.Precedes (a b : LocalDof) : Prop :=
  a.dim < b.dim ∨ a.dim = b.dim ∧
    (a.subCell < b.subCell ∨ a.subCell = b.subCell ∧
      (a.field < b.field ∨ a.field = b.field ∧ a.component < b.component))

namespace BlockLayout

/-! ### First patterns -/

/-- The pattern that counts for a field number: the first that is given for it. -/
def firstPattern? (fields : List (Nat × FieldPattern)) (num : Nat) : Option FieldPattern :=
  (fields.find? (·.1 = num)).map (·.2)

theorem find_eq_firstPattern? (fields : List (Nat × FieldPattern)) (num : Nat) :
    Table.find num fields = firstPattern? fields num := by
  induction fields with
  | nil => rfl
  | cons f fields ih =>
    obtain ⟨k, p⟩ := f
    by_cases hk : k = num
    · subst hk
      simp [Table.find, firstPattern?, Std.ReflCmp.compare_self]
    · have hne : compare num k ≠ .eq := fun hc => hk (Nat.compare_eq_eq.1 hc).symm
      simpa [Table.find, firstPattern?, hk, hne] using ih

theorem get?_firstPatterns (fields : List (Nat × FieldPattern)) (num : Nat) :
    (firstPatterns fields).get? num = firstPattern? fields num := by
  rw [firstPatterns, get?_foldl_firstPatterns, find_eq_firstPattern?]
  rfl

/-- Where every number is given once, its pattern is the first. -/
theorem firstPattern?_eq_some_iff {fields : List (Nat × FieldPattern)}
    (hnodup : (fields.map (·.1)).Nodup) {num : Nat} {p : FieldPattern} :
    firstPattern? fields num = some p ↔ (num, p) ∈ fields := by
  rw [firstPattern?, Option.map_eq_some_iff]
  constructor
  · rintro ⟨f, hfind, rfl⟩
    obtain rfl : f.1 = num := by simpa using List.find?_some hfind
    exact List.mem_of_find?_eq_some hfind
  · intro hmem
    cases hfind : fields.find? (·.1 = num) with
    | none => exact absurd (decide_eq_true rfl) (List.find?_eq_none.1 hfind _ hmem)
    | some f =>
      have hf : f.1 = num := by simpa using List.find?_some hfind
      exact ⟨f, rfl, congrArg Prod.snd (List.inj_on_of_nodup_map hnodup
        (List.mem_of_find?_eq_some hfind) hmem hf)⟩

/-! ### The checks -/

theorem checkCells_eq_ok_iff {cell : Cell} {fields : List (Nat × FieldPattern)} :
    checkCells cell fields = .ok () ↔ ∀ f ∈ fields, f.2.cell = cell := by
  unfold checkCells
  split
  · next f hfind =>
    have hne := of_decide_eq_true (List.find?_some
      (p := fun f : Nat × FieldPattern => f.2.cell ≠ cell) hfind)
    exact iff_of_false (fun hc => nomatch hc) fun hall => hne (hall f (List.mem_of_find?_eq_some hfind))
  · next hfind =>
    refine iff_of_true rfl fun f hf => ?_
    simpa using List.find?_eq_none.1 hfind f hf

/-- Number of unknowns of a field of a table. -/
def countOf (fields : Table Nat FieldPattern) (field : Nat) : Nat :=
  ((fields.get? field).map (·.numDofs)).getD 0

/-- **Slots pass** when they are in range and no unknown is met twice. -/
theorem checkSlots_eq_ok_iff {fields : Table Nat FieldPattern} {seen : List (Nat × Nat)}
    {slots : List Slot} :
    checkSlots fields seen slots = .ok () ↔
      (∀ s ∈ slots, s.dof < countOf fields s.place.field) ∧ (slots.map Slot.unknown).Nodup ∧
        ∀ s ∈ slots, s.unknown ∉ seen := by
  induction slots generalizing seen with
  | nil => simp [checkSlots]
  | cons s slots ih =>
    rw [checkSlots]
    split
    · next hs =>
      rw [ih]
      simp only [List.mem_cons, List.map_cons, List.nodup_cons, List.mem_map, forall_eq_or_imp,
        not_or, not_exists, not_and]
      constructor
      · rintro ⟨hlt, hnodup, hfresh⟩
        exact ⟨⟨hs.1, hlt⟩, ⟨fun t ht => (hfresh t ht).1, hnodup⟩, hs.2,
          fun t ht => (hfresh t ht).2⟩
      · rintro ⟨⟨-, hlt⟩, ⟨hne, hnodup⟩, -, hfresh⟩
        exact ⟨hlt, hnodup, fun t ht => ⟨hne t ht, hfresh t ht⟩⟩
    · next hs =>
      refine iff_of_false (fun hc => nomatch hc) fun ⟨hlt, _, hfresh⟩ => hs ?_
      exact ⟨hlt s (List.mem_cons_self ..), hfresh s (List.mem_cons_self ..)⟩

theorem offset?_isSome_iff {slots : List Slot} {field dof : Nat} :
    (offset? slots field dof).isSome ↔ ∃ s ∈ slots, s.unknown = (field, dof) := by
  rw [offset?, List.findIdx?_isSome, List.any_eq_true]
  simp only [decide_eq_true_iff, Slot.unknown, Prod.mk.injEq]

/-- **No unknown is left** when each has a slot. -/
theorem checkAttached_eq_ok_iff {slots : List Slot} {fields : List (Nat × FieldPattern)} :
    checkAttached slots fields = .ok () ↔
      ∀ f ∈ fields, ∀ i < f.2.numDofs, ∃ s ∈ slots, s.unknown = (f.1, i) := by
  have hany : ∀ f : Nat × FieldPattern,
      (Nat.any f.2.numDofs fun i _ => (offset? slots f.1 i).isNone) = true ↔
        ¬ ∀ i < f.2.numDofs, ∃ s ∈ slots, s.unknown = (f.1, i) := by
    intro f
    rw [Nat.any_eq_finRange_any, List.any_eq_true]
    simp only [← offset?_isSome_iff, Fin.exists_iff, List.mem_finRange, true_and]
    simp
  unfold checkAttached
  split
  · next f hfind =>
    have hsome : (Nat.any f.2.numDofs fun i _ => (offset? slots f.1 i).isNone) = true := by
      simpa only using List.find?_some hfind
    have hf := (hany f).1 hsome
    exact iff_of_false (fun hc => nomatch hc) fun hall =>
      hf (hall f (List.mem_of_find?_eq_some hfind))
  · next hfind =>
    refine iff_of_true rfl fun f hf => ?_
    exact not_not.1 fun hnot => List.find?_eq_none.1 hfind f hf ((hany f).2 hnot)

/-! ### Acceptance -/

theorem map_dof_fieldSlots (dim subCell field : Nat) (p : FieldPattern) :
    (fieldSlots dim subCell field p).map (·.dof) = p.subCellIndices dim subCell := by
  rw [fieldSlots, List.map_map]
  exact List.zipIdx_map_fst ..

/-- **The slots of a field** have the numbers of its pattern, in order. -/
theorem map_dof_filter_allSlots {fields : List (Nat × FieldPattern)}
    (hnodup : (fields.map (·.1)).Nodup) {field : Nat} {p : FieldPattern}
    (hp : (field, p) ∈ fields) :
    ((allSlots p.cell fields).filter (·.place.field = field)).map (·.dof) = p.dofs := by
  have hcell : ∀ dim subCell, (fields.flatMap fun f => fieldSlots dim subCell f.1 f.2).filter
      (·.place.field = field) = fieldSlots dim subCell field p := fun dim subCell => by
    rw [filter_flatMap_of_only hnodup.of_map hp, List.filter_eq_self.2 fun s hs =>
      decide_eq_true (mem_fieldSlots.1 hs).2.2.1]
    rintro ⟨f, q⟩ hq hne s hs
    refine decide_eq_false fun hs' => hne ?_
    have hf : f = field := (mem_fieldSlots.1 hs).2.2.1.symm.trans hs'
    subst hf
    exact List.inj_on_of_nodup_map hnodup hq hp rfl
  simp only [allSlots, List.filter_flatMap, hcell, List.map_flatMap, map_dof_fieldSlots]
  rfl

/-- No unknown has two slots if none of any field has. -/
theorem nodup_unknowns_iff {slots : List Slot} :
    (slots.map Slot.unknown).Nodup ↔
      ∀ field, ((slots.filter (·.place.field = field)).map (·.dof)).Nodup := by
  simp only [List.Nodup, List.pairwise_map, List.pairwise_filter, decide_eq_true_iff, Slot.unknown,
    ne_eq, Prod.mk.injEq, not_and]
  constructor
  · exact fun h field => h.imp fun hne hs ht => hne (hs.trans ht.symm)
  · intro h
    rw [List.pairwise_iff_getElem]
    intro i j hi hj hij heq
    exact List.pairwise_iff_getElem.1 (h _) i j hi hj hij heq rfl

section
variable {fields : Table Nat FieldPattern} {cell : Cell} {f : Nat × FieldPattern}

/-- **The numbers of a pattern** are those of the slots of its field. -/
theorem mem_dofs_iff (hf : f ∈ fields.entries) (hcell : f.2.cell = cell) {i : Nat} :
    i ∈ f.2.dofs ↔ ∃ s ∈ allSlots cell fields.entries, s.unknown = (f.1, i) := by
  rw [← map_dof_filter_allSlots fields.nodup_keys hf, hcell]
  simp only [List.mem_map, List.mem_filter, decide_eq_true_iff, Slot.unknown, Prod.mk.injEq,
    and_assoc]

theorem countOf_eq (hf : f ∈ fields.entries) : countOf fields f.1 = f.2.numDofs := by
  rw [countOf, Table.mem_entries_iff.1 hf]
  rfl

/-- **No unknown has two slots** when no pattern has a number twice. -/
theorem nodup_unknowns_allSlots (hcell : ∀ f ∈ fields.entries, f.2.cell = cell) :
    ((allSlots cell fields.entries).map Slot.unknown).Nodup ↔
      ∀ f ∈ fields.entries, f.2.dofs.Nodup := by
  rw [nodup_unknowns_iff]
  constructor
  · intro h f hf
    rw [← map_dof_filter_allSlots fields.nodup_keys hf, hcell f hf]
    exact h f.1
  · intro h field
    by_cases hfield : ∃ f ∈ fields.entries, f.1 = field
    · obtain ⟨f, hf, rfl⟩ := hfield
      rw [← hcell f hf, map_dof_filter_allSlots fields.nodup_keys hf]
      exact h f hf
    · have hnil : (allSlots cell fields.entries).filter (·.place.field = field) = [] :=
        List.filter_eq_nil_iff.2 fun s hs hc => by
          obtain ⟨-, p, hp, -⟩ := mem_allSlots.1 hs
          exact hfield ⟨_, hp, of_decide_eq_true hc⟩
      rw [hnil]
      exact List.nodup_nil

/-- **The places are accepted** when the pattern of each field numbers its unknowns. -/
theorem checkPlaces_eq_ok_iff (hcell : ∀ f ∈ fields.entries, f.2.cell = cell) :
    checkPlaces fields (allSlots cell fields.entries) = .ok () ↔
      ∀ f ∈ fields.entries, f.2.Numbers := by
  have hplaces : checkPlaces fields (allSlots cell fields.entries) = .ok () ↔
      checkSlots fields [] (allSlots cell fields.entries) = .ok () ∧
        checkAttached (allSlots cell fields.entries) fields.entries = .ok () := by
    rw [checkPlaces, bind_eq_ok_iff]
    exact ⟨fun ⟨_, hslots, hall⟩ => ⟨hslots, hall⟩, fun h => ⟨(), h⟩⟩
  rw [hplaces, checkSlots_eq_ok_iff, checkAttached_eq_ok_iff, nodup_unknowns_allSlots hcell]
  constructor
  · rintro ⟨⟨hlt, hnodup, -⟩, hall⟩ f hf
    refine (List.perm_ext_iff_of_nodup (hnodup f hf) List.nodup_range).2 fun i => ?_
    rw [List.mem_range, mem_dofs_iff hf (hcell f hf)]
    refine ⟨?_, hall f hf i⟩
    rintro ⟨s, hs, hunknown⟩
    obtain ⟨hfield, hdof⟩ := Prod.mk.inj hunknown
    rw [← countOf_eq hf, ← hfield, ← hdof]
    exact hlt s hs
  · intro hnumbers
    have hrange : ∀ f ∈ fields.entries, ∀ i, i < f.2.numDofs ↔
        ∃ s ∈ allSlots cell fields.entries, s.unknown = (f.1, i) := fun f hf i => by
      rw [← mem_dofs_iff hf (hcell f hf), (hnumbers f hf).mem_iff, List.mem_range]
    refine ⟨⟨fun s hs => ?_, fun f hf => (hnumbers f hf).nodup_iff.2 List.nodup_range,
      fun s _ => List.not_mem_nil⟩, fun f hf i hi => (hrange f hf i).1 hi⟩
    obtain ⟨-, p, hp, -⟩ := mem_allSlots.1 hs
    rw [countOf_eq hp]
    exact (hrange _ hp _).2 ⟨s, hs, rfl⟩

end

/-- A layout of fields whose patterns number their unknowns on its cell, which can be counted. -/
structure Merged (l : BlockLayout) : Prop where
  countable : l.cell.Countable
  complete : l.Complete
  cell_eq : ∀ f ∈ l.fields.entries, f.2.cell = l.cell
  numbers : ∀ f ∈ l.fields.entries, f.2.Numbers

/-- The cell of the first field. -/
def firstCell (fields : Table Nat FieldPattern) : Cell :=
  (fields.values.head?.map (·.cell)).getD default

theorem firstCell_eq {fields : Table Nat FieldPattern} {cell : Cell}
    (hcell : ∀ f ∈ fields.entries, f.2.cell = cell) {f : Nat × FieldPattern}
    (hf : f ∈ fields.entries) : firstCell fields = cell := by
  obtain ⟨e, es, hes⟩ := List.exists_cons_of_ne_nil (List.ne_nil_of_mem hf)
  rw [firstCell, Table.values, hes]
  exact hcell e (hes ▸ List.mem_cons_self ..)

/-- Without fields the cell is a vertex. -/
theorem countable_firstCell {fields : Table Nat FieldPattern} {cell : Cell} (h : cell.Countable)
    (hcell : ∀ f ∈ fields.entries, f.2.cell = cell) : (firstCell fields).Countable := by
  rcases hentries : fields.entries with _ | ⟨f, rest⟩
  · rw [firstCell, Table.values, hentries]
    decide
  · rw [firstCell_eq hcell (hentries ▸ List.mem_cons_self ..)]
    exact h

/-- **What merging answers** is the layout of the first patterns, if they number their unknowns on one
cell that can be counted. -/
theorem merge_eq_ok_iff {fields : List (Nat × FieldPattern)} {l : BlockLayout} :
    merge fields = .ok l ↔
      l.cell = firstCell (firstPatterns fields) ∧ l.fields = firstPatterns fields ∧ l.Merged := by
  have hmerge : merge fields = .ok l ↔
      checkCells (firstCell (firstPatterns fields)) (firstPatterns fields).entries = .ok () ∧
        (firstCell (firstPatterns fields)).Countable ∧
        checkPlaces (firstPatterns fields)
          (allSlots (firstCell (firstPatterns fields)) (firstPatterns fields).entries) = .ok () ∧
        (⟨firstCell (firstPatterns fields), firstPatterns fields,
          allSlots (firstCell (firstPatterns fields)) (firstPatterns fields).entries⟩ :
            BlockLayout) = l := by
    unfold merge
    simp only [bind_eq_ok_iff, mapError_eq_ok_iff, counted_total_eq_ok_iff, Except.ok.injEq]
    exact ⟨fun ⟨_, hcells, _, ⟨hcountable, _⟩, _, hplaces, hl⟩ => ⟨hcells, hcountable, hplaces, hl⟩,
      fun ⟨hcells, hcountable, hplaces, hl⟩ =>
        ⟨(), hcells, _, ⟨hcountable, rfl⟩, (), hplaces, hl⟩⟩
  rw [hmerge, checkCells_eq_ok_iff]
  constructor
  · rintro ⟨hcell, hcountable, hplaces, rfl⟩
    exact ⟨rfl, rfl, hcountable, rfl, hcell, (checkPlaces_eq_ok_iff hcell).1 hplaces⟩
  · rintro ⟨hcell, hfields, hl⟩
    obtain ⟨cell, fields', slots⟩ := l
    obtain rfl : cell = _ := hcell
    obtain rfl : fields' = _ := hfields
    have hslots : slots = allSlots _ _ := hl.complete
    exact ⟨hl.cell_eq, hl.countable, (checkPlaces_eq_ok_iff hl.cell_eq).2 hl.numbers,
      congrArg _ hslots.symm⟩

/-- Patterns of a cell that cannot be counted are not looked at. -/
theorem merge_eq_overflow {fields : List (Nat × FieldPattern)}
    (hcell : ∀ f ∈ (firstPatterns fields).entries, f.2.cell = firstCell (firstPatterns fields))
    (h : ¬(firstCell (firstPatterns fields)).Countable) : merge fields = .error .overflow :=
  bind_eq_error_iff.2 (.inr ⟨(), checkCells_eq_ok_iff.2 hcell,
    bind_eq_error_iff.2 (.inl (counted_total_eq_error_iff.2 ⟨h, rfl⟩))⟩)

theorem merge_entries_eq_overflow {fields : Table Nat FieldPattern}
    (hcell : ∀ f ∈ fields.entries, f.2.cell = firstCell fields)
    (h : ¬(firstCell fields).Countable) : merge fields.entries = .error .overflow := by
  refine merge_eq_overflow ?_ ?_
  · rwa [firstPatterns_entries]
  · rwa [firstPatterns_entries]

/-! ### The places of a merged layout -/

section
variable {l : BlockLayout} (h : l.Merged)
include h

/-- **Every unknown of every field has a slot.** -/
theorem Merged.exists_slot_iff {f : Nat × FieldPattern} (hf : f ∈ l.fields.entries) {i : Nat} :
    (∃ s ∈ l.slots, s.unknown = (f.1, i)) ↔ i < f.2.numDofs := by
  rw [h.complete, ← mem_dofs_iff hf (h.cell_eq f hf), (h.numbers f hf).mem_iff, List.mem_range]

/-- **Every unknown has one slot.** -/
theorem Merged.nodup_unknowns : (l.slots.map Slot.unknown).Nodup := by
  rw [h.complete]
  exact (nodup_unknowns_allSlots h.cell_eq).2 fun f hf =>
    (h.numbers f hf).nodup_iff.2 List.nodup_range

/-- **The offset of an unknown** is the place of its slot. -/
theorem Merged.offset?_eq_some_iff {field i o : Nat} :
    offset? l.slots field i = some o ↔ (l.slots.map Slot.unknown)[o]? = some (field, i) := by
  have hforward : ∀ {o}, offset? l.slots field i = some o →
      (l.slots.map Slot.unknown)[o]? = some (field, i) := fun {o} ho => by
    obtain ⟨hlt, hs, -⟩ := List.findIdx?_eq_some_iff_getElem.1 ho
    obtain ⟨hfield, hdof⟩ := of_decide_eq_true hs
    rw [List.getElem?_map, List.getElem?_eq_getElem hlt, Option.map_some, Slot.unknown, hfield, hdof]
  refine ⟨hforward, fun ho => ?_⟩
  have hmem := List.mem_of_getElem? ho
  rw [List.mem_map] at hmem
  obtain ⟨o', ho'⟩ := Option.isSome_iff_exists.1 (offset?_isSome_iff.2 hmem)
  have hlt := (List.getElem?_eq_some_iff.1 ho).1
  have hsame := (List.getElem?_inj hlt h.nodup_unknowns).1 (ho.trans (hforward ho').symm)
  rw [ho', hsame]

/-- **The offsets of a field** are the places of its unknowns, in order. -/
theorem Merged.localOffsets?_eq {f : Nat × FieldPattern} (hf : f ∈ l.fields.entries) :
    ∃ os, l.localOffsets? f.1 = some os ∧ os.length = f.2.numDofs ∧
      ∀ i o : Nat, os[i]? = some o ↔ (l.slots.map Slot.unknown)[o]? = some (f.1, i) := by
  have hget : l.fields.get? f.1 = some f.2 := Table.mem_entries_iff.1 hf
  let place i := (offset? l.slots f.1 i).getD 0
  have hplace : ∀ i < f.2.numDofs, offset? l.slots f.1 i = some (place i) := fun i hi => by
    obtain ⟨o, ho⟩ := Option.isSome_iff_exists.1
      (offset?_isSome_iff.2 ((h.exists_slot_iff hf).2 hi))
    rw [ho]
    exact congrArg some (congrArg (Option.getD · 0) ho).symm
  have hos : (List.range f.2.numDofs).filterMap (offset? l.slots f.1) =
      (List.range f.2.numDofs).map place := by
    rw [← List.filterMap_eq_map]
    exact List.filterMap_congr fun i hi => hplace i (List.mem_range.1 hi)
  refine ⟨(List.range f.2.numDofs).map place, ?_, by rw [List.length_map, List.length_range],
    fun i o => ?_⟩
  · rw [localOffsets?, hget, Option.map_some, hos]
  · rw [← h.offset?_eq_some_iff]
    by_cases hi : i < f.2.numDofs
    · rw [List.getElem?_map, List.getElem?_range hi, Option.map_some, hplace i hi]
    · have hnone : offset? l.slots f.1 i = none := by
        rw [← Option.not_isSome_iff_eq_none, offset?_isSome_iff, h.exists_slot_iff hf]
        exact hi
      rw [List.getElem?_eq_none (by simpa using hi), hnone]

/-- **A place is among the offsets of a field** when the slot there is one of the field's. -/
theorem Merged.mem_offsets_iff {f : Nat × FieldPattern} (hf : f ∈ l.fields.entries) {o : Nat} :
    o ∈ (l.localOffsets? f.1).getD [] ↔
      ∃ i, (l.slots.map Slot.unknown)[o]? = some (f.1, i) := by
  obtain ⟨os, hos, -, hget⟩ := h.localOffsets?_eq hf
  rw [hos, Option.getD_some, List.mem_iff_getElem?]
  exact exists_congr fun i => hget i o

theorem Merged.nodup_offsets {f : Nat × FieldPattern} (hf : f ∈ l.fields.entries) :
    ((l.localOffsets? f.1).getD []).Nodup := by
  obtain ⟨os, hos, -, hget⟩ := h.localOffsets?_eq hf
  rw [hos, Option.getD_some]
  refine List.pairwise_iff_getElem.2 fun i j hi hj hij heq => ?_
  have hi' := (hget i _).1 (List.getElem?_eq_getElem hi)
  have hj' := (hget j _).1 (List.getElem?_eq_getElem hj)
  rw [← heq, hi'] at hj'
  exact Nat.ne_of_lt hij (Prod.mk.inj (Option.some.inj hj')).2

omit h in
theorem flatMap_offsets (l : BlockLayout) : l.offsets.flatMap (·.2) =
    l.fields.entries.flatMap fun f => (l.localOffsets? f.1).getD [] := by
  rw [offsets, fieldNums, Table.keys, List.map_map, List.flatMap_map]
  rfl

/-- **The fields share out the places** of the layout. -/
theorem Merged.perm_offsets : (l.offsets.flatMap (·.2)).Perm (List.range l.numDofs) := by
  rw [flatMap_offsets]
  have hnodup : (l.fields.entries.flatMap fun f => (l.localOffsets? f.1).getD []).Nodup := by
    refine List.nodup_flatMap.2 ⟨fun f hf => h.nodup_offsets hf, ?_⟩
    refine (List.pairwise_map.1 l.fields.nodup_keys).imp_of_mem fun {f g} hf hg hne o ho ho' => ?_
    obtain ⟨i, hi⟩ := (h.mem_offsets_iff hf).1 ho
    obtain ⟨j, hj⟩ := (h.mem_offsets_iff hg).1 ho'
    exact hne (Prod.mk.inj (Option.some.inj (hi.symm.trans hj))).1
  refine (List.perm_ext_iff_of_nodup hnodup List.nodup_range).2 fun o => ?_
  rw [List.mem_flatMap, List.mem_range, numDofs]
  constructor
  · rintro ⟨f, hf, ho⟩
    obtain ⟨i, hi⟩ := (h.mem_offsets_iff hf).1 ho
    simpa using (List.getElem?_eq_some_iff.1 hi).1
  · intro ho
    have hs := List.getElem?_eq_getElem ho
    obtain ⟨-, p, hp⟩ := place_of_getElem? h.complete hs
    have hp := Table.mem_entries_iff.2 hp
    refine ⟨_, hp, (h.mem_offsets_iff hp).2 ⟨l.slots[o].dof, ?_⟩⟩
    rw [List.getElem?_map, hs]
    rfl

/-- **A layout has as many places** as its fields have unknowns. -/
theorem Merged.numDofs_eq : l.numDofs = total (l.fields.values.map (·.numDofs)) := by
  have hlength := h.perm_offsets.length_eq
  have hfield : ∀ f ∈ l.fields.entries, ((l.localOffsets? f.1).getD []).length = f.2.numDofs :=
    fun f hf => by
      obtain ⟨os, hos, hcount, -⟩ := h.localOffsets?_eq hf
      rw [hos, Option.getD_some, hcount]
  rw [List.length_range, flatMap_offsets, length_flatMap, List.map_congr_left hfield] at hlength
  rw [Table.values, List.map_map, ← hlength]
  rfl

end

/-- **Places pass** when they lie in the layout and none is met twice. -/
theorem checkOffsets_eq_ok {count : Nat} {seen : List Nat} {places : List (Nat × Nat)}
    (hlt : ∀ p ∈ places, p.2 < count) (hnodup : (places.map (·.2)).Nodup)
    (hfresh : ∀ p ∈ places, p.2 ∉ seen) :
    checkOffsets count seen places = .ok ((places.map (·.2)).reverse ++ seen) := by
  induction places generalizing seen with
  | nil => rfl
  | cons p places ih =>
    obtain ⟨hp, hnodup⟩ := List.nodup_cons.1 hnodup
    rw [checkOffsets, if_pos ⟨hlt p (List.mem_cons_self ..), hfresh p (List.mem_cons_self ..)⟩,
      ih (fun r hr => hlt r (List.mem_cons_of_mem _ hr)) hnodup fun r hr hc => ?_]
    · simp
    · rcases List.mem_cons.1 hc with hc | hc
      · exact hp (List.mem_map.2 ⟨r, hr, hc⟩)
      · exact hfresh r (List.mem_cons_of_mem _ hr) hc

/-- **A merged layout is valid.** -/
theorem Merged.validate {l : BlockLayout} (h : l.Merged) : l.validate = .ok () := by
  have hperm := h.perm_offsets
  let places := l.offsets.flatMap fun f => f.2.map fun o => (f.1, o)
  have hplaces : places.map (·.2) = l.offsets.flatMap (·.2) := by
    simp [places, List.map_flatMap, Function.comp_def]
  have hmem : ∀ o, o ∈ places.map (·.2) ↔ o < l.numDofs := fun o => by
    rw [hplaces, hperm.mem_iff, List.mem_range]
  have hseen : checkOffsets l.numDofs [] places = _ := checkOffsets_eq_ok
    (fun p hp => (hmem p.2).1 (List.mem_map_of_mem hp))
    (hplaces ▸ hperm.nodup_iff.2 List.nodup_range) fun p _ => List.not_mem_nil
  rw [BlockLayout.validate]
  refine bind_eq_ok_iff.2 ⟨_, hseen, if_pos (List.all_eq_true.2 fun o ho => decide_eq_true ?_)⟩
  rw [List.append_nil, List.mem_reverse, hmem]
  exact List.mem_range.1 ho

/-! ### The order of the places -/

theorem pairwise_fieldSlots (dim subCell field : Nat) (p : FieldPattern) :
    (fieldSlots dim subCell field p).Pairwise fun s t => s.place.Precedes t.place := by
  have hplace : ∀ (i : Nat) (hi : i < (fieldSlots dim subCell field p).length),
      (fieldSlots dim subCell field p)[i].place = ⟨dim, subCell, field, i⟩ := fun i hi => by
    have hget := List.getElem?_eq_getElem hi
    rw [getElem?_fieldSlots, Option.map_eq_some_iff] at hget
    obtain ⟨dof, -, hs⟩ := hget
    rw [← hs]
  refine List.pairwise_iff_getElem.2 fun i j hi hj hij => ?_
  rw [hplace i hi, hplace j hj]
  exact Or.inr ⟨rfl, Or.inr ⟨rfl, Or.inr ⟨rfl, hij⟩⟩⟩

/-- **Places stand by dimension, sub-cell, field and component.** -/
theorem pairwise_allSlots (cell : Cell) {fields : List (Nat × FieldPattern)}
    (hfields : fields.Pairwise fun f g => Before f.1 g.1) :
    (allSlots cell fields).Pairwise fun s t => s.place.Precedes t.place := by
  have hmem : ∀ {dim c s}, s ∈ (fields.flatMap fun f => fieldSlots dim c f.1 f.2) →
      s.place.dim = dim ∧ s.place.subCell = c := fun hs => by
    obtain ⟨f, -, hs⟩ := List.mem_flatMap.1 hs
    exact ⟨(mem_fieldSlots.1 hs).1, (mem_fieldSlots.1 hs).2.1⟩
  -- One level of the order for each level of the loops.
  have hfield : ∀ dim c, (fields.flatMap fun f => fieldSlots dim c f.1 f.2).Pairwise
      fun s t => s.place.Precedes t.place := fun dim c =>
    List.pairwise_flatMap.2 ⟨fun f _ => pairwise_fieldSlots dim c f.1 f.2,
      hfields.imp fun hfg s hs t ht => by
        obtain ⟨hsd, hsc, hsf, -⟩ := mem_fieldSlots.1 hs
        obtain ⟨htd, htc, htf, -⟩ := mem_fieldSlots.1 ht
        refine Or.inr ⟨hsd.trans htd.symm, Or.inr ⟨hsc.trans htc.symm, Or.inl ?_⟩⟩
        rw [hsf, htf]
        exact Nat.compare_eq_lt.1 hfg⟩
  refine List.pairwise_flatMap.2 ⟨fun dim _ => List.pairwise_flatMap.2 ⟨fun c _ => hfield dim c,
    List.pairwise_lt_range.imp fun hlt s hs t ht => ?_⟩,
    List.pairwise_lt_range.imp fun hlt s hs t ht => ?_⟩
  · obtain ⟨hsd, hsc⟩ := hmem hs
    obtain ⟨htd, htc⟩ := hmem ht
    exact Or.inr ⟨hsd.trans htd.symm, Or.inl (hsc ▸ htc ▸ hlt)⟩
  · obtain ⟨c, -, hs⟩ := List.mem_flatMap.1 hs
    obtain ⟨c', -, ht⟩ := List.mem_flatMap.1 ht
    exact Or.inl ((hmem hs).1 ▸ (hmem ht).1 ▸ hlt)

theorem Merged.pairwise_layout {l : BlockLayout} (h : l.Merged) :
    l.layout.Pairwise LocalDof.Precedes := by
  rw [layout, h.complete]
  exact List.pairwise_map.2 (pairwise_allSlots l.cell l.fields.sorted)

/-! ### The offsets on a sub-cell -/

/-- **The offsets on a sub-cell** are those of the unknowns that it has. -/
theorem Merged.subCellOffsets_eq_ok {l : BlockLayout} (h : l.Merged) {f : Nat × FieldPattern}
    (hf : f ∈ l.fields.entries) {dim subCell : Nat} (hcell : subCell < l.cell.subEntityCount dim) :
    ∃ os ls, l.subCellOffsets f.1 dim subCell = .ok os ∧ l.localOffsets? f.1 = some ls ∧
      os.length = (f.2.subCellIndices dim subCell).length ∧
      ∀ i : Nat, os[i]? = ((f.2.subCellIndices dim subCell)[i]?).bind (ls[·]?) := by
  obtain ⟨os, hos, hlength, hget⟩ :=
    BlockLayout.subCellOffsets_eq_ok h.complete (Table.mem_entries_iff.1 hf) hcell
  obtain ⟨ls, hls, -, hlocal⟩ := h.localOffsets?_eq hf
  refine ⟨os, ls, hos, hls, hlength, fun i => ?_⟩
  cases hi : os[i]? with
  | none =>
    rw [List.getElem?_eq_none_iff, hlength] at hi
    rw [List.getElem?_eq_none hi]
    rfl
  | some o =>
    obtain ⟨s, hs, hplace⟩ := (hget i o).1 hi
    have hmem := List.mem_of_getElem? hs
    rw [h.complete, mem_allSlots, hplace] at hmem
    obtain ⟨-, p, hp, hdof⟩ := hmem
    have hsame : p = f.2 := congrArg Prod.snd (List.inj_on_of_nodup_map l.fields.nodup_keys hp hf rfl)
    have hunknown : (l.slots.map Slot.unknown)[o]? = some (f.1, s.dof) := by
      rw [List.getElem?_map, hs, Option.map_some, Slot.unknown, hplace]
    rw [← hsame, hdof, Option.bind_some]
    exact ((hlocal s.dof o).2 hunknown).symm

/-! ### All patterns -/

/-- The patterns of a table are those that are first for their numbers. -/
theorem mem_firstPatterns_iff {fields : List (Nat × FieldPattern)} {num : Nat} {p : FieldPattern} :
    (num, p) ∈ (firstPatterns fields).entries ↔ firstPattern? fields num = some p := by
  rw [Table.mem_entries_iff, get?_firstPatterns]

/-- **Patterns are merged** when those that count number their unknowns on one cell that can be
counted. -/
theorem exists_merge_iff (fields : List (Nat × FieldPattern)) :
    (∃ l, merge fields = .ok l) ↔ ∃ cell : Cell, cell.Countable ∧
      ∀ num p, firstPattern? fields num = some p → p.cell = cell ∧ p.Numbers := by
  constructor
  · rintro ⟨l, hl⟩
    obtain ⟨-, hfields, hmerged⟩ := merge_eq_ok_iff.1 hl
    refine ⟨l.cell, hmerged.countable, fun num p hp => ?_⟩
    have hmem : (num, p) ∈ l.fields.entries := hfields ▸ mem_firstPatterns_iff.2 hp
    exact ⟨hmerged.cell_eq _ hmem, hmerged.numbers _ hmem⟩
  · rintro ⟨cell, hcountable, hpatterns⟩
    have hentry : ∀ f ∈ (firstPatterns fields).entries, f.2.cell = cell ∧ f.2.Numbers :=
      fun f hf => hpatterns f.1 f.2 (mem_firstPatterns_iff.1 hf)
    let first := firstCell (firstPatterns fields)
    refine ⟨⟨first, firstPatterns fields, allSlots first (firstPatterns fields).entries⟩,
      merge_eq_ok_iff.2 ⟨rfl, rfl, countable_firstCell hcountable fun f hf => (hentry f hf).1, rfl,
        fun f hf => ?_, fun f hf => (hentry f hf).2⟩⟩
    exact (hentry f hf).1.trans (firstCell_eq (fun g hg => (hentry g hg).1) hf).symm

/-- Merging depends on the patterns that count only. -/
theorem merge_congr {fields fields' : List (Nat × FieldPattern)}
    (h : ∀ num, firstPattern? fields num = firstPattern? fields' num) :
    merge fields = merge fields' := by
  have hsame : firstPatterns fields = firstPatterns fields' :=
    Table.ext_get? fun num => by rw [get?_firstPatterns, get?_firstPatterns, h]
  rw [merge, hsame, merge]

/-- **Merging patterns.**  They are accepted when, of two for one number the first counting, they
number their unknowns on one cell whose sub-entities can be counted, as those do that are built for
it.  The layout then has a place for each unknown, in order; the fields share out its places;
and the offsets on a sub-cell are those of the unknowns that the pattern has there.  Patterns with
different numbers can be given in any order. -/
theorem merge_numberings (fields : List (Nat × FieldPattern)) :
    ((∃ l, merge fields = .ok l) ↔ ∃ cell : Cell, cell.Countable ∧
      ∀ num p, firstPattern? fields num = some p → p.cell = cell ∧ p.Numbers) ∧
    (∀ cell, (∀ f ∈ fields, f.2.Built cell) → ∃ l, merge fields = .ok l) ∧
    (∀ l, merge fields = .ok l →
      (∀ num, l.fieldPattern? num = firstPattern? fields num) ∧
      l.numDofs = total (l.fields.values.map (·.numDofs)) ∧
      l.layout.length = l.numDofs ∧ l.layout.Pairwise LocalDof.Precedes ∧
      (l.offsets.flatMap (·.2)).Perm (List.range l.numDofs) ∧ l.validate = .ok () ∧
      ∀ num p dim subCell, firstPattern? fields num = some p →
        subCell < l.cell.subEntityCount dim →
        ∃ os ls, l.subCellOffsets num dim subCell = .ok os ∧ l.localOffsets? num = some ls ∧
          os.length = (p.subCellIndices dim subCell).length ∧
          ∀ i : Nat, os[i]? = ((p.subCellIndices dim subCell)[i]?).bind (ls[·]?)) ∧
    ∀ fields', fields.Perm fields' → (fields.map (·.1)).Nodup → merge fields = merge fields' := by
  refine ⟨exists_merge_iff fields, fun cell hbuilt => ?_, fun l hl => ?_, fun fields' hperm hn => ?_⟩
  · have hnumbers : ∀ num p, firstPattern? fields num = some p →
        p.cell = cell ∧ cell.Countable ∧ p.Numbers := fun num p hp => by
      obtain ⟨f, hf, rfl⟩ := Option.map_eq_some_iff.1 hp
      exact (hbuilt f (List.mem_of_find?_eq_some hf)).numbers
    rw [exists_merge_iff]
    cases fields with
    | nil => exact ⟨.vertex, by decide, fun num p hp => by cases hp⟩
    | cons f rest =>
      obtain ⟨-, hcountable, -⟩ := (hbuilt f (List.mem_cons_self ..)).numbers
      exact ⟨cell, hcountable, fun num p hp => ⟨(hnumbers num p hp).1, (hnumbers num p hp).2.2⟩⟩
  · obtain ⟨-, hfields, hmerged⟩ := merge_eq_ok_iff.1 hl
    refine ⟨fun num => ?_, hmerged.numDofs_eq, List.length_map .., hmerged.pairwise_layout,
      hmerged.perm_offsets, hmerged.validate, fun num p dim subCell hp hcell => ?_⟩
    · rw [fieldPattern?, hfields, get?_firstPatterns]
    · have hmem : (num, p) ∈ l.fields.entries := hfields ▸ mem_firstPatterns_iff.2 hp
      exact hmerged.subCellOffsets_eq_ok hmem hcell
  · refine merge_congr fun num => Option.ext fun p => ?_
    rw [firstPattern?_eq_some_iff hn,
      firstPattern?_eq_some_iff ((hperm.map (·.1)).nodup_iff.1 hn), hperm.mem_iff]

/-- One unknown on each end of a segment and two inside it. -/
def cubic : FieldPattern := .uniform [1, 2] ⟨.segment, 4, [[[0], [1]], [[2, 3]]]⟩

/-- Two fields with this pattern have eight places, whichever is given first. -/
theorem merge_numberings_cubic : ∃ l, merge [(5, cubic), (2, cubic)] = .ok l ∧
    merge [(2, cubic), (5, cubic)] = .ok l ∧ l.numDofs = 8 ∧ l.validate = .ok () ∧
      ∃ os, l.subCellOffsets 5 1 0 = .ok os ∧ os.length = 2 := by
  have hbuilt : cubic.Built .segment := Or.inl ⟨[1, 2], by decide +kernel⟩
  obtain ⟨-, hmerge, hlayout, hperm⟩ := merge_numberings [(5, cubic), (2, cubic)]
  obtain ⟨l, hl⟩ := hmerge .segment (by simp [hbuilt])
  obtain ⟨hpattern, hcount, -, -, -, hvalid, hoffsets⟩ := hlayout l hl
  have hswapped := hperm _ (.swap ..) (by decide)
  have hfields : l.fields = firstPatterns [(5, cubic), (2, cubic)] := (merge_eq_ok_iff.1 hl).2.1
  have hcell : l.cell = .segment := (merge_eq_ok_iff.1 hl).1
  obtain ⟨os, -, hos, -, hlength, -⟩ := hoffsets 5 cubic 1 0 rfl (hcell ▸ by decide)
  exact ⟨l, hl, hswapped ▸ hl, hcount.trans (hfields ▸ by decide), hvalid, os, hos,
    hlength.trans (by decide)⟩

/-- No unknowns on a simplex whose sub-entities cannot be counted. -/
def uncounted : FieldPattern := .tabulated ⟨.simplex 62, 0, []⟩

/-- A pattern that has each of its unknowns once, there being none, is not merged. -/
theorem merge_uncounted : uncounted.numDofs = 0 ∧ uncounted.Numbers ∧
    merge [(0, uncounted)] = .error .overflow := by
  have hcountable : ¬(Cell.simplex 62).Countable := by
    rw [Cell.countable_simplex_iff]
    decide
  refine ⟨rfl, ?_, merge_eq_overflow (fun f hf => ?_) hcountable⟩
  · have hdofs : uncounted.dofs = [] :=
      List.flatMap_eq_nil_iff.2 fun _ _ => List.flatMap_eq_nil_iff.2 fun _ _ => rfl
    rw [FieldPattern.Numbers, hdofs]
    exact .nil
  · obtain rfl : f = (0, uncounted) := List.mem_singleton.1 hf
    rfl

end BlockLayout

end Unknowns
