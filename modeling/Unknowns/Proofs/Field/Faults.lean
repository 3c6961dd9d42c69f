import Unknowns.Proofs.Field.Merge

/-!
# What is blamed when patterns are not merged

Patterns of one cell are refused because of a field whose pattern does not number its
unknowns (`BlockLayout.merge_eq_error`): a slot of the field is out of range or was met
before, or one of its unknowns has no slot.  The error names such a field, unless some
pattern declares more unknowns than memory has room for.
-/

namespace Unknowns

namespace BlockLayout

variable {fields : Table Nat FieldPattern} {cell : Cell} {e : Error}

/-- The slot that does not pass is out of range or was met before. -/
theorem checkSlots_eq_error {seen : List (Nat × Nat)} {slots : List Slot}
    (h : checkSlots fields seen slots = .error e) : ∃ before s rest, slots = before ++ s :: rest ∧
      e = .patternMismatch 0 (.number s.place.field) (.repeatedOrOutOfRange s.dof) ∧
      (s.dof < countOf fields s.place.field →
        s.unknown ∈ seen ∨ s.unknown ∈ before.map Slot.unknown) := by
  induction slots generalizing seen with
  | nil => cases h
  | cons s slots ih =>
    rw [checkSlots] at h
    split at h
    · obtain ⟨before, t, rest, rfl, he, ht⟩ := ih h
      refine ⟨s :: before, t, rest, rfl, he, fun hlt => ?_⟩
      rcases ht hlt with hseen | hbefore
      · rcases List.mem_cons.1 hseen with heq | hseen
        · exact .inr (List.mem_cons.2 (.inl heq))
        · exact .inl hseen
      · exact .inr (List.mem_cons_of_mem _ hbefore)
    · next hs =>
      refine ⟨[], s, slots, rfl, (Except.error.inj h).symm, fun hlt => ?_⟩
      exact .inl (not_not.1 fun hnot => hs ⟨hlt, hnot⟩)

section
variable (hcell : ∀ f ∈ fields.entries, f.2.cell = cell) {f : Nat × FieldPattern}
  (hf : f ∈ fields.entries)
include hcell hf

/-- **The field of a slot that does not pass** has a pattern that does not number its unknowns. -/
theorem not_numbers_of_slot {before rest : List Slot} {s : Slot}
    (hslots : allSlots cell fields.entries = before ++ s :: rest) (hs : s.place.field = f.1)
    (hmet : s.dof < countOf fields s.place.field → s.unknown ∈ before.map Slot.unknown) :
    ¬f.2.Numbers := by
  intro hnumbers
  have hmem : s ∈ allSlots cell fields.entries :=
    hslots ▸ List.mem_append_right _ (List.mem_cons_self ..)
  have hdof : s.dof ∈ f.2.dofs :=
    (mem_dofs_iff hf (hcell f hf)).2 ⟨s, hmem, by rw [Slot.unknown, hs]⟩
  have hlt : s.dof < countOf fields s.place.field := by
    rw [hs, countOf_eq hf]
    exact List.mem_range.1 (hnumbers.mem_iff.1 hdof)
  obtain ⟨t, ht, hunknown⟩ := List.mem_map.1 (hmet hlt)
  obtain ⟨hfield, hsame⟩ := Prod.mk.inj hunknown
  -- The slots of the field have each number once, so `s` cannot have one that stands before it.
  have hnodup := hnumbers.nodup_iff.2 List.nodup_range
  rw [← map_dof_filter_allSlots fields.nodup_keys hf, hcell f hf, hslots, List.filter_append,
    List.filter_cons_of_pos (p := fun t : Slot => decide (t.place.field = f.1)) (decide_eq_true hs),
    List.map_append, List.map_cons] at hnodup
  have hbefore : t.dof ∈ (before.filter (·.place.field = f.1)).map (·.dof) :=
    List.mem_map_of_mem (List.mem_filter.2 ⟨ht, decide_eq_true (hfield.trans hs)⟩)
  exact (List.nodup_append.1 hnodup).2.2 _ hbefore _ (List.mem_cons_self ..) hsame

/-- A field with an unknown that has no slot has a pattern that does not number its unknowns. -/
theorem not_numbers_of_unattached
    (h : Nat.any f.2.numDofs (fun i _ => (offset? (allSlots cell fields.entries) f.1 i).isNone) =
      true) : ¬f.2.Numbers := by
  intro hnumbers
  rw [Nat.any_eq_finRange_any, List.any_eq_true] at h
  obtain ⟨i, -, hi⟩ := h
  have hmem : i.1 ∈ f.2.dofs := hnumbers.mem_iff.2 (List.mem_range.2 i.2)
  rw [mem_dofs_iff hf (hcell f hf), ← offset?_isSome_iff] at hmem
  rw [Option.isNone_iff_eq_none.1 hi] at hmem
  cases hmem

end

/-- **What is blamed when the places are refused.** -/
theorem checkPlaces_eq_error (hcell : ∀ f ∈ fields.entries, f.2.cell = cell)
    (h : checkPlaces fields (allSlots cell fields.entries) = .error e) :
    ∃ f ∈ fields.entries, ¬f.2.Numbers ∧ ∃ fault, e = .patternMismatch 0 (.number f.1) fault := by
  rcases bind_eq_error_iff.1 h with hslots | ⟨_, -, hattached⟩
  · obtain ⟨before, s, rest, hsplit, he, hmet⟩ := checkSlots_eq_error hslots
    have hmem : s ∈ allSlots cell fields.entries :=
      hsplit ▸ List.mem_append_right _ (List.mem_cons_self ..)
    obtain ⟨-, p, hp, -⟩ := mem_allSlots.1 hmem
    exact ⟨_, hp, not_numbers_of_slot hcell hp hsplit rfl fun hlt =>
      (hmet hlt).resolve_left List.not_mem_nil, _, he⟩
  · unfold checkAttached at hattached
    split at hattached
    · next f hfind =>
      have hf := List.mem_of_find?_eq_some hfind
      have hunattached : Nat.any f.2.numDofs (fun i _ =>
          (offset? (allSlots cell fields.entries) f.1 i).isNone) = true := by
        simpa only using List.find?_some hfind
      exact ⟨f, hf, not_numbers_of_unattached hcell hf hunattached, _,
        (Except.error.inj hattached).symm⟩
    · cases hattached

/-- **What is blamed when patterns of one cell are not merged**: a field whose pattern does not number
its unknowns, or the memory for the unknowns that some pattern declares. -/
theorem merge_eq_error (hcell : ∀ f ∈ fields.entries, f.2.cell = cell) (hcountable : cell.Countable)
    (h : merge fields.entries = .error e) : ∃ f ∈ fields.entries, ¬f.2.Numbers ∧
      ((e = .outOfMemory ∧ ∃ g ∈ fields.entries, ¬g.2.numDofs * offsetWidth < memoryBound) ∨
        ∃ fault, e = .patternMismatch 0 (.number f.1) fault) := by
  have hfirst : ∀ f ∈ fields.entries, f.2.cell = firstCell fields :=
    fun f hf => (hcell f hf).trans (firstCell_eq hcell hf).symm
  have hplaces : ∃ fault, checkPlaces fields (allSlots (firstCell fields) fields.entries) =
      .error fault ∧ e = misplaced fields fault := by
    unfold merge at h
    rw [firstPatterns_entries] at h
    rcases bind_eq_error_iff.1 h with h | ⟨_, -, h⟩
    · exact absurd ((checkCells_eq_ok_iff.2 hfirst).symm.trans h) nofun
    · rcases bind_eq_error_iff.1 h with h | ⟨_, -, h⟩
      · exact absurd (countable_firstCell hcountable hcell) (counted_total_eq_error_iff.1 h).1
      · rcases bind_eq_error_iff.1 h with h | ⟨_, -, h⟩
        · obtain ⟨fault, hfault, rfl⟩ := mapError_eq_error_iff.1 h
          exact ⟨fault, hfault, rfl⟩
        · cases h
  obtain ⟨fault, hfault, rfl⟩ := hplaces
  obtain ⟨f, hf, hnot, kind, rfl⟩ := checkPlaces_eq_error hfirst hfault
  refine ⟨f, hf, hnot, ?_⟩
  unfold misplaced
  split
  · exact .inr ⟨kind, rfl⟩
  · next hroom =>
    refine .inl ⟨rfl, ?_⟩
    simpa [Table.values, fits] using hroom

/-- **Patterns of one cell that do not all number their unknowns stop merging** where one of them
declares more unknowns than memory has room for. -/
theorem merge_eq_outOfMemory (hcell : ∀ f ∈ fields.entries, f.2.cell = cell)
    (hcountable : cell.Countable) {f g : Nat × FieldPattern} (hf : f ∈ fields.entries)
    (hnot : ¬f.2.Numbers) (hg : g ∈ fields.entries)
    (hroom : ¬g.2.numDofs * offsetWidth < memoryBound) :
    merge fields.entries = .error .outOfMemory := by
  have hfirst : ∀ f ∈ fields.entries, f.2.cell = firstCell fields :=
    fun f hf => (hcell f hf).trans (firstCell_eq hcell hf).symm
  have hmisplaced : ∀ fault, misplaced fields fault = .outOfMemory := fun fault => by
    refine if_neg fun hall => hroom ?_
    simpa [fits] using List.all_eq_true.1 hall g.2 (List.mem_map_of_mem hg)
  cases hplaces : checkPlaces fields (allSlots (firstCell fields) fields.entries) with
  | ok _ => exact absurd ((checkPlaces_eq_ok_iff hfirst).1 hplaces f hf) hnot
  | error fault =>
    have hcounted := counted_total_eq_ok_iff.2 ⟨countable_firstCell hcountable hcell, rfl⟩
    have hrefused := mapError_eq_error_iff.2 ⟨fault, hplaces, hmisplaced fault⟩
    unfold merge
    rw [firstPatterns_entries]
    exact bind_eq_error_iff.2 (.inr ⟨(), checkCells_eq_ok_iff.2 hfirst,
      bind_eq_error_iff.2 (.inr ⟨_, hcounted, bind_eq_error_iff.2 (.inl hrefused)⟩)⟩)

end BlockLayout

end Unknowns
