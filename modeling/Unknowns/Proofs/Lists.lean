import Mathlib.Data.List.Nodup
import Unknowns.Total

/-!
# Lists made of the lists of their members
-/

namespace Unknowns

theorem map_getElem?_range {α : Type} (xs : List α) :
    (List.range xs.length).map (xs[·]?) = xs.map some := by
  refine List.ext_getElem (by simp) fun i hi _ => ?_
  have hlt : i < xs.length := by simpa using hi
  simp [hlt]

/-- Going through the places of a list goes through its members. -/
theorem flatMap_getElem?_range {α β : Type} (xs : List α) (f : Option α → List β) :
    (List.range xs.length).flatMap (fun i => f xs[i]?) = xs.flatMap fun x => f (some x) := by
  have hflat := congrArg (List.flatMap f) (map_getElem?_range xs)
  rwa [List.flatMap_map, List.flatMap_map] at hflat

theorem length_flatMap {α β : Type} (xs : List α) (f : α → List β) :
    (xs.flatMap f).length = total (xs.map fun x => (f x).length) := by
  induction xs with
  | nil => rfl
  | cons x xs ih => rw [List.flatMap_cons, List.length_append, ih, List.map_cons, total_cons]

/-- Of the lists that members contribute, only that of `x` has anything that satisfies `p`. -/
theorem filter_flatMap_of_only {α β : Type} {xs : List α} {g : α → List β} {p : β → Bool} {x : α}
    (hnodup : xs.Nodup) (hx : x ∈ xs) (h : ∀ y ∈ xs, y ≠ x → ∀ z ∈ g y, p z = false) :
    (xs.flatMap g).filter p = (g x).filter p := by
  obtain ⟨before, after, rfl⟩ := List.append_of_mem hx
  have hsplit := List.nodup_append.1 hnodup
  have hne : ∀ y, y ∈ before ∨ y ∈ after → y ≠ x := by
    rintro y (hy | hy) rfl
    · exact hsplit.2.2 y hy y (List.mem_cons_self ..) rfl
    · exact (List.nodup_cons.1 hsplit.2.1).1 hy
  have hnil : ∀ ys : List α, (∀ y ∈ ys, y ∈ before ∨ y ∈ after) →
      (ys.flatMap g).filter p = [] := by
    intro ys hys
    refine List.filter_eq_nil_iff.2 fun z hz => ?_
    obtain ⟨y, hy, hz⟩ := List.mem_flatMap.1 hz
    have hmem : y ∈ before ++ x :: after := by
      rcases hys y hy with hy | hy
      · exact List.mem_append_left _ hy
      · exact List.mem_append_right _ (List.mem_cons_of_mem _ hy)
    rw [h y hmem (hne y (hys y hy)) z hz]
    exact Bool.false_ne_true
  rw [List.flatMap_append, List.flatMap_cons, List.filter_append, List.filter_append,
    hnil before fun y hy => .inl hy, hnil after fun y hy => .inr hy, List.nil_append,
    List.append_nil]

end Unknowns
