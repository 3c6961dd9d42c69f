/-!
# Ascending lists

Sets of numbers, keys and sub-entities are kept as lists in ascending order
without repetitions, so that two equal sets are the same list.  `ascending xs`
is the one such list with the members of `xs`.

* `mem_ascending`: it has the members of `xs` and no others;
* `pairwise_ascending`: each member is below all later ones;
* `eq_of_mem_iff`: an ascending list is determined by its members.
-/

namespace Unknowns

section
variable {α : Type _} [Ord α]

/-- The order of an ascending list: `a` stands strictly before `b`. -/
abbrev Before (a b : α) : Prop := compare a b = .lt

/-- `x` put into its place in an ascending list, unless it is there already. -/
def insertAscending (x : α) : List α → List α
  | [] => [x]
  | y :: ys =>
    match compare x y with
    | .lt => x :: y :: ys
    | .eq => y :: ys
    | .gt => y :: insertAscending x ys

/-- The members of a list in ascending order, each once. -/
def ascending : List α → List α
  | [] => []
  | x :: xs => insertAscending x (ascending xs)

end

section
variable {α : Type _} [Ord α] [Std.TransOrd α] [Std.LawfulEqOrd α]

omit [Std.TransOrd α] in
theorem mem_insertAscending {a x : α} {ys : List α} :
    a ∈ insertAscending x ys ↔ a = x ∨ a ∈ ys := by
  induction ys with
  | nil => simp [insertAscending]
  | cons y ys ih =>
    unfold insertAscending
    split
    · simp
    · next h => obtain rfl := Std.LawfulEqOrd.eq_of_compare h; simp
    · simp only [List.mem_cons, ih]
      grind

omit [Std.TransOrd α] in
/-- **Sorting loses nothing and adds nothing.** -/
@[simp] theorem mem_ascending {a : α} {xs : List α} : a ∈ ascending xs ↔ a ∈ xs := by
  induction xs with
  | nil => simp [ascending]
  | cons x xs ih => simp [ascending, mem_insertAscending, ih]

theorem pairwise_insertAscending {x : α} {ys : List α} (h : ys.Pairwise Before) :
    (insertAscending x ys).Pairwise Before := by
  induction ys with
  | nil => simp [insertAscending]
  | cons y ys ih =>
    have hy := List.pairwise_cons.1 h
    unfold insertAscending
    split
    · next hlt =>
      refine List.pairwise_cons.2 ⟨fun z hz => ?_, h⟩
      rcases List.mem_cons.1 hz with rfl | hz
      · exact hlt
      · exact Std.TransCmp.lt_trans hlt (hy.1 z hz)
    · exact h
    · next hgt =>
      refine List.pairwise_cons.2 ⟨fun z hz => ?_, ih hy.2⟩
      rcases mem_insertAscending.1 hz with rfl | hz
      · exact Std.OrientedCmp.lt_of_gt hgt
      · exact hy.1 z hz

/-- **The result is ascending and free of repetitions.** -/
theorem pairwise_ascending (xs : List α) : (ascending xs).Pairwise Before := by
  induction xs with
  | nil => exact .nil
  | cons x xs ih => exact pairwise_insertAscending ih

omit [Std.LawfulEqOrd α] in
theorem not_before_self (a : α) : ¬ Before a a := by
  simp [Before, Std.ReflCmp.compare_self]

omit [Std.LawfulEqOrd α] in
/-- An ascending list has no member twice. -/
theorem nodup_of_pairwise {xs : List α} (h : xs.Pairwise Before) : xs.Nodup := by
  refine List.Pairwise.imp (fun {a b} hlt he => ?_) h
  rw [he] at hlt
  exact not_before_self b hlt

/-- A list whose members stand in a strict order is determined by its members. -/
theorem eq_of_mem_iff_of_rel {β : Type _} {R : β → β → Prop} (irrefl : ∀ a, ¬ R a a)
    (trans : ∀ {a b c}, R a b → R b c → R a c) {xs ys : List β} (hx : xs.Pairwise R)
    (hy : ys.Pairwise R) (h : ∀ a, a ∈ xs ↔ a ∈ ys) : xs = ys := by
  induction xs generalizing ys with
  | nil =>
    cases ys with
    | nil => rfl
    | cons y ys => exact absurd ((h y).2 (by simp)) (by simp)
  | cons x xs ih =>
    cases ys with
    | nil => exact absurd ((h x).1 (by simp)) (by simp)
    | cons y ys =>
      have hx' := List.pairwise_cons.1 hx
      have hy' := List.pairwise_cons.1 hy
      have hxy : x = y := by
        rcases List.mem_cons.1 ((h x).1 (by simp)) with rfl | h1
        · rfl
        rcases List.mem_cons.1 ((h y).2 (by simp)) with rfl | h2
        · rfl
        exact absurd (trans (hx'.1 y h2) (hy'.1 x h1)) (irrefl x)
      subst hxy
      refine congrArg _ (ih hx'.2 hy'.2 fun a => ⟨fun ha => ?_, fun ha => ?_⟩)
      · rcases List.mem_cons.1 ((h a).1 (List.mem_cons_of_mem _ ha)) with rfl | h1
        · exact absurd (hx'.1 a ha) (irrefl a)
        · exact h1
      · rcases List.mem_cons.1 ((h a).2 (List.mem_cons_of_mem _ ha)) with rfl | h1
        · exact absurd (hy'.1 a ha) (irrefl a)
        · exact h1

omit [Std.LawfulEqOrd α] in
/-- **An ascending list is determined by its members.** -/
theorem eq_of_mem_iff {xs ys : List α} (hx : xs.Pairwise Before) (hy : ys.Pairwise Before)
    (h : ∀ a, a ∈ xs ↔ a ∈ ys) : xs = ys :=
  eq_of_mem_iff_of_rel not_before_self Std.TransCmp.lt_trans hx hy h

/-- Sorting depends on the members alone, not on their order or multiplicity. -/
theorem ascending_congr {xs ys : List α} (h : ∀ a, a ∈ xs ↔ a ∈ ys) :
    ascending xs = ascending ys :=
  eq_of_mem_iff (pairwise_ascending xs) (pairwise_ascending ys) (by simpa using h)

/-- An ascending list is left as it is. -/
theorem ascending_eq_self {xs : List α} (h : xs.Pairwise Before) : ascending xs = xs :=
  eq_of_mem_iff (pairwise_ascending xs) h (by simp)

end

end Unknowns
