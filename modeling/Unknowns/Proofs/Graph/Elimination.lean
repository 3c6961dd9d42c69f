import Mathlib.Data.Finset.Card
import Mathlib.Data.Finset.SDiff
import Mathlib.Data.Nat.Choose.Basic
import Mathlib.Tactic.Ring

/-!
# The elimination game

Eliminating a node of a graph removes it and joins its neighbours pairwise.  A
factorisation of a sparse symmetric matrix plays this game with the graph of the
matrix: a column of the factor has one entry below its diagonal for each
neighbour that its node has when it is eliminated (`Adjacency.factorCount`).

Nodes that are adjacent to one another and have the same other neighbours can be
eliminated in any order with the same effect (`Twins.mem_eliminateAll`,
`Twins.factorCount_eq`).
-/

namespace Unknowns

/-- A graph, as the neighbours of each node. -/
abbrev Adjacency := Nat → Finset Nat

namespace Adjacency

/-- The graph without node `x`, whose neighbours are joined pairwise. -/
def eliminate (G : Adjacency) (x : Nat) : Adjacency := fun u =>
  if u = x then ∅
  else if u ∈ G x then ((G u ∪ G x).erase u).erase x
  else (G u).erase x

/-- The graph after the elimination of some nodes in turn. -/
def eliminateAll (G : Adjacency) (order : List Nat) : Adjacency := order.foldl eliminate G

/-- Number of neighbours that the nodes of an order have when they are eliminated. -/
def factorCount (G : Adjacency) : List Nat → Nat
  | [] => 0
  | x :: rest => (G x).card + factorCount (G.eliminate x) rest

theorem eliminateAll_append (G : Adjacency) (xs ys : List Nat) :
    G.eliminateAll (xs ++ ys) = (G.eliminateAll xs).eliminateAll ys := List.foldl_append ..

theorem factorCount_append (G : Adjacency) (xs ys : List Nat) :
    G.factorCount (xs ++ ys) = G.factorCount xs + (G.eliminateAll xs).factorCount ys := by
  induction xs generalizing G with
  | nil => exact (Nat.zero_add _).symm
  | cons x xs ih =>
    show (G x).card + (G.eliminate x).factorCount (xs ++ ys) = _
    rw [ih, ← Nat.add_assoc]
    rfl

/-- No node is its own neighbour. -/
def Loopless (G : Adjacency) : Prop := ∀ u, u ∉ G u

section
variable {G : Adjacency} (h : G.Loopless)
include h

/-- **Elimination joins the neighbours of a node.** -/
theorem mem_eliminate {x u y : Nat} :
    y ∈ G.eliminate x u ↔ u ≠ x ∧ y ≠ x ∧ (y ∈ G u ∨ u ∈ G x ∧ y ∈ G x ∧ y ≠ u) := by
  have hloop : y ∈ G u → y ≠ u := fun hy he => h u (he ▸ hy)
  unfold eliminate
  split
  · next hu => simp [hu]
  · next hu =>
    split
    · next hux =>
      simp only [Finset.mem_erase, Finset.mem_union]
      tauto
    · next hux =>
      simp only [Finset.mem_erase]
      tauto

theorem Loopless.eliminate (x : Nat) : (G.eliminate x).Loopless := by
  intro u hu
  rcases ((mem_eliminate h).1 hu).2.2 with hu | ⟨-, -, hu⟩
  · exact h u hu
  · exact hu rfl

end

/-- Edges have two ends, which see one another. -/
structure Undirected (G : Adjacency) : Prop where
  loopless : G.Loopless
  symm : ∀ {u v}, v ∈ G u → u ∈ G v

theorem Undirected.eliminate {G : Adjacency} (h : G.Undirected) (x : Nat) :
    (G.eliminate x).Undirected where
  loopless := h.loopless.eliminate x
  symm {u v} hv := by
    obtain ⟨hux, hvx, hv⟩ := (mem_eliminate h.loopless).1 hv
    refine (mem_eliminate h.loopless).2 ⟨hvx, hux, ?_⟩
    exact hv.imp h.symm fun hv => ⟨hv.2.1, hv.1, hv.2.2.symm⟩

/-- The nodes of a list are adjacent to one another and to the nodes of `N`, and to no others. -/
structure Twins (G : Adjacency) (xs : List Nat) (N : Finset Nat) : Prop where
  loopless : G.Loopless
  nodup : xs.Nodup
  disjoint : ∀ x ∈ xs, x ∉ N
  neighbors : ∀ x ∈ xs, ∀ y, y ∈ G x ↔ y ≠ x ∧ (y ∈ xs ∨ y ∈ N)
  outside : ∀ u, u ∉ xs → ∀ x ∈ xs, x ∈ G u ↔ u ∈ N

namespace Twins

variable {G : Adjacency} {x : Nat} {xs : List Nat} {N : Finset Nat}

/-- After the first twin is eliminated the others are still twins. -/
theorem tail (h : Twins G (x :: xs) N) : Twins (G.eliminate x) xs N where
  loopless := h.loopless.eliminate x
  nodup := h.nodup.of_cons
  disjoint y hy := h.disjoint y (List.mem_cons_of_mem _ hy)
  neighbors y hy z := by
    have hx := (List.nodup_cons.1 h.nodup).1
    have hxN := h.disjoint x (List.mem_cons_self ..)
    have hyx : y ≠ x := fun he => hx (he ▸ hy)
    have hGx := h.neighbors x (List.mem_cons_self ..)
    have hGy := h.neighbors y (List.mem_cons_of_mem _ hy)
    rw [mem_eliminate h.loopless, hGx, hGx, hGy]
    simp only [List.mem_cons]
    grind
  outside u hu y hy := by
    have hx := (List.nodup_cons.1 h.nodup).1
    have hxN := h.disjoint x (List.mem_cons_self ..)
    have hyx : y ≠ x := fun he => hx (he ▸ hy)
    have hGx := h.neighbors x (List.mem_cons_self ..)
    have hGu := h.outside u
    rw [mem_eliminate h.loopless, hGx, hGx]
    simp only [List.mem_cons] at hGu ⊢
    grind

/-- **Eliminating all twins joins their other neighbours once.** -/
theorem mem_eliminateAll (h : Twins G (x :: xs) N) {u y : Nat} :
    y ∈ G.eliminateAll (x :: xs) u ↔
      u ∉ x :: xs ∧ y ∉ x :: xs ∧ (y ∈ G u ∨ u ∈ N ∧ y ∈ N ∧ y ≠ u) := by
  have hGx := h.neighbors x (List.mem_cons_self ..)
  induction xs generalizing G x with
  | nil =>
    show y ∈ G.eliminate x u ↔ _
    rw [mem_eliminate h.loopless, hGx, hGx]
    simp only [List.mem_singleton]
    have hxN := h.disjoint x (List.mem_cons_self ..)
    grind
  | cons x' xs ih =>
    show y ∈ (G.eliminate x).eliminateAll (x' :: xs) u ↔ _
    have hxN := h.disjoint x (List.mem_cons_self ..)
    refine (ih h.tail (h.tail.neighbors x' (List.mem_cons_self ..))).trans ?_
    rw [mem_eliminate h.loopless, hGx, hGx]
    simp only [List.mem_cons]
    grind

/-- **A group of twins** has as many entries in the factor as it has pairs, and one more for each
of its nodes and each other neighbour. -/
theorem factorCount_eq (h : Twins G xs N) :
    G.factorCount xs = xs.length * (xs.length - 1) / 2 + xs.length * N.card := by
  induction xs generalizing G with
  | nil => simp [factorCount]
  | cons x xs ih =>
    have hx := (List.nodup_cons.1 h.nodup).1
    have hrow : G x = xs.toFinset ∪ N := by
      ext y
      have hxN := h.disjoint x (List.mem_cons_self ..)
      rw [h.neighbors x (List.mem_cons_self ..), Finset.mem_union, List.mem_toFinset, List.mem_cons]
      grind
    have hdisj : Disjoint xs.toFinset N := Finset.disjoint_left.2 fun y hy =>
      h.disjoint y (List.mem_cons_of_mem _ (List.mem_toFinset.1 hy))
    have hcard : (G x).card = xs.length + N.card := by
      rw [hrow, Finset.card_union_of_disjoint hdisj, List.toFinset_card_of_nodup h.nodup.of_cons]
    rw [factorCount, hcard, ih h.tail, List.length_cons, Nat.triangle_succ]
    ring

end Twins

end Adjacency

end Unknowns
