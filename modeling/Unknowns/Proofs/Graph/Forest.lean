import Mathlib.Algebra.BigOperators.Group.Finset.Piecewise
import Mathlib.Combinatorics.SimpleGraph.Acyclic
import Unknowns.Proofs.Graph.Elimination

/-!
# Zero-fill orders and forests

When a node with at most one neighbour is eliminated no edge is new.  An order in
which this holds of every node (`ZeroFill`) therefore takes nodes away and does
nothing else (`ZeroFill.mem_eliminateAll`): the factor has one entry for each edge
(`ZeroFill.two_mul_factorCount`).

A forest always has a node with at most one neighbour (`Forest.exists_card_le_one`),
an end of a longest path, and only forests have zero-fill orders of all nodes
(`ZeroFill.forest`).
-/

namespace Unknowns

namespace Adjacency

variable {G : Adjacency} {x : Nat} {xs : List Nat}

/-- Every node of the order has at most one neighbour when it is eliminated. -/
def ZeroFill (G : Adjacency) : List Nat → Prop
  | [] => True
  | x :: rest => (G x).card ≤ 1 ∧ (G.eliminate x).ZeroFill rest

instance decidableZeroFill : (G : Adjacency) → (xs : List Nat) → Decidable (G.ZeroFill xs)
  | _, [] => .isTrue trivial
  | G, x :: rest =>
    have := decidableZeroFill (G.eliminate x) rest
    inferInstanceAs (Decidable ((G x).card ≤ 1 ∧ (G.eliminate x).ZeroFill rest))

/-! ### Zero-fill orders -/

/-- **The elimination of a node with at most one neighbour** takes it away. -/
theorem mem_eliminate_of_card_le_one (h : G.Loopless) (hx : (G x).card ≤ 1) {u y : Nat} :
    y ∈ G.eliminate x u ↔ u ≠ x ∧ y ≠ x ∧ y ∈ G u := by
  rw [mem_eliminate h]
  refine and_congr_right fun _ => and_congr_right fun _ => or_iff_left ?_
  rintro ⟨hu, hy, hne⟩
  exact hne (Finset.card_le_one.1 hx y hy u hu)

theorem ZeroFill.append {ys : List Nat} :
    G.ZeroFill (xs ++ ys) ↔ G.ZeroFill xs ∧ (G.eliminateAll xs).ZeroFill ys := by
  induction xs generalizing G with
  | nil => exact (and_iff_right trivial).symm
  | cons x xs ih => exact (and_congr_right fun _ => ih).trans and_assoc.symm

/-- **A zero-fill order** takes its nodes away. -/
theorem ZeroFill.mem_eliminateAll (hz : G.ZeroFill xs) (h : G.Loopless) {u y : Nat} :
    y ∈ G.eliminateAll xs u ↔ u ∉ xs ∧ y ∉ xs ∧ y ∈ G u := by
  induction xs generalizing G with
  | nil => simp [eliminateAll]
  | cons x xs ih =>
    refine (ih hz.2 (h.eliminate x)).trans ?_
    rw [mem_eliminate_of_card_le_one h hz.1]
    simp only [List.mem_cons, not_or]
    tauto

/-- **Every node of a zero-fill order** has at most one neighbour that is not eliminated before. -/
theorem ZeroFill.card_sdiff_le_one {before after : List Nat}
    (hz : G.ZeroFill (before ++ x :: after)) (h : G.Loopless) (hx : x ∉ before) :
    (G x \ before.toFinset).card ≤ 1 := by
  obtain ⟨hbefore, hleaf, -⟩ := ZeroFill.append.1 hz
  have hrow : G.eliminateAll before x = G x \ before.toFinset := by
    ext y
    rw [hbefore.mem_eliminateAll h, Finset.mem_sdiff, List.mem_toFinset]
    exact (and_iff_right hx).trans and_comm
  rwa [← hrow]

/-- **The factor of a zero-fill order** has one entry for each edge, which is in two rows. -/
theorem ZeroFill.two_mul_factorCount (hz : G.ZeroFill xs) (h : G.Undirected) (hn : xs.Nodup)
    (hrows : ∀ u ∈ xs, G u ⊆ xs.toFinset) :
    2 * G.factorCount xs = ∑ u ∈ xs.toFinset, (G u).card := by
  induction xs generalizing G with
  | nil => rfl
  | cons x xs ih =>
    obtain ⟨hx, hn⟩ := List.nodup_cons.1 hn
    have hmem : ∀ {u y}, y ∈ G.eliminate x u ↔ u ≠ x ∧ y ≠ x ∧ y ∈ G u :=
      mem_eliminate_of_card_le_one h.loopless hz.1
    have hsub : ∀ u ∈ xs, G.eliminate x u ⊆ xs.toFinset := by
      intro u hu y hy
      obtain ⟨-, hyx, hy⟩ := hmem.1 hy
      have hall := List.mem_toFinset.1 (hrows u (List.mem_cons_of_mem _ hu) hy)
      exact List.mem_toFinset.2 ((List.mem_cons.1 hall).resolve_left hyx)
    -- each neighbour of `x` loses one entry, and the others none
    have hrow : ∀ u ∈ xs.toFinset,
        (G u).card = (G.eliminate x u).card + if u ∈ G x then 1 else 0 := by
      intro u hu
      have hux : u ≠ x := fun he => hx (he ▸ List.mem_toFinset.1 hu)
      have herase : G.eliminate x u = (G u).erase x := by
        ext y
        rw [hmem, Finset.mem_erase]
        exact and_iff_right hux
      rw [herase]
      split
      · next hin => exact (Finset.card_erase_add_one (h.symm hin)).symm
      · next hout => rw [Finset.erase_eq_of_notMem fun hc => hout (h.symm hc), Nat.add_zero]
    have hx' : x ∉ xs.toFinset := fun hm => hx (List.mem_toFinset.1 hm)
    have hleaves : xs.toFinset.filter (· ∈ G x) = G x := by
      ext u
      rw [Finset.mem_filter]
      refine and_iff_right_of_imp fun hu => ?_
      have hall := List.mem_toFinset.1 (hrows x (List.mem_cons_self ..) hu)
      refine List.mem_toFinset.2 ((List.mem_cons.1 hall).resolve_left ?_)
      rintro rfl
      exact h.loopless _ hu
    calc 2 * G.factorCount (x :: xs)
        = 2 * (G x).card + 2 * (G.eliminate x).factorCount xs := Nat.mul_add ..
      _ = 2 * (G x).card + ∑ u ∈ xs.toFinset, (G.eliminate x u).card := by
          rw [ih hz.2 (h.eliminate x) hn hsub]
      _ = (G x).card + ∑ u ∈ xs.toFinset, (G u).card := by
          rw [Finset.sum_congr rfl hrow, Finset.sum_add_distrib, ← Finset.card_filter, hleaves]
          ring
      _ = ∑ u ∈ (x :: xs).toFinset, (G u).card := by
          rw [List.toFinset_cons, Finset.sum_insert hx']

/-! ### Forests -/

/-- The graph as a simple graph. -/
def graph (G : Adjacency) : SimpleGraph Nat := .fromRel fun u v => v ∈ G u

/-- The graph has no cycles. -/
def Forest (G : Adjacency) : Prop := G.graph.IsAcyclic

theorem Undirected.adj_iff (h : G.Undirected) {u v : Nat} : G.graph.Adj u v ↔ v ∈ G u := by
  rw [graph, SimpleGraph.fromRel_adj]
  constructor
  · rintro ⟨-, hv | hu⟩
    · exact hv
    · exact h.symm hu
  · intro hv
    exact ⟨fun he => h.loopless u (he ▸ hv), Or.inl hv⟩

/-- **A part of a forest is a forest.** -/
theorem Forest.anti {H : Adjacency} (hf : G.Forest) (h : ∀ u, H u ⊆ G u) : H.Forest := by
  refine SimpleGraph.IsAcyclic.anti (fun u v huv => ?_) hf
  rw [graph, SimpleGraph.fromRel_adj] at huv ⊢
  exact ⟨huv.1, huv.2.imp (fun hv => h u hv) fun hu => h v hu⟩

/-- **A forest has a leaf**: a node with at most one neighbour. -/
theorem Forest.exists_card_le_one (hf : G.Forest) (h : G.Undirected) {s : Finset Nat}
    (hs : s.Nonempty) (hrows : ∀ u ∈ s, G u ⊆ s) : ∃ u ∈ s, (G u).card ≤ 1 := by
  let T := G.graph.induce (s : Set Nat)
  have hT : T.IsAcyclic := hf.induce _
  obtain ⟨x, hx⟩ := hs
  have : Nonempty (s : Set Nat) := ⟨⟨x, hx⟩⟩
  have : Finite (s : Set Nat) := s.finite_toSet
  obtain ⟨u, v, path, hpath, hlongest⟩ :=
    SimpleGraph.Walk.exists_isPath_forall_isPath_length_le_length T
  have hadj : ∀ {y} (hy : y ∈ G u), T.Adj u ⟨y, hrows u u.2 hy⟩ := fun hy => h.adj_iff.2 hy
  -- every neighbour of the end is its neighbour on the path, which could be made longer otherwise
  have hnext : ∀ {y} (hy : y ∈ G u), (⟨y, hrows u u.2 hy⟩ : (s : Set Nat)) = path.snd := by
    intro y hy
    refine hT.eq_snd_of_adj_start hpath (hadj hy) ?_
    by_contra hout
    have hle := hlongest _ _ _ (hpath.cons (h := (hadj hy).symm) hout)
    rw [SimpleGraph.Walk.length_cons] at hle
    omega
  refine ⟨u, u.2, Finset.card_le_one.2 fun a ha b hb => ?_⟩
  exact congrArg Subtype.val ((hnext ha).trans (hnext hb).symm)

/-- **Only forests** have a zero-fill order of all nodes. -/
theorem ZeroFill.forest (hz : G.ZeroFill xs) (h : G.Undirected) (hrows : ∀ u, G u ⊆ xs.toFinset) :
    G.Forest := by
  induction xs generalizing G with
  | nil =>
    have hbot : G.graph = ⊥ := by
      ext u v
      rw [h.adj_iff, SimpleGraph.bot_adj, iff_false]
      exact fun hv => Finset.notMem_empty _ (hrows u hv)
    rw [Forest, hbot]
    exact SimpleGraph.isAcyclic_bot
  | cons x xs ih =>
    have hmem : ∀ {u y}, y ∈ G.eliminate x u ↔ u ≠ x ∧ y ≠ x ∧ y ∈ G u :=
      mem_eliminate_of_card_le_one h.loopless hz.1
    have hrest : (G.eliminate x).Forest := ih hz.2 (h.eliminate x) fun u y hy => by
      obtain ⟨-, hyx, hy⟩ := hmem.1 hy
      have hall := List.mem_toFinset.1 (hrows u hy)
      exact List.mem_toFinset.2 ((List.mem_cons.1 hall).resolve_left hyx)
    have hadj : ∀ {u v}, (G.eliminate x).graph.Adj u v ↔ u ≠ x ∧ v ≠ x ∧ G.graph.Adj u v := by
      intro u v
      rw [(h.eliminate x).adj_iff, hmem, h.adj_iff]
    rcases (G x).eq_empty_or_nonempty with hnone | ⟨y, hy⟩
    · refine hrest.anti fun u v hv => hmem.2 ⟨?_, ?_, hv⟩
      · rintro rfl
        exact Finset.notMem_empty _ (hnone ▸ hv)
      · rintro rfl
        exact Finset.notMem_empty _ (hnone ▸ h.symm hv)
    · -- the only edge of `x` leads to a node that cannot be reached from it otherwise
      have hyx : y ≠ x := fun he => h.loopless x (he ▸ hy)
      have hapart : ¬ (G.eliminate x).graph.Reachable x y := by
        rintro ⟨walk⟩
        cases walk with
        | nil => exact hyx rfl
        | cons hfirst _ => exact (hadj.1 hfirst).1 rfl
      have honly : ∀ {v}, v ∈ G x → v = y := fun hv => Finset.card_le_one.1 hz.1 _ hv _ hy
      refine SimpleGraph.IsAcyclic.anti (fun u v huv => ?_)
        (SimpleGraph.IsAcyclic.sup_edge_of_not_reachable hapart hrest)
      rw [SimpleGraph.sup_adj, SimpleGraph.edge_adj, hadj]
      have hv := h.adj_iff.1 huv
      by_cases hux : u = x
      · subst hux
        exact Or.inr ⟨Or.inl ⟨rfl, honly hv⟩, huv.ne⟩
      · by_cases hvx : v = x
        · subst hvx
          exact Or.inr ⟨Or.inr ⟨honly (h.symm hv), rfl⟩, huv.ne⟩
        · exact Or.inl ⟨hux, hvx, huv⟩

end Adjacency

end Unknowns
