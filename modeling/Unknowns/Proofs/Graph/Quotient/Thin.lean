import Unknowns.Proofs.Graph.Forest
import Unknowns.Proofs.Graph.Quotient.Degrees
import Unknowns.Proofs.Graph.Quotient.Passes

/-!
# Eliminations of leaves

When every pivot so far had at most one neighbour, the elements have at most one
variable each (`Thin`).  An element then joins nothing, so no variables are
merged and the bounds are the external degrees.  The elimination of another
variable whose bound is at most 1 keeps all this (`Thin.eliminate`).

In a forest there is such a variable as long as any are left, and so every pass
eliminates only such variables (`Leafy.degree_le_one`).
-/

namespace Unknowns

namespace Quotient

variable {q : Quotient} {p i : Nat} {G : Adjacency}

/-- No two variables are joined by an element, and none are merged. -/
structure Thin (q : Quotient) : Prop where
  members_eq : ∀ {v}, q.Live v → (q.node v).members = []
  length_list_le : ∀ {e}, q.Element e → (q.lists e).length ≤ 1
  degree_le : ∀ {v}, q.Live v → (q.node v).degree ≤ q.weightOf (q.reach v)
  merged_eq : q.stats.merged = 0
  pivots_eq : q.stats.pivots = q.order.length

theorem Thin.group_eq (ht : q.Thin) {v : Nat} (hv : q.Live v) : q.group v = [v] := by
  rw [group, ht.members_eq hv]

theorem Thin.pivots_eq_singleton (ht : q.Thin) (hp : q.Live p) : q.pivots p = [p] := by
  rw [pivots, ht.members_eq hp, List.mergeSort_nil]

/-- **Variables weigh one** each. -/
theorem Thin.weightOf_eq (ht : q.Thin) (hg : q.Grouped) {vs : List Nat}
    (hlive : ∀ v ∈ vs, q.Live v) : q.weightOf vs = vs.length := by
  induction vs with
  | nil => rfl
  | cons v vs ih =>
    have hv := hlive v (List.mem_cons_self ..)
    rw [weightOf_cons, ih fun u hu => hlive u (List.mem_cons_of_mem _ hu), hg.weight hv,
      ht.group_eq hv, List.length_cons, Nat.add_comm]
    rfl

/-- The nodes that are not eliminated are the variables. -/
theorem Thin.live_iff (ht : q.Thin) (hg : q.Grouped) {u : Nat} :
    q.Live u ↔ u < q.nodes.size ∧ u ∉ q.order := by
  constructor
  · exact fun hu => ⟨hu.1, hg.order_apart hu (self_mem_group u)⟩
  · rintro ⟨hlt, hout⟩
    obtain ⟨w, hw, hu⟩ := (hg.mem_iff.1 hlt).resolve_left hout
    rw [ht.group_eq hw, List.mem_singleton] at hu
    exact hu ▸ hw

/-- A single variable has no twin in its clique. -/
theorem mergeTwins_of_length_le_one (digest : List Nat → List Nat → Nat) {clique : List Nat}
    (h : clique.length ≤ 1) : q.mergeTwins digest clique = q := by
  match clique, h with
  | [], _ => rfl
  | [_], _ => rfl

section
variable (h : q.Steady G) (hb : q.Bounded) (ht : q.Thin) (hp : q.Live p)
include h hb ht hp

/-- The clique of a variable is as long as its bound. -/
theorem Thin.length_reach : (q.reach p).length ≤ (q.node p).degree := by
  rw [← ht.weightOf_eq h.sound.grouped fun v hv => live_of_mem_reach h.sound.linked hp hv]
  exact hb.le_degree hp

section
variable (hleaf : (q.node p).degree ≤ 1)
include hleaf

/-- **Nothing is merged** when a leaf is eliminated. -/
theorem Thin.made_eq : q.made p = (q.opened p).absorb p (q.reach p) (q.deadElements p) :=
  mergeTwins_of_length_le_one listSum ((ht.length_reach h hb hp).trans hleaf)

theorem Thin.making_made : (q.made p).Making (q.openLists p) p (q.reach p) := by
  obtain ⟨hmake, hlive, hd⟩ := absorbable_opened h.sound.linked h.sound.grouped hp
  rw [ht.made_eq h hb hp hleaf]
  exact hmake.absorb hlive hd

theorem Thin.spared_made :
    Spared (q.opened p) (q.made p) (q.openLists p) (q.openLists p) (q.reach p) := by
  obtain ⟨hmake, hlive, hd⟩ := absorbable_opened h.sound.linked h.sound.grouped hp
  rw [ht.made_eq h hb hp hleaf]
  exact spared_absorb hmake hlive hd

/-- Elements still have at most one variable. -/
theorem Thin.length_openLists_le {e : Nat} (he : (q.made p).Element e) :
    (q.openLists p e).length ≤ 1 := by
  by_cases hep : e = p
  · rw [hep, openLists_self]
    exact (ht.length_reach h hb hp).trans hleaf
  · obtain ⟨hmake, hlive, hd⟩ := absorbable_opened h.sound.linked h.sound.grouped hp
    rw [ht.made_eq h hb hp hleaf, element_absorb hmake hlive hd,
      element_opened h.sound.linked hp] at he
    rw [openLists_of_ne hep]
    exact ht.length_list_le (he.1.resolve_left hep).1

/-- **Around the neighbour of a leaf** there are only the variables that it lists. -/
theorem Thin.surround_eq (hi : i ∈ q.openLists p p) :
    (q.made p).surround (q.openLists p) p (q.reach p) i = ((q.made p).node i).adjVars := by
  have hmake := ht.making_made h hb hp hleaf
  obtain ⟨hclique, hlive⟩ := hmake.mem_list.1 hi
  have hsingle : ∀ {e}, (q.made p).Element e → i ∈ q.openLists p e → q.openLists p e = [i] := by
    intro e he hie
    have hlen := ht.length_openLists_le h hb hp hleaf he
    obtain ⟨x, hx⟩ := List.length_eq_one_iff.1
      (Nat.le_antisymm hlen (List.length_pos_of_mem hie))
    rw [hx, List.mem_singleton] at hie
    rw [hx, hie]
  have hself : (q.openLists p p).filter (· ≠ i) = [] := by
    rw [hsingle hmake.element hi]
    simp
  have hothers : ((((q.made p).node i).adjElems.filter (· ≠ p)).flatMap fun e =>
      (q.openLists p e).filter (· ∉ q.reach p)) = [] := by
    refine List.flatMap_eq_nil_iff.2 fun e he => ?_
    obtain ⟨hel, hie⟩ := (hmake.linked.mem_elems hlive).1 (List.mem_filter.1 he).1
    rw [hsingle hel hie]
    simpa using hclique
  rw [surround, hself, hothers, List.append_nil, List.append_nil]

/-- **The elimination of a leaf** leaves the bounds no greater than the external degrees. -/
theorem Thin.degree_eliminate_le (hi : (q.eliminate p).2.Live i) :
    ((q.eliminate p).2.node i).degree ≤ (q.eliminate p).2.weightOf ((q.eliminate p).2.reach i) := by
  by_cases hin : i ∈ q.reach p
  · have hmake := ht.making_made h hb hp hleaf
    have hs := ht.spared_made h hb hp hleaf
    have hlist := mem_list_of_live_eliminate hmake hi hin
    have hlive := (hmake.mem_list.1 hlist).2
    have hsub : (q.made p).surround (q.openLists p) p (q.reach p) i ⊆ (q.eliminate p).2.reach i :=
      fun v hv => (h.sound.mem_reach_eliminate hp hmake hi).2 ((hmake.mem_surround hlist).1 hv)
    have hnodup : ((q.made p).surround (q.openLists p) p (q.reach p) i).Nodup := by
      rw [ht.surround_eq h hb hp hleaf hlist]
      exact hmake.linked.vars_nodup hlive
    rw [h.sound.degree_eliminate_of_mem hp hmake hs hlist, weightOf_eliminate hmake]
    exact (Nat.min_le_left _ _).trans
      ((Nat.min_le_left _ _).trans (weightOf_le_of_subset hnodup hsub))
  · rw [(h.sound.node_eliminate hp hi hin).1, h.sound.weightOf_reach_eliminate hp hi hin]
    exact ht.degree_le (h.sound.live_of_live_eliminate hp hi).1

/-- **The elimination of a leaf** keeps the quotient graph thin. -/
theorem Thin.eliminate : (q.eliminate p).2.Thin where
  members_eq {v} hv := by
    have hlinked := h.sound.linked
    obtain ⟨hopen, hclique, hd⟩ := absorbable_opened hlinked h.sound.grouped hp
    obtain ⟨hlive, hne⟩ := h.sound.live_of_live_eliminate hp hv
    have hstays : (q.opened p).Live v := (live_opened hlinked hp).2 ⟨hlive, hne⟩
    rw [eliminate_eq, (members_close (ht.making_made h hb hp hleaf) _ v).1,
      ht.made_eq h hb hp hleaf, (members_absorb hopen hclique hd hstays).1,
      (members_opened hlinked hp hlive hne).1]
    exact ht.members_eq hlive
  length_list_le {e} he := by
    have hmake := ht.making_made h hb hp hleaf
    rw [eliminate_eq] at he ⊢
    have he := (element_close hmake _).1 he
    rw [lists_close hmake _ he]
    exact ht.length_openLists_le h hb hp hleaf he
  degree_le hv := ht.degree_eliminate_le h hb hp hleaf hv
  merged_eq := by
    rw [eliminate_eq, stats_close, ht.made_eq h hb hp hleaf]
    have hopened : (q.opened p).stats.merged = (q.retire p (q.reach p)).stats.merged :=
      congrArg OrderingStats.merged (stats_modifyAll ..)
    exact hopened.trans ht.merged_eq
  pivots_eq := by
    rw [order_eliminate, ht.pivots_eq_singleton hp, List.length_append, (counts_eliminate p).2,
      ht.pivots_eq]
    rfl

end

omit hb in
/-- **The row of a variable** in the elimination game has as many nodes as its clique. -/
theorem Thin.card_eliminateAll : (G.eliminateAll q.order p).card = (q.reach p).length := by
  have hrow : G.eliminateAll q.order p = (q.reach p).toFinset := by
    ext y
    rw [h.sound.describes, adjacent_pivot_iff h.sound.linked h.sound.grouped hp (self_mem_group p),
      ht.group_eq hp, List.mem_singleton, mem_expand, List.mem_toFinset]
    constructor
    · rintro ⟨hne, hy | ⟨v, hv, hy⟩⟩
      · exact absurd hy.symm hne
      · rw [ht.group_eq (live_of_mem_reach h.sound.linked hp hv), List.mem_singleton] at hy
        exact hy ▸ hv
    · intro hy
      refine ⟨fun he => ((mem_reach h.sound.linked hp).1 hy).1 he.symm, Or.inr ⟨y, hy, ?_⟩⟩
      exact self_mem_group y
  rw [hrow, List.toFinset_card_of_nodup (nodup_reach p)]

end

/-! ### Forests -/

/-- Only leaves of a graph have been eliminated. -/
structure Leafy (q : Quotient) (G : Adjacency) : Prop where
  steady : q.Steady G
  bounded : q.Bounded
  thin : q.Thin
  zeroFill : G.ZeroFill q.order

theorem Leafy.countPass (h : q.Leafy G) : q.countPass.Leafy G where
  steady := h.steady.countPass
  bounded := h.bounded.countPass
  thin := ⟨h.thin.members_eq, h.thin.length_list_le, h.thin.degree_le, h.thin.merged_eq,
    h.thin.pivots_eq⟩
  zeroFill := h.zeroFill

/-- **One more leaf** can be eliminated. -/
theorem Leafy.eliminate (h : q.Leafy G) (hp : q.Live p) (hleaf : (q.node p).degree ≤ 1) :
    (q.eliminate p).2.Leafy G where
  steady := h.steady.eliminate hp
  bounded := h.bounded.eliminate h.steady hp
  thin := h.thin.eliminate h.steady h.bounded hp hleaf
  zeroFill := by
    rw [order_eliminate, h.thin.pivots_eq_singleton hp, Adjacency.ZeroFill.append]
    refine ⟨h.zeroFill, ?_, trivial⟩
    rw [h.thin.card_eliminateAll h.steady hp]
    exact (h.thin.length_reach h.steady h.bounded hp).trans hleaf

/-- **A forest has a leaf left** as long as it has variables left. -/
theorem Leafy.exists_degree_le_one (h : q.Leafy G) (hG : G.Undirected) (hf : G.Forest) {v : Nat}
    (hv : q.Live v) : ∃ u, q.Live u ∧ (q.node u).degree ≤ 1 := by
  have hgrouped := h.steady.sound.grouped
  let s := (Finset.range q.nodes.size).filter (· ∉ q.order)
  have hlive : ∀ {u}, u ∈ s ↔ q.Live u := by
    intro u
    rw [Finset.mem_filter, Finset.mem_range, h.thin.live_iff hgrouped]
  have hmem : ∀ {u y}, y ∈ G.eliminateAll q.order u ↔ u ∉ q.order ∧ y ∉ q.order ∧ y ∈ G u :=
    h.zeroFill.mem_eliminateAll hG.loopless
  have hundirected : (G.eliminateAll q.order).Undirected :=
    { loopless := fun u hu => hG.loopless u (hmem.1 hu).2.2
      symm := fun hu => hmem.2 ⟨(hmem.1 hu).2.1, (hmem.1 hu).1, hG.symm (hmem.1 hu).2.2⟩ }
  have hforest : (G.eliminateAll q.order).Forest := hf.anti fun u y hy => (hmem.1 hy).2.2
  have hrows : ∀ u ∈ s, G.eliminateAll q.order u ⊆ s := by
    intro u _ y hy
    obtain ⟨-, w, x, -, hx, -, hyx, -⟩ := (h.steady.sound.describes u y).1 hy
    rw [h.thin.group_eq hx, List.mem_singleton] at hyx
    exact hlive.2 (hyx ▸ hx)
  obtain ⟨u, hu, hcard⟩ := hforest.exists_card_le_one hundirected ⟨v, hlive.2 hv⟩ hrows
  have hu := hlive.1 hu
  refine ⟨u, hu, (h.thin.degree_le hu).trans ?_⟩
  rwa [h.thin.weightOf_eq hgrouped fun w hw => live_of_mem_reach h.steady.sound.linked hu hw,
    ← h.thin.card_eliminateAll h.steady hu]

/-- **In a forest every pass eliminates leaves only.** -/
theorem Leafy.degree_le_one (h : q.Leafy G) (hG : G.Undirected) (hf : G.Forest)
    (hne : q.queue ≠ []) {e : Quotient × Nat} (he : e ∈ q.stepsOfPass) :
    (e.1.node e.2).degree ≤ 1 := by
  obtain ⟨least, rest, hq⟩ := List.exists_cons_of_ne_nil hne
  have hlive := (h.steady.queued.mem_iff.1 (hq ▸ List.mem_cons_self .. : least ∈ q.queue)).1
  obtain ⟨u, hu, hleaf⟩ := h.exists_degree_le_one hG hf hlive
  exact (degree_le_of_mem_stepsOfPass h.steady he hu).trans hleaf

/-- **A forest is eliminated leaf by leaf.** -/
theorem Leafy.eliminateAll (h : q.Leafy G) (hG : G.Undirected) (hf : G.Forest) :
    q.eliminateAll.Leafy G :=
  passes_induction (I := fun q => q.Leafy G) (C := fun q p => (q.node p).degree ≤ 1)
    (fun hq => hq.steady) (fun hq hp hleaf => hq.eliminate hp hleaf) (fun hq => hq.countPass)
    (fun hq hne _ he => hq.degree_le_one hG hf hne he) h _

theorem leafy_ofGraph {rows : List (List Nat)} (h : Csr.NormalRows rows) (aggressive : Bool) :
    (ofGraph (.ofRows rows) aggressive).Leafy (Csr.ofRows rows).adjacency where
  steady := steady_ofGraph h aggressive
  bounded := bounded_ofGraph h aggressive
  thin :=
    { members_eq := fun {v} _ => by rw [node_ofGraph]
      length_list_le := fun he => absurd he not_element_ofGraph
      degree_le := fun hv => by
        refine ((bounded_ofGraph h aggressive).degree_eq hv ?_).le
        rw [node_ofGraph]
        exact Nat.zero_le _
      merged_eq := rfl
      pivots_eq := rfl }
  zeroFill := trivial

end Quotient

end Unknowns
