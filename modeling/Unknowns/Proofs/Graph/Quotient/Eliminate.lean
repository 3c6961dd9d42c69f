import Unknowns.Proofs.Graph.Quotient.Described

/-!
# One elimination

`eliminate` opens an element, absorbs the elements that it makes superfluous,
merges the twins of its clique and closes it (`eliminate_eq`).  With this it does
what the elimination game does with the nodes of the pivot: the graph described
stays the one that the game has reached, and the entries counted are those of the
factor (`Sound.eliminate`).
-/

namespace Unknowns

namespace Quotient

variable {q : Quotient} {p : Nat}

/-! ### Weights -/

/-- The weight of some variables is the number of nodes that they stand for. -/
theorem card_expand (hg : q.Grouped) {vs : List Nat} (hn : vs.Nodup) (hlive : ∀ v ∈ vs, q.Live v) :
    (q.expand vs).card = q.weightOf vs := by
  have hnodup : (vs.flatMap q.group).Nodup := by
    refine List.nodup_flatMap.2 ⟨fun v hv => hg.group_nodup (hlive v hv), ?_⟩
    refine hn.imp_of_mem fun {u v} hu hv hne x hxu hxv => ?_
    exact hne (hg.group_apart (hlive u hu) (hlive v hv) hxu hxv)
  rw [expand, List.toFinset_card_of_nodup hnodup]
  clear hn hnodup
  induction vs with
  | nil => rfl
  | cons v vs ih =>
    rw [List.flatMap_cons, List.length_append, ih fun u hu => hlive u (List.mem_cons_of_mem _ hu),
      ← hg.weight (hlive v (List.mem_cons_self ..))]
    rfl

/-- Only no variables have no weight. -/
theorem eq_nil_of_weightOf_eq_zero (hg : q.Grouped) {vs : List Nat} (hlive : ∀ v ∈ vs, q.Live v)
    (h : q.weightOf vs = 0) : vs = [] := by
  cases vs with
  | nil => rfl
  | cons v vs =>
    have hv := hg.weight (hlive v (List.mem_cons_self ..))
    have hpos : (q.group v).length = (q.node v).members.length + 1 := rfl
    have hsum : q.weightOf (v :: vs) = (q.node v).weight + q.weightOf vs := rfl
    omega

/-! ### The elements that are absorbed aggressively -/

/-- The elements without variables outside the clique of `p`, if these are to be absorbed. -/
def deadElements (q : Quotient) (p : Nat) : List Nat :=
  if q.aggressive then
    (((q.opened p).outside p (q.reach p)).filter fun _ w => w = 0).keys
  else []

theorem get?_outside (clique : List Nat) (e : Nat) :
    (q.outside p clique).get? e =
      if e ∈ (clique.flatMap fun i => (q.node i).adjElems) ∧ e ≠ p then
        some (q.weightOf ((q.node e).elemVars.filter (· ∉ clique)))
      else none := by
  rw [outside, Table.get?_foldl_insert]
  simp only [List.mem_filter, mem_ascending, decide_eq_true_iff]
  rfl

theorem mem_deadElements {e : Nat} (he : e ∈ q.deadElements p) :
    (∃ i ∈ q.reach p, e ∈ ((q.opened p).node i).adjElems) ∧ e ≠ p ∧
      (q.opened p).weightOf (((q.opened p).node e).elemVars.filter (· ∉ q.reach p)) = 0 := by
  unfold deadElements at he
  split at he
  · obtain ⟨⟨k, w⟩, hkw, rfl⟩ := List.mem_map.1 he
    obtain ⟨hmem, hw⟩ := List.mem_filter.1 hkw
    have hget := Table.mem_entries_iff.1 hmem
    rw [get?_outside] at hget
    split at hget
    · next hc =>
      obtain rfl := Option.some.inj hget
      exact ⟨List.mem_flatMap.1 hc.1, hc.2, of_decide_eq_true hw⟩
    · cases hget
  · cases he

theorem nodup_deadElements (q : Quotient) (p : Nat) : (q.deadElements p).Nodup := by
  unfold deadElements
  split
  · exact Table.nodup_keys _
  · exact List.nodup_nil

/-- **An element without weight outside the clique has no variables there.** -/
theorem dead_deadElements (h : q.Linked q.lists) (hg : q.Grouped) (hp : q.Live p) :
    (q.opened p).Dead (q.openLists p) p (q.deadElements p) := by
  have hmake := making_opened h hp
  have helement : ∀ {e}, e ∈ q.deadElements p → (q.opened p).Element e := fun he => by
    obtain ⟨⟨i, hi, hei⟩, -, -⟩ := mem_deadElements he
    exact hmake.linked.element (live_opened_of_mem_reach h hp hi) hei
  refine ⟨nodup_deadElements q p, helement, fun he => (mem_deadElements he).2.1, ?_⟩
  intro e v he hv
  obtain ⟨-, hne, hweight⟩ := mem_deadElements he
  have hvars : ∀ u ∈ ((q.opened p).node e).elemVars.filter (· ∉ q.reach p), (q.opened p).Live u := by
    intro u hu
    have hu : u ∈ (q.opened p).lists e := (List.mem_filter.1 hu).1
    rw [← hmake.stored (helement he) hne] at hu
    exact hmake.linked.list_live (helement he) hu
  have hnil := eq_nil_of_weightOf_eq_zero (hg.opened h hp) hvars hweight
  rw [hmake.stored (helement he) hne] at hv
  rw [openLists_self]
  by_contra hout
  exact List.filter_eq_nil_iff.1 hnil v hv (decide_eq_true hout)

/-! ### The whole elimination -/

@[simp] theorem aggressive_modifyAll (vs : List Nat) (f : Nat → QuotientNode → QuotientNode) :
    (q.modifyAll vs f).aggressive = q.aggressive := modifyAll_congr (fun _ _ _ => rfl) vs f

theorem aggressive_opened (p : Nat) : (q.opened p).aggressive = q.aggressive :=
  (aggressive_modifyAll ..).trans (aggressive_modifyAll ..)

/-- The element of `p` with its twins merged, about to be closed. -/
def made (q : Quotient) (p : Nat) : Quotient :=
  ((q.opened p).absorb p (q.reach p) (q.deadElements p)).mergeTwins listSum (q.reach p)

/-- **An elimination** opens an element, absorbs, merges and closes. -/
theorem eliminate_eq (q : Quotient) (p : Nat) :
    q.eliminate p =
      (q.reach p, (q.made p).close p ((q.opened p).outside p (q.reach p)) (q.reach p)) := by
  rw [made, deadElements, ← aggressive_opened p]
  rfl

/-- **An open element** is ready for absorption. -/
theorem absorbable_opened (h : q.Linked q.lists) (hg : q.Grouped) (hp : q.Live p) :
    (q.opened p).Making (q.openLists p) p (q.reach p) ∧ (∀ v ∈ q.reach p, (q.opened p).Live v) ∧
      (q.opened p).Dead (q.openLists p) p (q.deadElements p) :=
  ⟨making_opened h hp, fun _ hv => live_opened_of_mem_reach h hp hv, dead_deadElements h hg hp⟩

/-- **What is made of an open element** has what absorption leaves and every merge keeps. -/
theorem made_induction {P : Quotient → (Nat → List Nat) → Prop} (h : q.Linked q.lists)
    (hg : q.Grouped) (hp : q.Live p)
    (hstep : ∀ q' L i j, q'.Making L p (q.reach p) → q'.Mergeable i j → i ∈ L p → j ∈ L p → P q' L →
      P (q'.merge i j) fun e => (L e).filter (· ≠ j))
    (habsorb : P ((q.opened p).absorb p (q.reach p) (q.deadElements p)) (q.openLists p)) :
    ∃ L, (q.made p).Making L p (q.reach p) ∧ P (q.made p) L := by
  obtain ⟨hmake, hlive, hd⟩ := absorbable_opened h hg hp
  have hmem : ∀ v ∈ [] ++ q.reach p, v ∈ q.openLists p p := fun v hv => openLists_self p ▸ hv
  exact mergeTwinsFrom_induction hstep listSum (hmake.absorb hlive hd) habsorb (nodup_reach p) hmem

/-! ### What is counted -/

@[simp] theorem stats_modifyAll (vs : List Nat) (f : Nat → QuotientNode → QuotientNode) :
    (q.modifyAll vs f).stats = q.stats := modifyAll_congr (fun _ _ _ => rfl) vs f

theorem fill_opened (p : Nat) :
    (q.opened p).stats.fill = q.stats.fill +
      ((q.node p).weight * ((q.node p).weight - 1) / 2 +
        (q.node p).weight * q.weightOf (q.reach p)) :=
  congrArg OrderingStats.fill (stats_modifyAll ..)

theorem stats_close (p : Nat) (outside : Table Nat Nat) (clique : List Nat) :
    (q.close p outside clique).stats = q.stats := stats_modifyAll ..

/-! ### The elimination game -/

/-- The quotient graph has its lists in order, describes what the elimination game with `G` has
reached after the nodes eliminated so far, and has counted their columns of the factor. -/
structure Sound (q : Quotient) (G : Adjacency) : Prop where
  linked : q.Linked q.lists
  grouped : q.Grouped
  describes : ∀ x y, y ∈ G.eliminateAll q.order x ↔ q.Adjacent q.lists x y
  fill : q.stats.fill = G.factorCount q.order

section
variable {G : Adjacency} (h : q.Sound G) (hp : q.Live p)
include h hp

/-- **The clique of a pivot** is what the elimination game has left as the other neighbours of each
of its nodes. -/
theorem Sound.sdiff_pivots {x : Nat} (hx : x ∈ q.pivots p) :
    G.eliminateAll q.order x \ (q.pivots p).toFinset = q.expand (q.eliminate p).1 := by
  have hx := mem_pivots.1 hx
  ext y
  rw [Finset.mem_sdiff, List.mem_toFinset, h.describes, mem_pivots,
    adjacent_pivot_iff h.linked h.grouped hp hx]
  constructor
  · rintro ⟨⟨-, hy⟩, hout⟩
    exact hy.resolve_left hout
  · intro hy
    have hout : y ∉ q.group p := fun hm => not_mem_expand_reach h.linked h.grouped hp hm hy
    exact ⟨⟨fun he => hout (he ▸ hx), Or.inr hy⟩, hout⟩

/-- **The nodes of a pivot** are adjacent to one another in the elimination game. -/
theorem Sound.mem_of_mem_pivots {x y : Nat} (hx : x ∈ q.pivots p) (hy : y ∈ q.pivots p)
    (hne : x ≠ y) : y ∈ G.eliminateAll q.order x := by
  rw [h.describes, adjacent_pivot_iff h.linked h.grouped hp (mem_pivots.1 hx)]
  exact ⟨hne, Or.inl (mem_pivots.1 hy)⟩

end

/-- What is kept once the element is open: its order, its count and the graph described. -/
structure Kept (q q' : Quotient) (L L' : Nat → List Nat) : Prop where
  grouped : q'.Grouped
  order_eq : q'.order = q.order
  fill_eq : q'.stats.fill = q.stats.fill
  adjacent_iff : ∀ x y, q'.Adjacent L' x y ↔ q.Adjacent L x y

/-- **What is made of an open element** has the same order, count and graph. -/
theorem kept_made (h : q.Linked q.lists) (hg : q.Grouped) (hp : q.Live p) :
    ∃ L, (q.made p).Making L p (q.reach p) ∧ Kept (q.opened p) (q.made p) (q.openLists p) L := by
  obtain ⟨hmake, hlive, hd⟩ := absorbable_opened h hg hp
  refine made_induction (P := fun q' L => Kept (q.opened p) q' (q.openLists p) L) h hg hp ?_ ?_
  · intro q' L i j hmake' hm hi hj hkept
    exact
      { grouped := hkept.grouped.merge hm
        order_eq := (order_merge ..).trans hkept.order_eq
        fill_eq := hkept.fill_eq
        adjacent_iff := fun x y =>
          (adjacent_merge hmake' hm hi hj).trans (hkept.adjacent_iff x y) }
  · exact
      { grouped := (hg.opened h hp).absorb hmake hlive hd
        order_eq := order_absorb ..
        fill_eq := rfl
        adjacent_iff := fun x y => adjacent_absorb hmake hlive hd }

/-- **An elimination is a move of the elimination game** for every node of its pivot. -/
theorem Sound.eliminate {G : Adjacency} (h : q.Sound G) (hp : q.Live p) :
    (q.eliminate p).2.Sound G := by
  obtain ⟨L, hmake, hkept⟩ := kept_made h.linked h.grouped hp
  have htwins := twins_pivots h.linked h.grouped hp h.describes
  have horder : (q.eliminate p).2.order = q.order ++ q.pivots p := by
    rw [eliminate_eq, order_close, hkept.order_eq, order_opened, pivots]
  rw [eliminate_eq] at horder ⊢
  refine ⟨hmake.linked_close _, hkept.grouped.close hmake _, fun x y => ?_, ?_⟩
  · rw [horder, Adjacency.eliminateAll_append, adjacent_close hmake, hkept.adjacent_iff,
      adjacent_opened h.linked h.grouped hp, pivots, htwins.mem_eliminateAll, h.describes]
    rw [← pivots, mem_pivots, mem_pivots]
  · have hlength : (q.pivots p).length = (q.node p).weight := by
      rw [(perm_pivots q p).length_eq, h.grouped.weight hp]
    have hcard : (q.expand (q.reach p)).card = q.weightOf (q.reach p) :=
      card_expand h.grouped (nodup_reach p) fun v hv => live_of_mem_reach h.linked hp hv
    rw [horder, Adjacency.factorCount_append, htwins.factorCount_eq, hlength, hcard, ← h.fill,
      stats_close, hkept.fill_eq, fill_opened]

end Quotient

end Unknowns
