import Unknowns.Proofs.Graph.Quotient.Run

/-!
# What an elimination leaves as it is

The eliminated variable touches the variables of its clique only.  Any other variable keeps
its bound, its elements and the nodes that it stands for (`Spared`), and what is
adjacent to it stays adjacent to it (`expand_reach_eliminate`).
-/

namespace Unknowns

namespace Quotient

variable {q : Quotient} {L : Nat → List Nat} {p : Nat} {G : Adjacency}

/-! ### While an element is made -/

/-- What making an element of a clique leaves as it is, from `q` on. -/
structure Spared (q q' : Quotient) (L L' : Nat → List Nat) (clique : List Nat) : Prop where
  live_iff : ∀ {v}, v ∉ clique → (q'.Live v ↔ q.Live v)
  live : ∀ {v}, q'.Live v → q.Live v
  degree_eq : ∀ {v}, q'.Live v → (q'.node v).degree = (q.node v).degree
  members_eq : ∀ {v}, q'.Live v → v ∉ clique → (q'.node v).members = (q.node v).members
  weight_eq : ∀ {v}, q'.Live v → v ∉ clique → (q'.node v).weight = (q.node v).weight
  elems_eq : ∀ {v}, q'.Live v → v ∉ clique → (q'.node v).adjElems = (q.node v).adjElems
  elems_subset : ∀ {v}, q'.Live v → (q'.node v).adjElems ⊆ (q.node v).adjElems
  joined : ∀ {u v}, q'.Live u → q'.Joined L' u v → q.Joined L u v
  list_eq : ∀ e, (L' e).filter (· ∉ clique) = (L e).filter (· ∉ clique)
  liveWeight_eq : q'.liveWeight = q.liveWeight

@[simp] theorem liveWeight_modifyAll (vs : List Nat) (f : Nat → QuotientNode → QuotientNode) :
    (q.modifyAll vs f).liveWeight = q.liveWeight := modifyAll_congr (fun _ _ _ => rfl) vs f

theorem degree_absorb {clique dead : List Nat} (h : q.Making L p clique)
    (hlive : ∀ v ∈ clique, q.Live v) (hd : q.Dead L p dead) (v : Nat) :
    ((q.absorb p clique dead).node v).degree = (q.node v).degree := by
  rw [node_absorb_dead h hlive hd]
  split
  · rfl
  · split <;> rfl

theorem degree_merge {i j : Nat} (hm : q.Mergeable i j) (v : Nat) :
    ((q.merge i j).node v).degree = (q.node v).degree := by
  rw [node_merge hm]
  split
  · next hv => rw [hv]
  · split
    · next hv => rw [hv]
    · split
      · rfl
      · split <;> rfl

/-- Absorption spares the variables outside the clique. -/
theorem spared_absorb {clique dead : List Nat} (h : q.Making L p clique)
    (hlive : ∀ v ∈ clique, q.Live v) (hd : q.Dead L p dead) :
    Spared q (q.absorb p clique dead) L L clique where
  live_iff _ := live_absorb h hlive hd
  live := (live_absorb h hlive hd).1
  degree_eq {v} _ := degree_absorb h hlive hd v
  members_eq hv _ := (members_absorb h hlive hd ((live_absorb h hlive hd).1 hv)).1
  weight_eq hv _ := (members_absorb h hlive hd ((live_absorb h hlive hd).1 hv)).2
  elems_eq {v} hv hout := by
    have hnot : v ∉ dead := fun he =>
      ((live_absorb h hlive hd).1 hv).ne_element (hd.element he) rfl
    rw [node_absorb_dead h hlive hd, if_neg hnot, if_neg hout]
  elems_subset hv _ he := ((mem_elems_absorb h hlive hd ((live_absorb h hlive hd).1 hv)).1 he).1
  joined hu := (joined_absorb h hlive hd ((live_absorb h hlive hd).1 hu)).1
  list_eq _ := rfl
  liveWeight_eq := (liveWeight_modifyAll ..).trans (liveWeight_modifyAll ..)

/-- Merging two variables of the clique spares those outside. -/
theorem Spared.merge {q' : Quotient} {L' : Nat → List Nat} {clique : List Nat}
    (hs : Spared q q' L L' clique) (h : q'.Linked L') {i j : Nat} (hm : q'.Mergeable i j)
    (hi : i ∈ clique) (hj : j ∈ clique) :
    Spared q (q'.merge i j) L (fun e => (L' e).filter (· ≠ j)) clique := by
  have hne : ∀ {v}, v ∉ clique → v ≠ i ∧ v ≠ j := fun hout =>
    ⟨fun he => hout (he ▸ hi), fun he => hout (he ▸ hj)⟩
  exact
    { live_iff := fun {v} hout => by
        rw [live_merge hm, and_iff_left (hne hout).2]
        exact hs.live_iff hout
      live := fun hv => hs.live ((live_merge hm).1 hv).1
      degree_eq := fun {v} hv =>
        (degree_merge hm v).trans (hs.degree_eq ((live_merge hm).1 hv).1)
      members_eq := fun hv hout =>
        have hv := ((live_merge hm).1 hv).1
        (members_merge hm hv (hne hout).2 (hne hout).1).1.trans (hs.members_eq hv hout)
      weight_eq := fun hv hout =>
        have hv := ((live_merge hm).1 hv).1
        (members_merge hm hv (hne hout).2 (hne hout).1).2.trans (hs.weight_eq hv hout)
      elems_eq := fun hv hout =>
        have hv := ((live_merge hm).1 hv).1
        (elems_merge hm hv (hne hout).2).trans (hs.elems_eq hv hout)
      elems_subset := fun hv => by
        obtain ⟨hv, hvj⟩ := (live_merge hm).1 hv
        rw [elems_merge hm hv hvj]
        exact hs.elems_subset hv
      joined := fun hu huv => by
        obtain ⟨hu, huj⟩ := (live_merge hm).1 hu
        exact hs.joined hu ((joined_merge h hm hu huj).1 huv).1
      list_eq := fun e => by
        rw [List.filter_filter, ← hs.list_eq]
        refine List.filter_congr fun v _ => ?_
        have hvj : v ∉ clique → v ≠ j := fun hout => (hne hout).2
        simpa using hvj
      liveWeight_eq := by
        refine Eq.trans ?_ hs.liveWeight_eq
        exact (liveWeight_modifyAll ..).trans (liveWeight_modifyAll ..) }

/-- **What is made of an open element** spares the variables outside the clique. -/
theorem spared_made (h : q.Linked q.lists) (hg : q.Grouped) (hp : q.Live p) :
    ∃ L, (q.made p).Making L p (q.reach p) ∧
      Spared (q.opened p) (q.made p) (q.openLists p) L (q.reach p) := by
  obtain ⟨hmake, hlive, hd⟩ := absorbable_opened h hg hp
  refine made_induction (P := fun q' L => Spared (q.opened p) q' (q.openLists p) L (q.reach p))
    h hg hp ?_ (spared_absorb hmake hlive hd)
  intro q' L i j hmake' hm hi hj hs
  exact hs.merge hmake'.linked hm (hmake'.mem_list.1 hi).1 (hmake'.mem_list.1 hj).1

/-! ### The whole elimination -/

/-- The nodes adjacent to those of a variable. -/
theorem mem_expand_reach (h : q.Linked q.lists) (hg : q.Grouped) {i y : Nat} (hi : q.Live i) :
    y ∈ q.expand (q.reach i) ↔ q.Adjacent q.lists i y ∧ y ∉ q.group i := by
  have hself := self_mem_group (q := q) i
  rw [adjacent_pivot_iff h hg hi hself]
  constructor
  · intro hy
    have hout : y ∉ q.group i := fun hm => not_mem_expand_reach h hg hi hm hy
    exact ⟨⟨fun he => hout (he ▸ hself), Or.inr hy⟩, hout⟩
  · rintro ⟨⟨-, hy⟩, hout⟩
    exact hy.resolve_left hout

section
variable (h : q.Sound G) (hp : q.Live p)
include h hp

/-- **An elimination** takes the group of the pivot away and joins its neighbours. -/
theorem Sound.adjacent_eliminate {x y : Nat} :
    (q.eliminate p).2.Adjacent (q.eliminate p).2.lists x y ↔
      x ∉ q.group p ∧ y ∉ q.group p ∧ (q.Adjacent q.lists x y ∨
        x ∈ q.expand (q.reach p) ∧ y ∈ q.expand (q.reach p) ∧ y ≠ x) := by
  have htwins := twins_pivots h.linked h.grouped hp h.describes
  rw [← (h.eliminate hp).describes, order_eliminate, Adjacency.eliminateAll_append, pivots,
    htwins.mem_eliminateAll, ← pivots, mem_pivots, mem_pivots, h.describes]

/-- **The variables that are left** were variables before. -/
theorem Sound.live_of_live_eliminate {i : Nat} (hi : (q.eliminate p).2.Live i) :
    q.Live i ∧ i ≠ p := by
  obtain ⟨L, hmake, hs⟩ := spared_made h.linked h.grouped hp
  rw [eliminate_eq, live_close hmake] at hi
  exact (live_opened h.linked hp).1 (hs.live hi)

section
variable {i : Nat} (hi : (q.eliminate p).2.Live i) (hout : i ∉ q.reach p)
include hi hout

/-- **A variable outside the clique** keeps its bound, its elements and its members. -/
theorem Sound.node_eliminate :
    ((q.eliminate p).2.node i).degree = (q.node i).degree ∧
      ((q.eliminate p).2.node i).adjElems = (q.node i).adjElems ∧
      (q.eliminate p).2.group i = q.group i := by
  obtain ⟨hlive, hip⟩ := h.live_of_live_eliminate hp hi
  obtain ⟨L, hmake, hs⟩ := spared_made h.linked h.grouped hp
  rw [eliminate_eq] at hi ⊢
  have hmade := (live_close hmake _).1 hi
  have hnotp : i ≠ p := hip
  have hnot : i ∉ (q.made p).variablesOf (q.reach p) := fun hm => hout (mem_variablesOf.1 hm).1
  have hsame := node_opened_outside h.linked hp hlive hip hout
  refine ⟨?_, ?_, ?_⟩
  · rw [node_close_making hmake, if_neg hnotp, if_neg hnot, hs.degree_eq hmade, hsame]
  · rw [elems_close hmake, hs.elems_eq hmade hout, hsame]
  · rw [group, (members_close hmake _ i).1, hs.members_eq hmade hout, hsame, group]

/-- **A variable outside the clique** keeps its neighbours. -/
theorem Sound.expand_reach_eliminate :
    (q.eliminate p).2.expand ((q.eliminate p).2.reach i) = q.expand (q.reach i) := by
  obtain ⟨hlive, hip⟩ := h.live_of_live_eliminate hp hi
  have hafter := h.eliminate hp
  have hself : i ∈ q.group i := self_mem_group i
  have hnot : i ∉ q.group p := fun hm => hip (h.grouped.group_apart hlive hp hself hm)
  have hnotin : i ∉ q.expand (q.reach p) := fun hm => by
    obtain ⟨v, hv, hiv⟩ := mem_expand.1 hm
    have hvi := h.grouped.group_apart (live_of_mem_reach h.linked hp hv) hlive hiv hself
    exact hout (hvi ▸ hv)
  ext y
  rw [mem_expand_reach hafter.linked hafter.grouped hi, mem_expand_reach h.linked h.grouped hlive,
    h.adjacent_eliminate hp, (h.node_eliminate hp hi hout).2.2]
  refine and_congr_left fun _ => ⟨?_, fun hy => ⟨hnot, fun hyp => hnotin ?_, Or.inl hy⟩⟩
  · rintro ⟨-, -, hy | hy⟩
    · exact hy
    · exact absurd hy.1 hnotin
  · have hback := (adjacent_pivot_iff h.linked h.grouped hp hyp).1 (hy.symm h.linked)
    exact hback.2.resolve_left hnot

end

end

end Quotient

end Unknowns
