import Unknowns.Proofs.Graph.Elimination
import Unknowns.Proofs.Graph.Quotient.Groups

/-!
# The graph that a quotient graph describes

Two nodes are adjacent in the graph that remains when they are in one group or in
the groups of adjacent variables (`Adjacent`).

* Opening element `p` takes the group of `p` away and joins its neighbours
  (`adjacent_opened`), which is what the elimination game does with the nodes of
  that group (`twins_pivots`).
* Absorbing, merging and closing leave the graph as it is.
-/

namespace Unknowns

namespace Quotient

variable {q : Quotient} {L : Nat → List Nat} {p : Nat} {clique : List Nat}

/-- Two nodes are adjacent in the graph that remains. -/
def Adjacent (q : Quotient) (L : Nat → List Nat) (x y : Nat) : Prop :=
  x ≠ y ∧ ∃ u v, q.Live u ∧ q.Live v ∧ x ∈ q.group u ∧ y ∈ q.group v ∧ (u = v ∨ q.Joined L u v)

/-- The nodes that the variables of a list stand for. -/
def expand (q : Quotient) (vs : List Nat) : Finset Nat := (vs.flatMap q.group).toFinset

theorem mem_expand {vs : List Nat} {x : Nat} : x ∈ q.expand vs ↔ ∃ v ∈ vs, x ∈ q.group v := by
  rw [expand, List.mem_toFinset, List.mem_flatMap]

theorem Adjacent.symm (h : q.Linked L) {x y : Nat} (ha : q.Adjacent L x y) :
    q.Adjacent L y x := by
  obtain ⟨hne, u, v, hu, hv, hx, hy, huv⟩ := ha
  exact ⟨hne.symm, v, u, hv, hu, hy, hx, huv.imp Eq.symm fun hj => h.joined_symm hu hj⟩

/-- Two variables are the same or adjacent. -/
def Near (q : Quotient) (L : Nat → List Nat) (u v : Nat) : Prop := u = v ∨ q.Joined L u v

theorem Near.symm (h : q.Linked L) {u v : Nat} (hu : q.Live u) (huv : q.Near L u v) :
    q.Near L v u := huv.imp Eq.symm fun hj => h.joined_symm hu hj

/-- Variables can be replaced by others with the same neighbours. -/
theorem Near.congr (h : q.Linked L) {u u' v v' : Nat} (hu' : q.Live u') (hv' : q.Live v')
    (hsame : ∀ w, q.Near L u' w ↔ q.Near L u w) (hsame' : ∀ w, q.Near L v' w ↔ q.Near L v w)
    (huv : q.Near L u v) : q.Near L u' v' := by
  have hleft : q.Near L u' v := (hsame v).2 huv
  have hright : q.Near L v' u' := (hsame' u').2 (hleft.symm h hu')
  exact hright.symm h hv'

/-- The neighbours of a node of the group of `u`. -/
theorem adjacent_iff_of_mem (hg : q.Grouped) {u x y : Nat} (hu : q.Live u) (hx : x ∈ q.group u) :
    q.Adjacent L x y ↔ x ≠ y ∧ ∃ v, q.Live v ∧ y ∈ q.group v ∧ (u = v ∨ q.Joined L u v) := by
  refine and_congr_right fun _ => ⟨?_, ?_⟩
  · rintro ⟨u', v, hu', hv, hx', hy, huv⟩
    obtain rfl := hg.group_apart hu hu' hx hx'
    exact ⟨v, hv, hy, huv⟩
  · rintro ⟨v, hv, hy, huv⟩
    exact ⟨u, v, hu, hv, hx, hy, huv⟩

/-! ### Opening -/

section
variable (h : q.Linked q.lists) (hg : q.Grouped) (hp : q.Live p)
include h hg hp

/-- A node of the group of `p` is adjacent to the rest of the group and to the clique. -/
theorem adjacent_pivot_iff {x y : Nat} (hx : x ∈ q.group p) :
    q.Adjacent q.lists x y ↔ x ≠ y ∧ (y ∈ q.group p ∨ y ∈ q.expand (q.reach p)) := by
  rw [adjacent_iff_of_mem hg hp hx, mem_expand]
  refine and_congr_right fun _ => ⟨?_, ?_⟩
  · rintro ⟨v, hv, hy, huv⟩
    by_cases hvp : v = p
    · subst hvp
      exact Or.inl hy
    · have hj : q.Joined q.lists p v := huv.resolve_left fun hc => hvp hc.symm
      exact Or.inr ⟨v, (mem_reach h hp).2 ⟨hvp, hj⟩, hy⟩
  · rintro (hy | ⟨v, hv, hy⟩)
    · exact ⟨p, hp, hy, Or.inl rfl⟩
    · exact ⟨v, live_of_mem_reach h hp hv, hy, Or.inr ((mem_reach h hp).1 hv).2⟩

/-- The clique has no node of the group of `p`. -/
theorem not_mem_expand_reach {x : Nat} (hx : x ∈ q.group p) : x ∉ q.expand (q.reach p) := by
  intro hm
  obtain ⟨v, hv, hxv⟩ := mem_expand.1 hm
  have hlive := live_of_mem_reach h hp hv
  exact ((mem_reach h hp).1 hv).1 (hg.group_apart hlive hp hxv hx)

/-- **The nodes of a pivot are twins of the elimination game.** -/
theorem twins_pivots {G : Adjacency} (hG : ∀ x y, y ∈ G x ↔ q.Adjacent q.lists x y) :
    G.Twins (q.pivots p) (q.expand (q.reach p)) where
  loopless u hu := ((hG u u).1 hu).1 rfl
  nodup := (perm_pivots q p).nodup_iff.2 (hg.group_nodup hp)
  disjoint x hx := not_mem_expand_reach h hg hp (mem_pivots.1 hx)
  neighbors x hx y := by
    rw [hG, adjacent_pivot_iff h hg hp (mem_pivots.1 hx), mem_pivots]
    exact and_congr_left fun _ => ne_comm
  outside u hu x hx := by
    have hx := mem_pivots.1 hx
    have hu : u ∉ q.group p := fun hm => hu (mem_pivots.2 hm)
    rw [hG]
    constructor
    · intro ha
      exact ((adjacent_pivot_iff h hg hp hx).1 (ha.symm h)).2.resolve_left hu
    · intro hN
      have hne : x ≠ u := fun hc => hu (hc ▸ hx)
      exact ((adjacent_pivot_iff h hg hp hx).2 ⟨hne, Or.inr hN⟩).symm h

/-- **Opening takes the group of the pivot away and joins its neighbours.** -/
theorem adjacent_opened {x y : Nat} :
    (q.opened p).Adjacent (q.openLists p) x y ↔
      x ∉ q.group p ∧ y ∉ q.group p ∧ (q.Adjacent q.lists x y ∨
        x ∈ q.expand (q.reach p) ∧ y ∈ q.expand (q.reach p) ∧ y ≠ x) := by
  have hout : ∀ {v z}, q.Live v → v ≠ p → z ∈ q.group v → z ∉ q.group p :=
    fun hv hne hz hzp => hne (hg.group_apart hv hp hz hzp)
  constructor
  · rintro ⟨hne, u, v, hu, hv, hx, hy, huv⟩
    obtain ⟨hu, hup⟩ := (live_opened h hp).1 hu
    obtain ⟨hv, hvp⟩ := (live_opened h hp).1 hv
    rw [group_opened h hp hu hup] at hx
    rw [group_opened h hp hv hvp] at hy
    refine ⟨hout hu hup hx, hout hv hvp hy, ?_⟩
    rcases huv with rfl | huv
    · exact Or.inl ⟨hne, u, u, hu, hu, hx, hy, Or.inl rfl⟩
    · rcases ((joined_opened h hp hu hup).1 huv).2 with huv | ⟨hur, hvr⟩
      · exact Or.inl ⟨hne, u, v, hu, hv, hx, hy, Or.inr huv⟩
      · exact Or.inr ⟨mem_expand.2 ⟨u, hur, hx⟩, mem_expand.2 ⟨v, hvr, hy⟩, hne.symm⟩
  · rintro ⟨hxp, hyp, ⟨hne, u, v, hu, hv, hx, hy, huv⟩ | ⟨hx, hy, hne⟩⟩
    · have hup : u ≠ p := fun hc => hxp (hc ▸ hx)
      have hvp : v ≠ p := fun hc => hyp (hc ▸ hy)
      refine ⟨hne, u, v, (live_opened h hp).2 ⟨hu, hup⟩, (live_opened h hp).2 ⟨hv, hvp⟩, ?_, ?_, ?_⟩
      · rwa [group_opened h hp hu hup]
      · rwa [group_opened h hp hv hvp]
      · exact huv.imp id fun hj => (joined_opened h hp hu hup).2 ⟨hvp, Or.inl hj⟩
    · obtain ⟨u, hur, hx⟩ := mem_expand.1 hx
      obtain ⟨v, hvr, hy⟩ := mem_expand.1 hy
      have hu := live_of_mem_reach h hp hur
      have hv := live_of_mem_reach h hp hvr
      have hup := ((mem_reach h hp).1 hur).1
      have hvp := ((mem_reach h hp).1 hvr).1
      refine ⟨hne.symm, u, v, (live_opened h hp).2 ⟨hu, hup⟩, (live_opened h hp).2 ⟨hv, hvp⟩,
        ?_, ?_, Or.inr ((joined_opened h hp hu hup).2 ⟨hvp, Or.inr ⟨hur, hvr⟩⟩)⟩
      · rwa [group_opened h hp hu hup]
      · rwa [group_opened h hp hv hvp]

end

/-! ### Steps that leave the graph as it is -/

/-- The graph depends only on the groups and the adjacency of the variables. -/
theorem adjacent_congr {q' : Quotient} {L' : Nat → List Nat} (hlive : ∀ {v}, q'.Live v ↔ q.Live v)
    (hgroup : ∀ {v}, q.Live v → q'.group v = q.group v)
    (hjoined : ∀ {u v}, q.Live u → (q'.Joined L' u v ↔ q.Joined L u v)) {x y : Nat} :
    q'.Adjacent L' x y ↔ q.Adjacent L x y := by
  refine and_congr_right fun _ => exists_congr fun u => exists_congr fun v => ?_
  rw [hlive, hlive]
  refine and_congr_right fun hu => and_congr_right fun hv => ?_
  rw [hgroup hu, hgroup hv, hjoined hu]

theorem adjacent_absorb {dead : List Nat} (h : q.Making L p clique)
    (hlive : ∀ v ∈ clique, q.Live v) (hd : q.Dead L p dead) {x y : Nat} :
    (q.absorb p clique dead).Adjacent L x y ↔ q.Adjacent L x y :=
  adjacent_congr (live_absorb h hlive hd)
    (fun hv => by rw [group, (members_absorb h hlive hd hv).1, group])
    (joined_absorb h hlive hd)

theorem adjacent_close (h : q.Making L p clique) (outside : Table Nat Nat) {x y : Nat} :
    (q.close p outside clique).Adjacent (q.close p outside clique).lists x y ↔
      q.Adjacent L x y :=
  adjacent_congr (live_close h outside)
    (fun {v} _ => by rw [group, (members_close h outside v).1, group]) (joined_close h outside)

/-! ### Merging -/

section
variable {i j : Nat} (h : q.Making L p clique) (hm : q.Mergeable i j) (hi : i ∈ L p) (hj : j ∈ L p)
include h hm hi hj

/-- Merged variables are adjacent, both belonging to the new element. -/
theorem joined_of_mem_list : q.Joined L i j :=
  Or.inr ⟨p, (h.linked.mem_elems hm.live_left).2 ⟨h.element, hi⟩, hj⟩

/-- Merged variables are the same as, or adjacent to, the same variables. -/
theorem near_twins {v : Nat} : q.Near L i v ↔ q.Near L j v := by
  have hij := joined_of_mem_list h hm hi hj
  constructor
  · rintro (rfl | hv)
    · exact Or.inr (h.linked.joined_symm hm.live_left hij)
    · exact Or.inr ((hm.joined_iff v).1 hv)
  · rintro (rfl | hv)
    · exact Or.inr hij
    · exact Or.inr ((hm.joined_iff v).2 hv)

omit hi hj in
theorem near_merge {u v : Nat} (hu : (q.merge i j).Live u) (hv : (q.merge i j).Live v) :
    (q.merge i j).Near (fun e => (L e).filter (· ≠ j)) u v ↔ q.Near L u v := by
  obtain ⟨hu, huj⟩ := (live_merge hm).1 hu
  have hvj : v ≠ j := ((live_merge hm).1 hv).2
  exact or_congr_right ((joined_merge h.linked hm hu huj).trans (and_iff_left hvj))

/-- A node of a merged group was in the group of a variable with the same neighbours. -/
theorem exists_of_mem_group_merge {u x : Nat} (hu : (q.merge i j).Live u)
    (hx : x ∈ (q.merge i j).group u) :
    ∃ u', q.Live u' ∧ x ∈ q.group u' ∧ ∀ v, q.Near L u' v ↔ q.Near L u v := by
  obtain ⟨hu, huj⟩ := (live_merge hm).1 hu
  rcases (mem_group_merge hm hu huj).1 hx with hxu | ⟨hui, hxj⟩
  · exact ⟨u, hu, hxu, fun v => Iff.rfl⟩
  · subst hui
    exact ⟨j, hm.live_right, hxj, fun v => (near_twins h hm hi hj).symm⟩

/-- A node stays in its group or comes to that of a variable with the same neighbours. -/
theorem exists_mem_group_merge {u x : Nat} (hu : q.Live u) (hx : x ∈ q.group u) :
    ∃ u', (q.merge i j).Live u' ∧ x ∈ (q.merge i j).group u' ∧
      ∀ v, q.Near L u' v ↔ q.Near L u v := by
  by_cases huj : u = j
  · subst huj
    exact ⟨i, (live_merge hm).2 ⟨hm.live_left, hm.ne⟩,
      (mem_group_merge hm hm.live_left hm.ne).2 (Or.inr ⟨rfl, hx⟩),
      fun v => near_twins h hm hi hj⟩
  · exact ⟨u, (live_merge hm).2 ⟨hu, huj⟩, (mem_group_merge hm hu huj).2 (Or.inl hx),
      fun v => Iff.rfl⟩

/-- **Merging leaves the graph as it is.** -/
theorem adjacent_merge {x y : Nat} :
    (q.merge i j).Adjacent (fun e => (L e).filter (· ≠ j)) x y ↔ q.Adjacent L x y := by
  have hlive : ∀ {v}, (q.merge i j).Live v → q.Live v := fun hv => ((live_merge hm).1 hv).1
  refine and_congr_right fun _ => ⟨?_, ?_⟩
  · rintro ⟨u, v, hu, hv, hx, hy, huv⟩
    obtain ⟨u', hu', hx', hsame⟩ := exists_of_mem_group_merge h hm hi hj hu hx
    obtain ⟨v', hv', hy', hsame'⟩ := exists_of_mem_group_merge h hm hi hj hv hy
    exact ⟨u', v', hu', hv', hx', hy',
      Near.congr h.linked hu' hv' hsame hsame' ((near_merge h hm hu hv).1 huv)⟩
  · rintro ⟨u, v, hu, hv, hx, hy, huv⟩
    obtain ⟨u', hu', hx', hsame⟩ := exists_mem_group_merge h hm hi hj hu hx
    obtain ⟨v', hv', hy', hsame'⟩ := exists_mem_group_merge h hm hi hj hv hy
    refine ⟨u', v', hu', hv', hx', hy', (near_merge h hm hu' hv').2 ?_⟩
    exact Near.congr h.linked (hlive hu') (hlive hv') hsame hsame' huv

end

end Quotient

end Unknowns
