import Unknowns.Proofs.Graph.Quotient.Making

/-!
# Every node is in one place

At every moment a node of the graph is either in the order of elimination or in
the group of exactly one variable, which may be itself (`Grouped`).  Opening an
element moves the group of the pivot to the order, merging joins two groups, and
the other steps leave the groups as they are.
-/

namespace Unknowns

namespace Quotient

variable {q : Quotient} {L : Nat → List Nat} {p : Nat} {clique : List Nat}

/-- Every node is in the order or in the group of one variable. -/
structure Grouped (q : Quotient) : Prop where
  order_nodup : q.order.Nodup
  group_nodup : ∀ {v}, q.Live v → (q.group v).Nodup
  group_apart : ∀ {u v x}, q.Live u → q.Live v → x ∈ q.group u → x ∈ q.group v → u = v
  order_apart : ∀ {v x}, q.Live v → x ∈ q.group v → x ∉ q.order
  mem_iff : ∀ {x}, x < q.nodes.size ↔ x ∈ q.order ∨ ∃ v, q.Live v ∧ x ∈ q.group v
  weight : ∀ {v}, q.Live v → (q.node v).weight = (q.group v).length

theorem self_mem_group (v : Nat) : v ∈ q.group v := List.mem_cons_self ..

/-! ### What changes no order -/

@[simp] theorem order_modifyAll (vs : List Nat) (f : Nat → QuotientNode → QuotientNode) :
    (q.modifyAll vs f).order = q.order := modifyAll_congr (fun _ _ _ => rfl) vs f

theorem order_opened (p : Nat) :
    (q.opened p).order = q.order ++ p :: (q.node p).members.mergeSort (· ≤ ·) :=
  order_modifyAll ..

@[simp] theorem order_absorb (p : Nat) (clique dead : List Nat) :
    (q.absorb p clique dead).order = q.order := (order_modifyAll ..).trans (order_modifyAll ..)

@[simp] theorem order_merge (i j : Nat) : (q.merge i j).order = q.order :=
  (order_modifyAll ..).trans (order_modifyAll ..)

@[simp] theorem order_close (p : Nat) (outside : Table Nat Nat) (clique : List Nat) :
    (q.close p outside clique).order = q.order := order_modifyAll ..

/-! ### Opening -/

/-- What is eliminated with `p`, in the order in which it is eliminated. -/
def pivots (q : Quotient) (p : Nat) : List Nat := p :: (q.node p).members.mergeSort (· ≤ ·)

theorem perm_pivots (q : Quotient) (p : Nat) : (q.pivots p).Perm (q.group p) :=
  (List.mergeSort_perm ..).cons p

theorem mem_pivots {x : Nat} : x ∈ q.pivots p ↔ x ∈ q.group p := (perm_pivots q p).mem_iff

section
variable (h : q.Linked q.lists) (hp : q.Live p)
include h hp

theorem members_opened {v : Nat} (hv : q.Live v) (hne : v ≠ p) :
    ((q.opened p).node v).members = (q.node v).members ∧
      ((q.opened p).node v).weight = (q.node v).weight := by
  have hnot : v ∉ (q.node p).adjElems := fun he => hv.ne_element (h.element hp he) rfl
  rw [node_opened h hp]
  split
  · exact ⟨rfl, rfl⟩
  · rw [node_retire_reach h hp, if_neg hne, if_neg hnot]
    exact ⟨rfl, rfl⟩

theorem group_opened {v : Nat} (hv : q.Live v) (hne : v ≠ p) :
    (q.opened p).group v = q.group v := by
  rw [group, (members_opened h hp hv hne).1, group]

/-- **Opening moves the group of the pivot to the order.** -/
theorem Grouped.opened (hg : q.Grouped) : (q.opened p).Grouped where
  order_nodup := by
    rw [order_opened, List.nodup_append]
    refine ⟨hg.order_nodup, (perm_pivots q p).nodup_iff.2 (hg.group_nodup hp), ?_⟩
    intro x hx y hy hxy
    exact hg.order_apart hp (mem_pivots.1 hy) (hxy ▸ hx)
  group_nodup {v} hv := by
    obtain ⟨hv, hne⟩ := (live_opened h hp).1 hv
    rw [group_opened h hp hv hne]
    exact hg.group_nodup hv
  group_apart {u v x} hu hv hxu hxv := by
    obtain ⟨hu, hup⟩ := (live_opened h hp).1 hu
    obtain ⟨hv, hvp⟩ := (live_opened h hp).1 hv
    rw [group_opened h hp hu hup] at hxu
    rw [group_opened h hp hv hvp] at hxv
    exact hg.group_apart hu hv hxu hxv
  order_apart {v x} hv hx := by
    obtain ⟨hv, hne⟩ := (live_opened h hp).1 hv
    rw [group_opened h hp hv hne] at hx
    rw [order_opened, List.mem_append, not_or]
    refine ⟨hg.order_apart hv hx, fun hxp => hne ?_⟩
    exact hg.group_apart hv hp hx (mem_pivots.1 hxp)
  mem_iff {x} := by
    rw [size_opened, hg.mem_iff, order_opened, List.mem_append, or_assoc]
    refine or_congr_right ⟨?_, ?_⟩
    · rintro ⟨v, hv, hx⟩
      by_cases hvp : v = p
      · subst hvp
        exact Or.inl (mem_pivots.2 hx)
      · exact Or.inr ⟨v, (live_opened h hp).2 ⟨hv, hvp⟩, group_opened h hp hv hvp ▸ hx⟩
    · rintro (hx | ⟨v, hv, hx⟩)
      · exact ⟨p, hp, mem_pivots.1 hx⟩
      · obtain ⟨hv, hne⟩ := (live_opened h hp).1 hv
        exact ⟨v, hv, group_opened h hp hv hne ▸ hx⟩
  weight {v} hv := by
    obtain ⟨hv, hne⟩ := (live_opened h hp).1 hv
    rw [(members_opened h hp hv hne).2, group_opened h hp hv hne]
    exact hg.weight hv

end

/-! ### Steps that leave the groups as they are -/

/-- The groups depend only on what the variables are and stand for. -/
theorem Grouped.congr {q' : Quotient} (hg : q.Grouped) (hsize : q'.nodes.size = q.nodes.size)
    (horder : q'.order = q.order) (hlive : ∀ {v}, q'.Live v ↔ q.Live v)
    (hsame : ∀ {v}, q.Live v → (q'.node v).members = (q.node v).members ∧
      (q'.node v).weight = (q.node v).weight) : q'.Grouped := by
  have hgroup : ∀ {v}, q.Live v → q'.group v = q.group v := fun hv => by
    rw [group, (hsame hv).1, group]
  exact
    { order_nodup := horder ▸ hg.order_nodup
      group_nodup := fun {v} hv => by
        have hv := hlive.1 hv
        rw [hgroup hv]
        exact hg.group_nodup hv
      group_apart := fun {u v x} hu hv hxu hxv => by
        have hu := hlive.1 hu
        have hv := hlive.1 hv
        rw [hgroup hu] at hxu
        rw [hgroup hv] at hxv
        exact hg.group_apart hu hv hxu hxv
      order_apart := fun {v x} hv hx => by
        have hv := hlive.1 hv
        rw [hgroup hv] at hx
        rw [horder]
        exact hg.order_apart hv hx
      mem_iff := fun {x} => by
        rw [hsize, hg.mem_iff, horder]
        refine or_congr_right (exists_congr fun v => ?_)
        rw [hlive]
        exact and_congr_right fun hv => by rw [hgroup hv]
      weight := fun {v} hv => by
        have hv := hlive.1 hv
        rw [(hsame hv).2, hgroup hv]
        exact hg.weight hv }

theorem members_absorb {dead : List Nat} (h : q.Making L p clique) (hlive : ∀ v ∈ clique, q.Live v)
    (hd : q.Dead L p dead) {v : Nat} (hv : q.Live v) :
    ((q.absorb p clique dead).node v).members = (q.node v).members ∧
      ((q.absorb p clique dead).node v).weight = (q.node v).weight := by
  have hnot : v ∉ dead := fun he => hv.ne_element (hd.element he) rfl
  rw [node_absorb_dead h hlive hd, if_neg hnot]
  split <;> exact ⟨rfl, rfl⟩

theorem Grouped.absorb {dead : List Nat} (hg : q.Grouped) (h : q.Making L p clique)
    (hlive : ∀ v ∈ clique, q.Live v) (hd : q.Dead L p dead) : (q.absorb p clique dead).Grouped :=
  hg.congr (size_absorb ..) (order_absorb ..) (live_absorb h hlive hd) fun hv =>
    members_absorb h hlive hd hv

theorem members_close (h : q.Making L p clique) (outside : Table Nat Nat) (v : Nat) :
    ((q.close p outside clique).node v).members = (q.node v).members ∧
      ((q.close p outside clique).node v).weight = (q.node v).weight := by
  rw [node_close_making h]
  split
  · next hv =>
    subst hv
    exact ⟨rfl, rfl⟩
  · split <;> exact ⟨rfl, rfl⟩

theorem Grouped.close (hg : q.Grouped) (h : q.Making L p clique) (outside : Table Nat Nat) :
    (q.close p outside clique).Grouped :=
  hg.congr (size_close ..) (order_close ..) (live_close h outside) fun {v} _ =>
    members_close h outside v

/-! ### Merging -/

section
variable {i j : Nat} (hm : q.Mergeable i j)
include hm

theorem members_merge {v : Nat} (hv : q.Live v) (hvj : v ≠ j) (hvi : v ≠ i) :
    ((q.merge i j).node v).members = (q.node v).members ∧
      ((q.merge i j).node v).weight = (q.node v).weight := by
  have hnot : v ∉ (q.node j).adjElems := fun he => hv.ne_element (hm.elems v he) rfl
  rw [node_merge hm, if_neg hvj, if_neg hvi, if_neg hnot]
  split <;> exact ⟨rfl, rfl⟩

theorem group_merge {v : Nat} (hv : q.Live v) (hvj : v ≠ j) (hvi : v ≠ i) :
    (q.merge i j).group v = q.group v := by
  rw [group, (members_merge hm hv hvj hvi).1, group]

theorem group_merge_self : (q.merge i j).group i = q.group i ++ q.group j := by
  rw [group, node_merge hm, if_neg hm.ne, if_pos rfl]
  rfl

theorem weight_merge_self :
    ((q.merge i j).node i).weight = (q.node i).weight + (q.node j).weight := by
  rw [node_merge hm, if_neg hm.ne, if_pos rfl]

/-- The nodes of the groups are the same, those of `j` being in the group of `i`. -/
theorem mem_group_merge {v x : Nat} (hv : q.Live v) (hvj : v ≠ j) :
    x ∈ (q.merge i j).group v ↔ x ∈ q.group v ∨ v = i ∧ x ∈ q.group j := by
  by_cases hvi : v = i
  · subst hvi
    rw [group_merge_self hm, List.mem_append]
    exact or_congr_right ⟨fun hx => ⟨rfl, hx⟩, And.right⟩
  · rw [group_merge hm hv hvj hvi]
    exact ⟨Or.inl, fun hx => hx.resolve_right fun hc => hvi hc.1⟩

/-- **Merging joins two groups.** -/
theorem Grouped.merge (hg : q.Grouped) : (q.merge i j).Grouped where
  order_nodup := by
    rw [order_merge]
    exact hg.order_nodup
  group_nodup {v} hv := by
    obtain ⟨hv, hvj⟩ := (live_merge hm).1 hv
    by_cases hvi : v = i
    · subst hvi
      rw [group_merge_self hm, List.nodup_append]
      refine ⟨hg.group_nodup hm.live_left, hg.group_nodup hm.live_right, ?_⟩
      intro x hx y hy hxy
      subst hxy
      exact hm.ne (hg.group_apart hm.live_left hm.live_right hx hy)
    · rw [group_merge hm hv hvj hvi]
      exact hg.group_nodup hv
  group_apart {u v x} hu hv hxu hxv := by
    obtain ⟨hu, huj⟩ := (live_merge hm).1 hu
    obtain ⟨hv, hvj⟩ := (live_merge hm).1 hv
    rcases (mem_group_merge hm hu huj).1 hxu with hxu | ⟨hui, hxu⟩
    · rcases (mem_group_merge hm hv hvj).1 hxv with hxv | ⟨hvi, hxv⟩
      · exact hg.group_apart hu hv hxu hxv
      · exact absurd (hg.group_apart hu hm.live_right hxu hxv) huj
    · rcases (mem_group_merge hm hv hvj).1 hxv with hxv | ⟨hvi, hxv⟩
      · exact absurd (hg.group_apart hv hm.live_right hxv hxu) hvj
      · exact hui.trans hvi.symm
  order_apart {v x} hv hx := by
    obtain ⟨hv, hvj⟩ := (live_merge hm).1 hv
    rw [order_merge]
    rcases (mem_group_merge hm hv hvj).1 hx with hx | ⟨-, hx⟩
    · exact hg.order_apart hv hx
    · exact hg.order_apart hm.live_right hx
  mem_iff {x} := by
    rw [size_merge, hg.mem_iff, order_merge]
    refine or_congr_right ⟨?_, ?_⟩
    · rintro ⟨v, hv, hx⟩
      by_cases hvj : v = j
      · subst hvj
        exact ⟨i, (live_merge hm).2 ⟨hm.live_left, hm.ne⟩,
          (mem_group_merge hm hm.live_left hm.ne).2 (Or.inr ⟨rfl, hx⟩)⟩
      · exact ⟨v, (live_merge hm).2 ⟨hv, hvj⟩, (mem_group_merge hm hv hvj).2 (Or.inl hx)⟩
    · rintro ⟨v, hv, hx⟩
      obtain ⟨hv, hvj⟩ := (live_merge hm).1 hv
      rcases (mem_group_merge hm hv hvj).1 hx with hx | ⟨-, hx⟩
      · exact ⟨v, hv, hx⟩
      · exact ⟨j, hm.live_right, hx⟩
  weight {v} hv := by
    obtain ⟨hv, hvj⟩ := (live_merge hm).1 hv
    by_cases hvi : v = i
    · subst hvi
      rw [weight_merge_self hm, group_merge_self hm, List.length_append,
        hg.weight hm.live_left, hg.weight hm.live_right]
    · rw [(members_merge hm hv hvj hvi).2, group_merge hm hv hvj hvi]
      exact hg.weight hv

end

end Quotient

end Unknowns
