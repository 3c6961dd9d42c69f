import Unknowns.Proofs.Graph.Quotient.Eliminate
import Unknowns.Proofs.Graph.Quotient.Merging
import Unknowns.Proofs.Lists

/-!
# What merging makes of a clique

Comparing all variables of a clique is not needed: variables with equal lists have
equal hashes, so it is enough to compare those in one bucket.  `mergeBuckets` does
that, for any hash and the buckets in any order, and answers what merging the twins
of the whole clique answers (`mergeBuckets_eq`), as every bucket has the leaders of
its members and no two buckets share a member.

`Coalesced` says what the clique has become: one variable for each class, its least
member, which stands for all of them; and no list outside the clique has lost more
than the others.
-/

namespace Unknowns

namespace Quotient

variable {q s : Quotient} {L : Nat → List Nat} {p : Nat} {clique : List Nat}

/-! ### Buckets -/

/-- The members of a list by their keys: for each key, those that have it. -/
def buckets {κ : Type} [DecidableEq κ] (key : Nat → κ) (vs : List Nat) : List (List Nat) :=
  (vs.map key).dedup.map fun k => vs.filter (key · = k)

/-- Goes through some groups of variables in turn, and merges the twins in each. -/
def mergeGroups (groups : List (List Nat)) (q : Quotient) : Quotient :=
  groups.foldl (fun q group => mergeTwinsFrom (fun _ _ => 0) [] group q) q

/-- Merges the twins of a clique by a hash of their lists: only variables with one hash are compared,
and the groups of these are gone through in ascending order. -/
def mergeBuckets {κ : Type} [DecidableEq κ] (hash : List Nat → List Nat → κ) (clique : List Nat)
    (q : Quotient) : Quotient :=
  let key v := hash (q.node v).adjVars (q.node v).adjElems
  let groups := (buckets key (q.variablesOf clique)).filter (1 < ·.length)
  mergeGroups (groups.mergeSort fun a b => (compare a b).isLE) q

section
variable {κ : Type} [DecidableEq κ] {key : Nat → κ} {vs g : List Nat} {groups : List (List Nat)}

/-- **A group for each key** has the variables with that key. -/
theorem mem_buckets : g ∈ buckets key vs ↔ ∃ v ∈ vs, g = vs.filter (key · = key v) := by
  simp only [buckets, List.mem_map, List.mem_dedup]
  constructor
  · rintro ⟨-, ⟨v, hv, rfl⟩, rfl⟩
    exact ⟨v, hv, rfl⟩
  · rintro ⟨v, hv, rfl⟩
    exact ⟨_, ⟨v, hv, rfl⟩, rfl⟩

theorem pairwise_buckets (key : Nat → κ) (vs : List Nat) :
    (buckets key vs).Pairwise List.Disjoint := by
  refine List.pairwise_map.2 ((List.nodup_dedup (vs.map key)).imp fun hne v hv hv' => hne ?_)
  have hk := of_decide_eq_true (List.mem_filter.1 hv).2
  exact hk.symm.trans (of_decide_eq_true (List.mem_filter.1 hv').2)

variable (hgroups : groups.Perm ((buckets key vs).filter (1 < ·.length)))
include hgroups

theorem exists_of_mem_groups (hg : g ∈ groups) : ∃ v ∈ vs, g = vs.filter (key · = key v) :=
  mem_buckets.1 (List.mem_filter.1 (hgroups.mem_iff.1 hg)).1

theorem pairwise_groups : groups.Pairwise List.Disjoint :=
  (hgroups.pairwise_iff fun hd => hd.symm).2 ((pairwise_buckets key vs).filter _)

theorem nodup_groups : groups.Nodup :=
  (pairwise_groups hgroups).imp_of_mem fun hg _ hd he => by
    obtain ⟨v, hv, rfl⟩ := exists_of_mem_groups hgroups hg
    have hself : v ∈ vs.filter (key · = key v) := List.mem_filter.2 ⟨hv, decide_eq_true rfl⟩
    exact hd hself (he ▸ hself)

/-- **A bucket with two members** is one of the groups. -/
theorem mem_groups {u v : Nat} (hu : u ∈ vs) (hv : v ∈ vs) (hne : u ≠ v) (hkey : key u = key v) :
    vs.filter (key · = key v) ∈ groups := by
  refine hgroups.mem_iff.2 (List.mem_filter.2 ⟨mem_buckets.2 ⟨v, hv, rfl⟩, decide_eq_true ?_⟩)
  have hsub : [u, v] ⊆ vs.filter (key · = key v) := by simp [hu, hv, hkey]
  have hpair : [u, v].Nodup := by simpa using hne
  exact (hpair.subperm hsub).length_le

end

section
variable (h : s.Making L p clique) (hall : ∀ v ∈ clique, s.Live v)
  (hascending : clique.Pairwise (· < ·))
include h hall hascending

/-- **Going through groups of variables** that have their leaders with them. -/
theorem mergeGroups_mergeAll {groups : List (List Nat)} {gone : List Nat} {L' : Nat → List Nat}
    (hmake : (s.mergeAll (s.leader clique) gone).Making L' p clique)
    (hgone : ∀ v ∈ gone, v ∈ clique ∧ s.leader clique v ≠ v)
    (hsub : ∀ g ∈ groups, g.Sublist clique) (hclosed : ∀ g ∈ groups, ∀ v ∈ g, s.leader clique v ∈ g)
    (hfresh : ∀ g ∈ groups, ∀ v ∈ g, v ∉ gone) (hapart : groups.Pairwise List.Disjoint) :
    mergeGroups groups (s.mergeAll (s.leader clique) gone) =
      s.mergeAll (s.leader clique)
        (gone ++ groups.flatMap fun g => g.filter fun v => s.leader clique v ≠ v) := by
  induction groups generalizing gone L' with
  | nil => simp [mergeGroups]
  | cons g groups ih =>
    have hg := hsub g (List.mem_cons_self ..)
    obtain ⟨hgo, L'', hmake''⟩ := mergeTwinsFrom_mergeAll h hall hascending (fun _ _ => 0) []
      hmake hgone
      (fun v hv => ⟨hg.subset hv, hfresh g (List.mem_cons_self ..) v hv⟩) (h.nodup.sublist hg)
      (fun v hv => absurd hv List.not_mem_nil) (hascending.sublist hg)
      (hclosed g (List.mem_cons_self ..))
    obtain ⟨hdisjoint, hapart⟩ := List.pairwise_cons.1 hapart
    rw [mergeGroups, List.foldl_cons, hgo, List.flatMap_cons, ← List.append_assoc]
    refine ih hmake'' (fun v hv => ?_) (fun g' hg' => hsub g' (List.mem_cons_of_mem _ hg'))
      (fun g' hg' => hclosed g' (List.mem_cons_of_mem _ hg')) (fun g' hg' v hv hc => ?_) hapart
    · rcases List.mem_append.1 hv with hv | hv
      · exact hgone v hv
      · obtain ⟨hv, hne⟩ := List.mem_filter.1 hv
        exact ⟨hg.subset hv, of_decide_eq_true hne⟩
    · rcases List.mem_append.1 hc with hc | hc
      · exact hfresh g' (List.mem_cons_of_mem _ hg') v hv hc
      · exact hdisjoint g' hg' (List.mem_filter.1 hc).1 hv

omit hascending in
/-- **Alike variables have one key**, as their lists are equal. -/
theorem key_leader {κ : Type} (hash : List Nat → List Nat → κ) {v : Nat} (hv : v ∈ clique) :
    hash (s.node (s.leader clique v)).adjVars (s.node (s.leader clique v)).adjElems =
      hash (s.node v).adjVars (s.node v).adjElems := by
  have hsame := (alike_iff h.linked (hall _ (leader_mem hv)) (hall v hv)).1 (leader_alike hv)
  rw [hsame.1, hsame.2]

omit h hall hascending in
/-- **Groups by a key** that leaders share with their followers have all followers of a leader, in
the order of the clique. -/
theorem filter_flatMap_buckets {κ : Type} [DecidableEq κ] {key : Nat → κ}
    (hkey : ∀ v ∈ clique, key (s.leader clique v) = key v) {groups : List (List Nat)}
    (hgroups : groups.Perm ((buckets key clique).filter (1 < ·.length))) (u : Nat) :
    (groups.flatMap fun g => g.filter fun v => s.leader clique v ≠ v).filter
        (s.leader clique · = u) =
      (s.followers clique).filter (s.leader clique · = u) := by
  by_cases hu : ∃ v ∈ clique, s.leader clique v = u ∧ u ≠ v
  · obtain ⟨v, hv, rfl, hne⟩ := hu
    have hb := mem_groups hgroups (leader_mem hv) hv hne (hkey v hv)
    have hsame : ∀ w ∈ clique, s.leader clique w = s.leader clique v → key w = key v :=
      fun w hw hl => (hkey w hw).symm.trans (hl ▸ hkey v hv)
    rw [filter_flatMap_of_only (nodup_groups hgroups) hb, followers, List.filter_filter,
      List.filter_filter, List.filter_filter]
    · refine List.filter_congr fun w hw => ?_
      by_cases hl : s.leader clique w = s.leader clique v
      · simp [hl, hsame w hw hl]
      · simp [hl]
    · intro g hg hgb w hw
      obtain ⟨x, hx, rfl⟩ := exists_of_mem_groups hgroups hg
      obtain ⟨hw, hk⟩ := List.mem_filter.1 (List.mem_filter.1 hw).1
      refine decide_eq_false fun hl => hgb ?_
      rw [← of_decide_eq_true hk, hsame w hw hl]
  · have hnil : ∀ xs : List Nat, (∀ v ∈ xs, v ∈ clique ∧ s.leader clique v ≠ v) →
        xs.filter (s.leader clique · = u) = [] := fun xs hxs =>
      List.filter_eq_nil_iff.2 fun v hv hl => by
        have hl := of_decide_eq_true hl
        exact hu ⟨v, (hxs v hv).1, hl, hl ▸ (hxs v hv).2⟩
    rw [hnil _ fun v hv => ?_, hnil _ fun v hv => mem_followers.1 hv]
    obtain ⟨g, hg, hv⟩ := List.mem_flatMap.1 hv
    obtain ⟨x, -, rfl⟩ := exists_of_mem_groups hgroups hg
    obtain ⟨hv, hne⟩ := List.mem_filter.1 hv
    exact ⟨(List.mem_filter.1 hv).1, of_decide_eq_true hne⟩

/-- **Any hash and any order of the groups** give the same result. -/
theorem mergeGroups_buckets {κ : Type} [DecidableEq κ] (hash : List Nat → List Nat → κ)
    {groups : List (List Nat)}
    (hgroups : groups.Perm ((buckets (fun v => hash (s.node v).adjVars (s.node v).adjElems)
      clique).filter (1 < ·.length))) :
    mergeGroups groups s = s.coalesce clique := by
  have hkey : ∀ v ∈ clique, _ := fun v hv => key_leader h hall hash hv
  have hbucket := fun g hg => exists_of_mem_groups hgroups (g := g) hg
  have hapart := pairwise_groups hgroups
  have hstart : (s.mergeAll (s.leader clique) []).Making L p clique := by rwa [mergeAll_nil]
  have hgo := mergeGroups_mergeAll h hall hascending hstart
    (fun v hv => absurd hv List.not_mem_nil) (fun g hg => ?_) (fun g hg v hv => ?_)
    (fun g hg v hv => List.not_mem_nil) hapart
  · rw [mergeAll_nil, List.nil_append] at hgo
    rw [hgo]
    refine mergeAll_congr (List.nodup_flatMap.2 ⟨fun g hg => ?_, hapart.imp fun hd => ?_⟩)
      (h.nodup.filter _) (filter_flatMap_buckets hkey hgroups)
    · obtain ⟨v, -, rfl⟩ := hbucket g hg
      exact (h.nodup.filter _).filter _
    · exact fun v hv hv' => hd (List.mem_filter.1 hv).1 (List.mem_filter.1 hv').1
  · obtain ⟨v, -, rfl⟩ := hbucket g hg
    exact List.filter_sublist
  · obtain ⟨u, hu, rfl⟩ := hbucket g hg
    obtain ⟨hv, hk⟩ := List.mem_filter.1 hv
    exact List.mem_filter.2
      ⟨leader_mem hv, decide_eq_true ((hkey v hv).trans (of_decide_eq_true hk))⟩

/-- **Merging by buckets** is merging the twins of the clique, whatever the hash. -/
theorem mergeBuckets_eq {κ : Type} [DecidableEq κ] (hash : List Nat → List Nat → κ)
    (digest : List Nat → List Nat → Nat) :
    s.mergeBuckets hash clique = s.mergeTwins digest clique := by
  have hvariables : s.variablesOf clique = clique :=
    List.filter_eq_self.2 fun v hv => isVariable_iff.2 (hall v hv).2
  rw [mergeTwins_eq h hall hascending, mergeBuckets, hvariables]
  exact mergeGroups_buckets h hall hascending hash (List.mergeSort_perm ..)

end

/-! ### What a clique becomes -/

/-- In `t` the variables of the clique of element `p` that are alike in `s` are one variable each. -/
structure Coalesced (s t : Quotient) (p : Nat) (clique : List Nat) : Prop where
  /-- Of variables that are alike the least stays. -/
  live_iff : ∀ i ∈ clique, (t.Live i ↔ ∀ j ∈ clique, s.Alike i j → i ≤ j)
  /-- The others are merged into it. -/
  merged : ∀ j ∈ clique, ¬ t.Live j →
    ∃ i ∈ clique, t.Live i ∧ s.Alike i j ∧ (t.node j).kind = .merged i
  /-- It weighs as much as all of them. -/
  weight_eq : ∀ i ∈ clique, t.Live i → (t.node i).weight = s.weightOf (clique.filter (s.Alike i))
  /-- It stands for all nodes that they stood for. -/
  group_eq : ∀ i ∈ clique, t.Live i → t.group i = (clique.filter (s.Alike i)).flatMap s.group
  /-- Its lists are what they were. -/
  lists_eq : ∀ i ∈ clique, t.Live i →
    (t.node i).adjVars = (s.node i).adjVars ∧ (t.node i).adjElems = (s.node i).adjElems
  /-- No two that stay are alike. -/
  unlike : ∀ i ∈ clique, ∀ j ∈ clique, t.Live i → t.Live j → t.Alike i j → i = j
  /-- Variables outside the clique forget the merged ones and nothing else. -/
  outside : ∀ u ∉ clique, s.Live u → t.Live u ∧
    (t.node u).adjVars = (s.node u).adjVars.filter (fun v => (t.node v).isVariable) ∧
    (t.node u).adjElems = (s.node u).adjElems
  /-- So do elements. -/
  element : ∀ e, s.Element e → t.Element e ∧
    t.lists e = (s.lists e).filter fun v => v ∉ clique ∨ (t.node v).isVariable
  /-- Elements that are stored have variables only. -/
  element_live : ∀ e, s.Element e → e ≠ p → ∀ v ∈ t.lists e, t.Live v

section
variable (h : s.Making L p clique) (hall : ∀ v ∈ clique, s.Live v)
  (hascending : clique.Pairwise (· < ·))
include h hall hascending

omit h hall in
/-- **The variables like a leader** are the leader and those that are merged into it. -/
theorem filter_alike_eq {i : Nat} (hi : i ∈ clique) (hlead : s.leader clique i = i) :
    clique.filter (s.Alike i) = i :: (s.followers clique).filter (s.leader clique · = i) := by
  have hlt : ∀ v ∈ (s.followers clique).filter (s.leader clique · = i), i < v := fun v hv => by
    obtain ⟨hv, hvi⟩ := List.mem_filter.1 hv
    obtain ⟨hv, hne⟩ := mem_followers.1 hv
    have hvi := of_decide_eq_true hvi
    have hle := leader_le (q := s) hascending hv hv (.refl s v)
    omega
  refine eq_of_mem_iff_of_rel (fun a => Nat.lt_irrefl a) Nat.lt_trans (hascending.filter _)
    (List.pairwise_cons.2 ⟨hlt, (hascending.filter _).filter _⟩) fun v => ?_
  rw [List.mem_filter, List.mem_cons, List.mem_filter, mem_followers, decide_eq_true_iff,
    decide_eq_true_iff]
  constructor
  · rintro ⟨hv, hiv⟩
    have hvi := (leader_congr hv hi hiv.symm).trans hlead
    by_cases hself : s.leader clique v = v
    · exact Or.inl (hself.symm.trans hvi)
    · exact Or.inr ⟨⟨hv, hself⟩, hvi⟩
  · rintro (rfl | ⟨⟨hv, -⟩, hvi⟩)
    · exact ⟨hi, .refl s v⟩
    · exact ⟨hv, alike_of_leader_eq hi hv (hlead.trans hvi.symm)⟩

omit h hascending in
/-- **The leaders stay**, and these are the least of their classes. -/
theorem live_coalesce {i : Nat} (hi : i ∈ clique) :
    (s.coalesce clique).Live i ↔ s.leader clique i = i := by
  rw [coalesce, live_mergeAll, mem_followers]
  simp [hi, hall i hi]

omit h hall in
theorem leader_eq_self_iff {i : Nat} (hi : i ∈ clique) :
    s.leader clique i = i ↔ ∀ j ∈ clique, s.Alike i j → i ≤ j := by
  constructor
  · intro hlead j hj hij
    exact hlead ▸ leader_le hascending hj hi hij.symm
  · intro hleast
    exact Nat.le_antisymm (leader_le hascending hi hi (.refl s i))
      (hleast _ (leader_mem hi) (leader_alike hi).symm)

omit hascending in
theorem lists_coalesce {i : Nat} (hi : i ∈ clique) (hlead : s.leader clique i = i) :
    ((s.coalesce clique).node i).adjVars = (s.node i).adjVars ∧
      ((s.coalesce clique).node i).adjElems = (s.node i).adjElems := by
  have hnot : i ∉ s.followers clique := fun hc => (mem_followers.1 hc).2 hlead
  have hgone : ∀ v ∈ s.followers clique, v ∈ clique := fun v hv => (mem_followers.1 hv).1
  exact ⟨vars_mergeAll h hall hgone hi hnot, elems_mergeAll hall hi hnot⟩

omit h hall hascending in
/-- **Live variables stay variables** unless they are followers. -/
theorem isVariable_coalesce {v : Nat} (hv : s.Live v) :
    ((s.coalesce clique).node v).isVariable = true ↔ v ∉ s.followers clique := by
  have hlive : (s.coalesce clique).Live v ↔ s.Live v ∧ v ∉ s.followers clique := live_mergeAll
  rw [isVariable_iff]
  constructor
  · exact fun hk => (hlive.1 ⟨by rw [coalesce, size_mergeAll]; exact hv.1, hk⟩).2
  · exact fun hnot => (hlive.2 ⟨hv, hnot⟩).2

omit hall hascending in
/-- **The lists of variables outside the clique** lose the followers. -/
theorem outside_coalesce {u : Nat} (hu : u ∉ clique) (hlive : s.Live u) :
    (s.coalesce clique).Live u ∧
      ((s.coalesce clique).node u).adjVars =
        (s.node u).adjVars.filter (fun v => ((s.coalesce clique).node v).isVariable) ∧
      ((s.coalesce clique).node u).adjElems = (s.node u).adjElems := by
  have hnot : u ∉ s.followers clique := fun hc => hu (mem_followers.1 hc).1
  have hnode : (s.coalesce clique).node u =
      s.mergedNode (s.leader clique) (s.followers clique) u := node_mergeAll _ _ hlive.1
  refine ⟨live_mergeAll.2 ⟨hlive, hnot⟩, ?_, ?_⟩
  · rw [hnode, mergedNode, if_neg hnot]
    refine List.filter_congr fun v hv => ?_
    have hstays : ((s.coalesce clique).node v).isVariable = true ↔ v ∉ s.followers clique :=
      isVariable_coalesce (h.linked.vars_live hlive hv)
    have hsymm := h.linked.vars_symm hlive hv
    rw [Bool.eq_iff_iff, decide_eq_true_iff, hstays]
    exact not_congr (and_iff_left hsymm)
  · rw [hnode, mergedNode, if_neg hnot]

omit hascending in
/-- **The variables of an element** lose the followers. -/
theorem element_coalesce {e : Nat} (he : s.Element e) :
    (s.coalesce clique).Element e ∧
      (s.coalesce clique).lists e =
        (s.lists e).filter fun v => v ∉ clique ∨ ((s.coalesce clique).node v).isVariable := by
  have hnot : e ∉ s.followers clique := fun hc =>
    (hall e (mem_followers.1 hc).1).ne_element he rfl
  have hnode : (s.coalesce clique).node e =
      s.mergedNode (s.leader clique) (s.followers clique) e := node_mergeAll _ _ he.lt_size
  refine ⟨?_, ?_⟩
  · rw [Element, hnode, mergedNode, if_neg hnot]
    exact he
  · rw [lists, hnode, mergedNode, if_neg hnot]
    refine List.filter_congr fun v hv => ?_
    rw [decide_eq_decide]
    by_cases hc : v ∈ clique
    · -- A member of the clique belongs to each element that has it, also to `p`.
      have hL : v ∈ L e := by
        by_cases hep : e = p
        · exact hep ▸ mem_list_of_mem_clique h hall hc
        · rwa [h.stored he hep]
      have hmem := (h.linked.mem_elems (hall v hc)).2 ⟨he, hL⟩
      rw [isVariable_coalesce (hall v hc)]
      simp [hc, hmem]
    · have hgone : v ∉ s.followers clique := fun hf => hc (mem_followers.1 hf).1
      simp [hc, hgone]

/-- **Coalescing** makes one variable of each class. -/
theorem coalesced_coalesce : Coalesced s (s.coalesce clique) p clique := by
  have hleader : ∀ {i}, i ∈ clique → (s.coalesce clique).Live i → s.leader clique i = i :=
    fun hi hlive => (live_coalesce hall hi).1 hlive
  have hnode : ∀ {u}, s.Live u → (s.coalesce clique).node u =
      s.mergedNode (s.leader clique) (s.followers clique) u := fun hu => node_mergeAll _ _ hu.1
  have hstays : ∀ {i}, s.leader clique i = i → i ∉ s.followers clique := fun hlead hc =>
    (mem_followers.1 hc).2 hlead
  refine ⟨fun i hi => ?_, fun j hj hgone => ?_, fun i hi hlive => ?_, fun i hi hlive => ?_,
    fun i hi hlive => lists_coalesce h hall hi (hleader hi hlive), fun i hi j hj hli hlj hij => ?_,
    fun u hu hlive => ?_, fun e he => ?_, fun e he hne v hv => ?_⟩
  · rw [live_coalesce hall hi, leader_eq_self_iff hascending hi]
  · have hne : s.leader clique j ≠ j := fun hc => hgone ((live_coalesce hall hj).2 hc)
    refine ⟨_, leader_mem hj, (live_coalesce hall (leader_mem hj)).2 (leader_leader hj),
      leader_alike hj, ?_⟩
    rw [hnode (hall j hj), mergedNode, if_pos (mem_followers.2 ⟨hj, hne⟩)]
  · have hlead := hleader hi hlive
    rw [hnode (hall i hi), mergedNode, if_neg (hstays hlead), filter_alike_eq hascending hi hlead,
      weightOf_cons]
  · have hlead := hleader hi hlive
    rw [group, hnode (hall i hi), mergedNode, if_neg (hstays hlead),
      filter_alike_eq hascending hi hlead, List.flatMap_cons, group, List.cons_append]
  · obtain ⟨hvi, hei⟩ := lists_coalesce h hall hi (hleader hi hli)
    obtain ⟨hvj, hej⟩ := lists_coalesce h hall hj (hleader hj hlj)
    have hsame : s.Alike i j := by rwa [Alike, hvi, hei, hvj, hej] at hij
    rw [← hleader hi hli, ← hleader hj hlj]
    exact leader_congr hi hj hsame
  · exact outside_coalesce h hu hlive
  · exact element_coalesce h hall he
  · rw [(element_coalesce h hall he).2, List.mem_filter, decide_eq_true_iff] at hv
    have hlive := h.linked.list_live he (h.stored he hne ▸ hv.1)
    refine live_mergeAll.2 ⟨hlive, fun hf => ?_⟩
    exact (isVariable_coalesce hlive).1 (hv.2.resolve_left fun hc => hc (mem_followers.1 hf).1) hf

end

/-! ### In an elimination -/

/-- The element of `p` with the elements it makes superfluous absorbed, before twins are merged. -/
def absorbed (q : Quotient) (p : Nat) : Quotient :=
  (q.opened p).absorb p (q.reach p) (q.deadElements p)

theorem made_eq (q : Quotient) (p : Nat) :
    q.made p = (q.absorbed p).mergeTwins listSum (q.reach p) := rfl

theorem ascending_reach (p : Nat) : (q.reach p).Pairwise (· < ·) :=
  ((pairwise_ascending _).filter _).imp fun hlt => Nat.compare_eq_lt.1 hlt

/-- **The twins that an elimination merges** are those of all variables of its clique. -/
theorem making_absorbed (h : q.Linked q.lists) (hg : q.Grouped) (hp : q.Live p) :
    (q.absorbed p).Making (q.openLists p) p (q.reach p) ∧
      ∀ v ∈ q.reach p, (q.absorbed p).Live v := by
  obtain ⟨hmake, hlive, hd⟩ := absorbable_opened h hg hp
  exact ⟨hmake.absorb hlive hd, fun v hv => (live_absorb hmake hlive hd).2 (hlive v hv)⟩

/-- **Any hash serves an elimination.** -/
theorem mergeBuckets_absorbed (h : q.Linked q.lists) (hg : q.Grouped) (hp : q.Live p) {κ : Type}
    [DecidableEq κ] (hash : List Nat → List Nat → κ) :
    (q.absorbed p).mergeBuckets hash (q.reach p) = q.made p := by
  obtain ⟨hmake, hlive⟩ := making_absorbed h hg hp
  exact mergeBuckets_eq hmake hlive (ascending_reach p) hash listSum

/-- **An elimination coalesces** its clique. -/
theorem coalesced_made (h : q.Linked q.lists) (hg : q.Grouped) (hp : q.Live p) :
    Coalesced (q.absorbed p) (q.made p) p (q.reach p) := by
  obtain ⟨hmake, hlive⟩ := making_absorbed h hg hp
  rw [made_eq, mergeTwins_eq hmake hlive (ascending_reach p)]
  exact coalesced_coalesce hmake hlive (ascending_reach p)

end Quotient

end Unknowns
