import Unknowns.Proofs.Graph.Quotient.Weights

/-!
# The merging of twins

While an element is made, variables of its clique that list the same variables and
elements are merged.  `Alike` compares these lists as sets, which is comparing
them, since they are ascending (`alike_iff`).  The variables that are alike are a
class, and the first of the clique in each class is its *leader*.

`mergeAll` is what many merges come to: all lists are read in the state before the
first merge, so their order matters within a class only (`mergeAll_congr`).  It is
kept up one merge after another (`merge_mergeAll`), since members of the clique
never list one another and their lists stay as they are.  In the end every
variable of the clique that is no leader is merged into its leader (`mergeTwins_eq`).
-/

namespace Unknowns

namespace Quotient

variable {q s : Quotient} {L : Nat → List Nat} {p : Nat} {clique : List Nat}

/-! ### Classes -/

/-- Two variables list the same variables and belong to the same elements. -/
def Alike (q : Quotient) (i j : Nat) : Prop :=
  (q.node i).adjVars.toFinset = (q.node j).adjVars.toFinset ∧
    (q.node i).adjElems.toFinset = (q.node j).adjElems.toFinset

instance (q : Quotient) (i j : Nat) : Decidable (q.Alike i j) :=
  inferInstanceAs (Decidable (_ ∧ _))

theorem Alike.refl (q : Quotient) (i : Nat) : q.Alike i i := ⟨rfl, rfl⟩

theorem Alike.symm {i j : Nat} (h : q.Alike i j) : q.Alike j i := ⟨h.1.symm, h.2.symm⟩

theorem Alike.trans {i j k : Nat} (h : q.Alike i j) (h' : q.Alike j k) : q.Alike i k :=
  ⟨h.1.trans h'.1, h.2.trans h'.2⟩

/-- **Sets are equal when lists are**, since these are ascending. -/
theorem alike_iff (h : q.Linked L) {i j : Nat} (hi : q.Live i) (hj : q.Live j) :
    q.Alike i j ↔
      (q.node i).adjVars = (q.node j).adjVars ∧ (q.node i).adjElems = (q.node j).adjElems := by
  constructor
  · rintro ⟨hvars, helems⟩
    rw [Finset.ext_iff] at hvars helems
    simp only [List.mem_toFinset] at hvars helems
    exact ⟨eq_of_mem_iff (h.vars_ascending hi) (h.vars_ascending hj) hvars,
      eq_of_mem_iff (h.elems_ascending hi) (h.elems_ascending hj) helems⟩
  · rintro ⟨hvars, helems⟩
    exact ⟨by rw [hvars], by rw [helems]⟩

/-- The first variable of the clique that is like `j`. -/
def leader (q : Quotient) (clique : List Nat) (j : Nat) : Nat :=
  (clique.find? (q.Alike · j)).getD j

theorem find?_alike_eq_some {j : Nat} (hj : j ∈ clique) :
    clique.find? (q.Alike · j) = some (q.leader clique j) := by
  cases hfind : clique.find? (q.Alike · j) with
  | none =>
    have hnot := List.find?_eq_none.1 hfind j hj
    exact absurd (decide_eq_true (Alike.refl q j)) hnot
  | some i => rw [leader, hfind, Option.getD_some]

theorem leader_mem {j : Nat} (hj : j ∈ clique) : q.leader clique j ∈ clique :=
  List.mem_of_find?_eq_some (find?_alike_eq_some hj)

theorem leader_alike {j : Nat} (hj : j ∈ clique) : q.Alike (q.leader clique j) j := by
  have h := List.find?_some (p := fun k => decide (q.Alike k j)) (find?_alike_eq_some hj)
  exact of_decide_eq_true h

/-- **The leader is the least** of the variables that are alike. -/
theorem leader_le (hclique : clique.Pairwise (· < ·)) {i j : Nat} (hi : i ∈ clique)
    (hj : j ∈ clique) (h : q.Alike i j) : q.leader clique j ≤ i := by
  obtain ⟨-, before, after, hsplit, hbefore⟩ :=
    List.find?_eq_some_iff_append.1 (find?_alike_eq_some (q := q) hj)
  rw [hsplit] at hi hclique
  rcases List.mem_append.1 hi with hi | hi
  · have hnot := hbefore i hi
    simp [h] at hnot
  · rcases List.mem_cons.1 hi with rfl | hi
    · exact Nat.le_refl _
    · exact Nat.le_of_lt ((List.pairwise_cons.1 (List.pairwise_append.1 hclique).2.1).1 i hi)

theorem leader_congr {i j : Nat} (hi : i ∈ clique) (hj : j ∈ clique) (h : q.Alike i j) :
    q.leader clique i = q.leader clique j := by
  have hsame : (clique.find? fun k => q.Alike k i) = clique.find? fun k => q.Alike k j := by
    refine congrArg (clique.find? ·) (funext fun k => decide_eq_decide.2 ?_)
    exact ⟨fun hk => hk.trans h, fun hk => hk.trans h.symm⟩
  rw [find?_alike_eq_some hi, find?_alike_eq_some hj] at hsame
  exact Option.some.inj hsame

theorem leader_leader {j : Nat} (hj : j ∈ clique) :
    q.leader clique (q.leader clique j) = q.leader clique j :=
  leader_congr (leader_mem hj) hj (leader_alike hj)

theorem alike_of_leader_eq {i j : Nat} (hi : i ∈ clique) (hj : j ∈ clique)
    (h : q.leader clique i = q.leader clique j) : q.Alike i j :=
  (leader_alike hi).symm.trans (h ▸ leader_alike hj)

/-! ### The effect of many merges -/

/-- What becomes of node `u` when the variables `gone` are merged into others. -/
def mergedNode (q : Quotient) (into : Nat → Nat) (gone : List Nat) (u : Nat) : QuotientNode :=
  let x := q.node u
  let joining := gone.filter (into · = u)
  let elemVars := x.elemVars.filter fun v => ¬(v ∈ gone ∧ u ∈ (q.node v).adjElems)
  if u ∈ gone then
    { x with
      kind := .merged (into u), weight := 0, members := [], adjVars := [], adjElems := []
      elemVars := elemVars }
  else
    { x with
      weight := x.weight + q.weightOf joining
      members := x.members ++ joining.flatMap q.group
      adjVars := x.adjVars.filter fun v => ¬(v ∈ gone ∧ u ∈ (q.node v).adjVars)
      elemVars := elemVars }

/-- The variables `gone`, in this order, merged into others. -/
def mergeAll (q : Quotient) (into : Nat → Nat) (gone : List Nat) : Quotient :=
  { q with
    nodes := q.nodes.mapIdx fun u _ => q.mergedNode into gone u
    stats := { q.stats with merged := q.stats.merged + gone.length } }

@[simp] theorem size_mergeAll (into : Nat → Nat) (gone : List Nat) :
    (q.mergeAll into gone).nodes.size = q.nodes.size := Array.size_mapIdx ..

theorem node_mergeAll (into : Nat → Nat) (gone : List Nat) {u : Nat} (hu : u < q.nodes.size) :
    (q.mergeAll into gone).node u = q.mergedNode into gone u := by
  rw [node, mergeAll, Array.getD_eq_getD_getElem?, Array.getElem?_mapIdx,
    Array.getElem?_eq_getElem hu]
  rfl

/-- A quotient graph is determined by its nodes and what else it keeps. -/
theorem ext_node {q q' : Quotient} (hsize : q.nodes.size = q'.nodes.size)
    (hnode : ∀ u < q.nodes.size, q.node u = q'.node u) (hqueue : q.queue = q'.queue)
    (hweight : q.liveWeight = q'.liveWeight) (haggressive : q.aggressive = q'.aggressive)
    (horder : q.order = q'.order) (hstats : q.stats = q'.stats) : q = q' := by
  obtain ⟨nodes, _, _, _, _, _⟩ := q
  obtain ⟨nodes', _, _, _, _, _⟩ := q'
  have hnodes : nodes = nodes' := by
    refine Array.ext hsize fun u hu hu' => ?_
    have h := hnode u hu
    simpa [node, Array.getD_eq_getD_getElem?, hu, hu'] using h
  simp_all

theorem mergeAll_nil (into : Nat → Nat) : q.mergeAll into [] = q := by
  refine ext_node (size_mergeAll ..) (fun u hu => ?_) rfl rfl rfl rfl rfl
  rw [size_mergeAll] at hu
  rw [node_mergeAll _ _ hu]
  simp [mergedNode]

/-- The variables of a clique that are not leaders. -/
def followers (q : Quotient) (clique : List Nat) : List Nat :=
  clique.filter fun v => q.leader clique v ≠ v

theorem mem_followers {v : Nat} : v ∈ q.followers clique ↔ v ∈ clique ∧ q.leader clique v ≠ v := by
  rw [followers, List.mem_filter, decide_eq_true_iff]

/-- The clique with every other variable merged into its leader. -/
def coalesce (q : Quotient) (clique : List Nat) : Quotient :=
  q.mergeAll (q.leader clique) (q.followers clique)

/-- Merging depends on who is merged and on the order in each class. -/
theorem mergeAll_congr {into : Nat → Nat} {gone gone' : List Nat} (hn : gone.Nodup)
    (hn' : gone'.Nodup) (hclass : ∀ u, gone.filter (into · = u) = gone'.filter (into · = u)) :
    q.mergeAll into gone = q.mergeAll into gone' := by
  have hmem : ∀ v, v ∈ gone ↔ v ∈ gone' := fun v => by
    have h := congrArg (v ∈ ·) (hclass (into v))
    simpa using h
  have hlength := ((List.perm_ext_iff_of_nodup hn hn').2 hmem).length_eq
  have hnode : q.mergedNode into gone = q.mergedNode into gone' := by
    funext u
    simp only [mergedNode, hmem, hclass]
  rw [mergeAll, mergeAll, hnode, hlength]

/-! ### One merge -/

@[simp] theorem queue_merge (i j : Nat) : (q.merge i j).queue = q.queue :=
  (queue_modifyAll ..).trans (queue_modifyAll ..)

@[simp] theorem liveWeight_merge (i j : Nat) : (q.merge i j).liveWeight = q.liveWeight :=
  (liveWeight_modifyAll ..).trans (liveWeight_modifyAll ..)

@[simp] theorem aggressive_merge (i j : Nat) : (q.merge i j).aggressive = q.aggressive :=
  (aggressive_modifyAll ..).trans (aggressive_modifyAll ..)

theorem stats_merge (i j : Nat) :
    (q.merge i j).stats = { q.stats with merged := q.stats.merged + 1 } := rfl

/-- One more node forgotten. -/
theorem filter_append_singleton (xs gone : List Nat) (j : Nat) (P : Nat → Prop) [DecidablePred P] :
    (xs.filter fun v => ¬(v ∈ gone ++ [j] ∧ P v)) =
      if P j then (xs.filter fun v => ¬(v ∈ gone ∧ P v)).filter (· ≠ j)
      else xs.filter fun v => ¬(v ∈ gone ∧ P v) := by
  split
  · next hj =>
    rw [List.filter_filter]
    refine List.filter_congr fun v _ => ?_
    by_cases hv : v = j
    · simp [hv, hj]
    · simp [hv]
  · next hj =>
    refine List.filter_congr fun v _ => ?_
    by_cases hv : v = j
    · simp [hv, hj]
    · simp [hv]

section
variable (h : s.Making L p clique) (hall : ∀ v ∈ clique, s.Live v)
include h hall

theorem mem_list_of_mem_clique {v : Nat} (hv : v ∈ clique) : v ∈ L p := h.mem_list.2 ⟨hv, hall v hv⟩

/-- The variables of the clique do not list one another. -/
theorem not_mem_vars_of_mem_clique {u v : Nat} (hu : u ∈ clique) (hv : v ∈ clique) :
    u ∉ (s.node v).adjVars :=
  h.linked.apart h.element (mem_list_of_mem_clique h hall hu) (mem_list_of_mem_clique h hall hv)

variable {into : Nat → Nat} {gone : List Nat} (hgone : ∀ v ∈ gone, v ∈ clique)
include hgone

omit h hall hgone in
theorem live_mergeAll {v : Nat} : (s.mergeAll into gone).Live v ↔ s.Live v ∧ v ∉ gone := by
  by_cases hlt : v < s.nodes.size
  · rw [Live, Live, size_mergeAll, node_mergeAll _ _ hlt, mergedNode]
    by_cases hv : v ∈ gone
    · simp [hv]
    · simp [hv]
  · simp [Live, hlt]

omit h hgone in
theorem elems_mergeAll {v : Nat} (hv : v ∈ clique) (hnot : v ∉ gone) :
    ((s.mergeAll into gone).node v).adjElems = (s.node v).adjElems := by
  rw [node_mergeAll _ _ (hall v hv).1, mergedNode]
  simp [hnot]

/-- **The lists of the clique stay** as they are while others of the clique are merged. -/
theorem vars_mergeAll {v : Nat} (hv : v ∈ clique) (hnot : v ∉ gone) :
    ((s.mergeAll into gone).node v).adjVars = (s.node v).adjVars := by
  rw [node_mergeAll _ _ (hall v hv).1, mergedNode, if_neg hnot]
  refine List.filter_eq_self.2 fun u hu => decide_eq_true fun hc => ?_
  exact not_mem_vars_of_mem_clique h hall (hgone u hc.1) hv hu

/-- **One more merge.** -/
theorem merge_mergeAll {i j : Nat} (hi : i ∈ clique) (hj : j ∈ clique) (hij : into j = i)
    (hj' : j ∉ gone) (hnone : ∀ v ∈ gone, into v ≠ j)
    (hm : (s.mergeAll into gone).Mergeable i j) :
    (s.mergeAll into gone).merge i j = s.mergeAll into (gone ++ [j]) := by
  have hi' : i ∉ gone := (live_mergeAll.1 hm.live_left).2
  have hnotelem : ∀ {u v}, u ∈ clique → v ∈ clique → u ∉ (s.node v).adjElems := fun hu hv he =>
    (hall _ hu).ne_element (h.linked.element (hall _ hv) he) rfl
  have hnotvar : ∀ {u}, u ∈ clique → u ∉ (s.node j).adjVars := fun hu =>
    not_mem_vars_of_mem_clique h hall hu hj
  have hempty : gone.filter (into · = j) = [] := by simpa using hnone
  refine ext_node (by simp) (fun u hu => ?_) (queue_merge i j) (liveWeight_merge i j)
    (aggressive_merge i j) (order_merge i j) ?_
  · rw [size_merge, size_mergeAll] at hu
    rw [node_merge hm, elems_mergeAll hall hj hj', vars_mergeAll h hall hgone hj hj',
      node_mergeAll _ _ hu, node_mergeAll _ _ (hall i hi).1, node_mergeAll _ _ (hall j hj).1,
      node_mergeAll _ _ hu]
    simp only [mergedNode, filter_append_singleton, if_neg hi', if_neg hj', hempty]
    by_cases huj : u = j
    · subst huj
      simp [hnotelem hj hj, hij]
    · by_cases hui : u = i
      · subst hui
        simp [huj, hi', hnotelem hi hj, hnotvar hi, hij, group, Nat.add_assoc]
      · have hclass : (gone ++ [j]).filter (into · = u) = gone.filter (into · = u) := by
          have hju : into j ≠ u := fun hc => hui (hc.symm.trans hij)
          simp [hju]
        rw [hclass]
        by_cases hug : u ∈ gone
        · have huc := hgone u hug
          simp [huj, hui, hug, hnotelem huc hj, hnotvar huc]
        · by_cases helem : u ∈ (s.node j).adjElems
          · have hvar : u ∉ (s.node j).adjVars := fun hv =>
              (h.linked.vars_live (hall j hj) hv).ne_element (h.linked.element (hall j hj) helem) rfl
            simp [huj, hui, hug, helem, hvar]
          · by_cases hvar : u ∈ (s.node j).adjVars
            · simp [huj, hui, hug, helem, hvar]
            · simp [huj, hui, hug, helem, hvar]
  · rw [stats_merge]
    simp [mergeAll, Nat.add_assoc]

end

/-! ### Going through a list of variables -/

section
variable (h : s.Making L p clique) (hall : ∀ v ∈ clique, s.Live v)
  (hascending : clique.Pairwise (· < ·))
include h hall hascending

/-- **The twin that is found** for a variable is its leader. -/
theorem find?_twins (digest : List Nat → List Nat → Nat) {stayed rest gone : List Nat} {j : Nat}
    (hgone : ∀ v ∈ gone, v ∈ clique) (hmem : ∀ v ∈ stayed ++ j :: rest, v ∈ clique ∧ v ∉ gone)
    (hn : (stayed ++ j :: rest).Nodup) (hstayed : ∀ v ∈ stayed, s.leader clique v = v)
    (hrest : (j :: rest).Pairwise (· < ·)) (hclosed : s.leader clique j ∈ stayed ++ j :: rest) :
    stayed.find? (fun i => (s.mergeAll (s.leader clique) gone).twins digest i j) =
      if s.leader clique j = j then none else some (s.leader clique j) := by
  obtain ⟨hj, hj'⟩ := hmem j (List.mem_append_right _ (List.mem_cons_self ..))
  have htwins : ∀ i ∈ stayed,
      (s.mergeAll (s.leader clique) gone).twins digest i j = true ↔ s.Alike i j := fun i hi => by
    obtain ⟨hi, hi'⟩ := hmem i (List.mem_append_left _ hi)
    rw [twins_iff, vars_mergeAll h hall hgone hi hi', vars_mergeAll h hall hgone hj hj',
      elems_mergeAll hall hi hi', elems_mergeAll hall hj hj',
      alike_iff h.linked (hall i hi) (hall j hj)]
  have hleader : ∀ i ∈ stayed, s.Alike i j → i = s.leader clique j := fun i hi hij =>
    (hstayed i hi).symm.trans
      (leader_congr (hmem i (List.mem_append_left _ hi)).1 hj hij)
  cases hfind : stayed.find? fun i => (s.mergeAll (s.leader clique) gone).twins digest i j with
  | none =>
    refine (if_pos ?_).symm
    by_contra hne
    rcases List.mem_append.1 hclosed with hin | hin
    · exact List.find?_eq_none.1 hfind _ hin ((htwins _ hin).2 (leader_alike hj))
    · have hgt := (List.pairwise_cons.1 hrest).1 _ ((List.mem_cons.1 hin).resolve_left hne)
      exact Nat.not_le.2 hgt (leader_le hascending hj hj (.refl s j))
  | some i =>
    have hi := List.mem_of_find?_eq_some hfind
    have hfound := List.find?_some
      (p := fun i => (s.mergeAll (s.leader clique) gone).twins digest i j) hfind
    have hlead := hleader i hi ((htwins i hi).1 hfound)
    have hne : i ≠ j := (List.nodup_append.1 hn).2.2 i hi j (List.mem_cons_self ..)
    rw [← hlead, if_neg hne]

omit hascending in
/-- **A variable can be merged into its leader** as long as it is still there. -/
theorem merge_leader {gone : List Nat} {L' : Nat → List Nat} {j : Nat}
    (hmake : (s.mergeAll (s.leader clique) gone).Making L' p clique)
    (hgone : ∀ v ∈ gone, v ∈ clique ∧ s.leader clique v ≠ v) (hj : j ∈ clique) (hj' : j ∉ gone)
    (hlead : s.leader clique j ≠ j) :
    (s.mergeAll (s.leader clique) gone).merge (s.leader clique j) j =
        s.mergeAll (s.leader clique) (gone ++ [j]) ∧
      (s.mergeAll (s.leader clique) (gone ++ [j])).Making (fun e => (L' e).filter (· ≠ j)) p
        clique := by
  have hi := leader_mem (q := s) hj
  have hi' : s.leader clique j ∉ gone := fun hc => (hgone _ hc).2 (leader_leader hj)
  have hlive : ∀ {v}, v ∈ clique → v ∉ gone → v ∈ L' p := fun hv hv' =>
    hmake.mem_list.2 ⟨hv, live_mergeAll.2 ⟨hall _ hv, hv'⟩⟩
  have hsame := (alike_iff h.linked (hall _ hi) (hall j hj)).1 (leader_alike hj)
  have hgone' : ∀ v ∈ gone, v ∈ clique := fun v hv => (hgone v hv).1
  have hm := hmake.mergeable (hlive hi hi') (hlive hj hj') hlead
    (by rw [vars_mergeAll h hall hgone' hi hi', vars_mergeAll h hall hgone' hj hj', hsame.1])
    (by rw [elems_mergeAll hall hi hi', elems_mergeAll hall hj hj', hsame.2])
  have hnone : ∀ v ∈ gone, s.leader clique v ≠ j := fun v hv hc =>
    hlead (hc ▸ leader_leader (hgone v hv).1)
  have hstep := merge_mergeAll h hall hgone' hi hj rfl hj' hnone hm
  exact ⟨hstep, hstep ▸ hmake.merge hm⟩

/-- **Going through a list of variables** merges those that are not leaders into their leaders. -/
theorem mergeTwinsFrom_mergeAll (digest : List Nat → List Nat → Nat) (stayed : List Nat)
    {rest gone : List Nat} {L' : Nat → List Nat}
    (hmake : (s.mergeAll (s.leader clique) gone).Making L' p clique)
    (hgone : ∀ v ∈ gone, v ∈ clique ∧ s.leader clique v ≠ v)
    (hmem : ∀ v ∈ stayed ++ rest, v ∈ clique ∧ v ∉ gone) (hn : (stayed ++ rest).Nodup)
    (hstayed : ∀ v ∈ stayed, s.leader clique v = v) (hrest : rest.Pairwise (· < ·))
    (hclosed : ∀ v ∈ rest, s.leader clique v ∈ stayed ++ rest) :
    mergeTwinsFrom digest stayed rest (s.mergeAll (s.leader clique) gone) =
        s.mergeAll (s.leader clique) (gone ++ rest.filter fun v => s.leader clique v ≠ v) ∧
      ∃ L'', (s.mergeAll (s.leader clique)
        (gone ++ rest.filter fun v => s.leader clique v ≠ v)).Making L'' p clique := by
  induction rest generalizing stayed gone L' with
  | nil => exact ⟨by simp [mergeTwinsFrom], L', by simpa using hmake⟩
  | cons j rest ih =>
    obtain ⟨hj, hj'⟩ := hmem j (List.mem_append_right _ (List.mem_cons_self ..))
    have hsub : (stayed ++ rest).Sublist (stayed ++ j :: rest) :=
      List.Sublist.append_left (List.sublist_cons_self ..) _
    have hascend := (List.pairwise_cons.1 hrest).2
    rw [mergeTwinsFrom, find?_twins h hall hascending digest (fun v hv => (hgone v hv).1) hmem hn
      hstayed hrest (hclosed j (List.mem_cons_self ..))]
    by_cases hlead : s.leader clique j = j
    · rw [if_pos hlead, List.filter_cons_of_neg (by simpa using hlead)]
      have hassoc : stayed ++ [j] ++ rest = stayed ++ j :: rest := by simp
      refine ih _ hmake hgone (hassoc ▸ hmem) (hassoc ▸ hn) (fun v hv => ?_) hascend fun v hv =>
        hassoc ▸ hclosed v (List.mem_cons_of_mem _ hv)
      rcases List.mem_append.1 hv with hv | hv
      · exact hstayed v hv
      · rwa [List.mem_singleton.1 hv]
    · rw [if_neg hlead, List.filter_cons_of_pos (by simpa using hlead)]
      obtain ⟨hstep, hmake'⟩ := merge_leader h hall hmake hgone hj hj' hlead
      dsimp only
      rw [hstep]
      rw [List.append_cons gone j (rest.filter fun v => s.leader clique v ≠ v)]
      refine ih _ hmake' (fun v hv => ?_) (fun v hv => ⟨(hmem v (hsub.subset hv)).1, fun hc => ?_⟩)
        (hn.sublist hsub) hstayed hascend fun v hv => ?_
      · rcases List.mem_append.1 hv with hv | hv
        · exact hgone v hv
        · rw [List.mem_singleton.1 hv]
          exact ⟨hj, hlead⟩
      · rcases List.mem_append.1 hc with hc | hc
        · exact (hmem v (hsub.subset hv)).2 hc
        · obtain rfl := List.mem_singleton.1 hc
          have happart := List.nodup_append.1 hn
          rcases List.mem_append.1 hv with hv | hv
          · exact happart.2.2 v hv v (List.mem_cons_self ..) rfl
          · exact (List.nodup_cons.1 happart.2.1).1 hv
      · have hin := hclosed v (List.mem_cons_of_mem _ hv)
        have hv := (hmem v (hsub.subset (List.mem_append_right _ hv))).1
        have hne : s.leader clique v ≠ j := fun hc => hlead (hc ▸ leader_leader hv)
        rcases List.mem_append.1 hin with hin | hin
        · exact List.mem_append_left _ hin
        · exact List.mem_append_right _ ((List.mem_cons.1 hin).resolve_left hne)

/-- **Merging the twins of a clique** merges every variable that is not a leader into its leader,
whatever the digest. -/
theorem mergeTwins_eq (digest : List Nat → List Nat → Nat) :
    s.mergeTwins digest clique = s.coalesce clique := by
  have hstart : (s.mergeAll (s.leader clique) []).Making L p clique := by rwa [mergeAll_nil]
  have hgo := (mergeTwinsFrom_mergeAll h hall hascending digest [] hstart
    (fun v hv => absurd hv List.not_mem_nil) (fun v hv => ⟨hv, List.not_mem_nil⟩) h.nodup
    (fun v hv => absurd hv List.not_mem_nil) hascending fun v hv => leader_mem hv).1
  rwa [mergeAll_nil, List.nil_append] at hgo

end

end Quotient

end Unknowns
