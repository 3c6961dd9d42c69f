import Mathlib.Data.Finset.Union
import Unknowns.Proofs.Graph.Quotient.Initial
import Unknowns.Proofs.Graph.Quotient.Weights

/-!
# The bounds of the variables

The external degree of a variable is the weight of the variables adjacent to it,
which is what is left as neighbours of its nodes (`card_around_group`).  The
bound stored for a variable is never below it, and it is the external degree
itself when the variable belongs to at most two elements (`Bounded`).

An elimination leaves the bounds of variables outside its clique as they are, and
their neighbours too.  A variable of the clique gets the least of three numbers,
none of which is below its external degree:

* the weight of what its lists give, `surround`, where a variable may be counted
  several times (`reach_close_subset`), but is not when there is no more than one
  element besides the new one (`nodup_surround`);
* the old bound with the clique added (`weightOf_reach_close_le`);
* the weight of all other variables.
-/

namespace Unknowns

/-- The nodes outside a list that are adjacent to one of it. -/
def Adjacency.around (G : Adjacency) (xs : List Nat) : Finset Nat :=
  xs.toFinset.biUnion G \ xs.toFinset

namespace Quotient

variable {q : Quotient} {L : Nat → List Nat} {p i : Nat} {clique : List Nat} {G : Adjacency}

/-! ### External degrees -/

/-- **The external degree** of a variable counts what the elimination game has left around the nodes
that it stands for. -/
theorem Sound.card_around_group (h : q.Sound G) (hi : q.Live i) :
    ((G.eliminateAll q.order).around (q.group i)).card = q.weightOf (q.reach i) := by
  have haround : (G.eliminateAll q.order).around (q.group i) = q.expand (q.reach i) := by
    ext y
    rw [Adjacency.around, Finset.mem_sdiff, Finset.mem_biUnion, List.mem_toFinset,
      mem_expand_reach h.linked h.grouped hi]
    refine and_congr_left fun hy => ⟨?_, fun ha => ?_⟩
    · rintro ⟨x, hx, hxy⟩
      have ha := (h.describes x y).1 hxy
      have hx := List.mem_toFinset.1 hx
      have hself : i ∈ q.group i := self_mem_group i
      rw [adjacent_pivot_iff h.linked h.grouped hi hx] at ha
      rw [adjacent_pivot_iff h.linked h.grouped hi hself]
      exact ⟨fun he => hy (he ▸ hself), ha.2⟩
    · exact ⟨i, List.mem_toFinset.2 (self_mem_group i), (h.describes i y).2 ha⟩
  rw [haround]
  exact card_expand h.grouped (nodup_reach i) fun v hv => live_of_mem_reach h.linked hi hv

/-- The bounds of the variables are not below their external degrees, and equal to them where at
most two elements are involved. -/
structure Bounded (q : Quotient) : Prop where
  liveWeight_eq : q.liveWeight + q.order.length = q.nodes.size
  le_degree : ∀ {i}, q.Live i → q.weightOf (q.reach i) ≤ (q.node i).degree
  degree_eq : ∀ {i}, q.Live i → (q.node i).adjElems.length ≤ 2 →
    (q.node i).degree = q.weightOf (q.reach i)

/-! ### What the lists of a variable give -/

/-- What the lists of a variable of element `p` give: the variables that it lists, those of `p`, and
those of its other elements outside the clique of `p`. -/
def surround (q : Quotient) (L : Nat → List Nat) (p : Nat) (clique : List Nat) (i : Nat) :
    List Nat :=
  (q.node i).adjVars ++ ((L p).filter (· ≠ i) ++
    ((q.node i).adjElems.filter (· ≠ p)).flatMap fun e => (L e).filter (· ∉ clique))

section
variable (h : q.Making L p clique) (hi : i ∈ L p)
include h hi

/-- **The lists give the adjacent variables** and no others. -/
theorem Making.mem_surround {v : Nat} :
    v ∈ q.surround L p clique i ↔ v ≠ i ∧ q.Joined L i v := by
  have hin := h.mem_list.1 hi
  have hp : p ∈ (q.node i).adjElems := (h.linked.mem_elems hin.2).2 ⟨h.element, hi⟩
  simp only [surround, List.mem_append, List.mem_flatMap, List.mem_filter, decide_eq_true_iff]
  constructor
  · rintro (hv | ⟨hv, hne⟩ | ⟨e, ⟨he, -⟩, hv, hout⟩)
    · refine ⟨?_, Or.inl hv⟩
      rintro rfl
      exact h.linked.vars_loopless hin.2 hv
    · exact ⟨hne, Or.inr ⟨p, hp, hv⟩⟩
    · exact ⟨fun hc => hout (hc ▸ hin.1), Or.inr ⟨e, he, hv⟩⟩
  · rintro ⟨hne, hv | ⟨e, he, hv⟩⟩
    · exact Or.inl hv
    · -- what another element has of the clique is among the variables of `p`
      by_cases hvc : v ∈ clique
      · have hlive := h.linked.list_live (h.linked.element hin.2 he) hv
        exact Or.inr (Or.inl ⟨h.mem_list.2 ⟨hvc, hlive⟩, hne⟩)
      · have hep : e ≠ p := by
          rintro rfl
          exact hvc (h.mem_list.1 hv).1
        exact Or.inr (Or.inr ⟨e, ⟨he, hep⟩, hv, hvc⟩)

/-- **With one other element** the lists give every variable once. -/
theorem Making.nodup_surround (hlen : (q.node i).adjElems.length ≤ 2) :
    (q.surround L p clique i).Nodup := by
  have hin := h.mem_list.1 hi
  have hp : p ∈ (q.node i).adjElems := (h.linked.mem_elems hin.2).2 ⟨h.element, hi⟩
  have hothers : ((q.node i).adjElems.filter (· ≠ p)).length ≤ 1 := by
    have hlt : ((q.node i).adjElems.filter (· ≠ p)).length < (q.node i).adjElems.length :=
      List.length_filter_lt_length_iff_exists.2 ⟨p, hp, by simp⟩
    omega
  have helem : ∀ {e}, e ∈ (q.node i).adjElems.filter (· ≠ p) → q.Element e ∧ i ∈ L e := fun he =>
    (h.linked.mem_elems hin.2).1 (List.mem_filter.1 he).1
  refine List.nodup_append.2 ⟨h.linked.vars_nodup hin.2, List.nodup_append.2 ⟨?_, ?_, ?_⟩, ?_⟩
  · exact (h.linked.list_nodup h.element).filter _
  · refine List.nodup_flatMap.2 ⟨fun e he => (h.linked.list_nodup (helem he).1).filter _, ?_⟩
    match (q.node i).adjElems.filter (· ≠ p), hothers with
    | [], _ => exact .nil
    | [e], _ => exact List.pairwise_singleton ..
  · intro u hu v hv huv
    obtain ⟨e, -, hve⟩ := List.mem_flatMap.1 hv
    have hout : v ∉ clique := of_decide_eq_true (List.mem_filter.1 hve).2
    exact hout (huv ▸ (h.mem_list.1 (List.mem_filter.1 hu).1).1)
  · intro u hu v hv huv
    subst huv
    rcases List.mem_append.1 hv with hv | hv
    · exact h.linked.apart h.element (List.mem_filter.1 hv).1 hi hu
    · obtain ⟨e, he, hve⟩ := List.mem_flatMap.1 hv
      exact h.linked.apart (helem he).1 (List.mem_filter.1 hve).1 (helem he).2 hu

end

/-! ### New bounds -/

section
variable (h : q.Sound G) (hp : q.Live p)
include h hp

/-- What is read from the table for an element is the weight of its variables outside the clique. -/
theorem Sound.getD_outside (hmake : (q.made p).Making L p (q.reach p))
    (hs : Spared (q.opened p) (q.made p) (q.openLists p) L (q.reach p)) (hi : i ∈ L p) {e : Nat}
    (he : e ∈ ((q.made p).node i).adjElems) (hep : e ≠ p) :
    (((q.opened p).outside p (q.reach p)).get? e).getD 0 =
      (q.made p).weightOf ((L e).filter (· ∉ q.reach p)) := by
  obtain ⟨hclique, hlive⟩ := hmake.mem_list.1 hi
  have hmem : e ∈ (q.reach p).flatMap fun i => ((q.opened p).node i).adjElems :=
    List.mem_flatMap.2 ⟨i, hclique, hs.elems_subset hlive he⟩
  have hopen := making_opened h.linked hp
  have hel : (q.opened p).Element e :=
    hopen.linked.element (hs.live hlive) (hs.elems_subset hlive he)
  have hstored : ((q.opened p).node e).elemVars = q.openLists p e := (hopen.stored hel hep).symm
  rw [get?_outside, if_pos ⟨hmem, hep⟩, Option.getD_some, hstored, ← hs.list_eq]
  refine (weightOf_congr fun v hv => ?_).symm
  obtain ⟨hv, hout⟩ := List.mem_filter.1 hv
  have hvlive := hmake.linked.list_live (hmake.linked.element hlive he) hv
  exact hs.weight_eq hvlive (of_decide_eq_true hout)

/-- **A variable of the clique** gets as its bound the least of what its lists give, its old bound
with the clique added, and the weight of all other variables. -/
theorem Sound.degree_eliminate_of_mem (hmake : (q.made p).Making L p (q.reach p))
    (hs : Spared (q.opened p) (q.made p) (q.openLists p) L (q.reach p)) (hi : i ∈ L p) :
    ((q.eliminate p).2.node i).degree =
      min (min ((q.made p).weightOf ((q.made p).surround L p (q.reach p) i))
          ((q.node i).degree + (q.made p).weightOf ((L p).filter (· ≠ i))))
        ((q.made p).liveWeight - ((q.made p).node i).weight) := by
  obtain ⟨hclique, hlive⟩ := hmake.mem_list.1 hi
  have hne := ((mem_reach h.linked hp).1 hclique).1
  have hmem : i ∈ (q.made p).variablesOf (q.reach p) := hmake.list ▸ hi
  have hdegree : ((q.made p).node i).degree = (q.node i).degree :=
    (hs.degree_eq hlive).trans
      (degree_opened h.linked hp (live_of_mem_reach h.linked hp hclique) hne)
  have hothers : total ((((q.made p).node i).adjElems.filter (· ≠ p)).map fun e =>
        (((q.opened p).outside p (q.reach p)).get? e).getD 0) =
      (q.made p).weightOf ((((q.made p).node i).adjElems.filter (· ≠ p)).flatMap fun e =>
        (L e).filter (· ∉ q.reach p)) := by
    rw [weightOf_flatMap]
    refine congrArg total (List.map_congr_left fun e he => ?_)
    obtain ⟨he, hep⟩ := List.mem_filter.1 he
    exact h.getD_outside hp hmake hs hi he (of_decide_eq_true hep)
  have hnodup : (L p).Nodup := hmake.linked.list_nodup hmake.element
  rw [eliminate_eq, node_close_making hmake, if_neg hne, if_pos hmem]
  simp only [newDegree]
  rw [hothers, hdegree, ← hmake.list, ← weightOf_filter_ne hnodup hi, surround, weightOf_append,
    weightOf_append, Nat.add_assoc]

omit h hp in
/-- Closing changes no weights. -/
theorem weightOf_eliminate (hmake : (q.made p).Making L p (q.reach p)) (vs : List Nat) :
    (q.eliminate p).2.weightOf vs = (q.made p).weightOf vs := by
  rw [eliminate_eq]
  exact weightOf_congr fun v _ => (members_close hmake _ v).2

omit h hp in
theorem mem_list_of_live_eliminate (hmake : (q.made p).Making L p (q.reach p))
    (hi : (q.eliminate p).2.Live i) (hin : i ∈ q.reach p) : i ∈ L p := by
  rw [eliminate_eq, live_close hmake] at hi
  exact hmake.mem_list.2 ⟨hin, hi⟩

/-- What is adjacent in the end was adjacent before closing. -/
theorem Sound.mem_reach_eliminate (hmake : (q.made p).Making L p (q.reach p))
    (hi : (q.eliminate p).2.Live i) {v : Nat} :
    v ∈ (q.eliminate p).2.reach i ↔ v ≠ i ∧ (q.made p).Joined L i v := by
  rw [mem_reach (h.eliminate hp).linked hi]
  rw [eliminate_eq] at hi ⊢
  rw [joined_close hmake _ ((live_close hmake _).1 hi)]

/-- **A variable outside the clique** keeps its external degree. -/
theorem Sound.weightOf_reach_eliminate (hi : (q.eliminate p).2.Live i) (hout : i ∉ q.reach p) :
    (q.eliminate p).2.weightOf ((q.eliminate p).2.reach i) = q.weightOf (q.reach i) := by
  have hafter := h.eliminate hp
  have hlive := (h.live_of_live_eliminate hp hi).1
  rw [← card_expand hafter.grouped (nodup_reach i) fun v hv => live_of_mem_reach hafter.linked hi hv,
    h.expand_reach_eliminate hp hi hout,
    card_expand h.grouped (nodup_reach i) fun v hv => live_of_mem_reach h.linked hlive hv]

end

section
variable (h : q.Steady G) (hb : q.Bounded) (hp : q.Live p)
include h hb hp

/-- **The weight of all variables** is that of the nodes which are not eliminated. -/
theorem Bounded.liveWeight_eliminate :
    (q.eliminate p).2.liveWeight = (q.made p).liveWeight ∧
      (q.eliminate p).2.liveWeight + (q.eliminate p).2.order.length = q.nodes.size := by
  have hsound := h.sound
  obtain ⟨L, hmake, hs⟩ := spared_made hsound.linked hsound.grouped hp
  have hclose : (q.eliminate p).2.liveWeight = (q.made p).liveWeight := by
    rw [eliminate_eq]
    exact liveWeight_modifyAll ..
  have hopened : (q.opened p).liveWeight = q.liveWeight - (q.node p).weight :=
    liveWeight_modifyAll ..
  have hpivots : (q.pivots p).length = (q.node p).weight := by
    rw [(perm_pivots q p).length_eq, hsound.grouped.weight hp]
  have hle : (q.node p).weight + q.order.length ≤ q.nodes.size := by
    have hle := hsound.grouped.weightOf_add_length_order_le (List.nodup_singleton p) fun v hv =>
      List.mem_singleton.1 hv ▸ hp
    exact hle
  have hall := hb.liveWeight_eq
  refine ⟨hclose, ?_⟩
  rw [hclose, hs.liveWeight_eq, hopened, order_eliminate, List.length_append, hpivots]
  omega

/-- **The clique adds at most its own weight** to the external degree of one of its variables. -/
theorem Bounded.weightOf_reach_close_le (hmake : (q.made p).Making L p (q.reach p))
    (hs : Spared (q.opened p) (q.made p) (q.openLists p) L (q.reach p)) (hi : i ∈ L p)
    {vs : List Nat} (hn : vs.Nodup) (hvs : ∀ v ∈ vs, v ≠ i ∧ (q.made p).Joined L i v) :
    (q.made p).weightOf vs ≤ (q.node i).degree + (q.made p).weightOf ((L p).filter (· ≠ i)) := by
  have hlinked := h.sound.linked
  obtain ⟨hclique, hlive⟩ := hmake.mem_list.1 hi
  have hiq := live_of_mem_reach hlinked hp hclique
  have hip := ((mem_reach hlinked hp).1 hclique).1
  let old := (q.reach i).filter fun v => v ∉ q.reach p ∧ v ≠ p
  have hsub : vs ⊆ old ++ (L p).filter (· ≠ i) := by
    intro v hv
    obtain ⟨hne, hjoined⟩ := hvs v hv
    have hvlive := hmake.linked.joined_live hlive hjoined
    by_cases hvc : v ∈ q.reach p
    · refine List.mem_append_right _ (List.mem_filter.2 ⟨?_, decide_eq_true hne⟩)
      exact hmake.mem_list.2 ⟨hvc, hvlive⟩
    · -- a neighbour outside the clique was one before
      have hopen := (joined_opened hlinked hp hiq hip).1 (hs.joined hlive hjoined)
      have hold := hopen.2.resolve_right fun hc => hvc hc.2
      refine List.mem_append_left _ (List.mem_filter.2 ⟨(mem_reach hlinked hiq).2 ⟨hne, hold⟩, ?_⟩)
      exact decide_eq_true ⟨hvc, hopen.1⟩
  have hweight : (q.made p).weightOf old = q.weightOf old := weightOf_congr fun v hv => by
    obtain ⟨hv, hfilter⟩ := List.mem_filter.1 hv
    obtain ⟨hout, hvp⟩ := of_decide_eq_true hfilter
    have hvq := live_of_mem_reach hlinked hiq hv
    have hvlive := (hs.live_iff hout).2 ((live_opened hlinked hp).2 ⟨hvq, hvp⟩)
    rw [hs.weight_eq hvlive hout, (members_opened hlinked hp hvq hvp).2]
  have hold : q.weightOf old ≤ q.weightOf (q.reach i) :=
    weightOf_le_of_subset ((nodup_reach i).filter _) fun v hv => (List.mem_filter.1 hv).1
  calc (q.made p).weightOf vs
      ≤ (q.made p).weightOf (old ++ (L p).filter (· ≠ i)) := weightOf_le_of_subset hn hsub
    _ = q.weightOf old + (q.made p).weightOf ((L p).filter (· ≠ i)) := by
        rw [weightOf_append, hweight]
    _ ≤ (q.node i).degree + (q.made p).weightOf ((L p).filter (· ≠ i)) :=
        Nat.add_le_add_right (hold.trans (hb.le_degree hiq)) _

/-- **A variable of the clique** gets a bound not below its external degree, and the external degree
itself if it belongs to no more than two elements. -/
theorem Bounded.eliminate_of_mem (hi : (q.eliminate p).2.Live i) (hin : i ∈ q.reach p) :
    (q.eliminate p).2.weightOf ((q.eliminate p).2.reach i) ≤
        ((q.eliminate p).2.node i).degree ∧
      (((q.eliminate p).2.node i).adjElems.length ≤ 2 →
        ((q.eliminate p).2.node i).degree =
          (q.eliminate p).2.weightOf ((q.eliminate p).2.reach i)) := by
  have hsteady := h.eliminate hp
  obtain ⟨L, hmake, hs⟩ := spared_made h.sound.linked h.sound.grouped hp
  have hlist := mem_list_of_live_eliminate hmake hi hin
  have hreach := fun v => h.sound.mem_reach_eliminate hp hmake hi (v := v)
  have hnodup : ((q.eliminate p).2.reach i).Nodup := nodup_reach i
  have hsurround : (q.made p).weightOf ((q.eliminate p).2.reach i) ≤
      (q.made p).weightOf ((q.made p).surround L p (q.reach p) i) :=
    weightOf_le_of_subset hnodup fun v hv => (hmake.mem_surround hlist).2 ((hreach v).1 hv)
  have hold := hb.weightOf_reach_close_le h hp hmake hs hlist hnodup fun v hv => (hreach v).1 hv
  have hall : (q.made p).weightOf ((q.eliminate p).2.reach i) ≤
      (q.made p).liveWeight - ((q.made p).node i).weight := by
    have hnot : i ∉ (q.eliminate p).2.reach i := fun hc => ((hreach i).1 hc).1 rfl
    have hle := hsteady.sound.grouped.weightOf_add_length_order_le
      (List.nodup_cons.2 ⟨hnot, hnodup⟩) fun v hv => by
        rcases List.mem_cons.1 hv with rfl | hv
        · exact hi
        · exact live_of_mem_reach hsteady.sound.linked hi hv
    obtain ⟨hmade, hsize⟩ := hb.liveWeight_eliminate h hp
    rw [size_eliminate, weightOf_eliminate hmake, weightOf_cons] at hle
    omega
  rw [h.sound.degree_eliminate_of_mem hp hmake hs hlist, weightOf_eliminate hmake]
  refine ⟨Nat.le_min.2 ⟨Nat.le_min.2 ⟨hsurround, hold⟩, hall⟩, fun hlen => ?_⟩
  have hlen : ((q.made p).node i).adjElems.length ≤ 2 := by
    rwa [eliminate_eq, elems_close hmake] at hlen
  have hperm : ((q.eliminate p).2.reach i).Perm ((q.made p).surround L p (q.reach p) i) :=
    (List.perm_ext_iff_of_nodup hnodup (hmake.nodup_surround hlist hlen)).2 fun v =>
      (hreach v).trans (hmake.mem_surround hlist).symm
  rw [← weightOf_perm hperm, Nat.min_eq_left hold, Nat.min_eq_left hall]

/-- **An elimination keeps the bounds.** -/
theorem Bounded.eliminate : (q.eliminate p).2.Bounded := by
  refine ⟨?_, fun {i} hi => ?_, fun {i} hi hlen => ?_⟩
  · rw [size_eliminate]
    exact (hb.liveWeight_eliminate h hp).2
  · by_cases hin : i ∈ q.reach p
    · exact (hb.eliminate_of_mem h hp hi hin).1
    · have hlive := (h.sound.live_of_live_eliminate hp hi).1
      rw [h.sound.weightOf_reach_eliminate hp hi hin, (h.sound.node_eliminate hp hi hin).1]
      exact hb.le_degree hlive
  · by_cases hin : i ∈ q.reach p
    · exact (hb.eliminate_of_mem h hp hi hin).2 hlen
    · have hlive := (h.sound.live_of_live_eliminate hp hi).1
      obtain ⟨hdegree, helems, -⟩ := h.sound.node_eliminate hp hi hin
      rw [h.sound.weightOf_reach_eliminate hp hi hin, hdegree]
      exact hb.degree_eq hlive (helems ▸ hlen)

end

/-! ### Runs -/

theorem Bounded.countPass (hb : q.Bounded) : q.countPass.Bounded :=
  ⟨hb.liveWeight_eq, hb.le_degree, hb.degree_eq⟩

/-- **In the beginning** the bounds are the degrees. -/
theorem bounded_ofGraph {rows : List (List Nat)} (h : Csr.NormalRows rows) (aggressive : Bool) :
    (ofGraph (.ofRows rows) aggressive).Bounded := by
  have hlinked := (steady_ofGraph h aggressive).sound.linked
  have hweight : ∀ vs, (ofGraph (.ofRows rows) aggressive).weightOf vs = vs.length := by
    intro vs
    induction vs with
    | nil => rfl
    | cons v vs ih => rw [weightOf_cons, node_ofGraph, ih, List.length_cons, Nat.add_comm]
  have hdegree : ∀ {i}, (ofGraph (.ofRows rows) aggressive).Live i →
      ((ofGraph (.ofRows rows) aggressive).node i).degree =
        (ofGraph (.ofRows rows) aggressive).weightOf
          ((ofGraph (.ofRows rows) aggressive).reach i) := by
    intro i hi
    have hperm : ((ofGraph (.ofRows rows) aggressive).reach i).Perm (rows.getD i []) := by
      refine (List.perm_ext_iff_of_nodup (nodup_reach i) (nodup_of_pairwise (h.ascending i))).2
        fun v => ?_
      rw [mem_reach hlinked hi, joined_ofGraph]
      exact and_iff_right_of_imp fun hv he => h.loopless i (he ▸ hv)
    rw [hweight, node_ofGraph, hperm.length_eq]
  refine ⟨?_, fun hi => (hdegree hi).ge, fun hi _ => hdegree hi⟩
  rw [size_ofGraph]
  exact Csr.numNodes_ofRows rows

/-- **The bounds hold throughout a run.** -/
theorem Bounded.runs {q' : Quotient} (h : q.Steady G) (hb : q.Bounded) {es : List (Quotient × Nat)}
    (hr : Runs q es q') : q'.Bounded ∧ ∀ e ∈ es, e.1.Bounded := by
  obtain ⟨hlast, hes⟩ := hr.invariant (I := fun q => q.Steady G ∧ q.Bounded)
    (fun hq hp => ⟨hq.1.eliminate hp, hq.2.eliminate hq.1 hp⟩)
    (fun hq => ⟨hq.1.countPass, hq.2.countPass⟩) ⟨h, hb⟩
  exact ⟨hlast.2, fun e he => (hes e he).1.2⟩

end Quotient

end Unknowns
