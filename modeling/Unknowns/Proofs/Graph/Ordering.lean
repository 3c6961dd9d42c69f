import Unknowns.Graph.MinimumDegree
import Unknowns.Proofs.Graph.Quotient.Coalesced
import Unknowns.Proofs.Graph.Quotient.Discipline
import Unknowns.Proofs.Graph.Quotient.Thin
import Unknowns.Proofs.Graph.Relabel

/-!
# Minimum degree orderings are orders of elimination

`MinimumDegree.order` fails exactly when the check of its graph does.  Otherwise it
answers an order of all nodes and the graph relabelled by it, which can be
relabelled back (`order_permutes`).  At every pivot the clique that the quotient
graph computes is what the elimination game has left around the pivot, so the
entries of the factor are counted exactly (`order_eliminates`).

Of the variables of a clique each class of twins becomes one, whatever hash finds
them (`order_coalesces`).  The bounds that decide which node is next are sound
(`order_bounds`), every pass eliminates an independent set of the nodes with the
least bound (`order_passes`), and forests are ordered without fill (`order_forest`).
-/

namespace Unknowns

/-- The graph of an order of elimination is the given one under new labels, which can be undone. -/
structure EliminationOrder.Relabels (r : EliminationOrder) (g : Csr) : Prop where
  /-- Every node is eliminated once. -/
  perm : r.permutation.newToOld.Perm (List.range g.numNodes)
  /-- The two directions of the permutation undo one another. -/
  validate_permutation : r.permutation.validate = .ok ()
  /-- The graph is symmetric, and its rows are normal. -/
  validate_graph : r.graph.validate = .ok ()
  /-- Nodes are adjacent under their new labels when they are in `g`. -/
  adjacent_iff : ∀ u < g.numNodes, ∀ v < g.numNodes, ∃ i j,
    r.permutation.newIndex u = .ok i ∧ r.permutation.newIndex v = .ok j ∧
      (j ∈ r.graph.adjacency i ↔ v ∈ g.adjacency u)
  /-- The old labels lead back to `g`. -/
  permute_inverse : r.graph.permute r.permutation.inverse = .ok g

namespace MinimumDegree

/-- The eliminations that order the nodes of a graph, each with the state before it. -/
def eliminations (g : Csr) (aggressive : Bool) : List (Quotient × Nat) :=
  (Quotient.ofGraph g aggressive).steps g.numNodes

theorem order_of_steps {g g' relabelled : Csr} {aggressive : Bool} {p : Permutation}
    (hg : g.normalise = .ok g')
    (hp : Permutation.ofNewToOld (Quotient.ofGraph g' aggressive).eliminateAll.order = .ok p)
    (hrelabelled : g'.permute p = .ok relabelled) :
    order g aggressive =
      .ok ⟨p, relabelled, (Quotient.ofGraph g' aggressive).eliminateAll.stats⟩ := by
  simp only [order, hg, hp, hrelabelled, bind, Except.bind]

section
variable {rows : List (List Nat)} (h : Csr.NormalRows rows) (aggressive : Bool)
include h

/-- The order in which the nodes of a graph with normal rows are eliminated. -/
theorem perm_order :
    (Quotient.ofGraph (.ofRows rows) aggressive).eliminateAll.order.Perm (List.range rows.length) := by
  have hperm := Quotient.perm_order_eliminateAll (Quotient.steady_ofGraph h aggressive)
  rwa [Quotient.size_ofGraph] at hperm

/-- **What is answered for a checked graph.** -/
theorem order_eq_ok {g : Csr} (hg : g.normalise = .ok (.ofRows rows)) :
    let q := (Quotient.ofGraph (.ofRows rows) aggressive).eliminateAll
    let p := Permutation.ofOrder rows.length q.order
    order g aggressive = .ok ⟨p, .ofRows (Csr.relabelledRows rows p), q.stats⟩ := by
  have hperm := perm_order h aggressive
  exact order_of_steps hg (Permutation.ofNewToOld_of_perm hperm)
    (h.permute (Permutation.bijection_ofOrder hperm))

/-- **A graph relabelled by an order of its nodes** can be relabelled back. -/
theorem relabels_ofOrder {order : List Nat} (hperm : order.Perm (List.range rows.length))
    (stats : OrderingStats) :
    let p := Permutation.ofOrder rows.length order
    EliminationOrder.Relabels ⟨p, .ofRows (Csr.relabelledRows rows p), stats⟩ (.ofRows rows) := by
  intro p
  have hp : p.Bijection rows.length := Permutation.bijection_ofOrder hperm
  refine ⟨?_, hp.validate, (h.relabelledRows hp).validate, ?_, h.permute_inverse hp⟩
  · rwa [Csr.numNodes_ofRows]
  · rw [Csr.numNodes_ofRows]
    intro u hu v hv
    refine ⟨p.label u, p.label v, hp.newIndex hu, hp.newIndex hv, ?_⟩
    rw [Csr.mem_adjacency_ofRows, Csr.mem_adjacency_ofRows]
    exact h.label_mem_relabelledRows hp hu hv

/-- The eliminations lead from the graph to the end. -/
theorem runs_eliminations :
    Quotient.Runs (.ofGraph (.ofRows rows) aggressive) (eliminations (.ofRows rows) aggressive)
      (Quotient.ofGraph (.ofRows rows) aggressive).eliminateAll := by
  have hrun := Quotient.runs_passes (Quotient.steady_ofGraph h aggressive) rows.length
  rw [eliminations, Csr.numNodes_ofRows, Quotient.eliminateAll, Quotient.size_ofGraph]
  exact hrun

end

/-- Ordering fails exactly as the check does. -/
theorem order_eq_error_iff {g : Csr} {aggressive : Bool} {e : Error} :
    order g aggressive = .error e ↔ g.check = .error e := by
  rw [← Csr.normalise_eq_error_iff]
  cases hg : g.normalise with
  | error e' =>
    have hfail : order g aggressive = .error e' := by
      rw [order, hg]
      rfl
    rw [hfail, Except.error.injEq, Except.error.injEq]
  | ok g' =>
    obtain ⟨rows, rfl, hrows, -⟩ := Csr.normalRows_of_normalise hg
    rw [order_eq_ok hrows aggressive hg]
    exact ⟨fun he => (nomatch he), fun he => (nomatch he)⟩

/-- **Ordering fails exactly as the check does**, and otherwise orders all nodes: the passes come to
an end, all references resolve, and the graph under the new labels can be relabelled back. -/
theorem order_permutes (g : Csr) (aggressive : Bool) :
    (∀ e, order g aggressive = .error e ↔ g.check = .error e) ∧
      (g.check = .ok () → ∃ g' r, g.normalise = .ok g' ∧ order g aggressive = .ok r ∧
        (∀ n, g'.numNodes ≤ n →
          ((Quotient.ofGraph g' aggressive).passes n).queue = [] ∧
            (Quotient.ofGraph g' aggressive).passes n =
              (Quotient.ofGraph g' aggressive).eliminateAll) ∧
        (Quotient.ofGraph g' aggressive).eliminateAll.backReferencesResolve = true ∧
        r.Relabels g') := by
  refine ⟨fun e => order_eq_error_iff, fun hcheck => ?_⟩
  have hg := Csr.normalise_of_check hcheck
  have h := (Csr.closed_of_check hcheck).normalRows
  have hsteady := Quotient.steady_ofGraph h aggressive
  refine ⟨_, _, hg, order_eq_ok h aggressive hg, fun n hn => ?_, ?_, ?_⟩
  · rw [Csr.numNodes_ofRows] at hn
    rw [Quotient.passes_eq_eliminateAll hsteady (by rwa [Quotient.size_ofGraph])]
    exact ⟨Quotient.queue_eliminateAll hsteady, rfl⟩
  · exact Quotient.backReferencesResolve_eliminateAll hsteady
  · exact relabels_ofOrder h (perm_order h aggressive) _

/-- A square, stored with a loop and a repeated entry. -/
def square : Csr := ⟨[0, 3, 5, 8, 10], [0, 1, 3, 0, 2, 1, 3, 3, 0, 2]⟩

/-- The square can be ordered and its graph relabelled back. -/
theorem order_permutes_square : square.check = .ok () ∧ ∃ g' r,
    square.normalise = .ok g' ∧ order square true = .ok r ∧ r.Relabels g' := by
  have hcheck : square.check = .ok () := rfl
  obtain ⟨g', r, hg, hr, -, -, hrelabels⟩ := (order_permutes square true).2 hcheck
  exact ⟨hcheck, g', r, hg, hr, hrelabels⟩

/-- **Ordering plays the elimination game.**  At every pivot the clique, with what its variables stand
for, is what the game has left as the neighbours of each node of the pivot outside the pivot, whose
nodes are adjacent to one another; and the entries counted are those of the factor. -/
theorem order_eliminates {g g' : Csr} (aggressive : Bool) (h : g.normalise = .ok g') :
    ∃ r, order g aggressive = .ok r ∧
      Quotient.Runs (.ofGraph g' aggressive) (eliminations g' aggressive)
        (Quotient.ofGraph g' aggressive).eliminateAll ∧
      r.permutation.newToOld = Quotient.eliminated (eliminations g' aggressive) ∧
      (∀ before q p after, eliminations g' aggressive = before ++ (q, p) :: after →
        let G := g'.adjacency.eliminateAll (Quotient.eliminated before)
        (∀ x ∈ q.pivots p, G x \ (q.pivots p).toFinset = q.expand (q.eliminate p).1) ∧
          ∀ x ∈ q.pivots p, ∀ y ∈ q.pivots p, x ≠ y → y ∈ G x) ∧
      r.stats.fill = g'.adjacency.factorCount r.permutation.newToOld := by
  obtain ⟨rows, rfl, hrows, -⟩ := Csr.normalRows_of_normalise h
  have hsteady := Quotient.steady_ofGraph hrows aggressive
  have hrun := runs_eliminations hrows aggressive
  obtain ⟨hend, hpivots⟩ := hsteady.runs hrun
  refine ⟨_, order_eq_ok hrows aggressive h, hrun, hrun.order_eq, ?_, hend.sound.fill⟩
  intro before q p after hsplit G
  have hmem : (q, p) ∈ eliminations (.ofRows rows) aggressive := hsplit ▸ by simp
  obtain ⟨hq, hp⟩ := hpivots (q, p) hmem
  have hbefore : q.order = Quotient.eliminated before := (hsplit ▸ hrun).split.order_eq
  have hG : G = (Csr.ofRows rows).adjacency.eliminateAll q.order := by rw [hbefore]
  rw [hG]
  exact ⟨fun x hx => hq.sound.sdiff_pivots hp hx, fun x hx y hy hne =>
    hq.sound.mem_of_mem_pivots hp hx hy hne⟩

/-- The factor of the square has one entry more than its four edges. -/
theorem order_eliminates_square : ∃ g' r, square.normalise = .ok g' ∧ order square true = .ok r ∧
    r.stats.fill = g'.adjacency.factorCount r.permutation.newToOld ∧ r.stats.fill = 5 := by
  have hg : square.normalise = .ok (.ofRows [[1, 3], [0, 2], [1, 3], [0, 2]]) := rfl
  obtain ⟨r, hr, -, -, -, hfill⟩ := order_eliminates true hg
  refine ⟨_, r, hg, hr, hfill, ?_⟩
  have hcount : (order square true).map (fun r => r.stats.fill) = .ok 5 := by decide +kernel
  rw [hr] at hcount
  exact Except.ok.inj hcount

/-- **Twins become one variable, whatever hash finds them.**  In every state that a run of
eliminations reaches, as ordering does before each of its own, comparing the variables of a clique
bucket by bucket has the same effect for every hash, with which the elimination goes on: each class of
the clique is one variable. -/
theorem order_coalesces {g g' : Csr} (aggressive : Bool) (h : g.normalise = .ok g') :
    (∀ before q p after, eliminations g' aggressive = before ++ (q, p) :: after →
      Quotient.Runs (.ofGraph g' aggressive) before q ∧ q.Live p) ∧
    ∀ before q p, Quotient.Runs (.ofGraph g' aggressive) before q → q.Live p →
      (∀ (κ : Type) [DecidableEq κ] (hash : List Nat → List Nat → κ),
        (q.absorbed p).mergeBuckets hash (q.reach p) = q.made p) ∧
      q.eliminate p =
        (q.reach p, (q.made p).close p ((q.opened p).outside p (q.reach p)) (q.reach p)) ∧
      Quotient.Coalesced (q.absorbed p) (q.made p) p (q.reach p) := by
  obtain ⟨rows, rfl, hrows, -⟩ := Csr.normalRows_of_normalise h
  have hsteady := Quotient.steady_ofGraph hrows aggressive
  have hrun := runs_eliminations hrows aggressive
  refine ⟨fun before q p after hsplit => ⟨(hsplit ▸ hrun).split, ?_⟩, ?_⟩
  · exact ((hsteady.runs hrun).2 (q, p) (hsplit ▸ by simp)).2
  · intro before q p hrun hp
    have hq := (hsteady.runs hrun).1.sound
    exact ⟨fun κ _ hash => Quotient.mergeBuckets_absorbed hq.linked hq.grouped hp hash,
      q.eliminate_eq p, Quotient.coalesced_made hq.linked hq.grouped hp⟩

/-- When node 0 of the square is eliminated, 1 stands for 3 too, also if all hashes are equal. -/
theorem order_coalesces_square : ∃ g' t, square.normalise = .ok g' ∧
    ((Quotient.ofGraph g' true).absorbed 0).mergeBuckets (fun _ _ => ()) [1, 3] = t ∧
      t.Live 1 ∧ t.group 1 = [1, 3] ∧ (t.node 1).weight = 2 ∧ ¬ t.Live 3 := by
  have hg : square.normalise = .ok (.ofRows [[1, 3], [0, 2], [1, 3], [0, 2]]) := rfl
  let q := Quotient.ofGraph (.ofRows [[1, 3], [0, 2], [1, 3], [0, 2]]) true
  have hlive : q.Live 0 := ⟨by decide, rfl⟩
  have hreach : q.reach 0 = [1, 3] := by decide +kernel
  obtain ⟨hsame, -, hc⟩ := (order_coalesces true hg).2 [] q 0 (.refl q) hlive
  have hbuckets := hsame Unit fun _ _ => ()
  rw [hreach] at hc hbuckets
  have halike : (q.absorbed 0).Alike 1 3 := by decide +kernel
  have hclass : [1, 3].filter ((q.absorbed 0).Alike 1) = [1, 3] := by decide +kernel
  have hone := (hc.live_iff 1 (by decide)).2 (by decide)
  have hgroup := hc.group_eq 1 (by decide) hone
  have hweight := hc.weight_eq 1 (by decide) hone
  rw [hclass] at hgroup hweight
  refine ⟨_, q.made 0, hg, hbuckets, hone, hgroup.trans (by decide +kernel),
    hweight.trans (by decide +kernel), fun hthree => ?_⟩
  exact absurd ((hc.live_iff 3 (by decide)).1 hthree 1 (by decide) halike.symm) (by decide)

/-- **The bounds are sound.**  In every state that a run of eliminations reaches, as ordering does
before each of its own, the bound of a variable is not below the number of nodes that the elimination
game has left around those it stands for, and is that number if the variable belongs to at most two
elements. -/
theorem order_bounds {g g' : Csr} (aggressive : Bool) (h : g.normalise = .ok g') :
    (∀ before q p after, eliminations g' aggressive = before ++ (q, p) :: after →
      Quotient.Runs (.ofGraph g' aggressive) before q) ∧
    ∀ before q, Quotient.Runs (.ofGraph g' aggressive) before q →
      let G := g'.adjacency.eliminateAll (Quotient.eliminated before)
      ∀ i, q.Live i →
        (G.around (q.group i)).card ≤ (q.node i).degree ∧
          ((q.node i).adjElems.length ≤ 2 → (q.node i).degree = (G.around (q.group i)).card) := by
  obtain ⟨rows, rfl, hrows, -⟩ := Csr.normalRows_of_normalise h
  have hsteady := Quotient.steady_ofGraph hrows aggressive
  refine ⟨fun before q p after hsplit => (hsplit ▸ runs_eliminations hrows aggressive).split, ?_⟩
  intro before q hrun G i hi
  have hq := (hsteady.runs hrun).1.sound
  have hbounded := ((Quotient.bounded_ofGraph hrows aggressive).runs hsteady hrun).1
  have horder : q.order = Quotient.eliminated before := hrun.order_eq
  have hcard : (G.around (q.group i)).card = q.weightOf (q.reach i) := by
    rw [← hq.card_around_group hi, horder]
  rw [hcard]
  exact ⟨hbounded.le_degree hi, hbounded.degree_eq hi⟩

/-- With node 0 of the square eliminated, 1 stands for 3 too, and only 2 is adjacent to these. -/
theorem order_bounds_square : ∃ g' q, square.normalise = .ok g' ∧
    Quotient.Runs (.ofGraph g' true) [(.ofGraph g' true, 0)] q ∧ q.group 1 = [1, 3] ∧
      (q.node 1).degree = 1 ∧ ((g'.adjacency.eliminate 0).around [1, 3]).card = 1 := by
  have hg : square.normalise = .ok (.ofRows [[1, 3], [0, 2], [1, 3], [0, 2]]) := rfl
  let q := Quotient.ofGraph (.ofRows [[1, 3], [0, 2], [1, 3], [0, 2]]) true
  have hrun : Quotient.Runs q [(q, 0)] (q.eliminate 0).2 := .step ⟨by decide, rfl⟩ (.refl _)
  have hlive : (q.eliminate 0).2.Live 1 := ⟨by decide +kernel, by decide +kernel⟩
  have hgroup : (q.eliminate 0).2.group 1 = [1, 3] := by decide +kernel
  have hdegree : ((q.eliminate 0).2.node 1).degree = 1 := by decide +kernel
  have helems : ((q.eliminate 0).2.node 1).adjElems.length ≤ 2 := by decide +kernel
  have hbound := (((order_bounds true hg).2 _ _ hrun) 1 hlive).2 helems
  have heliminated : Quotient.eliminated [(q, 0)] = [0] := by decide +kernel
  rw [hgroup, hdegree, heliminated] at hbound
  exact ⟨_, _, hg, hrun, hgroup, hdegree, hbound.symm⟩

/-- The states in which the passes begin that order the nodes of a graph. -/
def passStarts (g : Csr) (aggressive : Bool) : List Quotient :=
  (Quotient.ofGraph g aggressive).starts g.numNodes

section
variable {rows : List (List Nat)} (h : Csr.NormalRows rows) (aggressive : Bool)

/-- Isolated nodes have the bound zero at first. -/
theorem isolated_iff {v : Nat} : (Csr.ofRows rows).adjacency v = ∅ ↔
    ((Quotient.ofGraph (.ofRows rows) aggressive).node v).degree = 0 := by
  rw [Quotient.node_ofGraph, Csr.adjacency, Csr.row?_ofRows, List.toFinset_eq_empty_iff,
    ← List.getD_eq_getElem?_getD, List.length_eq_zero_iff]

include h

/-- The candidates of the first pass are the isolated nodes, if there are any. -/
theorem isolated_eq_candidates {v : Nat} (hv : v < rows.length)
    (hiso : (Csr.ofRows rows).adjacency v = ∅) :
    (List.range rows.length).filter (fun u => (Csr.ofRows rows).adjacency u = ∅) =
      (Quotient.ofGraph (.ofRows rows) aggressive).candidates := by
  have hqueued := (Quotient.steady_ofGraph h aggressive).queued
  have hlive : (Quotient.ofGraph (.ofRows rows) aggressive).Live v := Quotient.live_ofGraph.2 hv
  obtain ⟨least, rest, hq⟩ := List.exists_cons_of_ne_nil (hqueued.queue_ne_nil hlive)
  have hzero : least.degree = 0 := Nat.le_zero.1
    ((hqueued.degree_le_of_queue_eq hq hlive).trans_eq ((isolated_iff aggressive).1 hiso))
  refine eq_of_mem_iff_of_rel (fun a => Nat.lt_irrefl a) Nat.lt_trans
    (List.pairwise_lt_range.filter _) hqueued.pairwise_candidates fun u => ?_
  rw [List.mem_filter, List.mem_range, decide_eq_true_iff, hqueued.mem_candidates_iff hq,
    Quotient.live_ofGraph, hzero, isolated_iff aggressive]

/-- **Isolated nodes come first**, in ascending order: they are all candidates of the first pass. -/
theorem isolated_prefix_order :
    ((List.range rows.length).filter fun v => (Csr.ofRows rows).adjacency v = ∅) <+:
      (Quotient.ofGraph (.ofRows rows) aggressive).eliminateAll.order := by
  have hsteady := Quotient.steady_ofGraph h aggressive
  by_cases hsome : ∃ v < rows.length, (Csr.ofRows rows).adjacency v = ∅
  · obtain ⟨v, hv, hiso⟩ := hsome
    have hall := isolated_eq_candidates h aggressive hv hiso
    have hlone : ∀ u ∈ (Quotient.ofGraph (.ofRows rows) aggressive).candidates,
        (Csr.ofRows rows).adjacency u = ∅ := fun u hu => by
      rw [← hall] at hu
      exact of_decide_eq_true (List.mem_filter.1 hu).2
    rw [hall, ← Quotient.eliminated_stepsOfPass hsteady h.undirected hlone]
    exact Quotient.prefix_order_eliminateAll hsteady
      (hsteady.queued.queue_ne_nil (Quotient.live_ofGraph.2 hv))
  · have hnone : (List.range rows.length).filter
        (fun v => (Csr.ofRows rows).adjacency v = ∅) = [] :=
      List.filter_eq_nil_iff.2 fun v hv hc =>
        hsome ⟨v, List.mem_range.1 hv, of_decide_eq_true hc⟩
    rw [hnone]
    exact List.nil_prefix

end

/-- **Each pass eliminates an independent set of variables with the least bound**, in ascending order,
and skips those that are adjacent to an earlier pivot only; so there are no more passes than pivots.
Isolated nodes come first, in ascending order, and without edges the order stays as it is. -/
theorem order_passes {g g' : Csr} (aggressive : Bool) (h : g.normalise = .ok g') :
    ∃ r, order g aggressive = .ok r ∧
      (∀ k q, (passStarts g' aggressive)[k]? = some q →
        q = (Quotient.ofGraph g' aggressive).passes k ∧
          ∃ m, q.Disciplined g'.adjacency m) ∧
      eliminations g' aggressive = (passStarts g' aggressive).flatMap Quotient.stepsOfPass ∧
      (∀ before q p after, eliminations g' aggressive = before ++ (q, p) :: after →
        q.order = Quotient.eliminated before) ∧
      r.stats.passes = (passStarts g' aggressive).length ∧
      r.stats.pivots = (eliminations g' aggressive).length ∧
      r.stats.passes ≤ r.stats.pivots ∧
      ((List.range g'.numNodes).filter fun v => g'.adjacency v = ∅) <+: r.permutation.newToOld ∧
      ((∀ v, g'.adjacency v = ∅) → r.permutation.newToOld = List.range g'.numNodes) := by
  obtain ⟨rows, rfl, hrows, -⟩ := Csr.normalRows_of_normalise h
  have hsteady := Quotient.steady_ofGraph hrows aggressive
  have hrun := runs_eliminations hrows aggressive
  have hinitial := isolated_prefix_order hrows aggressive
  have hperm := perm_order hrows aggressive
  have hpasses : (Quotient.ofGraph (.ofRows rows) aggressive).eliminateAll.stats.passes =
      (passStarts (.ofRows rows) aggressive).length := by
    rw [Quotient.eliminateAll, Quotient.passes_passes, passStarts, Csr.numNodes_ofRows,
      Quotient.size_ofGraph]
    exact Nat.zero_add _
  have hpivots : (Quotient.ofGraph (.ofRows rows) aggressive).eliminateAll.stats.pivots =
      (eliminations (.ofRows rows) aggressive).length := hrun.pivots_eq.trans (Nat.zero_add _)
  refine ⟨_, order_eq_ok hrows aggressive h, fun k q hk => ⟨?_, ?_⟩,
    Quotient.steps_eq_flatMap_starts _, fun before q p after hsplit =>
      (hsplit ▸ hrun).split.order_eq, hpasses, hpivots, ?_, ?_, fun hedgeless => ?_⟩
  · exact Quotient.eq_passes_of_getElem?_starts hk
  · obtain ⟨hq, hne⟩ := Quotient.starts_induction (I := fun q => q.Steady (Csr.ofRows rows).adjacency)
      (fun hq => hq.pass) hsteady _ q (List.mem_of_getElem? hk)
    obtain ⟨least, rest, hqueue⟩ := List.exists_cons_of_ne_nil hne
    exact ⟨_, Quotient.disciplined hq hrows.undirected hqueue⟩
  · rw [hpasses, hpivots]
    exact Quotient.length_starts_le hsteady _
  · rwa [Csr.numNodes_ofRows]
  · have hall : (List.range rows.length).filter (fun v => (Csr.ofRows rows).adjacency v = ∅) =
        List.range rows.length := List.filter_eq_self.2 fun v _ => decide_eq_true (hedgeless v)
    rw [hall] at hinitial
    rw [Csr.numNodes_ofRows]
    exact (hinitial.eq_of_length hperm.length_eq.symm).symm

/-- Two adjacent nodes between two isolated ones. -/
def bridge : Csr := ⟨[0, 0, 1, 2, 2], [2, 1]⟩

/-- The isolated nodes are eliminated in one pass, of the others 2 has to wait for a third pass. -/
theorem order_passes_bridge : ∃ g' r, bridge.normalise = .ok g' ∧ order bridge true = .ok r ∧
    r.stats.passes = 3 ∧ r.stats.pivots = 4 ∧ [0, 3] <+: r.permutation.newToOld := by
  have hg : bridge.normalise = .ok (.ofRows [[], [2], [1], []]) := rfl
  obtain ⟨r, hr, -, -, -, hpasses, hpivots, -, hinitial, -⟩ := order_passes true hg
  have hstarts : (passStarts (.ofRows [[], [2], [1], []]) true).length = 3 := by decide +kernel
  have hsteps : (eliminations (.ofRows [[], [2], [1], []]) true).length = 4 := by decide +kernel
  have hisolated : ((List.range 4).filter
      fun v => (Csr.ofRows [[], [2], [1], []]).adjacency v = ∅) = [0, 3] := by decide +kernel
  exact ⟨_, r, hg, hr, hpasses.trans hstarts, hpivots.trans hsteps, hisolated ▸ hinitial⟩

/-- **Forests are ordered without fill.**  When a node is eliminated it has at most one neighbour
left, the factor has one entry for each edge, and no variables are merged. -/
theorem order_forest {g g' : Csr} (aggressive : Bool) (h : g.normalise = .ok g')
    (hf : g'.adjacency.Forest) :
    ∃ r, order g aggressive = .ok r ∧
      r.permutation.newToOld.Perm (List.range g'.numNodes) ∧
      (∀ before x after, r.permutation.newToOld = before ++ x :: after →
        (g'.adjacency x \ before.toFinset).card ≤ 1) ∧
      r.stats.fill = g'.numEdges ∧ r.stats.merged = 0 ∧ r.stats.pivots = g'.numNodes := by
  obtain ⟨rows, rfl, hrows, -⟩ := Csr.normalRows_of_normalise h
  have hG := hrows.undirected
  have hend := (Quotient.leafy_ofGraph hrows aggressive).eliminateAll hG hf
  have hperm := perm_order hrows aggressive
  have hnodup := hperm.nodup_iff.2 List.nodup_range
  refine ⟨_, order_eq_ok hrows aggressive h, ?_, fun before x after hsplit => ?_, ?_,
    hend.thin.merged_eq, ?_⟩
  · rwa [Csr.numNodes_ofRows]
  · have hzero := hend.zeroFill
    have hsplit : (Quotient.ofGraph (.ofRows rows) aggressive).eliminateAll.order =
      before ++ x :: after := hsplit
    rw [hsplit] at hzero hnodup
    have hfresh : x ∉ before := fun hx =>
      (List.nodup_append.1 hnodup).2.2 x hx x (List.mem_cons_self ..) rfl
    exact hzero.card_sdiff_le_one hG.loopless hfresh
  · have hset : (Quotient.ofGraph (.ofRows rows) aggressive).eliminateAll.order.toFinset =
        Finset.range rows.length := by
      ext x
      rw [List.mem_toFinset, hperm.mem_iff, List.mem_range, Finset.mem_range]
    have hcount := hend.zeroFill.two_mul_factorCount hG hnodup fun u _ y hy => by
      rw [hset, Finset.mem_range]
      exact hrows.lt (Csr.mem_adjacency_ofRows.1 hy)
    rw [hset, hrows.sum_card_adjacency, ← hend.steady.sound.fill] at hcount
    show (Quotient.ofGraph (.ofRows rows) aggressive).eliminateAll.stats.fill = _
    rw [Csr.numEdges]
    omega
  · rw [Csr.numNodes_ofRows]
    exact hend.thin.pivots_eq.trans (hperm.length_eq.trans List.length_range)

/-- A tree, stored with a loop. -/
def tree : Csr := ⟨[0, 2, 3, 6, 8, 9], [0, 2, 2, 0, 1, 3, 2, 4, 3]⟩

/-- The factor of the tree has one entry for each of its four edges. -/
theorem order_forest_tree : ∃ g' r, tree.normalise = .ok g' ∧ g'.adjacency.Forest ∧
    order tree false = .ok r ∧ r.stats.fill = 4 ∧ r.stats.merged = 0 ∧ r.stats.pivots = 5 := by
  have hg : tree.normalise = .ok (.ofRows [[2], [2], [0, 1, 3], [2, 4], [3]]) := rfl
  obtain ⟨rows, hrows, hnormal, -⟩ := Csr.normalRows_of_normalise hg
  have hsame : [[2], [2], [0, 1, 3], [2, 4], [3]] = rows := by
    rw [← Csr.rows_ofRows rows, ← hrows, Csr.rows_ofRows]
  subst hsame
  have hzero : (Csr.ofRows [[2], [2], [0, 1, 3], [2, 4], [3]]).adjacency.ZeroFill
      [0, 1, 2, 3, 4] := by decide +kernel
  have hf : (Csr.ofRows [[2], [2], [0, 1, 3], [2, 4], [3]]).adjacency.Forest :=
    hzero.forest hnormal.undirected fun u y hy => by
      have hlt : y < 5 := hnormal.lt (Csr.mem_adjacency_ofRows.1 hy)
      exact List.mem_toFinset.2 (List.mem_range.2 hlt : y ∈ List.range 5)
  obtain ⟨r, hr, -, -, hfill, hmerged, hpivots⟩ := order_forest false hg hf
  exact ⟨_, r, hg, hf, hr, hfill, hmerged, hpivots⟩

end MinimumDegree

end Unknowns
