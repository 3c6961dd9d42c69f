import Unknowns.Proofs.Graph.Ordering
import Unknowns.Proofs.Graph.Quotient.Accounts
import Unknowns.Proofs.Graph.Quotient.Represented

/-!
# What holds while nodes are ordered, and in the end

In every state between two eliminations the lists, the queue and the weights of the
quotient graph fit together (`order_represents`).  When all nodes are ordered the counters
count the nodes by what became of them, and the references that merged and absorbed nodes
keep lead to elements (`order_accounts`).
-/

namespace Unknowns

namespace Quotient

theorem accounted_ofGraph {rows : List (List Nat)} {aggressive : Bool} :
    (ofGraph (.ofRows rows) aggressive).Accounted [] := by
  have hkind : ∀ v, ((ofGraph (.ofRows rows) aggressive).node v).kind = .variable := fun v => by
    rw [node_ofGraph]
  have hempty : ∀ {P : NodeKind → Bool}, P .variable = false →
      (ofGraph (.ofRows rows) aggressive).ofKind P = ∅ := fun hP =>
    Finset.eq_empty_of_forall_notMem fun v hv => by
      rw [mem_ofKind hP, hkind, hP] at hv
      exact Bool.false_ne_true hv
  refine ⟨List.nodup_nil, fun {v} => ?_, fun {v e} hv => ?_, fun {v i} hv => ?_, rfl, ?_, ?_⟩
  · refine iff_of_false List.not_mem_nil ?_
    rintro (he | ⟨e, he⟩)
    · exact not_element_ofGraph he
    · cases (hkind v).symm.trans he
  · cases (hkind v).symm.trans hv
  · cases (hkind v).symm.trans hv
  · rw [hempty rfl]
    rfl
  · rw [hempty rfl]
    rfl

end Quotient

namespace MinimumDegree

/-- **The representation is kept.**  In every state that a run of eliminations reaches, as ordering
does before each of its own and at the end, the lists, the queue and the weights say the same of the
graph; so the weight of a pivot can be taken from that of all variables and is not zero, and the
weight of each variable left in its clique can be taken from that of the clique. -/
theorem order_represents {g g' : Csr} (aggressive : Bool) (h : g.normalise = .ok g') :
    (∀ before q p after, eliminations g' aggressive = before ++ (q, p) :: after →
      Quotient.Runs (.ofGraph g' aggressive) before q ∧ q.Live p) ∧
    Quotient.Runs (.ofGraph g' aggressive) (eliminations g' aggressive)
      (Quotient.ofGraph g' aggressive).eliminateAll ∧
    ∀ before q, Quotient.Runs (.ofGraph g' aggressive) before q →
      q.nodes.size = g'.numNodes ∧ q.Represented ∧
      ∀ p, q.Live p →
        (q.node p).weight ≤ q.liveWeight ∧ 1 ≤ (q.node p).weight ∧
        q.eliminate p =
          (q.reach p, (q.made p).close p ((q.opened p).outside p (q.reach p)) (q.reach p)) ∧
        ∀ i ∈ (q.made p).variablesOf (q.reach p),
          ((q.made p).node i).weight ≤
            (q.made p).weightOf ((q.made p).variablesOf (q.reach p)) := by
  obtain ⟨rows, rfl, hrows, -⟩ := Csr.normalRows_of_normalise h
  have hsteady := Quotient.steady_ofGraph hrows aggressive
  have hbounded := Quotient.bounded_ofGraph hrows aggressive
  have hrun := runs_eliminations hrows aggressive
  refine ⟨fun before q p after hsplit => ⟨(hsplit ▸ hrun).split, ?_⟩, hrun, fun before q hq => ?_⟩
  · exact ((hsteady.runs hrun).2 (q, p) (hsplit ▸ by simp)).2
  · have hrepresented := (hsteady.runs hq).1.represented (hbounded.runs hsteady hq).1
    refine ⟨?_, hrepresented, fun p hp => ?_⟩
    · rw [hq.size_eq, Quotient.size_ofGraph, Csr.numNodes_ofRows]
    · obtain ⟨hpos, hle⟩ := hrepresented.weight_le hp
      exact ⟨hle, hpos, q.eliminate_eq p, fun i hi => Quotient.weight_le_weightOf hi⟩

/-- With node 0 of the square eliminated, 1 stands for 3 too, and 1 and 2 have the weight of three
nodes. -/
theorem order_represents_square : ∃ g' q, square.normalise = .ok g' ∧
    Quotient.Runs (.ofGraph g' true) [(.ofGraph g' true, 0)] q ∧ q.liveNodes = [1, 2] ∧
      q.queue = [⟨1, 1⟩, ⟨2, 2⟩] ∧ q.liveWeight = 3 ∧ (q.node 1).weight ≤ q.liveWeight ∧
      ([0] ++ [1, 2].flatMap q.group).Perm [0, 1, 2, 3] := by
  have hg : square.normalise = .ok (.ofRows [[1, 3], [0, 2], [1, 3], [0, 2]]) := rfl
  let q := Quotient.ofGraph (.ofRows [[1, 3], [0, 2], [1, 3], [0, 2]]) true
  have hrun : Quotient.Runs q [(q, 0)] (q.eliminate 0).2 := .step ⟨by decide, rfl⟩ (.refl _)
  have hlive : (q.eliminate 0).2.Live 1 := ⟨by decide +kernel, by decide +kernel⟩
  have hnodes : (q.eliminate 0).2.liveNodes = [1, 2] := by decide +kernel
  have horder : (q.eliminate 0).2.order = [0] := by decide +kernel
  have hdegrees : [1, 2].map (fun v => (⟨((q.eliminate 0).2.node v).degree, v⟩ : Candidate)) =
      [⟨1, 1⟩, ⟨2, 2⟩] := by decide +kernel
  have hweights : (q.eliminate 0).2.weightOf [1, 2] = 3 := by decide +kernel
  obtain ⟨hsize, hrep, hpivot⟩ := (order_represents true hg).2.2 _ _ hrun
  have hqueue := hrep.queue_eq
  have hweight := hrep.liveWeight_eq
  have hpartition := hrep.partition
  rw [hnodes, hdegrees] at hqueue
  rw [hnodes, hweights] at hweight
  rw [hnodes, horder, hsize] at hpartition
  exact ⟨_, _, hg, hrun, hnodes, hqueue, hweight, (hpivot 1 hlive).1, hpartition⟩

/-- There are no more passes than pivots. -/
theorem passes_le_pivots {rows : List (List Nat)} (h : Csr.NormalRows rows) (aggressive : Bool) :
    (Quotient.ofGraph (.ofRows rows) aggressive).eliminateAll.stats.passes ≤
      (Quotient.ofGraph (.ofRows rows) aggressive).eliminateAll.stats.pivots := by
  have hsteady := Quotient.steady_ofGraph h aggressive
  rw [(runs_eliminations h aggressive).pivots_eq, Quotient.eliminateAll, Quotient.passes_passes,
    Quotient.size_ofGraph, eliminations, Csr.numNodes_ofRows]
  exact Nat.add_le_add_left (Quotient.length_starts_le hsteady rows.length) _

/-- **The counters add up, and every reference leads to an element.**  When all nodes are ordered none
is a variable: pivots are the elements, absorbed or not, all others were merged, and each absorbed
element was counted once.  Merged nodes refer to smaller ones and absorbed elements to elements that
were created later, so from every node the references lead to an element that is not absorbed. -/
theorem order_accounts {g g' : Csr} (aggressive : Bool) (h : g.normalise = .ok g') :
    let q := (Quotient.ofGraph g' aggressive).eliminateAll
    let created := (eliminations g' aggressive).map (·.2)
    (∃ r, order g aggressive = .ok r ∧ r.stats = q.stats) ∧
    q.nodes.size = g'.numNodes ∧
    (∀ v < g'.numNodes, (q.node v).kind ≠ .variable) ∧
    q.stats.pivots = (q.ofKind NodeKind.isElement).card + (q.ofKind NodeKind.isAbsorbed).card ∧
    q.stats.merged = (q.ofKind NodeKind.isMerged).card ∧
    q.stats.pivots + q.stats.merged = g'.numNodes ∧
    q.stats.absorbed = (q.ofKind NodeKind.isAbsorbed).card ∧
    q.stats.passes ≤ q.stats.pivots ∧ q.stats.pivots ≤ g'.numNodes ∧
    (∀ v i, (q.node v).kind = .merged i → i < v) ∧
    created.Nodup ∧
    (∀ v e, (q.node v).kind = .absorbed e →
      v ∈ created ∧ e ∈ created ∧ created.idxOf v < created.idxOf e) ∧
    (∀ v < g'.numNodes, ∃ k, q.Element (q.referent^[k] v)) ∧
    q.backReferencesResolve = true := by
  obtain ⟨rows, rfl, hrows, -⟩ := Csr.normalRows_of_normalise h
  intro q created
  have hsteady := Quotient.steady_ofGraph hrows aggressive
  have hrun := runs_eliminations hrows aggressive
  have haccounts : q.Accounted created := Quotient.accounted_ofGraph.runs hsteady hrun
  have hnone : ∀ v, ¬ q.Live v := Quotient.not_live_eliminateAll hsteady
  have hreferenced : q.Referenced := (hsteady.runs hrun).1.referenced
  have hsize : q.nodes.size = (Csr.ofRows rows).numNodes := by
    rw [Csr.numNodes_ofRows]
    exact hrun.size_eq.trans Quotient.size_ofGraph
  have hall := haccounts.pivots_add_merged hnone
  rw [hsize] at hall
  refine ⟨⟨_, order_eq_ok hrows aggressive h, rfl⟩, hsize, fun v hv hkind => ?_,
    haccounts.pivots_eq_add, haccounts.merged_eq, hall, haccounts.absorbed_eq,
    passes_le_pivots hrows aggressive, hall ▸ Nat.le_add_right _ _,
    fun v i => haccounts.merged_lt, haccounts.created_nodup, fun v e hkind => ?_,
    fun v hv => ?_, Quotient.backReferencesResolve_eliminateAll hsteady⟩
  · exact hnone v ⟨hsize ▸ hv, hkind⟩
  · exact ⟨haccounts.mem_created.2 (.inr ⟨e, hkind⟩), haccounts.absorbed_later hkind⟩
  · exact haccounts.exists_element hreferenced hnone (hsize ▸ hv)

/-- Of the square 3 is merged into 1, and 0 is absorbed by 2 and this by 1. -/
theorem order_accounts_square : ∃ g' q, square.normalise = .ok g' ∧
    q = (Quotient.ofGraph g' true).eliminateAll ∧ q.nodes.toList.map (·.kind) =
      [.absorbed 2, .element, .absorbed 1, .merged 1] ∧
    q.stats.pivots = 3 ∧ q.stats.merged = 1 ∧ q.stats.absorbed = 2 ∧
      ∃ k, q.Element (q.referent^[k] 0) := by
  have hg : square.normalise = .ok (.ofRows [[1, 3], [0, 2], [1, 3], [0, 2]]) := rfl
  obtain ⟨-, -, -, hpivots, hmerged, -, habsorbed, -, -, -, -, -, hlead, -⟩ := order_accounts true hg
  refine ⟨_, _, hg, rfl, by decide +kernel, hpivots.trans (by decide +kernel),
    hmerged.trans (by decide +kernel), habsorbed.trans (by decide +kernel), hlead 0 (by decide)⟩

end MinimumDegree

end Unknowns
