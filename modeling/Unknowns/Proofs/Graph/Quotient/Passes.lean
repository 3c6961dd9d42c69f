import Unknowns.Proofs.Graph.Quotient.Spared

/-!
# What a pass eliminates

A pass goes through the variables that had the least bound when it began and skips
those whose clique an elimination of the same pass has reached.  The others keep
their bounds until it is their turn, so every pivot of a pass has the least bound
with which the pass began (`degree_le_of_mem_stepsOfPass`).

What is kept by eliminating a variable of that kind holds after any number of
passes (`passes_induction`).
-/

namespace Unknowns

namespace Quotient

variable {q : Quotient} {G : Adjacency}

/-! ### The bounds of the pivots -/

/-- **Candidates keep their bound** as long as they are not adjacent to a pivot of the pass. -/
theorem degree_of_mem_stepsEach (h : q.Steady G) {m : Nat} {stale ps : List Nat}
    (hlt : ∀ p ∈ ps, p < q.nodes.size)
    (hps : ∀ p ∈ ps, p ∉ stale → q.Live p → (q.node p).degree = m) :
    ∀ e ∈ stepsEach stale ps q, (e.1.node e.2).degree = m := by
  induction ps generalizing q stale with
  | nil => exact fun e he => absurd he List.not_mem_nil
  | cons p rest ih =>
    rw [stepsEach]
    split
    · exact ih h (fun r hr => hlt r (List.mem_cons_of_mem _ hr))
        fun r hr => hps r (List.mem_cons_of_mem _ hr)
    · next hp =>
      obtain ⟨hfresh, hvar⟩ := not_or.1 hp
      have hlive : q.Live p :=
        ⟨hlt p (List.mem_cons_self ..), isVariable_iff.1 (not_not.1 hvar)⟩
      have hsize : ∀ r ∈ rest, r < (q.eliminate p).2.nodes.size := fun r hr => by
        rw [size_eliminate]
        exact hlt r (List.mem_cons_of_mem _ hr)
      have hkeep : ∀ r ∈ rest, r ∉ (q.eliminate p).1 ++ stale → (q.eliminate p).2.Live r →
          ((q.eliminate p).2.node r).degree = m := fun r hr hout hr' => by
        obtain ⟨hclique, hold⟩ := not_or.1 (mt List.mem_append.2 hout)
        have hbefore := (h.sound.live_of_live_eliminate hlive hr').1
        rw [(h.sound.node_eliminate hlive hr' hclique).1]
        exact hps r (List.mem_cons_of_mem _ hr) hold hbefore
      intro e he
      rcases List.mem_cons.1 he with rfl | he
      · exact hps p (List.mem_cons_self ..) hfresh hlive
      · exact ih (h.eliminate hlive) hsize hkeep e he

theorem degree_le_of_before {a b : Candidate} (h : Before a b) : a.degree ≤ b.degree := by
  have hlex : (compare a.degree b.degree).then (compare a.node b.node) = .lt := h
  rcases Nat.lt_trichotomy a.degree b.degree with hlt | heq | hgt
  · exact Nat.le_of_lt hlt
  · exact Nat.le_of_eq heq
  · rw [Nat.compare_eq_gt.2 hgt] at hlex
    cases hlex

theorem Queued.queue_ne_nil (h : q.Queued) {v : Nat} (hv : q.Live v) : q.queue ≠ [] :=
  have hmem : ⟨(q.node v).degree, v⟩ ∈ q.queue := h.mem_iff.2 ⟨hv, rfl⟩
  List.ne_nil_of_mem hmem

/-- The first variable of the queue has the least bound. -/
theorem Queued.degree_le_of_queue_eq (h : q.Queued) {least : Candidate} {rest : List Candidate}
    (hq : q.queue = least :: rest) {v : Nat} (hv : q.Live v) :
    least.degree ≤ (q.node v).degree := by
  have hmem : ⟨(q.node v).degree, v⟩ ∈ least :: rest := hq ▸ h.mem_iff.2 ⟨hv, rfl⟩
  rcases List.mem_cons.1 hmem with he | hr
  · exact (congrArg Candidate.degree he).ge
  · exact degree_le_of_before ((List.pairwise_cons.1 (hq ▸ h.ascending)).1 _ hr)

/-- **The candidates** are the variables with the least bound. -/
theorem Queued.mem_candidates_iff (h : q.Queued) {least : Candidate} {rest : List Candidate}
    (hq : q.queue = least :: rest) {v : Nat} :
    v ∈ q.candidates ↔ q.Live v ∧ (q.node v).degree = least.degree := by
  have hcandidates : q.candidates = (q.queue.filter (·.degree = least.degree)).map (·.node) := by
    rw [candidates, hq]
  rw [hcandidates, List.mem_map]
  constructor
  · rintro ⟨c, hc, rfl⟩
    obtain ⟨hc, hdegree⟩ := List.mem_filter.1 hc
    obtain ⟨hlive, hnode⟩ := h.mem_iff.1 hc
    exact ⟨hlive, hnode.symm.trans (of_decide_eq_true hdegree)⟩
  · rintro ⟨hlive, hdegree⟩
    refine ⟨⟨(q.node v).degree, v⟩, List.mem_filter.2 ⟨h.mem_iff.2 ⟨hlive, rfl⟩, ?_⟩, rfl⟩
    exact decide_eq_true hdegree

/-- **Every pivot of a pass** has, when it is eliminated, the bound of the candidates. -/
theorem degree_of_mem_stepsOfPass (h : q.Steady G) {least : Candidate} {rest : List Candidate}
    (hq : q.queue = least :: rest) {e : Quotient × Nat} (he : e ∈ q.stepsOfPass) :
    (e.1.node e.2).degree = least.degree :=
  have hcand := fun v => h.queued.mem_candidates_iff hq (v := v)
  degree_of_mem_stepsEach h.countPass (fun p hp => ((hcand p).1 hp).1.1)
    (fun p hp _ _ => ((hcand p).1 hp).2) e he

/-- **Every pivot of a pass** has, when it is eliminated, the least bound with which the pass
began. -/
theorem degree_le_of_mem_stepsOfPass (h : q.Steady G) {e : Quotient × Nat}
    (he : e ∈ q.stepsOfPass) {v : Nat} (hv : q.Live v) :
    (e.1.node e.2).degree ≤ (q.node v).degree := by
  obtain ⟨least, rest, hq⟩ := List.exists_cons_of_ne_nil (h.queued.queue_ne_nil hv)
  rw [degree_of_mem_stepsOfPass h hq he]
  exact h.queued.degree_le_of_queue_eq hq hv

/-! ### Invariants of passes -/

/-- What is kept by the eliminations of a run holds at its end. -/
theorem Runs.invariant_of {q' : Quotient} {I : Quotient → Prop} {C : Quotient → Nat → Prop}
    (hstep : ∀ {q p}, I q → q.Live p → C q p → I (q.eliminate p).2)
    (hcount : ∀ {q}, I q → I q.countPass) {es : List (Quotient × Nat)} (h : Runs q es q')
    (hes : ∀ e ∈ es, C e.1 e.2) (hq : I q) : I q' := by
  induction h with
  | refl q => exact hq
  | count _ ih => exact ih hes (hcount hq)
  | step hp _ ih =>
    refine ih (fun e he => hes e (List.mem_cons_of_mem _ he)) (hstep hq hp ?_)
    exact hes (_, _) (List.mem_cons_self ..)

/-- **What is kept by eliminating variables of some kind** holds after any number of passes if the
passes eliminate only such variables. -/
theorem passes_induction {I : Quotient → Prop} {C : Quotient → Nat → Prop}
    (hsteady : ∀ {q}, I q → q.Steady G)
    (hstep : ∀ {q p}, I q → q.Live p → C q p → I (q.eliminate p).2)
    (hcount : ∀ {q}, I q → I q.countPass)
    (hpass : ∀ {q}, I q → q.queue ≠ [] → ∀ e ∈ q.stepsOfPass, C e.1 e.2) (hq : I q) (n : Nat) :
    I (q.passes n) := by
  induction n generalizing q with
  | zero => exact hq
  | succ n ih =>
    rw [passes]
    split
    · exact hq
    · next hempty =>
      have hne : q.queue ≠ [] := fun hc => hempty (List.isEmpty_iff.2 hc)
      exact ih ((runs_pass (hsteady hq).queued).invariant_of hstep hcount (hpass hq hne) hq)

end Quotient

end Unknowns
