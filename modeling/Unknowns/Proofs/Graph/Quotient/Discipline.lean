import Mathlib.Order.Bounds.Basic
import Unknowns.Proofs.Graph.Quotient.Passes

/-!
# The discipline of a pass

A pass goes through its candidates in ascending order, and a candidate is skipped
when the clique of an earlier pivot of the pass has reached it.  A clique is what
the elimination game has left around its pivot, so being skipped is being adjacent
to an earlier pivot (`not_mem_stepsEach_iff`): the pivots of a pass are an
independent set, which no candidate can be added to (`Disciplined`).

`starts` are the states in which passes begin.  The first pass eliminates the
isolated nodes if there are any, each by itself (`prefix_order_pass`).
-/

namespace Unknowns

namespace Adjacency

variable {G : Adjacency}

/-- **Neighbours stay neighbours** as long as both are there. -/
theorem Loopless.mem_eliminateAll (h : G.Loopless) {xs : List Nat} {u y : Nat} (hu : u ∉ xs)
    (hy : y ∉ xs) (hadj : y ∈ G u) : y ∈ G.eliminateAll xs u := by
  induction xs generalizing G with
  | nil => exact hadj
  | cons x xs ih =>
    obtain ⟨hux, hu⟩ := not_or.1 (mt List.mem_cons.2 hu)
    obtain ⟨hyx, hy⟩ := not_or.1 (mt List.mem_cons.2 hy)
    exact ih (h.eliminate x) hu hy ((mem_eliminate h).2 ⟨hux, hyx, Or.inl hadj⟩)

/-- **A node without neighbours** gets none. -/
theorem Undirected.eliminateAll_eq_empty (h : G.Undirected) {u : Nat} (hu : G u = ∅)
    (xs : List Nat) : G.eliminateAll xs u = ∅ := by
  induction xs generalizing G with
  | nil => exact hu
  | cons x xs ih =>
    refine ih (h.eliminate x) (Finset.eq_empty_of_forall_notMem fun y hy => ?_)
    rcases ((mem_eliminate h.loopless).1 hy).2.2 with hy | ⟨hx, -, -⟩
    · exact Finset.notMem_empty y (hu ▸ hy)
    · exact Finset.notMem_empty x (hu ▸ h.symm hx)

theorem Undirected.eliminateAll (h : G.Undirected) (xs : List Nat) :
    (G.eliminateAll xs).Undirected := by
  induction xs generalizing G with
  | nil => exact h
  | cons x xs ih => exact ih (h.eliminate x)

end Adjacency

namespace Quotient

variable {q : Quotient} {G : Adjacency} {p : Nat}

/-! ### Being adjacent to a pivot -/

section
variable (h : q.Sound G) (hp : q.Live p)
include h hp

/-- **The clique of a pivot** has the variables that are adjacent to it. -/
theorem Sound.mem_reach_iff {v : Nat} (hv : q.Live v) :
    v ∈ q.reach p ↔ v ∈ G.eliminateAll q.order p := by
  have hself := self_mem_group (q := q)
  rw [h.describes, adjacent_pivot_iff h.linked h.grouped hp (hself p), mem_expand]
  constructor
  · intro hm
    exact ⟨((mem_reach h.linked hp).1 hm).1.symm, Or.inr ⟨v, hm, hself v⟩⟩
  · rintro ⟨hne, hv' | ⟨u, hu, hvu⟩⟩
    · exact absurd (h.grouped.group_apart hp hv hv' (hself v)) hne
    · obtain rfl := h.grouped.group_apart (live_of_mem_reach h.linked hp hu) hv hvu (hself v)
      exact hu

/-- **Variables outside the clique** stay variables. -/
theorem Sound.live_eliminate_iff {v : Nat} (hout : v ∉ q.reach p) :
    (q.eliminate p).2.Live v ↔ q.Live v ∧ v ≠ p := by
  obtain ⟨L, hmake, hs⟩ := spared_made h.linked h.grouped hp
  rw [eliminate_eq, live_close hmake, hs.live_iff hout, live_opened h.linked hp]

end

/-! ### Going through the candidates -/

theorem sublist_stepsEach (stale ps : List Nat) :
    ((stepsEach stale ps q).map (·.2)).Sublist ps := by
  induction ps generalizing q stale with
  | nil => exact .slnil
  | cons p rest ih =>
    rw [stepsEach]
    split
    · exact (ih stale).cons p
    · exact (ih _).cons_cons p

/-- **Candidates are skipped** when they were stale before or are adjacent to an earlier pivot. -/
theorem not_mem_stepsEach_iff (h : q.Steady G) (stale : List Nat) {ps : List Nat} (hps : ps.Pairwise (· < ·))
    (hlive : ∀ v ∈ ps, v ∉ stale → q.Live v) :
    ∀ v ∈ ps, v ∉ (stepsEach stale ps q).map (·.2) ↔
      v ∈ stale ∨ ∃ e ∈ stepsEach stale ps q, e.2 < v ∧ v ∈ G.eliminateAll e.1.order e.2 := by
  induction ps generalizing q stale with
  | nil => exact fun v hv => absurd hv List.not_mem_nil
  | cons p rest ih =>
    obtain ⟨hfirst, hrest⟩ := List.pairwise_cons.1 hps
    have hlater : ∀ {stale' q'}, ∀ e ∈ stepsEach stale' rest q', p < e.2 := fun e he =>
      hfirst _ ((sublist_stepsEach _ _).subset (List.mem_map_of_mem he))
    intro v hv
    rw [stepsEach]
    by_cases hstale : p ∈ stale
    · rw [if_pos (Or.inl hstale)]
      rcases List.mem_cons.1 hv with rfl | hv
      · refine iff_of_true (fun hm => ?_) (Or.inl hstale)
        exact Nat.lt_irrefl v (hfirst v ((sublist_stepsEach _ _).subset hm))
      · exact ih h _ hrest (fun r hr => hlive r (List.mem_cons_of_mem _ hr)) v hv
    · have hp := hlive p (List.mem_cons_self ..) hstale
      have hvar : (q.node p).isVariable = true := isVariable_iff.2 hp.2
      rw [if_neg (by simp [hstale, hvar])]
      rcases List.mem_cons.1 hv with rfl | hv
      · refine iff_of_false (fun hm => hm (List.mem_cons_self ..)) ?_
        rintro (hc | ⟨e, he, hlt, -⟩)
        · exact hstale hc
        · rcases List.mem_cons.1 he with rfl | he
          · exact Nat.lt_irrefl _ hlt
          · exact Nat.lt_asymm hlt (hlater e he)
      · have hpv := hfirst v hv
        -- A candidate that the clique has not reached stays a variable.
        have hlive' : ∀ r ∈ rest, r ∉ (q.eliminate p).1 ++ stale → (q.eliminate p).2.Live r :=
          fun r hr hout => by
            obtain ⟨hclique, hold⟩ := not_or.1 (mt List.mem_append.2 hout)
            refine (h.sound.live_eliminate_iff hp hclique).2 ⟨?_, (hfirst r hr).ne'⟩
            exact hlive r (List.mem_cons_of_mem _ hr) hold
        have hgo := ih (h.eliminate hp) _ hrest hlive' v hv
        have hreach : v ∉ stale → (v ∈ (q.eliminate p).1 ↔ v ∈ G.eliminateAll q.order p) :=
          fun hold => h.sound.mem_reach_iff hp (hlive v (List.mem_cons_of_mem _ hv) hold)
        rw [List.map_cons, List.mem_cons, not_or, and_iff_right hpv.ne', hgo, List.mem_append,
          List.exists_mem_cons_iff, and_iff_right hpv]
        by_cases hold : v ∈ stale
        · simp [hold]
        · simp [hold, hreach hold]

/-! ### The candidates -/

theorem Queued.pairwise_candidates (h : q.Queued) : q.candidates.Pairwise (· < ·) := by
  unfold candidates
  split
  · exact List.Pairwise.nil
  · next least rest hq =>
    refine List.pairwise_map.2 ((h.ascending.filter _).imp_of_mem fun {a b} ha hb hab => ?_)
    have ha := of_decide_eq_true (List.mem_filter.1 ha).2
    have hb := of_decide_eq_true (List.mem_filter.1 hb).2
    have hlex : (compare a.degree b.degree).then (compare a.node b.node) = .lt := hab
    rw [ha, hb, Nat.compare_eq_eq.2 rfl] at hlex
    exact Nat.compare_eq_lt.1 hlex

/-! ### What a pass does -/

/-- The pass from `q` goes by the bound `m`, and its pivots are not adjacent to one another. -/
structure Disciplined (q : Quotient) (G : Adjacency) (m : Nat) : Prop where
  /-- The bound is the least of all variables. -/
  least : IsLeast {d | ∃ v, q.Live v ∧ (q.node v).degree = d} m
  /-- The pivots are eliminated in ascending order. -/
  ascending : (q.stepsOfPass.map (·.2)).Pairwise (· < ·)
  /-- They are variables with this bound when the pass begins. -/
  candidate : ∀ e ∈ q.stepsOfPass, q.Live e.2 ∧ (q.node e.2).degree = m
  /-- They still are when they are eliminated. -/
  degree_eq : ∀ e ∈ q.stepsOfPass, e.1.Live e.2 ∧ (e.1.node e.2).degree = m
  /-- A variable with this bound is skipped if and only if it was adjacent to an earlier pivot when
  that was eliminated. -/
  skipped_iff : ∀ v, q.Live v → (q.node v).degree = m →
    (v ∉ q.stepsOfPass.map (·.2) ↔
      ∃ e ∈ q.stepsOfPass, e.2 < v ∧ v ∈ G.eliminateAll e.1.order e.2)
  /-- No pivot is adjacent to an earlier one when that is eliminated. -/
  independent : q.stepsOfPass.Pairwise fun d e => e.2 ∉ G.eliminateAll d.1.order d.2
  /-- No two pivots are adjacent when the pass begins. -/
  apart : ∀ d ∈ q.stepsOfPass, ∀ e ∈ q.stepsOfPass, e.2 ∉ G.eliminateAll q.order d.2
  /-- The first variable with this bound is eliminated. -/
  lowest : ∀ v, q.Live v → (q.node v).degree = m →
    (∀ u, q.Live u → (q.node u).degree = m → v ≤ u) → v ∈ q.stepsOfPass.map (·.2)

section
variable (h : q.Steady G)
include h

/-- **The candidates of a pass** are skipped when they are adjacent to an earlier pivot. -/
theorem not_mem_stepsOfPass_iff {v : Nat} (hv : v ∈ q.candidates) :
    v ∉ q.stepsOfPass.map (·.2) ↔
      ∃ e ∈ q.stepsOfPass, e.2 < v ∧ v ∈ G.eliminateAll e.1.order e.2 := by
  have hgo := not_mem_stepsEach_iff h.countPass [] h.queued.pairwise_candidates
    (fun u hu _ => live_of_mem_candidates h.queued hu) v hv
  rwa [or_iff_right List.not_mem_nil] at hgo

theorem ascending_stepsOfPass : (q.stepsOfPass.map (·.2)).Pairwise (· < ·) :=
  h.queued.pairwise_candidates.sublist (sublist_stepsEach _ _)

omit h in
theorem mem_candidates_of_mem_stepsOfPass {e : Quotient × Nat} (he : e ∈ q.stepsOfPass) :
    e.2 ∈ q.candidates := (sublist_stepsEach _ _).subset (List.mem_map_of_mem he)

/-- **The pivots of a pass are independent** in the graphs in which they are eliminated. -/
theorem pairwise_stepsOfPass :
    q.stepsOfPass.Pairwise fun d e => e.2 ∉ G.eliminateAll d.1.order d.2 := by
  refine (List.pairwise_map.1 (ascending_stepsOfPass h)).imp_of_mem fun {d e} hd he hlt hadj => ?_
  have hskipped := (not_mem_stepsOfPass_iff h (mem_candidates_of_mem_stepsOfPass he)).2
    ⟨d, hd, hlt, hadj⟩
  exact hskipped (List.mem_map_of_mem he)

/-- **The pivots of a pass are independent** in the graph with which it begins. -/
theorem not_adjacent_of_mem_stepsOfPass (hG : G.Undirected) :
    ∀ d ∈ q.stepsOfPass, ∀ e ∈ q.stepsOfPass, e.2 ∉ G.eliminateAll q.order d.2 := by
  have hstart := hG.eliminateAll q.order
  have hrun := runs_pass h.queued
  have hlive := (h.runs hrun).2
  obtain ⟨hfirst, hgrow⟩ := hrun.pairwise_order
  have hfresh : ∀ c ∈ q.stepsOfPass, c.2 ∉ c.1.order := fun c hc =>
    (hlive c hc).1.sound.grouped.order_apart (hlive c hc).2 (self_mem_group _)
  have hapart : q.stepsOfPass.Pairwise fun d e => e.2 ∉ G.eliminateAll q.order d.2 := by
    refine ((pairwise_stepsOfPass h).and hgrow).imp_of_mem fun {d e} hd he hde hadj => hde.1 ?_
    -- Neither has been eliminated since the pass began, so they are still adjacent.
    obtain ⟨xs, hxs⟩ := hfirst d hd
    have hd' : d.2 ∉ xs := fun hm => hfresh d hd (hxs ▸ List.mem_append_right _ hm)
    have he' : e.2 ∉ xs := fun hm =>
      hfresh e he (hde.2.subset (hxs ▸ List.mem_append_right _ hm))
    rw [← hxs, Adjacency.eliminateAll_append]
    exact hstart.loopless.mem_eliminateAll hd' he' hadj
  exact hapart.forall_of_forall_of_flip (fun d _ => hstart.loopless d.2)
    (hapart.imp fun hde hed => hde (hstart.symm hed))

/-- **Every pass is disciplined.** -/
theorem disciplined (hG : G.Undirected) {least : Candidate} {rest : List Candidate}
    (hq : q.queue = least :: rest) : q.Disciplined G least.degree := by
  have hcand := fun v => h.queued.mem_candidates_iff hq (v := v)
  have hfirst := h.queued.mem_iff.1 (hq ▸ List.mem_cons_self .. : least ∈ q.queue)
  refine ⟨⟨⟨least.node, hfirst.1, hfirst.2.symm⟩, ?_⟩, ascending_stepsOfPass h,
    fun e he => (hcand e.2).1 (mem_candidates_of_mem_stepsOfPass he),
    fun e he => ⟨((h.runs (runs_pass h.queued)).2 e he).2, degree_of_mem_stepsOfPass h hq he⟩,
    fun v hv hdegree => not_mem_stepsOfPass_iff h ((hcand v).2 ⟨hv, hdegree⟩),
    pairwise_stepsOfPass h, not_adjacent_of_mem_stepsOfPass h hG, fun v hv hdegree hleast => ?_⟩
  · rintro d ⟨v, hv, rfl⟩
    exact h.queued.degree_le_of_queue_eq hq hv
  · by_contra hskipped
    obtain ⟨e, he, hlt, -⟩ := (not_mem_stepsOfPass_iff h ((hcand v).2 ⟨hv, hdegree⟩)).1 hskipped
    obtain ⟨hlive, hdegree⟩ := (hcand e.2).1 (mem_candidates_of_mem_stepsOfPass he)
    exact Nat.not_le.2 hlt (hleast e.2 hlive hdegree)

/-! ### Isolated nodes -/

/-- **A pass over isolated nodes** eliminates all of them and nothing else. -/
theorem eliminated_stepsOfPass (hG : G.Undirected) (hiso : ∀ v ∈ q.candidates, G v = ∅) :
    eliminated q.stepsOfPass = q.candidates := by
  have halone : ∀ e ∈ q.stepsOfPass, G.eliminateAll e.1.order e.2 = ∅ := fun e he =>
    hG.eliminateAll_eq_empty (hiso _ (mem_candidates_of_mem_stepsOfPass he)) _
  have hall : q.stepsOfPass.map (·.2) = q.candidates := by
    refine eq_of_mem_iff_of_rel (fun a => Nat.lt_irrefl a) Nat.lt_trans (ascending_stepsOfPass h)
      h.queued.pairwise_candidates fun v => ⟨(sublist_stepsEach _ _).subset (a := v), fun hv => ?_⟩
    by_contra hskipped
    obtain ⟨e, he, -, hadj⟩ := (not_mem_stepsOfPass_iff h hv).1 hskipped
    exact Finset.notMem_empty v (halone e he ▸ hadj)
  have hsingle : ∀ e ∈ q.stepsOfPass, e.1.pivots e.2 = [e.2] := fun e he => by
    obtain ⟨hsteady, hlive⟩ := (h.runs (runs_pass h.queued)).2 e he
    have hnodup := (perm_pivots e.1 e.2).nodup_iff.2 (hsteady.sound.grouped.group_nodup hlive)
    rw [pivots, List.nodup_cons] at hnodup
    refine congrArg _ (List.eq_nil_iff_forall_not_mem.2 fun x hx => ?_)
    have hadj := hsteady.sound.mem_of_mem_pivots hlive (List.mem_cons_self ..)
      (List.mem_cons_of_mem _ hx) (fun hc => hnodup.1 (hc ▸ hx))
    exact Finset.notMem_empty x (halone e he ▸ hadj)
  rw [eliminated, List.flatMap_congr hsingle, ← hall, List.map_eq_flatMap]

end

/-! ### The passes of a run -/

/-- The states in which the passes of `passes` begin. -/
def starts : Nat → Quotient → List Quotient
  | 0, _ => []
  | n + 1, q => if q.queue.isEmpty then [] else q :: starts n q.pass

theorem steps_eq_flatMap_starts (n : Nat) : q.steps n = (q.starts n).flatMap stepsOfPass := by
  induction n generalizing q with
  | zero => rfl
  | succ n ih =>
    rw [steps, starts]
    split
    · rfl
    · rw [List.flatMap_cons, ih]

/-- **Passes begin where those before them end.** -/
theorem eq_passes_of_getElem?_starts {n k : Nat} {q' : Quotient}
    (hk : (q.starts n)[k]? = some q') : q' = q.passes k := by
  induction n generalizing q k with
  | zero => cases hk
  | succ n ih =>
    rw [starts] at hk
    split at hk
    · cases hk
    · next hne =>
      cases k with
      | zero => exact (Option.some.inj hk).symm
      | succ k =>
        rw [passes, if_neg hne]
        exact ih hk

theorem passes_eliminateEach (stale ps : List Nat) :
    (eliminateEach stale ps q).stats.passes = q.stats.passes := by
  induction ps generalizing q stale with
  | nil => rfl
  | cons p rest ih =>
    rw [eliminateEach]
    split
    · exact ih stale
    · exact (ih _).trans (counts_eliminate p).1

/-- **The passes are counted.** -/
theorem passes_passes (n : Nat) :
    (q.passes n).stats.passes = q.stats.passes + (q.starts n).length := by
  induction n generalizing q with
  | zero => rfl
  | succ n ih =>
    rw [passes, starts]
    split
    · rfl
    · have hpass : q.pass.stats.passes = q.stats.passes + 1 := passes_eliminateEach ..
      rw [ih, hpass, List.length_cons, Nat.add_right_comm, Nat.add_assoc]

/-- **What holds where a pass begins** if passes keep it. -/
theorem starts_induction {I : Quotient → Prop} (hpass : ∀ {q}, I q → I q.pass) (hq : I q) (n : Nat) :
    ∀ q' ∈ q.starts n, I q' ∧ q'.queue ≠ [] := by
  induction n generalizing q with
  | zero => exact fun q' hq' => absurd hq' List.not_mem_nil
  | succ n ih =>
    rw [starts]
    split
    · exact fun q' hq' => absurd hq' List.not_mem_nil
    · next hne =>
      intro q' hq'
      rcases List.mem_cons.1 hq' with rfl | hq'
      · exact ⟨hq, fun hc => hne (List.isEmpty_iff.2 hc)⟩
      · exact ih (hpass hq) q' hq'

theorem Steady.pass (h : q.Steady G) : q.pass.Steady G := (h.runs (runs_pass h.queued)).1

/-- **The order begins with the first pass.** -/
theorem prefix_order_eliminateAll (h : q.Steady G) (hne : q.queue ≠ []) :
    q.order ++ eliminated q.stepsOfPass <+: q.eliminateAll.order := by
  obtain ⟨c, hc⟩ := List.exists_mem_of_ne_nil _ hne
  obtain ⟨n, hn⟩ := Nat.exists_eq_add_one.2 (Nat.zero_lt_of_lt (h.queued.mem_iff.1 hc).1.1)
  rw [← (runs_pass h.queued).order_eq, eliminateAll, hn, passes,
    if_neg fun hempty => hne (List.isEmpty_iff.1 hempty), (runs_passes h.pass n).order_eq]
  exact List.prefix_append _ _

/-- **There are no more passes than pivots.** -/
theorem length_starts_le (h : q.Steady G) (n : Nat) : (q.starts n).length ≤ (q.steps n).length := by
  induction n generalizing q with
  | zero => exact Nat.le_refl 0
  | succ n ih =>
    rw [starts, steps]
    split
    · exact Nat.le_refl 0
    · next hne =>
      have hsome := List.length_pos_iff.2
        (stepsOfPass_ne_nil h.queued fun hc => hne (List.isEmpty_iff.2 hc))
      have hrest := ih h.pass
      rw [List.length_cons, List.length_append]
      omega

end Quotient

end Unknowns
