import Unknowns.Proofs.Graph.Quotient.Queue
import Unknowns.Proofs.Graph.Quotient.References

/-!
# The run of an elimination

A run is a sequence of eliminations of variables, each with the state before it
(`Runs`); beginning a pass only counts it.  What every elimination keeps holds
throughout a run (`Runs.invariant`), and the order that a run produces lists its
pivots with what they stand for (`Runs.order_eq`).

`steps` are the eliminations that `passes` goes through (`runs_passes`).  In every
pass there is at least one while variables are left, so as many passes as there
are nodes empty the queue (`queue_eliminateAll`), and further ones change nothing
(`passes_eq_eliminateAll`).
-/

namespace Unknowns

namespace Quotient

variable {q q' : Quotient} {p : Nat} {G : Adjacency}

/-! ### One elimination -/

/-- The quotient graph between two eliminations. -/
structure Steady (q : Quotient) (G : Adjacency) : Prop where
  sound : q.Sound G
  queued : q.Queued
  referenced : q.Referenced

theorem Steady.eliminate (h : q.Steady G) (hp : q.Live p) : (q.eliminate p).2.Steady G := by
  have hlinked := h.sound.linked
  obtain ⟨hmake, hlive, hd⟩ := absorbable_opened hlinked h.sound.grouped hp
  obtain ⟨L, hmade, hwaiting, hreferenced⟩ := made_induction
    (P := fun q' _ => q'.Waiting (q.reach p) ∧ q'.Referenced) hlinked h.sound.grouped hp
    (fun q' L i j hmake' hm _ hj hq' =>
      ⟨hq'.1.merge hm (hmake'.mem_list.1 hj).1, hq'.2.merge hm⟩)
    ⟨(h.queued.opened hlinked hp).absorb hmake hlive hd,
      (h.referenced.opened hlinked hp).absorb hmake hlive hd⟩
  refine ⟨h.sound.eliminate hp, ?_, ?_⟩
  · rw [eliminate_eq]
    exact hwaiting.close hmade _
  · rw [eliminate_eq]
    exact hreferenced.close hmade _

/-- What no merging of two variables changes, merging all twins does not change. -/
theorem mergeTwinsFrom_congr {α : Type} {g : Quotient → α} (hg : ∀ q i j, g (merge q i j) = g q)
    (digest : List Nat → List Nat → Nat) (stayed rest : List Nat) :
    g (mergeTwinsFrom digest stayed rest q) = g q := by
  induction rest generalizing q stayed with
  | nil => rfl
  | cons j rest ih =>
    rw [mergeTwinsFrom]
    split
    · rw [ih, hg]
    · rw [ih]

theorem size_made (p : Nat) : (q.made p).nodes.size = q.nodes.size := by
  rw [made, mergeTwins,
    mergeTwinsFrom_congr (g := fun q => q.nodes.size) fun _ i j => size_merge i j, size_absorb,
    size_opened]

theorem order_made (p : Nat) : (q.made p).order = q.order ++ q.pivots p := by
  rw [made, mergeTwins, mergeTwinsFrom_congr fun _ i j => order_merge i j, order_absorb,
    order_opened, pivots]

@[simp] theorem size_eliminate (p : Nat) : (q.eliminate p).2.nodes.size = q.nodes.size := by
  rw [eliminate_eq, size_close, size_made]

theorem order_eliminate (p : Nat) : (q.eliminate p).2.order = q.order ++ q.pivots p := by
  rw [eliminate_eq, order_close, order_made]

/-- **An elimination counts one pivot** and no pass. -/
theorem counts_eliminate (p : Nat) :
    (q.eliminate p).2.stats.passes = q.stats.passes ∧
      (q.eliminate p).2.stats.pivots = q.stats.pivots + 1 := by
  have hopened : (q.opened p).stats = (q.retire p (q.reach p)).stats := stats_modifyAll ..
  have hpasses : (q.opened p).stats.passes = q.stats.passes := by
    rw [hopened]
    rfl
  have hpivots : (q.opened p).stats.pivots = q.stats.pivots + 1 := by
    rw [hopened]
    rfl
  rw [eliminate_eq, stats_close, made, mergeTwins]
  constructor
  · exact (mergeTwinsFrom_congr (g := fun q => q.stats.passes) (fun _ _ _ => rfl) ..).trans hpasses
  · exact (mergeTwinsFrom_congr (g := fun q => q.stats.pivots) (fun _ _ _ => rfl) ..).trans hpivots

/-! ### Runs -/

/-- A sequence of eliminations, each with the state before it and its pivot. -/
inductive Runs : Quotient → List (Quotient × Nat) → Quotient → Prop
  | refl (q : Quotient) : Runs q [] q
  | count {q q' : Quotient} {es : List (Quotient × Nat)} (h : Runs q.countPass es q') : Runs q es q'
  | step {q q' : Quotient} {p : Nat} {es : List (Quotient × Nat)} (hp : q.Live p)
    (h : Runs (q.eliminate p).2 es q') : Runs q ((q, p) :: es) q'

/-- The nodes that a run eliminates, in order. -/
def eliminated (es : List (Quotient × Nat)) : List Nat := es.flatMap fun e => e.1.pivots e.2

namespace Runs

theorem append {q₁ q₂ q₃ : Quotient} {ds es : List (Quotient × Nat)} (h₁ : Runs q₁ ds q₂)
    (h₂ : Runs q₂ es q₃) : Runs q₁ (ds ++ es) q₃ := by
  induction h₁ with
  | refl q => exact h₂
  | count _ ih => exact .count (ih h₂)
  | step hp _ ih => exact .step hp (ih h₂)

/-- **What every elimination keeps holds throughout a run.** -/
theorem invariant {I : Quotient → Prop} (hstep : ∀ {q p}, I q → q.Live p → I (q.eliminate p).2)
    (hcount : ∀ {q}, I q → I q.countPass) {es : List (Quotient × Nat)} (h : Runs q es q')
    (hq : I q) : I q' ∧ ∀ e ∈ es, I e.1 ∧ e.1.Live e.2 := by
  induction h with
  | refl q => exact ⟨hq, fun e he => absurd he List.not_mem_nil⟩
  | count _ ih => exact ih (hcount hq)
  | step hp _ ih =>
    obtain ⟨hlast, hes⟩ := ih (hstep hq hp)
    refine ⟨hlast, fun e he => ?_⟩
    rcases List.mem_cons.1 he with rfl | he
    · exact ⟨hq, hp⟩
    · exact hes e he

theorem size_eq {es : List (Quotient × Nat)} (h : Runs q es q') :
    q'.nodes.size = q.nodes.size := by
  induction h with
  | refl q => rfl
  | count _ ih => exact ih
  | step _ _ ih => rw [ih, size_eliminate]

/-- **The order lists the pivots** with what they stand for. -/
theorem order_eq {es : List (Quotient × Nat)} (h : Runs q es q') :
    q'.order = q.order ++ eliminated es := by
  induction h with
  | refl q => exact (List.append_nil _).symm
  | count _ ih => exact ih
  | step hp _ ih =>
    rw [ih, order_eliminate, List.append_assoc, eliminated, eliminated, List.flatMap_cons]

/-- **A run counts its pivots.** -/
theorem pivots_eq {es : List (Quotient × Nat)} (h : Runs q es q') :
    q'.stats.pivots = q.stats.pivots + es.length := by
  induction h with
  | refl q => rfl
  | count _ ih => exact ih
  | step _ _ ih =>
    rw [ih, (counts_eliminate _).2, List.length_cons, Nat.add_right_comm, Nat.add_assoc]

/-- **The order only grows**, from each elimination to those after it. -/
theorem pairwise_order {es : List (Quotient × Nat)} (h : Runs q es q') :
    (∀ e ∈ es, q.order <+: e.1.order) ∧ es.Pairwise fun d e => d.1.order <+: e.1.order := by
  induction h with
  | refl q => exact ⟨fun e he => absurd he List.not_mem_nil, .nil⟩
  | count _ ih => exact ih
  | @step q q' p es _ _ ih =>
    have hgrow : ∀ e ∈ es, q.order <+: e.1.order := fun e he =>
      (List.prefix_append _ _).trans (order_eliminate (q := q) p ▸ ih.1 e he)
    refine ⟨fun e he => ?_, List.pairwise_cons.2 ⟨hgrow, ih.2⟩⟩
    rcases List.mem_cons.1 he with rfl | he
    · exact List.prefix_rfl
    · exact hgrow e he

/-- A run can be cut before any of its eliminations. -/
theorem split {q₁ : Quotient} {ds es : List (Quotient × Nat)}
    (h : Runs q (ds ++ (q₁, p) :: es) q') : Runs q ds q₁ := by
  generalize hall : ds ++ (q₁, p) :: es = all at h
  induction h generalizing ds with
  | refl q => simp at hall
  | count _ ih => exact .count (ih hall)
  | step hp _ ih =>
    cases ds with
    | nil =>
      obtain ⟨rfl, rfl⟩ := Prod.mk.inj (List.cons.inj hall).1
      exact .refl _
    | cons d ds =>
      obtain ⟨rfl, hrest⟩ := List.cons.inj hall
      exact .step hp (ih hrest)

end Runs

theorem Sound.countPass (h : q.Sound G) : q.countPass.Sound G where
  linked :=
    have hl := h.linked
    ⟨hl.vars_ascending, hl.elems_ascending, hl.vars_live, hl.vars_symm, hl.vars_loopless,
      hl.mem_elems, hl.list_nodup, hl.list_live, hl.apart⟩
  grouped :=
    have hg := h.grouped
    ⟨hg.order_nodup, hg.group_nodup, hg.group_apart, hg.order_apart, hg.mem_iff, hg.weight⟩
  describes := h.describes
  fill := h.fill

theorem Steady.countPass (h : q.Steady G) : q.countPass.Steady G where
  sound := h.sound.countPass
  queued := ⟨h.queued.ascending, h.queued.mem_iff⟩
  referenced := ⟨h.referenced.merged, h.referenced.absorbed⟩

theorem Steady.runs (h : q.Steady G) {es : List (Quotient × Nat)} (hr : Runs q es q') :
    q'.Steady G ∧ ∀ e ∈ es, e.1.Steady G ∧ e.1.Live e.2 :=
  hr.invariant (I := fun q => q.Steady G) (fun hq hp => hq.eliminate hp) (fun hq => hq.countPass) h

/-! ### The eliminations of a pass -/

/-- The eliminations that `eliminateEach` goes through. -/
def stepsEach (stale : List Nat) : List Nat → Quotient → List (Quotient × Nat)
  | [], _ => []
  | p :: rest, q =>
    if p ∈ stale ∨ ¬(q.node p).isVariable then stepsEach stale rest q
    else (q, p) :: stepsEach ((q.eliminate p).1 ++ stale) rest (q.eliminate p).2

/-- The eliminations that `pass` goes through. -/
def stepsOfPass (q : Quotient) : List (Quotient × Nat) := stepsEach [] q.candidates q.countPass

/-- The eliminations that `passes` goes through. -/
def steps : Nat → Quotient → List (Quotient × Nat)
  | 0, _ => []
  | n + 1, q => if q.queue.isEmpty then [] else q.stepsOfPass ++ steps n q.pass

theorem runs_eliminateEach (stale : List Nat) {ps : List Nat} (h : ∀ p ∈ ps, p < q.nodes.size) :
    Runs q (stepsEach stale ps q) (eliminateEach stale ps q) := by
  induction ps generalizing q stale with
  | nil => exact .refl q
  | cons p rest ih =>
    rw [stepsEach, eliminateEach]
    split
    · exact ih stale fun r hr => h r (List.mem_cons_of_mem _ hr)
    · next hp =>
      have hvar : (q.node p).isVariable = true := by
        by_contra hv
        exact hp (Or.inr hv)
      have hlive : q.Live p := ⟨h p (List.mem_cons_self ..), isVariable_iff.1 hvar⟩
      refine .step hlive (ih _ fun r hr => ?_)
      rw [size_eliminate]
      exact h r (List.mem_cons_of_mem _ hr)

theorem live_of_mem_candidates (h : q.Queued) {v : Nat} (hv : v ∈ q.candidates) : q.Live v := by
  unfold candidates at hv
  split at hv
  · cases hv
  · obtain ⟨c, hc, rfl⟩ := List.mem_map.1 hv
    exact (h.mem_iff.1 (List.mem_filter.1 hc).1).1

theorem runs_pass (h : q.Queued) : Runs q q.stepsOfPass q.pass :=
  .count (runs_eliminateEach [] fun _ hp => (live_of_mem_candidates h hp).1)

/-- **The passes run through their steps.** -/
theorem runs_passes (h : q.Steady G) (n : Nat) : Runs q (q.steps n) (q.passes n) := by
  induction n generalizing q with
  | zero => exact .refl q
  | succ n ih =>
    rw [steps, passes]
    split
    · exact .refl q
    · have hpass := runs_pass h.queued
      exact hpass.append (ih (h.runs hpass).1)

/-! ### Termination -/

/-- As long as there are variables, the order lacks a node. -/
theorem Grouped.length_order_lt (hg : q.Grouped) {v : Nat} (hv : q.Live v) :
    q.order.length < q.nodes.size := by
  have hnot := hg.order_apart hv (self_mem_group v)
  have hnodup : (v :: q.order).Nodup := List.nodup_cons.2 ⟨hnot, hg.order_nodup⟩
  have hsub : v :: q.order ⊆ List.range q.nodes.size := by
    intro x hx
    rcases List.mem_cons.1 hx with rfl | hx
    · exact List.mem_range.2 hv.1
    · exact List.mem_range.2 (hg.mem_iff.2 (Or.inl hx))
  have hle := (hnodup.subperm hsub).length_le
  rwa [List.length_range] at hle

/-- The first candidate is eliminated. -/
theorem stepsOfPass_ne_nil (h : q.Queued) (hne : q.queue ≠ []) : q.stepsOfPass ≠ [] := by
  obtain ⟨least, rest, hq⟩ := List.exists_cons_of_ne_nil hne
  have hlive := (h.mem_iff.1 (hq ▸ List.mem_cons_self .. : least ∈ q.queue)).1
  have hcand : q.candidates = least.node ::
      (rest.filter (·.degree = least.degree)).map (·.node) := by
    rw [candidates, hq]
    exact congrArg _ (List.filter_cons_of_pos (by simp))
  have hvar : (q.countPass.node least.node).isVariable = true := isVariable_iff.2 hlive.2
  rw [stepsOfPass, hcand, stepsEach, if_neg (by simp [hvar])]
  exact List.cons_ne_nil _ _

/-- **Every pass brings the order on** while variables are left. -/
theorem length_order_pass (h : q.Steady G) (hne : q.queue ≠ []) :
    q.order.length < q.pass.order.length := by
  have horder := (runs_pass h.queued).order_eq
  obtain ⟨e, es, hes⟩ := List.exists_cons_of_ne_nil (stepsOfPass_ne_nil h.queued hne)
  rw [horder, hes, eliminated, List.flatMap_cons, List.length_append, List.length_append, pivots,
    List.length_cons]
  omega

theorem queue_passes (h : q.Steady G) (n : Nat) :
    (q.passes n).queue = [] ∨ q.order.length + n ≤ (q.passes n).order.length := by
  induction n generalizing q with
  | zero => exact Or.inr (Nat.le_refl _)
  | succ n ih =>
    rw [passes]
    split
    · next he => exact Or.inl (List.isEmpty_iff.1 he)
    · next he =>
      have hne : q.queue ≠ [] := fun hc => he (List.isEmpty_iff.2 hc)
      have hlt := length_order_pass h hne
      rcases ih (h.runs (runs_pass h.queued)).1 with hq | hq
      · exact Or.inl hq
      · exact Or.inr (by omega)

/-- **The queue is empty at the end.** -/
theorem queue_eliminateAll (h : q.Steady G) : q.eliminateAll.queue = [] := by
  have hend := (h.runs (runs_passes h q.nodes.size)).1
  by_contra hne
  obtain ⟨least, rest, hq⟩ := List.exists_cons_of_ne_nil hne
  have hlive := (hend.queued.mem_iff.1 (hq ▸ List.mem_cons_self ..)).1
  have hlt := hend.sound.grouped.length_order_lt hlive
  have hle := (queue_passes h q.nodes.size).resolve_left hne
  have hsize := (runs_passes h q.nodes.size).size_eq
  omega

/-- **No variable is left at the end.** -/
theorem not_live_eliminateAll (h : q.Steady G) (v : Nat) : ¬ q.eliminateAll.Live v := by
  intro hv
  have hend : q.eliminateAll.Steady G := (h.runs (runs_passes h q.nodes.size)).1
  have hmem : ⟨(q.eliminateAll.node v).degree, v⟩ ∈ q.eliminateAll.queue :=
    hend.queued.mem_iff.2 ⟨hv, rfl⟩
  rw [queue_eliminateAll h] at hmem
  exact List.not_mem_nil hmem

/-- **The order lists every node once.** -/
theorem perm_order_eliminateAll (h : q.Steady G) :
    q.eliminateAll.order.Perm (List.range q.nodes.size) := by
  have hrun := runs_passes h q.nodes.size
  have hgrouped : q.eliminateAll.Grouped := (h.runs hrun).1.sound.grouped
  refine (List.perm_ext_iff_of_nodup hgrouped.order_nodup List.nodup_range).2 fun x => ?_
  rw [List.mem_range, ← hrun.size_eq]
  refine ⟨fun hx => hgrouped.mem_iff.2 (Or.inl hx), fun hx => ?_⟩
  refine (hgrouped.mem_iff.1 hx).resolve_right ?_
  rintro ⟨v, hv, -⟩
  exact not_live_eliminateAll h v hv

/-- **All references resolve at the end.** -/
theorem backReferencesResolve_eliminateAll (h : q.Steady G) :
    q.eliminateAll.backReferencesResolve = true :=
  (h.runs (runs_passes h q.nodes.size)).1.referenced.backReferencesResolve (not_live_eliminateAll h)

theorem passes_of_queue_nil (h : q.queue = []) (n : Nat) : q.passes n = q := by
  cases n with
  | zero => rfl
  | succ n => rw [passes, if_pos (List.isEmpty_iff.2 h)]

theorem passes_add (m n : Nat) : q.passes (m + n) = (q.passes m).passes n := by
  induction m generalizing q with
  | zero => rw [Nat.zero_add, passes]
  | succ m ih =>
    rw [Nat.add_right_comm, passes, passes]
    split
    · next he => rw [passes_of_queue_nil (List.isEmpty_iff.1 he)]
    · exact ih

/-- **More passes change nothing**, so the loop ends by itself. -/
theorem passes_eq_eliminateAll (h : q.Steady G) {n : Nat} (hn : q.nodes.size ≤ n) :
    q.passes n = q.eliminateAll := by
  obtain ⟨k, rfl⟩ := Nat.exists_eq_add_of_le hn
  rw [passes_add]
  exact passes_of_queue_nil (queue_eliminateAll h) k

end Quotient

end Unknowns
