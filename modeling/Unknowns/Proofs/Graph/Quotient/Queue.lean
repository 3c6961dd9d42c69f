import Unknowns.Proofs.Graph.Quotient.Eliminate

/-!
# The queue

Between two eliminations the queue holds exactly the variables, each with its
bound (`Queued`).  While element `p` is made the variables of its clique are out
of the queue (`Waiting`), and closing puts those that are left back.
-/

namespace Unknowns

namespace Quotient

variable {q : Quotient} {L : Nat → List Nat} {p : Nat} {clique : List Nat}

/-- The queue holds the variables with their bounds, ascending. -/
structure Queued (q : Quotient) : Prop where
  ascending : q.queue.Pairwise Before
  mem_iff : ∀ {c}, c ∈ q.queue ↔ q.Live c.node ∧ c.degree = (q.node c.node).degree

/-- The queue holds the variables outside the clique with their bounds, ascending. -/
structure Waiting (q : Quotient) (clique : List Nat) : Prop where
  ascending : q.queue.Pairwise Before
  mem_iff : ∀ {c}, c ∈ q.queue ↔
    q.Live c.node ∧ c.node ∉ clique ∧ c.degree = (q.node c.node).degree

@[simp] theorem queue_modifyAll (vs : List Nat) (f : Nat → QuotientNode → QuotientNode) :
    (q.modifyAll vs f).queue = q.queue := modifyAll_congr (fun _ _ _ => rfl) vs f

theorem foldl_erase_sublist (f : Nat → Candidate) (vs : List Nat) (cs : List Candidate) :
    (vs.foldl (fun cs i => cs.erase (f i)) cs).Sublist cs := by
  induction vs generalizing cs with
  | nil => exact List.Sublist.refl _
  | cons v vs ih => exact (ih _).trans (List.erase_sublist ..)

theorem mem_foldl_erase (f : Nat → Candidate) (vs : List Nat) {cs : List Candidate}
    (h : cs.Nodup) {c : Candidate} :
    c ∈ vs.foldl (fun cs i => cs.erase (f i)) cs ↔ c ∈ cs ∧ ∀ v ∈ vs, c ≠ f v := by
  induction vs generalizing cs with
  | nil => simp
  | cons v vs ih =>
    rw [List.foldl_cons, ih (h.erase _), h.mem_erase_iff, List.forall_mem_cons,
      and_comm (a := c ≠ f v), and_assoc]

theorem eq_of_entry {c : Candidate} {d v : Nat} (hv : c.node = v) (hd : c.degree = d) :
    c = ⟨d, v⟩ := by
  subst hv hd
  rfl

theorem queue_opened (p : Nat) :
    (q.opened p).queue =
      (q.reach p).foldl
        (fun cs i => cs.erase ⟨((q.retire p (q.reach p)).node i).degree, i⟩)
        (q.queue.erase ⟨(q.node p).degree, p⟩) := rfl

theorem degree_retire (h : q.Linked q.lists) (hp : q.Live p) {v : Nat} (hv : q.Live v)
    (hne : v ≠ p) : ((q.retire p (q.reach p)).node v).degree = (q.node v).degree := by
  have hnot : v ∉ (q.node p).adjElems := fun he => hv.ne_element (h.element hp he) rfl
  rw [node_retire_reach h hp, if_neg hne, if_neg hnot]

theorem degree_opened (h : q.Linked q.lists) (hp : q.Live p) {v : Nat} (hv : q.Live v)
    (hne : v ≠ p) : ((q.opened p).node v).degree = (q.node v).degree := by
  rw [node_opened h hp]
  split
  · rfl
  · exact degree_retire h hp hv hne

/-- **The clique leaves the queue with the pivot**: a variable is in the queue under its bound, and
this is the entry that is taken out. -/
theorem Queued.opened (hq : q.Queued) (h : q.Linked q.lists) (hp : q.Live p) :
    (q.opened p).Waiting (q.reach p) where
  ascending := by
    rw [queue_opened]
    exact hq.ascending.sublist ((foldl_erase_sublist ..).trans (List.erase_sublist ..))
  mem_iff {c} := by
    have hnodup : q.queue.Nodup := nodup_of_pairwise hq.ascending
    rw [queue_opened, mem_foldl_erase (fun i => ⟨((q.retire p (q.reach p)).node i).degree, i⟩) _
      (hnodup.erase _), hnodup.mem_erase_iff, hq.mem_iff, live_opened h hp]
    constructor
    · rintro ⟨⟨hne, hlive, hdegree⟩, hout⟩
      have hcp : c.node ≠ p := fun hc => hne (eq_of_entry hc (hc ▸ hdegree))
      refine ⟨⟨hlive, hcp⟩, fun hmem => hout _ hmem (eq_of_entry rfl ?_),
        hdegree.trans (degree_opened h hp hlive hcp).symm⟩
      exact hdegree.trans (degree_retire h hp hlive hcp).symm
    · rintro ⟨⟨hlive, hcp⟩, hout, hdegree⟩
      refine ⟨⟨?_, hlive, hdegree.trans (degree_opened h hp hlive hcp)⟩, ?_⟩
      · rintro rfl
        exact hcp rfl
      · rintro v hv rfl
        exact hout hv

theorem Waiting.absorb {dead : List Nat} (hw : q.Waiting clique) (h : q.Making L p clique)
    (hlive : ∀ v ∈ clique, q.Live v) (hd : q.Dead L p dead) :
    (q.absorb p clique dead).Waiting clique := by
  have hqueue : (q.absorb p clique dead).queue = q.queue :=
    (queue_modifyAll ..).trans (queue_modifyAll ..)
  have hdegree : ∀ {v}, q.Live v →
      ((q.absorb p clique dead).node v).degree = (q.node v).degree := by
    intro v hv
    have hnot : v ∉ dead := fun he => hv.ne_element (hd.element he) rfl
    rw [node_absorb_dead h hlive hd, if_neg hnot]
    split <;> rfl
  refine ⟨hqueue ▸ hw.ascending, fun {c} => ?_⟩
  rw [hqueue, hw.mem_iff, live_absorb h hlive hd]
  exact and_congr_right fun hv => by rw [hdegree hv]

theorem Waiting.merge {i j : Nat} (hw : q.Waiting clique) (hm : q.Mergeable i j)
    (hj : j ∈ clique) : (q.merge i j).Waiting clique := by
  have hqueue : (q.merge i j).queue = q.queue := (queue_modifyAll ..).trans (queue_modifyAll ..)
  have hdegree : ∀ {v}, ((q.merge i j).node v).degree = (q.node v).degree := by
    intro v
    rw [node_merge hm]
    split
    · next hv => rw [hv]
    · split
      · next hv => rw [hv]
      · split
        · rfl
        · split <;> rfl
  refine ⟨hqueue ▸ hw.ascending, fun {c} => ?_⟩
  rw [hqueue, hw.mem_iff, live_merge hm, hdegree]
  constructor
  · rintro ⟨hlive, hout, hd⟩
    exact ⟨⟨hlive, fun hc => hout (hc ▸ hj)⟩, hout, hd⟩
  · rintro ⟨⟨hlive, -⟩, hout, hd⟩
    exact ⟨hlive, hout, hd⟩

theorem mem_foldl_insertAscending (f : Nat → Candidate) (vs : List Nat) (cs : List Candidate)
    {c : Candidate} :
    c ∈ vs.foldl (fun cs i => insertAscending (f i) cs) cs ↔ c ∈ cs ∨ ∃ v ∈ vs, c = f v := by
  induction vs generalizing cs with
  | nil => simp
  | cons v vs ih =>
    rw [List.foldl_cons, ih, mem_insertAscending]
    simp only [List.mem_cons, exists_eq_or_imp]
    rw [or_comm (a := c = f v), or_assoc]

theorem pairwise_foldl_insertAscending (f : Nat → Candidate) (vs : List Nat) {cs : List Candidate}
    (h : cs.Pairwise Before) :
    (vs.foldl (fun cs i => insertAscending (f i) cs) cs).Pairwise Before := by
  induction vs generalizing cs with
  | nil => exact h
  | cons v vs ih => exact ih (pairwise_insertAscending h)

/-- **Closing puts the variables that are left back into the queue.** -/
theorem Waiting.close (hw : q.Waiting clique) (h : q.Making L p clique)
    (outside : Table Nat Nat) : (q.close p outside clique).Queued := by
  let f (i : Nat) : Candidate :=
    ⟨q.newDegree p (q.weightOf (q.variablesOf clique)) outside i, i⟩
  have hqueue : (q.close p outside clique).queue =
      (q.variablesOf clique).foldl (fun cs i => insertAscending (f i) cs) q.queue := rfl
  have hnotp : ∀ {v}, q.Live v → v ≠ p := fun hv => hv.ne_element h.element
  refine ⟨hqueue ▸ pairwise_foldl_insertAscending f _ hw.ascending, fun {c} => ?_⟩
  rw [hqueue, mem_foldl_insertAscending, hw.mem_iff, live_close h, node_close_making h]
  by_cases hin : c.node ∈ q.variablesOf clique
  · have hlive := h.mem_list.1 (h.list ▸ hin)
    rw [if_neg (hnotp hlive.2), if_pos hin]
    constructor
    · rintro (⟨-, hout, -⟩ | ⟨v, hv, rfl⟩)
      · exact absurd hlive.1 hout
      · exact ⟨hlive.2, rfl⟩
    · rintro ⟨-, hdegree⟩
      exact Or.inr ⟨c.node, hin, congrArg (Candidate.mk · c.node) hdegree⟩
  · have hout : q.Live c.node → c.node ∉ clique := fun hlive hc =>
      hin (mem_variablesOf.2 ⟨hc, hlive.2⟩)
    constructor
    · rintro (⟨hlive, -, hdegree⟩ | ⟨v, hv, rfl⟩)
      · rw [if_neg (hnotp hlive), if_neg hin]
        exact ⟨hlive, hdegree⟩
      · exact absurd hv hin
    · rintro ⟨hlive, hdegree⟩
      rw [if_neg (hnotp hlive), if_neg hin] at hdegree
      exact Or.inl ⟨hlive, hout hlive, hdegree⟩

end Quotient

end Unknowns
