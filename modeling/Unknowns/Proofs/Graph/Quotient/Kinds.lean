import Unknowns.Proofs.Graph.Quotient.Coalesced
import Unknowns.Proofs.Graph.Quotient.Run

/-!
# What an elimination makes of the nodes

One elimination makes its pivot an element, absorbs elements (`swallowed`: those of the
pivot, and those that have become superfluous) and merges variables (`joining`).  Every
other node stays what it is: `kind_eliminate`, and with what each node was before
`kind_eliminate_cases`.  Each of these is counted (`stats_eliminate`).
-/

namespace Unknowns

namespace Quotient

variable {q : Quotient} {p : Nat}

theorem kind_mergeAll {into : Nat → Nat} {gone : List Nat} (hgone : ∀ v ∈ gone, q.Live v)
    (u : Nat) :
    ((q.mergeAll into gone).node u).kind =
      if u ∈ gone then .merged (into u) else (q.node u).kind := by
  by_cases hu : u < q.nodes.size
  · rw [node_mergeAll _ _ hu, mergedNode]
    split <;> rfl
  · have hnot : u ∉ gone := fun hm => hu (hgone u hm).1
    have hnone : ∀ {q' : Quotient}, q'.nodes.size = q.nodes.size →
        (q'.node u).kind = .variable := fun hsize => by
      by_contra hne
      exact hu (hsize ▸ lt_size_of_kind_ne hne)
    rw [if_neg hnot, hnone (size_mergeAll into gone), hnone rfl]

/-- The elements that become part of the element of `p`. -/
def swallowed (q : Quotient) (p : Nat) : List Nat := (q.node p).adjElems ++ q.deadElements p

/-- The variables that are merged into a twin when `p` is eliminated. -/
def joining (q : Quotient) (p : Nat) : List Nat := (q.absorbed p).followers (q.reach p)

section
variable (h : q.Linked q.lists) (hg : q.Grouped) (hp : q.Live p)
include h hg hp

theorem element_of_mem_swallowed {e : Nat} (he : e ∈ q.swallowed p) : q.Element e := by
  rcases List.mem_append.1 he with he | he
  · exact h.element hp he
  · have hd := dead_deadElements h hg hp
    exact (((element_opened h hp).1 (hd.element he)).resolve_left (hd.ne he)).1

theorem nodup_swallowed : (q.swallowed p).Nodup := by
  have hd := dead_deadElements h hg hp
  refine List.nodup_append.2 ⟨h.elems_nodup hp, hd.nodup, fun e he f hf hef => ?_⟩
  have hnot := (((element_opened h hp).1 (hd.element hf)).resolve_left (hd.ne hf)).2
  exact hnot (hef ▸ he)

omit hg in
theorem live_of_mem_joining {v : Nat} (hv : v ∈ q.joining p) : q.Live v ∧ v ≠ p := by
  have hreach := (mem_followers.1 hv).1
  exact ⟨live_of_mem_reach h hp hreach, ((mem_reach h hp).1 hreach).1⟩

omit h hg hp in
theorem nodup_joining : (q.joining p).Nodup := (nodup_reach p).filter _

omit h hg hp in
/-- **Variables are merged into smaller ones.** -/
theorem leader_lt_of_mem_joining {v : Nat} (hv : v ∈ q.joining p) :
    (q.absorbed p).leader (q.reach p) v < v := by
  obtain ⟨hreach, hne⟩ := mem_followers.1 hv
  exact Nat.lt_of_le_of_ne (leader_le (ascending_reach p) hreach hreach (.refl _ v)) hne

theorem kind_absorbed (u : Nat) :
    ((q.absorbed p).node u).kind =
      if u = p then .element
      else if u ∈ q.swallowed p then .absorbed p
      else (q.node u).kind := by
  obtain ⟨hmake, hlive, hd⟩ := absorbable_opened h hg hp
  rw [absorbed, kind_absorb hmake hlive hd, kind_opened_eq h hp, swallowed]
  by_cases hu : u = p
  · have hnot : u ∉ q.deadElements p := fun hdead => hd.ne hdead hu
    rw [if_neg hnot, if_pos hu, if_pos hu]
  · simp only [hu, if_false, List.mem_append]
    by_cases hdead : u ∈ q.deadElements p
    · simp [hdead]
    · simp [hdead]

/-- **What becomes of a node** when `p` is eliminated. -/
theorem kind_eliminate (u : Nat) :
    ((q.eliminate p).2.node u).kind =
      if u = p then .element
      else if u ∈ q.swallowed p then .absorbed p
      else if u ∈ q.joining p then .merged ((q.absorbed p).leader (q.reach p) u)
      else (q.node u).kind := by
  obtain ⟨L, hmade, -⟩ := kept_made h hg hp
  obtain ⟨hmake, hlive⟩ := making_absorbed h hg hp
  have hmerged : ((q.made p).node u).kind =
      if u ∈ q.joining p then .merged ((q.absorbed p).leader (q.reach p) u)
      else ((q.absorbed p).node u).kind := by
    rw [made_eq, mergeTwins_eq hmake hlive (ascending_reach p)]
    exact kind_mergeAll (fun v hv => hlive v (mem_followers.1 hv).1) u
  rw [eliminate_eq, kind_close hmade, hmerged, kind_absorbed h hg hp]
  by_cases hu : u ∈ q.joining p
  · obtain ⟨hu', hne⟩ := live_of_mem_joining h hp hu
    have hnot : u ∉ q.swallowed p := fun he =>
      hu'.ne_element (element_of_mem_swallowed h hg hp he) rfl
    rw [if_pos hu, if_neg hne, if_neg hnot, if_pos hu]
  · rw [if_neg hu, if_neg hu]

/-- **The ways in which a node can go**: the pivot becomes an element, an element is absorbed, a
variable is merged, or the node stays what it is. -/
theorem kind_eliminate_cases (u : Nat) :
    let k := (q.node u).kind
    let k' := ((q.eliminate p).2.node u).kind
    (u = p ∧ u ∉ q.swallowed p ∧ u ∉ q.joining p ∧ k = .variable ∧ k' = .element) ∨
    (u ≠ p ∧ u ∈ q.swallowed p ∧ u ∉ q.joining p ∧ k = .element ∧ k' = .absorbed p) ∨
    (u ≠ p ∧ u ∉ q.swallowed p ∧ u ∈ q.joining p ∧ k = .variable ∧
      k' = .merged ((q.absorbed p).leader (q.reach p) u)) ∨
    (u ≠ p ∧ u ∉ q.swallowed p ∧ u ∉ q.joining p ∧ k' = k) := by
  have helement : u ∈ q.swallowed p → q.Element u := fun he =>
    element_of_mem_swallowed h hg hp he
  have hlive : u ∈ q.joining p → q.Live u ∧ u ≠ p := fun hj => live_of_mem_joining h hp hj
  have hapart : u ∈ q.swallowed p → u ∉ q.joining p := fun he hj =>
    (hlive hj).1.ne_element (helement he) rfl
  intro k k'
  have hk' : k' = _ := kind_eliminate h hg hp u
  by_cases hup : u = p
  · have hnot : u ∉ q.swallowed p := fun he => hp.ne_element (helement he) hup.symm
    rw [if_pos hup] at hk'
    have hk : k = .variable := (congrArg (fun v => (q.node v).kind) hup).trans hp.2
    exact .inl ⟨hup, hnot, fun hj => (hlive hj).2 hup, hk, hk'⟩
  · rw [if_neg hup] at hk'
    by_cases hswallowed : u ∈ q.swallowed p
    · rw [if_pos hswallowed] at hk'
      exact .inr (.inl ⟨hup, hswallowed, hapart hswallowed, helement hswallowed, hk'⟩)
    · rw [if_neg hswallowed] at hk'
      by_cases hjoining : u ∈ q.joining p
      · rw [if_pos hjoining] at hk'
        exact .inr (.inr (.inl ⟨hup, hswallowed, hjoining, (hlive hjoining).1.2, hk'⟩))
      · rw [if_neg hjoining] at hk'
        exact .inr (.inr (.inr ⟨hup, hswallowed, hjoining, hk'⟩))

/-- **What is counted** when `p` is eliminated. -/
theorem stats_eliminate :
    (q.eliminate p).2.stats.absorbed = q.stats.absorbed + (q.swallowed p).length ∧
      (q.eliminate p).2.stats.merged = q.stats.merged + (q.joining p).length := by
  obtain ⟨hmake, hlive⟩ := making_absorbed h hg hp
  have hopened : (q.opened p).stats = (q.retire p (q.reach p)).stats := stats_modifyAll ..
  have hmade : (q.made p).stats =
      { (q.absorbed p).stats with
        merged := (q.absorbed p).stats.merged + (q.joining p).length } := by
    rw [made_eq, mergeTwins_eq hmake hlive (ascending_reach p)]
    rfl
  rw [eliminate_eq, stats_close, hmade]
  constructor
  · show (q.opened p).stats.absorbed + (q.deadElements p).length = _
    rw [hopened, swallowed, List.length_append, ← Nat.add_assoc]
    rfl
  · show (q.opened p).stats.merged + (q.joining p).length = _
    rw [hopened]
    rfl

end

end Quotient

end Unknowns
