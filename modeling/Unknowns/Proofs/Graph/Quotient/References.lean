import Unknowns.Proofs.Graph.Quotient.Eliminate

/-!
# Merged and absorbed nodes refer to other nodes

A merged node refers to the variable that took it over, an absorbed element to a
newer element, which may be absorbed in turn (`Referenced`).  A variable may
still be merged later, but an absorbed element never becomes anything else.
-/

namespace Unknowns

namespace Quotient

variable {q : Quotient} {L : Nat → List Nat} {p : Nat} {clique : List Nat}

/-- The node is an element, be it needed or absorbed. -/
def Eliminated (q : Quotient) (e : Nat) : Prop := q.Element e ∨ ∃ e', (q.node e).kind = .absorbed e'

/-- Merged and absorbed nodes refer to other nodes, and absorbed ones to elements. -/
structure Referenced (q : Quotient) : Prop where
  merged : ∀ {v i}, (q.node v).kind = .merged i → i ≠ v ∧ i < q.nodes.size
  absorbed : ∀ {v e}, (q.node v).kind = .absorbed e → e ≠ v ∧ q.Eliminated e

theorem kind_opened_eq (h : q.Linked q.lists) (hp : q.Live p) (u : Nat) :
    ((q.opened p).node u).kind =
      if u = p then .element
      else if u ∈ (q.node p).adjElems then .absorbed p
      else (q.node u).kind := by
  rw [kind_opened h hp, node_retire_reach h hp]
  split
  · rfl
  · split <;> rfl

theorem Referenced.opened (hr : q.Referenced) (h : q.Linked q.lists) (hp : q.Live p) :
    (q.opened p).Referenced where
  merged {v i} hv := by
    rw [kind_opened_eq h hp] at hv
    rw [size_opened]
    split at hv
    · cases hv
    · split at hv
      · cases hv
      · exact hr.merged hv
  absorbed {v e} hv := by
    rw [kind_opened_eq h hp] at hv
    have hkept : ∀ {u}, q.Eliminated u → (q.opened p).Eliminated u := by
      intro u hu
      unfold Eliminated Element
      rw [kind_opened_eq h hp]
      split
      · exact Or.inl rfl
      · split
        · exact Or.inr ⟨p, rfl⟩
        · exact hu
    split at hv
    · cases hv
    · next hvp =>
      split at hv
      · obtain rfl := NodeKind.absorbed.inj hv
        exact ⟨fun hc => hvp hc.symm, Or.inl ((element_opened h hp).2 (Or.inl rfl))⟩
      · obtain ⟨hne, he⟩ := hr.absorbed hv
        exact ⟨hne, hkept he⟩

theorem kind_absorb {dead : List Nat} (h : q.Making L p clique) (hlive : ∀ v ∈ clique, q.Live v)
    (hd : q.Dead L p dead) (u : Nat) :
    ((q.absorb p clique dead).node u).kind =
      if u ∈ dead then .absorbed p else (q.node u).kind := by
  rw [node_absorb_dead h hlive hd]
  split
  · rfl
  · split <;> rfl

theorem Referenced.absorb {dead : List Nat} (hr : q.Referenced) (h : q.Making L p clique)
    (hlive : ∀ v ∈ clique, q.Live v) (hd : q.Dead L p dead) :
    (q.absorb p clique dead).Referenced := by
  have hkind := kind_absorb h hlive hd
  have hkept : ∀ {u}, q.Eliminated u → (q.absorb p clique dead).Eliminated u := by
    intro u hu
    unfold Eliminated Element
    rw [hkind]
    split
    · exact Or.inr ⟨p, rfl⟩
    · exact hu
  constructor
  · intro v i hv
    rw [hkind] at hv
    rw [size_absorb]
    split at hv
    · cases hv
    · exact hr.merged hv
  · intro v e hv
    rw [hkind] at hv
    split at hv
    · next hdead =>
      obtain rfl := NodeKind.absorbed.inj hv
      exact ⟨(hd.ne hdead).symm, hkept (Or.inl h.element)⟩
    · obtain ⟨hne, he⟩ := hr.absorbed hv
      exact ⟨hne, hkept he⟩

theorem Referenced.merge {i j : Nat} (hr : q.Referenced) (hm : q.Mergeable i j) :
    (q.merge i j).Referenced := by
  have hkept : ∀ {u}, q.Eliminated u → (q.merge i j).Eliminated u := by
    intro u hu
    have huj : u ≠ j := by
      rintro rfl
      rcases hu with hu | ⟨e, hu⟩
      · exact hm.live_right.ne_element hu rfl
      · cases hm.live_right.2.symm.trans hu
    unfold Eliminated Element
    rw [kind_merge hm, if_neg huj]
    exact hu
  constructor
  · intro v k hv
    rw [kind_merge hm] at hv
    rw [size_merge]
    split at hv
    · next hvj =>
      obtain rfl := NodeKind.merged.inj hv
      exact ⟨hvj ▸ hm.ne, hm.live_left.1⟩
    · exact hr.merged hv
  · intro v e hv
    rw [kind_merge hm] at hv
    split at hv
    · cases hv
    · obtain ⟨hne, he⟩ := hr.absorbed hv
      exact ⟨hne, hkept he⟩

theorem Referenced.close (hr : q.Referenced) (h : q.Making L p clique)
    (outside : Table Nat Nat) : (q.close p outside clique).Referenced := by
  constructor
  · intro v i hv
    rw [kind_close h] at hv
    rw [size_close]
    exact hr.merged hv
  · intro v e hv
    rw [kind_close h] at hv
    obtain ⟨hne, he⟩ := hr.absorbed hv
    refine ⟨hne, ?_⟩
    unfold Eliminated Element
    rw [kind_close h]
    exact he

/-- **References resolve at the end**, when no variables are left. -/
theorem Referenced.backReferencesResolve (hr : q.Referenced)
    (hnone : ∀ v, ¬ q.Live v) : q.backReferencesResolve = true := by
  rw [Quotient.backReferencesResolve, List.all_eq_true]
  rintro ⟨x, v⟩ hx
  obtain ⟨hlt, hget⟩ := List.mem_zipIdx' hx
  have hsize : v < q.nodes.size := by simpa using hlt
  have hnode : q.node v = x := by
    rw [node, Array.getD_eq_getD_getElem?, Array.getElem?_eq_getElem hsize, Option.getD_some, hget]
    rfl
  subst hnode
  show q.referenceResolves v (q.node v).kind = true
  cases hkind : (q.node v).kind with
  | «variable» => exact absurd ⟨hsize, hkind⟩ (hnone v)
  | element => rfl
  | merged i =>
    obtain ⟨hne, hi⟩ := hr.merged hkind
    have hnot : (q.node i).isVariable = false := by
      rw [← Bool.not_eq_true, isVariable_iff]
      exact fun hv => hnone i ⟨hi, hv⟩
    simp [referenceResolves, hne, hnot]
  | absorbed e =>
    obtain ⟨hne, he⟩ := hr.absorbed hkind
    rcases he with he | ⟨e', he⟩
    · have he : (q.node e).kind = .element := he
      simp [referenceResolves, hne, he]
    · simp [referenceResolves, hne, he]

end Quotient

end Unknowns
