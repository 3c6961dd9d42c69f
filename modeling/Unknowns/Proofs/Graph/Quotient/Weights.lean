import Unknowns.Proofs.Graph.Quotient.Spared

/-!
# Weights of lists of variables

The weight of a list adds up over its parts, does not depend on the order, and
is at most that of a list with more variables.  Variables that are left and the
nodes eliminated before are no more than all nodes
(`Grouped.weightOf_add_length_order_le`).
-/

namespace Unknowns

theorem total_perm {ms ns : List Nat} (h : ms.Perm ns) : total ms = total ns := by
  induction h with
  | nil => rfl
  | cons m _ ih => rw [total_cons, total_cons, ih]
  | swap m n rest => simp only [total_cons, Nat.add_left_comm]
  | trans _ _ ih₁ ih₂ => exact ih₁.trans ih₂

theorem total_le_of_sublist {ms ns : List Nat} (h : ms.Sublist ns) : total ms ≤ total ns := by
  induction h with
  | slnil => exact Nat.le_refl _
  | cons n _ ih => exact Nat.le_trans ih (Nat.le_add_left _ _)
  | cons_cons n _ ih => exact Nat.add_le_add_left ih n

namespace Quotient

variable {q q' : Quotient} {vs ws : List Nat}

@[simp] theorem weightOf_nil : q.weightOf [] = 0 := rfl

@[simp] theorem weightOf_cons (v : Nat) (vs : List Nat) :
    q.weightOf (v :: vs) = (q.node v).weight + q.weightOf vs := rfl

@[simp] theorem weightOf_append (vs ws : List Nat) :
    q.weightOf (vs ++ ws) = q.weightOf vs + q.weightOf ws := by
  rw [weightOf, List.map_append, total_append, weightOf, weightOf]

theorem weightOf_perm (h : vs.Perm ws) : q.weightOf vs = q.weightOf ws := total_perm (h.map _)

/-- A list without repetitions weighs no more than one with all its variables. -/
theorem weightOf_le_of_subset (hn : vs.Nodup) (h : vs ⊆ ws) : q.weightOf vs ≤ q.weightOf ws := by
  obtain ⟨us, hperm, hsub⟩ := hn.subperm h
  rw [← weightOf_perm hperm]
  exact total_le_of_sublist (hsub.map _)

theorem weightOf_congr (h : ∀ v ∈ vs, (q'.node v).weight = (q.node v).weight) :
    q'.weightOf vs = q.weightOf vs := congrArg total (List.map_congr_left h)

theorem weightOf_flatMap (es : List Nat) (f : Nat → List Nat) :
    q.weightOf (es.flatMap f) = total (es.map fun e => q.weightOf (f e)) := by
  induction es with
  | nil => rfl
  | cons e es ih => rw [List.flatMap_cons, weightOf_append, ih, List.map_cons, total_cons]

/-- Without one of its variables a list lacks the weight of that one. -/
theorem weightOf_filter_ne {i : Nat} (hn : vs.Nodup) (hi : i ∈ vs) :
    q.weightOf (vs.filter (· ≠ i)) = q.weightOf vs - (q.node i).weight := by
  have hperm : vs.Perm (i :: vs.filter (· ≠ i)) := by
    have herase : vs.erase i = vs.filter (· ≠ i) := by
      rw [hn.erase_eq_filter]
      exact List.filter_congr fun v _ => by rw [decide_not, ← beq_eq_decide, bne]
    exact herase ▸ List.perm_cons_erase hi
  rw [weightOf_perm hperm, weightOf_cons, Nat.add_sub_cancel_left]

/-- **What is left and what is eliminated** are no more than all nodes. -/
theorem Grouped.weightOf_add_length_order_le (hg : q.Grouped) (hn : vs.Nodup)
    (hlive : ∀ v ∈ vs, q.Live v) : q.weightOf vs + q.order.length ≤ q.nodes.size := by
  have hapart : Disjoint (q.expand vs) q.order.toFinset := Finset.disjoint_left.2 fun x hx hxo => by
    obtain ⟨v, hv, hxv⟩ := mem_expand.1 hx
    exact hg.order_apart (hlive v hv) hxv (List.mem_toFinset.1 hxo)
  have hsub : q.expand vs ∪ q.order.toFinset ⊆ Finset.range q.nodes.size := by
    intro x hx
    refine Finset.mem_range.2 (hg.mem_iff.2 ?_)
    rcases Finset.mem_union.1 hx with hx | hx
    · obtain ⟨v, hv, hxv⟩ := mem_expand.1 hx
      exact Or.inr ⟨v, hlive v hv, hxv⟩
    · exact Or.inl (List.mem_toFinset.1 hx)
  have hcard := Finset.card_le_card hsub
  rwa [Finset.card_union_of_disjoint hapart, card_expand hg hn hlive,
    List.toFinset_card_of_nodup hg.order_nodup, Finset.card_range] at hcard

end Quotient

end Unknowns
