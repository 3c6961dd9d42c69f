import Mathlib.Data.List.Nodup
import Mathlib.Data.List.Perm.Subperm
import Unknowns.Graph.Permutation
import Unknowns.Proofs.Outcomes

/-!
# Both directions of a permutation

A permutation of `n` nodes is sound when either direction undoes the other
(`Bijection`).  The check looks at one direction and the lengths only, which is enough
(`validate_eq_ok_iff`).  What is made from a list is sound, and a permutation is made
from just the lists that have every node once (`ofNewToOld_eq_ok_iff`,
`perm_range_iff_count`).

`label` and `node` are the two directions as total functions, for nodes and labels
that there are.
-/

namespace Unknowns

namespace Permutation

/-- The two directions have `n` entries each and undo one another. -/
structure Bijection (p : Permutation) (n : Nat) : Prop where
  length_old : p.oldToNew.length = n
  length_new : p.newToOld.length = n
  getElem?_iff : ∀ {i j : Nat}, p.oldToNew[i]? = some j ↔ p.newToOld[j]? = some i

/-- The new label of a node. -/
def label (p : Permutation) (old : Nat) : Nat := p.oldToNew.getD old 0

/-- The node that has a label. -/
def node (p : Permutation) (new : Nat) : Nat := p.newToOld.getD new 0

@[simp] theorem node_inverse (p : Permutation) : p.inverse.node = p.label := rfl

namespace Bijection

variable {p : Permutation} {n : Nat} (h : p.Bijection n)
include h

/-- **The inverse of a sound permutation** is sound. -/
theorem inverse : p.inverse.Bijection n :=
  ⟨h.length_new, h.length_old, h.getElem?_iff.symm⟩

theorem size_eq : p.size = n := h.length_old

theorem getElem?_label {i : Nat} (hi : i < n) : p.oldToNew[i]? = some (p.label i) := by
  rw [label, List.getD_eq_getElem?_getD, List.getElem?_eq_getElem (h.length_old ▸ hi),
    Option.getD_some]

theorem getElem?_node {j : Nat} (hj : j < n) : p.newToOld[j]? = some (p.node j) :=
  h.inverse.getElem?_label hj

theorem newIndex {i : Nat} (hi : i < n) : p.newIndex i = .ok (p.label i) := by
  rw [Permutation.newIndex, h.getElem?_label hi]

theorem oldIndex {j : Nat} (hj : j < n) : p.oldIndex j = .ok (p.node j) := by
  rw [Permutation.oldIndex, h.getElem?_node hj]

theorem label_lt {i : Nat} (hi : i < n) : p.label i < n := by
  obtain ⟨hlt, -⟩ := List.getElem?_eq_some_iff.1 (h.getElem?_iff.1 (h.getElem?_label hi))
  rwa [h.length_new] at hlt

theorem node_lt {j : Nat} (hj : j < n) : p.node j < n := h.inverse.label_lt hj

/-- **A node is found again under its label.** -/
theorem node_label {i : Nat} (hi : i < n) : p.node (p.label i) = i := by
  have hback := h.getElem?_iff.1 (h.getElem?_label hi)
  rw [h.getElem?_node (h.label_lt hi)] at hback
  exact Option.some.inj hback

theorem label_node {j : Nat} (hj : j < n) : p.label (p.node j) = j := h.inverse.node_label hj

/-- **No two nodes have the same label.** -/
theorem label_inj {i j : Nat} (hi : i < n) (hj : j < n) (he : p.label i = p.label j) : i = j := by
  rw [← h.node_label hi, he, h.node_label hj]

/-- **A sound permutation passes its check.** -/
theorem validate : p.validate = .ok () := by
  have hfind : p.oldToNew.zipIdx.find? (fun e => p.newToOld[e.1]? ≠ some e.2) = none := by
    rw [List.find?_eq_none]
    intro e he
    have hget : p.oldToNew[e.2]? = some e.1 := List.mem_zipIdx_iff_getElem?.1 he
    simpa using h.getElem?_iff.1 hget
  rw [Permutation.validate, if_neg (not_not.2 (h.length_old.trans h.length_new.symm)), hfind]

end Bijection

/-- **What the check accepts.**  It follows each old label to a new one and back; that every new
label is met is a matter of their number. -/
theorem validate_eq_ok_iff {p : Permutation} : p.validate = .ok () ↔ p.Bijection p.size := by
  refine ⟨fun h => ?_, Bijection.validate⟩
  unfold Permutation.validate at h
  split at h
  · cases h
  · next hlength =>
    replace hlength : p.newToOld.length = p.size := (not_not.1 hlength).symm
    split at h
    · cases h
    · next hfind =>
      have hback : ∀ {i j : Nat}, p.oldToNew[i]? = some j → p.newToOld[j]? = some i := by
        intro i j hij
        simpa using List.find?_eq_none.1 hfind (j, i) (List.mem_zipIdx_iff_getElem?.2 hij)
      have hlt : ∀ j ∈ p.oldToNew, j ∈ List.range p.size := by
        intro j hj
        obtain ⟨i, hi⟩ := List.mem_iff_getElem?.1 hj
        obtain ⟨hlt, -⟩ := List.getElem?_eq_some_iff.1 (hback hi)
        exact List.mem_range.2 (hlength ▸ hlt)
      have hnodup : p.oldToNew.Nodup := by
        refine List.nodup_iff_injective_get.2 fun i i' he => Fin.ext ?_
        have hi := hback (List.getElem?_eq_getElem i.isLt)
        have hi' := hback (List.getElem?_eq_getElem i'.isLt)
        have he' : p.oldToNew[(i : Nat)] = p.oldToNew[(i' : Nat)] := he
        rw [he'] at hi
        exact Option.some.inj (hi.symm.trans hi')
      -- as many labels as nodes, so each of them is met
      have hperm : p.oldToNew.Perm (List.range p.size) :=
        (List.subperm_of_subset hnodup hlt).perm_of_length_le (by simp [size])
      refine ⟨rfl, hlength, fun {i j} => ⟨hback, fun hj => ?_⟩⟩
      obtain ⟨hjlt, -⟩ := List.getElem?_eq_some_iff.1 hj
      have hmet : j ∈ p.oldToNew := hperm.mem_iff.2 (List.mem_range.2 (hlength ▸ hjlt))
      obtain ⟨i', hi'⟩ := List.mem_iff_getElem?.1 hmet
      obtain rfl := Option.some.inj (hj.symm.trans (hback hi'))
      exact hi'

/-! ### Permutations from an order -/

/-- **What passes the check of an order**: entries below `n` that occur once, and not before. -/
theorem checkOrder_eq_ok_iff {n : Nat} {seen order : List Nat} :
    checkOrder n seen order = .ok () ↔
      (∀ x ∈ order, x < n) ∧ order.Nodup ∧ ∀ x ∈ order, x ∉ seen := by
  induction order generalizing seen with
  | nil => simp [checkOrder]
  | cons old rest ih =>
    rw [checkOrder, List.forall_mem_cons, List.nodup_cons, List.forall_mem_cons]
    split
    · next hge => simp [Nat.not_lt.2 hge]
    · next hlt =>
      split
      · next hseen => simp [hseen]
      · next hseen =>
        rw [ih]
        constructor
        · rintro ⟨hrest, hnodup, hfresh⟩
          exact ⟨⟨Nat.lt_of_not_le hlt, hrest⟩,
            ⟨fun hmem => hfresh old hmem (List.mem_cons_self ..), hnodup⟩, hseen,
            fun x hx hxs => hfresh x hx (List.mem_cons_of_mem _ hxs)⟩
        · rintro ⟨⟨-, hrest⟩, ⟨hnot, hnodup⟩, -, hfresh⟩
          refine ⟨hrest, hnodup, fun x hx hxs => ?_⟩
          rcases List.mem_cons.1 hxs with rfl | hxs
          · exact hnot hx
          · exact hfresh x hx hxs

/-- **The nodes in some order**, and each of them once. -/
theorem perm_range_iff_count {order : List Nat} :
    order.Perm (List.range order.length) ↔ ∀ i < order.length, order.count i = 1 := by
  constructor
  · intro h i hi
    rw [h.count_eq]
    exact List.count_eq_one_of_mem List.nodup_range (List.mem_range.2 hi)
  · intro h
    have hsubset : List.range order.length ⊆ order := fun i hi =>
      List.count_pos_iff.1 (by rw [h i (List.mem_range.1 hi)]; exact Nat.one_pos)
    exact ((List.subperm_of_subset List.nodup_range hsubset).perm_of_length_le (by simp)).symm

/-- The places of `n` nodes in an order, and the order. -/
def ofOrder (n : Nat) (order : List Nat) : Permutation := ⟨(List.range n).map order.idxOf, order⟩

/-- **An order of all nodes** and the places of the nodes in it undo one another. -/
theorem bijection_ofOrder {n : Nat} {order : List Nat} (h : order.Perm (List.range n)) :
    (ofOrder n order).Bijection n where
  length_old := by rw [ofOrder, List.length_map, List.length_range]
  length_new := by rw [ofOrder, h.length_eq, List.length_range]
  getElem?_iff {i j} := by
    have hmem : ∀ {x}, x ∈ order ↔ x < n := fun {x} => h.mem_iff.trans List.mem_range
    have hnodup : order.Nodup := h.nodup_iff.2 List.nodup_range
    rw [ofOrder, List.getElem?_map]
    constructor
    · intro hi
      obtain ⟨x, hx, hxj⟩ := Option.map_eq_some_iff.1 hi
      obtain ⟨hlt, hxi⟩ := List.getElem?_eq_some_iff.1 hx
      rw [List.length_range] at hlt
      rw [List.getElem_range] at hxi
      subst hxi hxj
      exact List.getElem?_idxOf (hmem.2 hlt)
    · intro hj
      obtain ⟨hlt, hget⟩ := List.getElem?_eq_some_iff.1 hj
      have hi : i < n := hmem.1 (hget ▸ List.getElem_mem hlt)
      rw [List.getElem?_range hi, Option.map_some, ← hget, hnodup.idxOf_getElem]

/-- **Which lists make a permutation**: the orders of all nodes. -/
theorem ofNewToOld_eq_ok_iff {order : List Nat} {p : Permutation} :
    ofNewToOld order = .ok p ↔
      order.Perm (List.range order.length) ∧ p = ofOrder order.length order := by
  rw [ofNewToOld, bind_eq_ok_iff]
  constructor
  · rintro ⟨_, hcheck, hp⟩
    obtain ⟨hlt, hnodup, -⟩ := checkOrder_eq_ok_iff.1 hcheck
    have hsubset : order ⊆ List.range order.length := fun x hx => List.mem_range.2 (hlt x hx)
    exact ⟨(List.subperm_of_subset hnodup hsubset).perm_of_length_le (by simp),
      (Except.ok.inj hp).symm⟩
  · rintro ⟨hperm, rfl⟩
    refine ⟨(), checkOrder_eq_ok_iff.2 ⟨fun x hx => ?_, ?_, fun _ _ => List.not_mem_nil⟩, rfl⟩
    · exact List.mem_range.1 (hperm.mem_iff.1 hx)
    · exact hperm.nodup_iff.2 List.nodup_range

/-- **Every order of all nodes makes a permutation.** -/
theorem ofNewToOld_of_perm {n : Nat} {order : List Nat} (h : order.Perm (List.range n)) :
    ofNewToOld order = .ok (ofOrder n order) := by
  have hlength : order.length = n := by rw [h.length_eq, List.length_range]
  subst hlength
  exact ofNewToOld_eq_ok_iff.2 ⟨h, rfl⟩

end Permutation

end Unknowns
