import Mathlib.Data.List.OfFn
import Unknowns.Proofs.Graph.Stored

/-!
# Permutations act on graphs

The sound permutations of `n` nodes are the tables of the bijections of these nodes
(`bijection_iff_exists_equiv`).  They can be done one after the other (`andThen`), and
to relabel a graph by one and then by another is to relabel it by both at once
(`NormalRows.relabelledRows_andThen`), as stored.  `permute_laws` says all of this of
the arrays as they are.
-/

namespace Unknowns

namespace Permutation

/-- The tables of a bijection and of its inverse. -/
def ofEquiv {n : Nat} (e : Equiv.Perm (Fin n)) : Permutation :=
  ⟨List.ofFn fun i => (e i).val, List.ofFn fun j => (e.symm j).val⟩

/-- One relabelling and then another. -/
def andThen (p q : Permutation) : Permutation := ⟨p.oldToNew.map q.label, q.newToOld.map p.node⟩

variable {p q : Permutation} {n : Nat}

@[simp] theorem inverse_oldToNew (p : Permutation) : p.inverse.oldToNew = p.newToOld := rfl

theorem bijection_ofEquiv (e : Equiv.Perm (Fin n)) : (ofEquiv e).Bijection n where
  length_old := List.length_ofFn
  length_new := List.length_ofFn
  getElem?_iff {i j} := by
    rw [ofEquiv, List.getElem?_ofFn, List.getElem?_ofFn, Option.dite_none_right_eq_some,
      Option.dite_none_right_eq_some]
    constructor
    · rintro ⟨hi, hj⟩
      obtain rfl := Option.some.inj hj
      exact ⟨(e ⟨i, hi⟩).isLt, by rw [Fin.eta, Equiv.symm_apply_apply]⟩
    · rintro ⟨hj, hi⟩
      obtain rfl := Option.some.inj hi
      exact ⟨(e.symm ⟨j, hj⟩).isLt, by rw [Fin.eta, Equiv.apply_symm_apply]⟩

namespace Bijection

/-- The bijection that a sound permutation is the table of. -/
def equiv (h : p.Bijection n) : Equiv.Perm (Fin n) where
  toFun i := ⟨p.label i, h.label_lt i.isLt⟩
  invFun j := ⟨p.node j, h.node_lt j.isLt⟩
  left_inv i := Fin.ext (h.node_label i.isLt)
  right_inv j := Fin.ext (h.label_node j.isLt)

/-- A sound permutation lists its labels. -/
theorem oldToNew_eq (h : p.Bijection n) : p.oldToNew = List.ofFn fun i : Fin n => p.label i := by
  refine List.ext_getElem (by rw [h.length_old, List.length_ofFn]) fun i hi hi' => ?_
  rw [List.getElem_ofFn]
  exact Option.some.inj ((List.getElem?_eq_getElem hi).symm.trans
    (h.getElem?_label (h.length_old ▸ hi)))

theorem eq_ofEquiv (h : p.Bijection n) : p = ofEquiv h.equiv := by
  have hold := h.oldToNew_eq
  have hnew := h.inverse.oldToNew_eq
  cases p
  exact congrArg₂ Permutation.mk hold hnew

end Bijection

/-- **Sound permutations are the bijections of the nodes**, each with its inverse. -/
theorem bijection_iff_exists_equiv :
    p.Bijection n ↔ ∃ e : Equiv.Perm (Fin n), p = ofEquiv e := by
  constructor
  · exact fun h => ⟨h.equiv, h.eq_ofEquiv⟩
  · rintro ⟨e, rfl⟩
    exact bijection_ofEquiv e

/-- **The check accepts the tables of a bijection** and its inverse, and no other arrays. -/
theorem validate_eq_ok_iff_exists_equiv :
    p.validate = .ok () ↔ ∃ e : Equiv.Perm (Fin p.size),
      p.oldToNew = List.ofFn (fun i => (e i).val) ∧ p.newToOld = List.ofFn fun j => (e.symm j).val := by
  rw [validate_eq_ok_iff, bijection_iff_exists_equiv]
  exact exists_congr fun e => by rw [ofEquiv, ← Permutation.mk.injEq]

/-! ### From a list -/

theorem exists_ofNewToOld_iff {order : List Nat} :
    (∃ p, ofNewToOld order = .ok p) ↔ ∀ i < order.length, order.count i = 1 := by
  rw [← perm_range_iff_count]
  simp only [ofNewToOld_eq_ok_iff, exists_and_left, exists_eq, and_true]

theorem exists_ofOldToNew_iff {labels : List Nat} :
    (∃ p, ofOldToNew labels = .ok p) ↔ ∀ i < labels.length, labels.count i = 1 := by
  rw [← exists_ofNewToOld_iff]
  simp only [ofOldToNew, map_eq_ok_iff]
  exact ⟨fun ⟨_, p, hp, _⟩ => ⟨p, hp⟩, fun ⟨p, hp⟩ => ⟨_, p, hp, rfl⟩⟩

/-- **What a list makes** keeps the list as one direction, and the other undoes it. -/
theorem bijection_of_ofNewToOld {order : List Nat} (h : ofNewToOld order = .ok p) :
    p.newToOld = order ∧ p.Bijection order.length := by
  obtain ⟨hperm, rfl⟩ := ofNewToOld_eq_ok_iff.1 h
  exact ⟨rfl, bijection_ofOrder hperm⟩

theorem bijection_of_ofOldToNew {labels : List Nat} (h : ofOldToNew labels = .ok p) :
    p.oldToNew = labels ∧ p.Bijection labels.length := by
  obtain ⟨p', hp', rfl⟩ := map_eq_ok_iff.1 h
  obtain ⟨hlabels, hp⟩ := bijection_of_ofNewToOld hp'
  exact ⟨hlabels, hp.inverse⟩

/-! ### One after the other -/

theorem newIndex_andThen (p q : Permutation) (hp : p.Bijection n) (hq : q.Bijection n) (i : Nat) :
    (p.andThen q).newIndex i = p.newIndex i >>= q.newIndex := by
  rw [newIndex, newIndex, andThen, List.getElem?_map]
  cases hi : p.oldToNew[i]? with
  | none => rfl
  | some j =>
    obtain ⟨hlt, -⟩ := List.getElem?_eq_some_iff.1 (hp.getElem?_iff.1 hi)
    exact (hq.newIndex (hp.length_new ▸ hlt)).symm

namespace Bijection

theorem node_andThen (p : Permutation) (hq : q.Bijection n) {k : Nat} (hk : k < n) :
    (p.andThen q).node k = p.node (q.node k) := by
  rw [node, Permutation.andThen, List.getD_eq_getElem?_getD, List.getElem?_map,
    hq.getElem?_node hk]
  rfl

variable (hp : p.Bijection n) (hq : q.Bijection n)
include hp hq

theorem andThen_eq_ofEquiv : p.andThen q = ofEquiv (hp.equiv.trans hq.equiv) := by
  rw [Permutation.andThen, hp.oldToNew_eq, List.map_ofFn, ← inverse_oldToNew q,
    hq.inverse.oldToNew_eq, List.map_ofFn]
  rfl

/-- **Two sound permutations one after the other** are a sound one. -/
theorem andThen : (p.andThen q).Bijection n := hp.andThen_eq_ofEquiv hq ▸ bijection_ofEquiv _

end Bijection

end Permutation

namespace Csr

open Permutation

variable {rows : List (List Nat)} {p q : Permutation}

/-- **Relabelling twice is relabelling once**, to the same rows in the same order. -/
theorem NormalRows.relabelledRows_andThen (h : NormalRows rows) (hp : p.Bijection rows.length)
    (hq : q.Bijection rows.length) :
    Csr.relabelledRows (Csr.relabelledRows rows p) q = Csr.relabelledRows rows (p.andThen q) := by
  have hmid := h.relabelledRows hp
  have hq' : q.Bijection (Csr.relabelledRows rows p).length := by rwa [length_relabelledRows]
  refine (hmid.relabelledRows hq').ext (h.relabelledRows (hp.andThen hq)) (by simp) fun i j => ?_
  rw [hmid.mem_relabelledRows hq', h.mem_relabelledRows hp, h.mem_relabelledRows (hp.andThen hq),
    length_relabelledRows]
  refine and_congr_right fun hi => and_congr_right fun hj => ?_
  rw [hq.node_andThen p hi, hq.node_andThen p hj]
  exact ⟨fun hm => hm.2.2, fun hm => ⟨hq.node_lt hi, hq.node_lt hj, hm⟩⟩

/-- **Permutations, and what they do to a graph.**

* The lists that make a permutation, in either direction, are those that have every number below
  their length once; each is kept as the direction it is, and the result is sound.
* Whatever pair of arrays there is, the check accepts it just when it holds a bijection of its
  indices and the inverse.
* A valid graph can be relabelled by a sound permutation of its nodes.  The result is valid, it joins
  the new labels of just the nodes that were joined, relabelling it again is relabelling once by both
  permutations, and by the inverse it is the first graph again. -/
theorem permute_laws :
    (∀ order, (∃ p, ofNewToOld order = .ok p) ↔ ∀ i < order.length, order.count i = 1) ∧
    (∀ order p, ofNewToOld order = .ok p → p.newToOld = order ∧ p.validate = .ok ()) ∧
    (∀ labels, (∃ p, ofOldToNew labels = .ok p) ↔ ∀ i < labels.length, labels.count i = 1) ∧
    (∀ labels p, ofOldToNew labels = .ok p → p.oldToNew = labels ∧ p.validate = .ok ()) ∧
    (∀ p : Permutation, p.validate = .ok () ↔ ∃ e : Equiv.Perm (Fin p.size),
      p.oldToNew = List.ofFn (fun i => (e i).val) ∧
        p.newToOld = List.ofFn fun j => (e.symm j).val) ∧
    ∀ (g : Csr) (p q : Permutation), g.validate = .ok () → p.validate = .ok () →
      q.validate = .ok () → p.size = g.numNodes → q.size = g.numNodes →
      (p.andThen q).validate = .ok () ∧
      (∀ i, (p.andThen q).newIndex i = p.newIndex i >>= q.newIndex) ∧
      ∃ g', g.permute p = .ok g' ∧ g'.validate = .ok () ∧ g'.numNodes = g.numNodes ∧
        (∀ i < g.numNodes, ∀ j < g.numNodes, ∃ a b, p.newIndex i = .ok a ∧ p.newIndex j = .ok b ∧
          (g'.Lists a b ↔ g.Lists i j)) ∧
        g'.permute q = g.permute (p.andThen q) ∧ g'.permute p.inverse = .ok g := by
  refine ⟨fun order => exists_ofNewToOld_iff, fun order p h => ?_,
    fun labels => exists_ofOldToNew_iff, fun labels p h => ?_,
    fun p => validate_eq_ok_iff_exists_equiv, fun g p q hg hp hq hpsize hqsize => ?_⟩
  · exact ⟨(bijection_of_ofNewToOld h).1, (bijection_of_ofNewToOld h).2.validate⟩
  · exact ⟨(bijection_of_ofOldToNew h).1, (bijection_of_ofOldToNew h).2.validate⟩
  · obtain ⟨rows, rfl, h⟩ := validate_eq_ok_iff.1 hg
    rw [numNodes_ofRows] at hpsize hqsize ⊢
    replace hp : p.Bijection rows.length := hpsize ▸ Permutation.validate_eq_ok_iff.1 hp
    replace hq : q.Bijection rows.length := hqsize ▸ Permutation.validate_eq_ok_iff.1 hq
    have hq' : q.Bijection (relabelledRows rows p).length := by rwa [length_relabelledRows]
    refine ⟨(hp.andThen hq).validate, newIndex_andThen p q hp hq, _, h.permute hp,
      (h.relabelledRows hp).validate, by simp, fun i hi j hj => ?_, ?_, h.permute_inverse hp⟩
    · refine ⟨_, _, hp.newIndex hi, hp.newIndex hj, ?_⟩
      rw [lists_ofRows, lists_ofRows]
      exact h.label_mem_relabelledRows hp hi hj
    · rw [(h.relabelledRows hp).permute hq', h.permute (hp.andThen hq),
        h.relabelledRows_andThen hp hq]

/-- A path of three nodes is turned, two of its nodes are exchanged, and it is turned back. -/
theorem permute_laws_path : ∃ turn swap : Permutation, ∃ path turned : Csr,
    ofNewToOld [1, 2, 0] = .ok turn ∧ ofOldToNew [1, 0, 2] = .ok swap ∧
    path = ⟨[0, 1, 3, 4], [1, 0, 2, 1]⟩ ∧ path.permute turn = .ok turned ∧
    turned.validate = .ok () ∧ turned.Lists 2 0 ∧
    turned.permute swap = path.permute (turn.andThen swap) ∧
    turned.permute turn.inverse = .ok path := by
  obtain ⟨-, hmade, -, hlabels, -, hlaws⟩ := permute_laws
  have hturn : ofNewToOld [1, 2, 0] = .ok ⟨[2, 0, 1], [1, 2, 0]⟩ := rfl
  have hswap : ofOldToNew [1, 0, 2] = .ok ⟨[1, 0, 2], [1, 0, 2]⟩ := rfl
  have hpath : (⟨[0, 1, 3, 4], [1, 0, 2, 1]⟩ : Csr).validate = .ok () := by decide
  obtain ⟨-, -, turned, hturned, hvalid, -, hlists, htwice, hback⟩ :=
    hlaws _ _ _ hpath (hmade _ _ hturn).2 (hlabels _ _ hswap).2 rfl rfl
  refine ⟨_, _, _, turned, hturn, hswap, rfl, hturned, hvalid, ?_, htwice, hback⟩
  obtain ⟨a, b, ha, hb, hiff⟩ := hlists 0 (by decide) 1 (by decide)
  obtain rfl : 2 = a := Except.ok.inj ha
  obtain rfl : 0 = b := Except.ok.inj hb
  exact hiff.2 ⟨0, 1, 0, rfl, rfl, Nat.le_refl 0, Nat.one_pos, rfl⟩

end Csr

end Unknowns
