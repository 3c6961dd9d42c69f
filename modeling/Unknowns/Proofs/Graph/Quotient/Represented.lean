import Unknowns.Proofs.Graph.Quotient.Degrees
import Unknowns.Proofs.Lists

/-!
# The representation between two eliminations

`Represented` says of the stored lists and numbers what has to hold whenever a pivot is
chosen: which lists mirror which, what the queue holds, what the weights count, and that
every node of the graph is in one place.  It holds of every sound state
(`Steady.represented`), and where it holds nothing below zero is computed
(`Represented.weight_le`, `weight_le_weightOf`).
-/

namespace Unknowns

namespace Quotient

variable {q : Quotient} {G : Adjacency}

/-- All variables, ascending. -/
def liveNodes (q : Quotient) : List Nat := q.variablesOf (List.range q.nodes.size)

theorem mem_liveNodes {v : Nat} : v ∈ q.liveNodes ↔ q.Live v := by
  rw [liveNodes, mem_variablesOf, List.mem_range]
  rfl

theorem nodup_liveNodes (q : Quotient) : q.liveNodes.Nodup := List.nodup_range.filter _

/-- What the lists, the queue and the weights say of one another. -/
structure Represented (q : Quotient) : Prop where
  /-- A variable lists others in ascending order, each once. -/
  vars_ascending : ∀ {v}, q.Live v → (q.node v).adjVars.Pairwise (· < ·)
  vars_live : ∀ {u v}, q.Live v → u ∈ (q.node v).adjVars → q.Live u
  vars_symm : ∀ {u v}, q.Live v → u ∈ (q.node v).adjVars → v ∈ (q.node u).adjVars
  vars_loopless : ∀ {v}, q.Live v → v ∉ (q.node v).adjVars
  /-- A variable lists the elements that list it. -/
  mem_elems_iff : ∀ {v e}, q.Live v → q.Element e →
    (e ∈ (q.node v).adjElems ↔ v ∈ (q.node e).elemVars)
  elems_nodup : ∀ {v}, q.Live v → (q.node v).adjElems.Nodup
  elems_element : ∀ {v e}, q.Live v → e ∈ (q.node v).adjElems → q.Element e
  list_nodup : ∀ {e}, q.Element e → (q.node e).elemVars.Nodup
  list_live : ∀ {e v}, q.Element e → v ∈ (q.node e).elemVars → q.Live v
  /-- Variables of one element do not list one another. -/
  apart : ∀ {e u v}, q.Element e → u ∈ (q.node e).elemVars → v ∈ (q.node e).elemVars →
    u ∉ (q.node v).adjVars
  /-- The queue holds each variable with its bound, and nothing else. -/
  queue_eq : q.queue = ascending (q.liveNodes.map fun v => ⟨(q.node v).degree, v⟩)
  weight_eq : ∀ {v}, q.Live v → (q.node v).weight = 1 + (q.node v).members.length
  liveWeight_eq : q.liveWeight = q.weightOf q.liveNodes
  /-- Each node is in the order, or is a variable, or is merged into one. -/
  partition : (q.order ++ q.liveNodes.flatMap q.group).Perm (List.range q.nodes.size)

theorem queue_eq_of_queued (h : q.Queued) :
    q.queue = ascending (q.liveNodes.map fun v => ⟨(q.node v).degree, v⟩) := by
  refine eq_of_mem_iff h.ascending (pairwise_ascending _) fun c => ?_
  rw [h.mem_iff, mem_ascending, List.mem_map]
  constructor
  · rintro ⟨hlive, hdegree⟩
    exact ⟨c.node, mem_liveNodes.2 hlive, congrArg (Candidate.mk · c.node) hdegree.symm⟩
  · rintro ⟨v, hv, rfl⟩
    exact ⟨mem_liveNodes.1 hv, rfl⟩

/-- **Every node is in one place.** -/
theorem Grouped.partition (h : q.Grouped) :
    (q.order ++ q.liveNodes.flatMap q.group).Perm (List.range q.nodes.size) := by
  have hnodup : (q.liveNodes.flatMap q.group).Nodup := by
    refine List.nodup_flatMap.2 ⟨fun v hv => h.group_nodup (mem_liveNodes.1 hv), ?_⟩
    refine q.nodup_liveNodes.imp_of_mem fun hu hv hne x hxu hxv => hne ?_
    exact h.group_apart (mem_liveNodes.1 hu) (mem_liveNodes.1 hv) hxu hxv
  have hmem : ∀ x, x ∈ q.liveNodes.flatMap q.group ↔ ∃ v, q.Live v ∧ x ∈ q.group v := fun x => by
    rw [List.mem_flatMap]
    exact exists_congr fun v => and_congr_left fun _ => mem_liveNodes
  refine (List.perm_ext_iff_of_nodup ?_ List.nodup_range).2 fun x => ?_
  · refine List.nodup_append.2 ⟨h.order_nodup, hnodup, fun x hx y hy hxy => ?_⟩
    obtain ⟨v, hv, hyv⟩ := (hmem y).1 hy
    exact h.order_apart hv hyv (hxy ▸ hx)
  · rw [List.mem_append, hmem, List.mem_range, h.mem_iff]

theorem Grouped.length_groups (h : q.Grouped) :
    (q.liveNodes.flatMap q.group).length = q.weightOf q.liveNodes := by
  rw [length_flatMap, weightOf]
  exact congrArg total (List.map_congr_left fun v hv => (h.weight (mem_liveNodes.1 hv)).symm)

/-- **A sound state represents its graph.** -/
theorem Steady.represented (h : q.Steady G) (hb : q.Bounded) : q.Represented where
  vars_ascending hv := (h.sound.linked.vars_ascending hv).imp Nat.compare_eq_lt.1
  vars_live := h.sound.linked.vars_live
  vars_symm := h.sound.linked.vars_symm
  vars_loopless := h.sound.linked.vars_loopless
  mem_elems_iff hv he := (h.sound.linked.mem_elems hv).trans (and_iff_right he)
  elems_nodup := h.sound.linked.elems_nodup
  elems_element := h.sound.linked.element
  list_nodup := h.sound.linked.list_nodup
  list_live := h.sound.linked.list_live
  apart := h.sound.linked.apart
  queue_eq := queue_eq_of_queued h.queued
  weight_eq hv := (h.sound.grouped.weight hv).trans (Nat.add_comm _ 1)
  liveWeight_eq := by
    have hlength := h.sound.grouped.partition.length_eq
    rw [List.length_append, List.length_range, h.sound.grouped.length_groups,
      ← hb.liveWeight_eq] at hlength
    omega
  partition := h.sound.grouped.partition

theorem weight_le_weightOf {vs : List Nat} {v : Nat} (hv : v ∈ vs) :
    (q.node v).weight ≤ q.weightOf vs :=
  weightOf_le_of_subset (q := q) (List.nodup_singleton v) fun _ hu => List.mem_singleton.1 hu ▸ hv

/-- **A variable has a weight, and no more than all have.** -/
theorem Represented.weight_le (h : q.Represented) {p : Nat} (hp : q.Live p) :
    1 ≤ (q.node p).weight ∧ (q.node p).weight ≤ q.liveWeight := by
  rw [h.liveWeight_eq]
  exact ⟨h.weight_eq hp ▸ Nat.le_add_right .., weight_le_weightOf (mem_liveNodes.2 hp)⟩

end Quotient

end Unknowns
