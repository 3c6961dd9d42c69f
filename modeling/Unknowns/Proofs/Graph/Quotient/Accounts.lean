import Mathlib.Logic.Function.Iterate
import Unknowns.Proofs.Graph.Quotient.Kinds

/-!
# The accounts of an elimination

The counters of an ordering can be read off the kinds of the nodes, and the references
between nodes lead somewhere.  `Accounted q created` says so, where `created` are the
pivots so far in the order in which they became elements: absorbed elements refer to ones
created later, and merged nodes to smaller ones.  An elimination keeps the accounts with
its pivot added (`Accounted.eliminate`), so a run does (`Accounted.runs`).

When no variable is left, pivots and merged nodes are all nodes (`pivots_add_merged`), and
whoever follows the references from any node arrives at an element (`exists_element`).
-/

namespace Unknowns

namespace NodeKind

def isElement (k : NodeKind) : Bool := k = .element

def isAbsorbed : NodeKind → Bool
  | absorbed _ => true
  | _ => false

def isMerged : NodeKind → Bool
  | merged _ => true
  | _ => false

end NodeKind

namespace Quotient

variable {q q' : Quotient} {p : Nat} {created : List Nat} {G : Adjacency}

/-- The nodes of some kinds. -/
def ofKind (q : Quotient) (P : NodeKind → Bool) : Finset Nat :=
  (Finset.range q.nodes.size).filter fun v => P (q.node v).kind

/-- What the node has become part of, or itself. -/
def referent (q : Quotient) (v : Nat) : Nat :=
  match (q.node v).kind with
  | .absorbed e => e
  | .merged i => i
  | _ => v

theorem mem_ofKind {P : NodeKind → Bool} (hP : P .variable = false) {v : Nat} :
    v ∈ q.ofKind P ↔ P (q.node v).kind = true := by
  rw [ofKind, Finset.mem_filter, Finset.mem_range]
  refine and_iff_right_of_imp fun hv => lt_size_of_kind_ne fun hkind => ?_
  rw [hkind, hP] at hv
  exact Bool.false_ne_true hv

theorem isAbsorbed_iff {k : NodeKind} : k.isAbsorbed = true ↔ ∃ e, k = .absorbed e := by
  cases k <;> simp [NodeKind.isAbsorbed]

theorem isMerged_iff {k : NodeKind} : k.isMerged = true ↔ ∃ i, k = .merged i := by
  cases k <;> simp [NodeKind.isMerged]

/-- The counters count the nodes of each kind, and references lead to later elements and to smaller
nodes. -/
structure Accounted (q : Quotient) (created : List Nat) : Prop where
  created_nodup : created.Nodup
  mem_created : ∀ {v}, v ∈ created ↔ q.Eliminated v
  absorbed_later : ∀ {v e}, (q.node v).kind = .absorbed e →
    e ∈ created ∧ created.idxOf v < created.idxOf e
  merged_lt : ∀ {v i}, (q.node v).kind = .merged i → i < v
  pivots_eq : q.stats.pivots = created.length
  merged_eq : q.stats.merged = (q.ofKind NodeKind.isMerged).card
  absorbed_eq : q.stats.absorbed = (q.ofKind NodeKind.isAbsorbed).card

theorem Live.not_eliminated {v : Nat} (hv : q.Live v) : ¬ q.Eliminated v := by
  rintro (he | ⟨e, he⟩)
  · exact hv.ne_element he rfl
  · cases hv.2.symm.trans he

/-! ### One elimination -/

section
variable (h : q.Linked q.lists) (hg : q.Grouped) (hp : q.Live p)
include h hg hp

theorem eliminated_eliminate {v : Nat} :
    (q.eliminate p).2.Eliminated v ↔ q.Eliminated v ∨ v = p := by
  unfold Eliminated Element
  obtain ⟨hvp, -, -, hk, hk'⟩ | ⟨hvp, -, -, hk, hk'⟩ | ⟨hvp, -, -, hk, hk'⟩ | ⟨hvp, -, -, hk'⟩ :=
    kind_eliminate_cases h hg hp v
  · exact iff_of_true (.inl hk') (.inr hvp)
  · exact iff_of_true (.inr ⟨p, hk'⟩) (.inl (.inl hk))
  · simp [hvp, hk, hk']
  · simp [hvp, hk']

/-- **The merged nodes** are those of before and the variables that join a twin. -/
theorem ofKind_isMerged_eliminate :
    (q.eliminate p).2.ofKind NodeKind.isMerged =
      q.ofKind NodeKind.isMerged ∪ (q.joining p).toFinset := by
  ext v
  rw [Finset.mem_union, mem_ofKind rfl, mem_ofKind rfl, List.mem_toFinset]
  obtain ⟨-, -, hj, hk, hk'⟩ | ⟨-, -, hj, hk, hk'⟩ | ⟨-, -, hj, hk, hk'⟩ | ⟨-, -, hj, hk'⟩ :=
    kind_eliminate_cases h hg hp v
  · simp [hj, hk, hk', NodeKind.isMerged]
  · simp [hj, hk, hk', NodeKind.isMerged]
  · simp [hj, hk', NodeKind.isMerged]
  · simp [hj, hk']

/-- **The absorbed elements** are those of before and the elements that are swallowed. -/
theorem ofKind_isAbsorbed_eliminate :
    (q.eliminate p).2.ofKind NodeKind.isAbsorbed =
      q.ofKind NodeKind.isAbsorbed ∪ (q.swallowed p).toFinset := by
  ext v
  rw [Finset.mem_union, mem_ofKind rfl, mem_ofKind rfl, List.mem_toFinset]
  obtain ⟨-, hs, -, hk, hk'⟩ | ⟨-, hs, -, hk, hk'⟩ | ⟨-, hs, -, hk, hk'⟩ | ⟨-, hs, -, hk'⟩ :=
    kind_eliminate_cases h hg hp v
  · simp [hs, hk, hk', NodeKind.isAbsorbed]
  · simp [hs, hk', NodeKind.isAbsorbed]
  · simp [hs, hk, hk', NodeKind.isAbsorbed]
  · simp [hs, hk']

/-- **An elimination keeps the accounts**, with its pivot as the newest element. -/
theorem Accounted.eliminate (ha : q.Accounted created) :
    (q.eliminate p).2.Accounted (created ++ [p]) := by
  have hnot : p ∉ created := fun hm => hp.not_eliminated (ha.mem_created.1 hm)
  have hold : ∀ {v}, v ∈ created → (created ++ [p]).idxOf v = created.idxOf v := fun hv =>
    List.idxOf_append_of_mem hv
  have hnew : (created ++ [p]).idxOf p = created.length := by
    rw [List.idxOf_append_of_notMem hnot, List.idxOf_cons_self, Nat.add_zero]
  obtain ⟨habsorbed, hmerged⟩ := stats_eliminate h hg hp
  refine ⟨?_, fun {v} => ?_, fun {v e} hv => ?_, fun {v i} hv => ?_, ?_, ?_, ?_⟩
  · exact List.nodup_append.2 ⟨ha.created_nodup, List.nodup_singleton p, fun u hu v hv huv =>
      hnot (List.mem_singleton.1 hv ▸ huv ▸ hu)⟩
  · rw [List.mem_append, List.mem_singleton, eliminated_eliminate h hg hp, ha.mem_created]
  · rw [kind_eliminate h hg hp] at hv
    split_ifs at hv with hvp hswallowed hjoining
    · obtain rfl := NodeKind.absorbed.inj hv
      have hmem := ha.mem_created.2 (.inl (element_of_mem_swallowed h hg hp hswallowed))
      rw [hold hmem, hnew]
      exact ⟨List.mem_append_right _ (List.mem_singleton_self _), List.idxOf_lt_length_iff.2 hmem⟩
    · have hmem := ha.mem_created.2 (.inr ⟨e, hv⟩)
      obtain ⟨he, hlt⟩ := ha.absorbed_later hv
      rw [hold hmem, hold he]
      exact ⟨List.mem_append_left _ he, hlt⟩
  · rw [kind_eliminate h hg hp] at hv
    split_ifs at hv with hvp hswallowed hjoining
    · obtain rfl := NodeKind.merged.inj hv
      exact leader_lt_of_mem_joining hjoining
    · exact ha.merged_lt hv
  · rw [(counts_eliminate p).2, ha.pivots_eq, List.length_append, List.length_singleton]
  · have hapart : Disjoint (q.ofKind NodeKind.isMerged) (q.joining p).toFinset :=
      Finset.disjoint_left.2 fun v hv hj => by
        rw [mem_ofKind rfl, (live_of_mem_joining h hp (List.mem_toFinset.1 hj)).1.2] at hv
        exact Bool.false_ne_true hv
    rw [hmerged, ha.merged_eq, ofKind_isMerged_eliminate h hg hp,
      Finset.card_union_of_disjoint hapart, List.toFinset_card_of_nodup nodup_joining]
  · have hapart : Disjoint (q.ofKind NodeKind.isAbsorbed) (q.swallowed p).toFinset :=
      Finset.disjoint_left.2 fun v hv he => by
        have helement := element_of_mem_swallowed h hg hp (List.mem_toFinset.1 he)
        rw [mem_ofKind rfl, show (q.node v).kind = .element from helement] at hv
        exact Bool.false_ne_true hv
    rw [habsorbed, ha.absorbed_eq, ofKind_isAbsorbed_eliminate h hg hp,
      Finset.card_union_of_disjoint hapart,
      List.toFinset_card_of_nodup (nodup_swallowed h hg hp)]

end

/-! ### Runs -/

theorem Accounted.countPass (ha : q.Accounted created) : q.countPass.Accounted created :=
  ⟨ha.created_nodup, ha.mem_created, ha.absorbed_later, ha.merged_lt, ha.pivots_eq, ha.merged_eq,
    ha.absorbed_eq⟩

/-- **A run keeps the accounts**, with its pivots as the newest elements. -/
theorem Accounted.runs {es : List (Quotient × Nat)} (ha : q.Accounted created) (h : q.Steady G)
    (hr : Runs q es q') : q'.Accounted (created ++ es.map (·.2)) := by
  induction hr generalizing created with
  | refl q =>
    rw [List.map_nil, List.append_nil]
    exact ha
  | count _ ih => exact ih ha.countPass h.countPass
  | step hp _ ih =>
    rw [List.map_cons, List.append_cons]
    exact ih (ha.eliminate h.sound.linked h.sound.grouped hp) (h.eliminate hp)

/-! ### The end -/

/-- **The pivots** are the elements, be they needed or absorbed. -/
theorem Accounted.pivots_eq_add (ha : q.Accounted created) :
    q.stats.pivots =
      (q.ofKind NodeKind.isElement).card + (q.ofKind NodeKind.isAbsorbed).card := by
  have hset : created.toFinset = q.ofKind NodeKind.isElement ∪ q.ofKind NodeKind.isAbsorbed := by
    ext v
    rw [List.mem_toFinset, ha.mem_created, Finset.mem_union, mem_ofKind rfl, mem_ofKind rfl,
      isAbsorbed_iff, NodeKind.isElement, decide_eq_true_iff]
    rfl
  have hapart : Disjoint (q.ofKind NodeKind.isElement) (q.ofKind NodeKind.isAbsorbed) :=
    Finset.disjoint_left.2 fun v hv hv' => by
      rw [mem_ofKind rfl, NodeKind.isElement, decide_eq_true_iff] at hv
      rw [mem_ofKind rfl, hv] at hv'
      exact Bool.false_ne_true hv'
  rw [ha.pivots_eq, ← List.toFinset_card_of_nodup ha.created_nodup, hset,
    Finset.card_union_of_disjoint hapart]

/-- **Every node is a pivot or merged** when no variable is left. -/
theorem Accounted.pivots_add_merged (ha : q.Accounted created) (hnone : ∀ v, ¬ q.Live v) :
    q.stats.pivots + q.stats.merged = q.nodes.size := by
  have hset : created.toFinset = (Finset.range q.nodes.size).filter
      fun v => ¬ (q.node v).kind.isMerged = true := by
    ext v
    rw [List.mem_toFinset, ha.mem_created, Finset.mem_filter, Finset.mem_range, isMerged_iff]
    constructor
    · rintro (he | ⟨e, he⟩)
      · exact ⟨Element.lt_size he, fun ⟨i, hi⟩ => nomatch hi.symm.trans he⟩
      · exact ⟨lt_size_of_kind_ne (by rw [he]; nofun), fun ⟨i, hi⟩ => nomatch hi.symm.trans he⟩
    · rintro ⟨hlt, hnot⟩
      cases hkind : (q.node v).kind with
      | «variable» => exact absurd ⟨hlt, hkind⟩ (hnone v)
      | element => exact .inl hkind
      | absorbed e => exact .inr ⟨e, hkind⟩
      | merged i => exact absurd ⟨i, hkind⟩ hnot
  have hcard := Finset.card_filter_add_card_filter_not (s := Finset.range q.nodes.size)
    (fun v => (q.node v).kind.isMerged = true)
  rw [← hset, List.toFinset_card_of_nodup ha.created_nodup, Finset.card_range] at hcard
  rw [ha.pivots_eq, ha.merged_eq, Nat.add_comm]
  exact hcard

theorem iterate_referent_succ {v w : Nat} (hw : q.referent v = w) (k : Nat) :
    q.referent^[k + 1] v = q.referent^[k] w := by
  rw [Function.iterate_succ_apply, hw]

/-- **Absorbed elements lead to an element** that is still needed. -/
theorem Accounted.exists_element_of_eliminated (ha : q.Accounted created) (hr : q.Referenced)
    {v : Nat} (hv : q.Eliminated v) : ∃ k, q.Element (q.referent^[k] v) := by
  -- on the number of elements created after `v`
  induction hn : created.length - created.idxOf v using Nat.strongRecOn generalizing v with
  | ind n ih =>
    rcases hv with hv | ⟨e, hv⟩
    · exact ⟨0, hv⟩
    · obtain ⟨hmem, hlt⟩ := ha.absorbed_later hv
      have hlast := List.idxOf_lt_length_iff.2 hmem
      obtain ⟨k, hk⟩ := ih _ (by omega) (hr.absorbed hv).2 rfl
      have hreferent : q.referent v = e := by rw [referent, hv]
      exact ⟨k + 1, iterate_referent_succ hreferent k ▸ hk⟩

/-- **All references lead to an element** when no variable is left. -/
theorem Accounted.exists_element (ha : q.Accounted created) (hr : q.Referenced)
    (hnone : ∀ v, ¬ q.Live v) {v : Nat} (hv : v < q.nodes.size) :
    ∃ k, q.Element (q.referent^[k] v) := by
  induction v using Nat.strongRecOn with
  | ind v ih =>
    cases hkind : (q.node v).kind with
    | «variable» => exact absurd ⟨hv, hkind⟩ (hnone v)
    | element => exact ⟨0, hkind⟩
    | absorbed e => exact ha.exists_element_of_eliminated hr (.inr ⟨e, hkind⟩)
    | merged i =>
      obtain ⟨k, hk⟩ := ih i (ha.merged_lt hkind) (hr.merged hkind).2
      have hreferent : q.referent v = i := by rw [referent, hkind]
      exact ⟨k + 1, iterate_referent_succ hreferent k ▸ hk⟩

end Quotient

end Unknowns
