import Mathlib.Data.List.Nodup
import Unknowns.Proofs.Graph.Quotient.Nodes

/-!
# The lists of a quotient graph

`Linked q L` says that the lists of the nodes fit together, where `L e` are the
variables of element `e`: adjacency is symmetric and between variables, a
variable lists exactly the elements that have it, and no two variables of one
element list each other.  While an element is made its variables are not stored
yet, so `L` need not be what is stored (`lists`).

Each step of an elimination keeps the lists linked: `linked_opened`,
`Making.absorb`, `linked_merge` and `linked_close`.  What it does to adjacency is
said of `Joined`, which is the adjacency of variables in the graph that is
described.
-/

namespace Unknowns

namespace Quotient

variable {q : Quotient} {L : Nat → List Nat}

/-- The variables that are stored for an element. -/
def lists (q : Quotient) (e : Nat) : List Nat := (q.node e).elemVars

/-- Variable `u` lists `v` or an element that has `v`. -/
def Joined (q : Quotient) (L : Nat → List Nat) (u v : Nat) : Prop :=
  v ∈ (q.node u).adjVars ∨ ∃ e ∈ (q.node u).adjElems, v ∈ L e

/-- The lists of the nodes fit together. -/
structure Linked (q : Quotient) (L : Nat → List Nat) : Prop where
  vars_ascending : ∀ {v}, q.Live v → (q.node v).adjVars.Pairwise Before
  elems_ascending : ∀ {v}, q.Live v → (q.node v).adjElems.Pairwise Before
  vars_live : ∀ {u v}, q.Live v → u ∈ (q.node v).adjVars → q.Live u
  vars_symm : ∀ {u v}, q.Live v → u ∈ (q.node v).adjVars → v ∈ (q.node u).adjVars
  vars_loopless : ∀ {v}, q.Live v → v ∉ (q.node v).adjVars
  mem_elems : ∀ {e v}, q.Live v → (e ∈ (q.node v).adjElems ↔ q.Element e ∧ v ∈ L e)
  list_nodup : ∀ {e}, q.Element e → (L e).Nodup
  list_live : ∀ {e v}, q.Element e → v ∈ L e → q.Live v
  apart : ∀ {e u v}, q.Element e → u ∈ L e → v ∈ L e → u ∉ (q.node v).adjVars

namespace Linked

variable (h : q.Linked L)
include h

theorem element {e v : Nat} (hv : q.Live v) (he : e ∈ (q.node v).adjElems) : q.Element e :=
  ((h.mem_elems hv).1 he).1

theorem mem_list {e v : Nat} (hv : q.Live v) (he : e ∈ (q.node v).adjElems) : v ∈ L e :=
  ((h.mem_elems hv).1 he).2

theorem elems_nodup {v : Nat} (hv : q.Live v) : (q.node v).adjElems.Nodup :=
  nodup_of_pairwise (h.elems_ascending hv)

theorem vars_nodup {v : Nat} (hv : q.Live v) : (q.node v).adjVars.Nodup :=
  nodup_of_pairwise (h.vars_ascending hv)

/-- **Adjacency is between variables.** -/
theorem joined_live {u v : Nat} (hu : q.Live u) (hj : q.Joined L u v) : q.Live v := by
  rcases hj with hv | ⟨e, he, hv⟩
  · exact h.vars_live hu hv
  · exact h.list_live (h.element hu he) hv

/-- **Adjacency is symmetric.** -/
theorem joined_symm {u v : Nat} (hu : q.Live u) (hj : q.Joined L u v) : q.Joined L v u := by
  have hv := h.joined_live hu hj
  rcases hj with huv | ⟨e, he, hve⟩
  · exact Or.inl (h.vars_symm hu huv)
  · exact Or.inr ⟨e, (h.mem_elems hv).2 ⟨h.element hu he, hve⟩, h.mem_list hu he⟩

end Linked

/-! ### The clique of a pivot -/

theorem mem_reach (h : q.Linked q.lists) {p : Nat} (hp : q.Live p) {v : Nat} :
    v ∈ q.reach p ↔ v ≠ p ∧ q.Joined q.lists p v := by
  have hmem : v ∈ (q.node p).adjVars ++ (q.node p).adjElems.flatMap (fun e => (q.node e).elemVars) ↔
      q.Joined q.lists p v := by
    rw [List.mem_append, List.mem_flatMap]
    rfl
  rw [reach, List.mem_filter, mem_ascending, hmem, decide_eq_true_iff, isVariable_iff]
  exact ⟨fun hv => ⟨hv.2.1, hv.1⟩, fun hv => ⟨hv.2, hv.1, (h.joined_live hp hv.2).2⟩⟩

theorem nodup_reach (p : Nat) : (q.reach p).Nodup :=
  nodup_of_pairwise ((pairwise_ascending _).filter _)

theorem live_of_mem_reach (h : q.Linked q.lists) {p v : Nat} (hp : q.Live p) (hv : v ∈ q.reach p) :
    q.Live v := h.joined_live hp ((mem_reach h hp).1 hv).2

/-! ### Opening an element -/

/-- Variable `p` has become an element, which its neighbours have joined. -/
def opened (q : Quotient) (p : Nat) : Quotient :=
  (q.retire p (q.reach p)).prune p (q.reach p)

@[simp] theorem size_opened (p : Nat) : (q.opened p).nodes.size = q.nodes.size :=
  (size_prune ..).trans (size_retire ..)

/-- The variables of the elements once `p` is an element. -/
def openLists (q : Quotient) (p e : Nat) : List Nat := if e = p then q.reach p else q.lists e

theorem openLists_self (p : Nat) : q.openLists p p = q.reach p := if_pos rfl

theorem openLists_of_ne {p e : Nat} (he : e ≠ p) : q.openLists p e = q.lists e := if_neg he

section
variable {p : Nat} (h : q.Linked q.lists) (hp : q.Live p)
include h hp

theorem node_retire_reach (u : Nat) :
    (q.retire p (q.reach p)).node u =
      if u = p then
        { q.node p with kind := .element, adjVars := [], adjElems := [], members := [] }
      else if u ∈ (q.node p).adjElems then
        { q.node u with kind := .absorbed p, elemVars := [] }
      else q.node u :=
  node_retire hp (h.elems_nodup hp) (fun _ he => h.element hp he) _ u

theorem live_retire {v : Nat} : (q.retire p (q.reach p)).Live v ↔ q.Live v ∧ v ≠ p := by
  unfold Live
  rw [size_retire, node_retire_reach h hp]
  by_cases hv : v = p
  · simp [hv]
  · by_cases he : v ∈ (q.node p).adjElems
    · have hne : (q.node v).kind ≠ .variable := by
        rw [h.element hp he]
        decide
      simp [hv, he, hne]
    · simp [hv, he]

theorem element_retire {e : Nat} :
    (q.retire p (q.reach p)).Element e ↔ e = p ∨ q.Element e ∧ e ∉ (q.node p).adjElems := by
  unfold Element
  rw [node_retire_reach h hp]
  by_cases hv : e = p
  · simp [hv]
  · by_cases he : e ∈ (q.node p).adjElems
    · simp [hv, he]
    · simp [hv, he]

theorem node_opened (u : Nat) :
    (q.opened p).node u =
      if u ∈ q.reach p then
        { q.node u with
          adjVars := (q.node u).adjVars.filter fun v =>
            v ≠ p ∧ v ∉ q.reach p ∧ ((q.retire p (q.reach p)).node v).isVariable
          adjElems := insertAscending p ((q.node u).adjElems.filter fun e =>
            ((q.retire p (q.reach p)).node e).isElement) }
      else (q.retire p (q.reach p)).node u := by
  have hlive : ∀ v ∈ q.reach p, (q.retire p (q.reach p)).Live v := fun v hv =>
    (live_retire h hp).2 ⟨live_of_mem_reach h hp hv, ((mem_reach h hp).1 hv).1⟩
  rw [opened, node_prune (nodup_reach p) hlive]
  by_cases hu : u ∈ q.reach p
  · have hne : u ≠ p := ((mem_reach h hp).1 hu).1
    have hnot : u ∉ (q.node p).adjElems := fun he =>
      (live_of_mem_reach h hp hu).ne_element (h.element hp he) rfl
    have hsame : (q.retire p (q.reach p)).node u = q.node u := by
      rw [node_retire_reach h hp, if_neg hne, if_neg hnot]
    rw [if_pos hu, if_pos hu, hsame]
  · rw [if_neg hu, if_neg hu]

theorem kind_opened (u : Nat) :
    ((q.opened p).node u).kind = ((q.retire p (q.reach p)).node u).kind := by
  rw [node_opened h hp]
  split
  · next hu =>
    have hlive := (live_retire h hp).2 ⟨live_of_mem_reach h hp hu, ((mem_reach h hp).1 hu).1⟩
    exact (live_of_mem_reach h hp hu).2.trans hlive.2.symm
  · rfl

theorem live_opened {v : Nat} : (q.opened p).Live v ↔ q.Live v ∧ v ≠ p := by
  rw [← live_retire h hp, Live, Live, kind_opened h hp, size_opened, size_retire]

theorem live_opened_of_mem_reach {v : Nat} (hv : v ∈ q.reach p) : (q.opened p).Live v :=
  (live_opened h hp).2 ⟨live_of_mem_reach h hp hv, ((mem_reach h hp).1 hv).1⟩

theorem element_opened {e : Nat} :
    (q.opened p).Element e ↔ e = p ∨ q.Element e ∧ e ∉ (q.node p).adjElems := by
  rw [← element_retire h hp, Element, Element, kind_opened h hp]

/-- A variable outside the clique is as it was. -/
theorem node_opened_outside {v : Nat} (hv : q.Live v) (hne : v ≠ p) (hout : v ∉ q.reach p) :
    (q.opened p).node v = q.node v := by
  have hnot : v ∉ (q.node p).adjElems := fun he => hv.ne_element (h.element hp he) rfl
  rw [node_opened h hp, if_neg hout, node_retire_reach h hp, if_neg hne, if_neg hnot]

/-- The variables of the clique no longer list one another. -/
theorem mem_vars_opened {u v : Nat} (hv : q.Live v) (hne : v ≠ p) :
    u ∈ ((q.opened p).node v).adjVars ↔
      u ∈ (q.node v).adjVars ∧ ¬(v ∈ q.reach p ∧ u ∈ q.reach p) ∧ u ≠ p := by
  by_cases hin : v ∈ q.reach p
  · rw [node_opened h hp, if_pos hin]
    simp only [List.mem_filter, decide_eq_true_iff, isVariable_iff, hin, true_and]
    constructor
    · rintro ⟨hu, hup, hout, -⟩
      exact ⟨hu, hout, hup⟩
    · rintro ⟨hu, hout, hup⟩
      exact ⟨hu, hup, hout, ((live_retire h hp).2 ⟨h.vars_live hv hu, hup⟩).2⟩
  · rw [node_opened_outside h hp hv hne hin]
    constructor
    · intro hu
      refine ⟨hu, fun hboth => hin hboth.1, ?_⟩
      rintro rfl
      exact hin ((mem_reach h hp).2 ⟨hne, Or.inl (h.vars_symm hv hu)⟩)
    · exact fun hu => hu.1

/-- The variables of the clique forget the elements of `p`, which are absorbed, and join `p`. -/
theorem mem_elems_opened {e v : Nat} (hv : q.Live v) (hne : v ≠ p) :
    e ∈ ((q.opened p).node v).adjElems ↔
      e = p ∧ v ∈ q.reach p ∨ e ∈ (q.node v).adjElems ∧ e ∉ (q.node p).adjElems := by
  have hnot : p ∉ (q.node v).adjElems := fun he => hp.ne_element (h.element hv he) rfl
  by_cases hin : v ∈ q.reach p
  · rw [node_opened h hp, if_pos hin]
    simp only [mem_insertAscending, List.mem_filter, isElement_iff, element_retire h hp, hin,
      and_true]
    constructor
    · rintro (he | ⟨he, hep | hep⟩)
      · exact Or.inl he
      · exact Or.inl hep
      · exact Or.inr ⟨he, hep.2⟩
    · rintro (he | ⟨he, hep⟩)
      · exact Or.inl he
      · exact Or.inr ⟨he, Or.inr ⟨h.element hv he, hep⟩⟩
  · rw [node_opened_outside h hp hv hne hin]
    constructor
    · intro he
      refine Or.inr ⟨he, fun hep => hin ((mem_reach h hp).2 ⟨hne, Or.inr ⟨e, hep, ?_⟩⟩)⟩
      exact h.mem_list hv he
    · rintro (⟨-, hm⟩ | ⟨he, -⟩)
      · exact absurd hm hin
      · exact he

/-- An element of a variable other than those of `p` does not have `p`. -/
theorem not_mem_lists_of_not_mem {e : Nat} (he : q.Element e) (hep : e ∉ (q.node p).adjElems) :
    p ∉ q.lists e := fun hm => hep ((h.mem_elems hp).2 ⟨he, hm⟩)

/-- Elements have variables other than `p`. -/
theorem live_of_mem_openLists {e v : Nat} (he : (q.opened p).Element e)
    (hv : v ∈ q.openLists p e) : q.Live v ∧ v ≠ p := by
  by_cases hep : e = p
  · subst hep
    rw [openLists_self] at hv
    exact ⟨live_of_mem_reach h hp hv, ((mem_reach h hp).1 hv).1⟩
  · rw [openLists_of_ne hep] at hv
    obtain ⟨hel, hnot⟩ := ((element_opened h hp).1 he).resolve_left hep
    refine ⟨h.list_live hel hv, ?_⟩
    rintro rfl
    exact not_mem_lists_of_not_mem h hp hel hnot hv

/-- A variable lists the elements that have it. -/
theorem mem_elems_opened_iff {e v : Nat} (hv : q.Live v) (hne : v ≠ p) :
    e ∈ ((q.opened p).node v).adjElems ↔ (q.opened p).Element e ∧ v ∈ q.openLists p e := by
  rw [mem_elems_opened h hp hv hne, element_opened h hp, h.mem_elems hv]
  by_cases he : e = p
  · subst he
    rw [openLists_self]
    constructor
    · rintro (⟨-, hm⟩ | ⟨⟨hel, -⟩, -⟩)
      · exact ⟨Or.inl rfl, hm⟩
      · exact absurd rfl (hp.ne_element hel)
    · exact fun hm => Or.inl ⟨rfl, hm.2⟩
  · rw [openLists_of_ne he]
    constructor
    · rintro (⟨hep, -⟩ | ⟨⟨hel, hm⟩, hep⟩)
      · exact absurd hep he
      · exact ⟨Or.inr ⟨hel, hep⟩, hm⟩
    · rintro ⟨hep | ⟨hel, hep⟩, hm⟩
      · exact absurd hep he
      · exact Or.inr ⟨⟨hel, hm⟩, hep⟩

/-- **Opening keeps the lists linked.** -/
theorem linked_opened : (q.opened p).Linked (q.openLists p) where
  vars_ascending {v} hv := by
    obtain ⟨hv, hne⟩ := (live_opened h hp).1 hv
    by_cases hin : v ∈ q.reach p
    · rw [node_opened h hp, if_pos hin]
      exact (h.vars_ascending hv).filter _
    · rw [node_opened_outside h hp hv hne hin]
      exact h.vars_ascending hv
  elems_ascending {v} hv := by
    obtain ⟨hv, hne⟩ := (live_opened h hp).1 hv
    by_cases hin : v ∈ q.reach p
    · rw [node_opened h hp, if_pos hin]
      exact pairwise_insertAscending ((h.elems_ascending hv).filter _)
    · rw [node_opened_outside h hp hv hne hin]
      exact h.elems_ascending hv
  vars_live {u v} hv hu := by
    obtain ⟨hv, hne⟩ := (live_opened h hp).1 hv
    obtain ⟨hu, -, hup⟩ := (mem_vars_opened h hp hv hne).1 hu
    exact (live_opened h hp).2 ⟨h.vars_live hv hu, hup⟩
  vars_symm {u v} hv hu := by
    obtain ⟨hv, hne⟩ := (live_opened h hp).1 hv
    obtain ⟨hu, hboth, hup⟩ := (mem_vars_opened h hp hv hne).1 hu
    exact (mem_vars_opened h hp (h.vars_live hv hu) hup).2
      ⟨h.vars_symm hv hu, fun hc => hboth hc.symm, hne⟩
  vars_loopless {v} hv hu := by
    obtain ⟨hv, hne⟩ := (live_opened h hp).1 hv
    exact h.vars_loopless hv ((mem_vars_opened h hp hv hne).1 hu).1
  mem_elems {e v} hv := by
    obtain ⟨hv, hne⟩ := (live_opened h hp).1 hv
    exact mem_elems_opened_iff h hp hv hne
  list_nodup {e} he := by
    by_cases hep : e = p
    · subst hep
      rw [openLists_self]
      exact nodup_reach e
    · rw [openLists_of_ne hep]
      exact h.list_nodup (((element_opened h hp).1 he).resolve_left hep).1
  list_live {e v} he hv := (live_opened h hp).2 (live_of_mem_openLists h hp he hv)
  apart {e u v} he hu hv huv := by
    obtain ⟨hlive, hne⟩ := live_of_mem_openLists h hp he hv
    obtain ⟨huv, hboth, -⟩ := (mem_vars_opened h hp hlive hne).1 huv
    by_cases hep : e = p
    · subst hep
      rw [openLists_self] at hu hv
      exact hboth ⟨hv, hu⟩
    · rw [openLists_of_ne hep] at hu hv
      have hel := (((element_opened h hp).1 he).resolve_left hep).1
      exact h.apart hel hu hv huv

/-- **Opening joins the clique.** -/
theorem joined_opened {u v : Nat} (hu : q.Live u) (hup : u ≠ p) :
    (q.opened p).Joined (q.openLists p) u v ↔
      v ≠ p ∧ (q.Joined q.lists u v ∨ u ∈ q.reach p ∧ v ∈ q.reach p) := by
  have hclique : ∀ {e w}, e ∈ (q.node p).adjElems → w ∈ q.lists e → w ≠ p → w ∈ q.reach p :=
    fun he hw hne => (mem_reach h hp).2 ⟨hne, Or.inr ⟨_, he, hw⟩⟩
  have hvia : u ∈ q.reach p → v ∈ q.reach p → (q.opened p).Joined (q.openLists p) u v :=
    fun hur hvr => Or.inr ⟨p, (mem_elems_opened h hp hu hup).2 (Or.inl ⟨rfl, hur⟩),
      openLists_self p ▸ hvr⟩
  constructor
  · rintro (hv | ⟨e, he, hv⟩)
    · obtain ⟨hv, -, hvp⟩ := (mem_vars_opened h hp hu hup).1 hv
      exact ⟨hvp, Or.inl (Or.inl hv)⟩
    · rcases (mem_elems_opened h hp hu hup).1 he with ⟨rfl, hur⟩ | ⟨heu, hep⟩
      · rw [openLists_self] at hv
        exact ⟨((mem_reach h hp).1 hv).1, Or.inr ⟨hur, hv⟩⟩
      · have hel := h.element hu heu
        rw [openLists_of_ne fun hc => hp.ne_element hel hc.symm] at hv
        refine ⟨?_, Or.inl (Or.inr ⟨e, heu, hv⟩)⟩
        rintro rfl
        exact not_mem_lists_of_not_mem h hp hel hep hv
  · rintro ⟨hvp, (hv | ⟨e, he, hv⟩) | ⟨hur, hvr⟩⟩
    · by_cases hboth : u ∈ q.reach p ∧ v ∈ q.reach p
      · exact hvia hboth.1 hboth.2
      · exact Or.inl ((mem_vars_opened h hp hu hup).2 ⟨hv, hboth, hvp⟩)
    · by_cases hep : e ∈ (q.node p).adjElems
      · exact hvia (hclique hep (h.mem_list hu he) hup) (hclique hep hv hvp)
      · have hel := h.element hu he
        refine Or.inr ⟨e, (mem_elems_opened h hp hu hup).2 (Or.inr ⟨he, hep⟩), ?_⟩
        rwa [openLists_of_ne fun hc => hp.ne_element hel hc.symm]
    · exact hvia hur hvr

end

end Quotient

end Unknowns
