import Unknowns.Proofs.Graph.Quotient.Links

/-!
# The making of an element

Between the opening of element `p` and its closing, elements are absorbed and
variables are merged.  `Making q L p clique` is what holds meanwhile: the lists
are linked for `L`, which is what is stored except that the variables of `p` are
those of its clique that are left.

* `Making.absorb`: elements without variables outside the clique can be absorbed;
* `Making.merge`: variables of the clique with equal lists can be merged;
* `Making.linked_close`: in the end the stored lists are linked again.
-/

namespace Unknowns

namespace Quotient

variable {q : Quotient} {L : Nat → List Nat} {p : Nat} {clique : List Nat}

/-- Element `p` is being made of a clique. -/
structure Making (q : Quotient) (L : Nat → List Nat) (p : Nat) (clique : List Nat) : Prop where
  linked : q.Linked L
  element : q.Element p
  stored : ∀ {e}, q.Element e → e ≠ p → L e = q.lists e
  list : L p = q.variablesOf clique
  nodup : clique.Nodup
  lt_size : ∀ {v}, v ∈ clique → v < q.nodes.size

theorem mem_variablesOf {vs : List Nat} {v : Nat} :
    v ∈ q.variablesOf vs ↔ v ∈ vs ∧ (q.node v).kind = .variable := by
  rw [variablesOf, List.mem_filter, isVariable_iff]

theorem Making.mem_list (h : q.Making L p clique) {v : Nat} : v ∈ L p ↔ v ∈ clique ∧ q.Live v := by
  rw [h.list, mem_variablesOf]
  exact ⟨fun hv => ⟨hv.1, h.lt_size hv.1, hv.2⟩, fun hv => ⟨hv.1, hv.2.2⟩⟩

/-! ### Opening -/

theorem making_opened (h : q.Linked q.lists) (hp : q.Live p) :
    (q.opened p).Making (q.openLists p) p (q.reach p) where
  linked := linked_opened h hp
  element := (element_opened h hp).2 (Or.inl rfl)
  stored {e} he hne := by
    obtain ⟨hel, hnot⟩ := ((element_opened h hp).1 he).resolve_left hne
    have hout : e ∉ q.reach p := fun hm => (live_of_mem_reach h hp hm).ne_element hel rfl
    rw [openLists_of_ne hne, lists, lists, node_opened h hp, if_neg hout, node_retire_reach h hp,
      if_neg hne, if_neg hnot]
  list := by
    rw [openLists_self, variablesOf, eq_comm, List.filter_eq_self]
    intro v hv
    exact isVariable_iff.2 (live_opened_of_mem_reach h hp hv).2
  nodup := nodup_reach p
  lt_size hv := (live_opened_of_mem_reach h hp hv).1

/-! ### Absorption -/

/-- Elements whose variables all belong to the clique of `p`. -/
structure Dead (q : Quotient) (L : Nat → List Nat) (p : Nat) (dead : List Nat) : Prop where
  nodup : dead.Nodup
  element : ∀ {e}, e ∈ dead → q.Element e
  ne : ∀ {e}, e ∈ dead → e ≠ p
  subset : ∀ {e v}, e ∈ dead → v ∈ L e → v ∈ L p

section
variable {dead : List Nat} (h : q.Making L p clique) (hlive : ∀ v ∈ clique, q.Live v)
  (hd : q.Dead L p dead)
include h hlive hd

theorem node_absorb_dead (u : Nat) :
    (q.absorb p clique dead).node u =
      if u ∈ dead then { q.node u with kind := .absorbed p, elemVars := [] }
      else if u ∈ clique then
        { q.node u with adjElems := (q.node u).adjElems.filter (· ∉ dead) }
      else q.node u :=
  node_absorb h.nodup hlive hd.nodup (fun _ he => hd.element he) p u

theorem live_absorb {v : Nat} : (q.absorb p clique dead).Live v ↔ q.Live v := by
  unfold Live
  rw [size_absorb, node_absorb_dead h hlive hd]
  by_cases he : v ∈ dead
  · have hne : (q.node v).kind ≠ .variable := by
      rw [hd.element he]
      decide
    simp [he, hne]
  · rw [if_neg he]
    split <;> rfl

theorem element_absorb {e : Nat} :
    (q.absorb p clique dead).Element e ↔ q.Element e ∧ e ∉ dead := by
  unfold Element
  rw [node_absorb_dead h hlive hd]
  by_cases he : e ∈ dead
  · simp [he]
  · rw [if_neg he]
    split <;> simp [he]

theorem vars_absorb {v : Nat} (hv : q.Live v) :
    ((q.absorb p clique dead).node v).adjVars = (q.node v).adjVars := by
  have hnot : v ∉ dead := fun he => hv.ne_element (hd.element he) rfl
  rw [node_absorb_dead h hlive hd, if_neg hnot]
  split <;> rfl

theorem mem_elems_absorb {e v : Nat} (hv : q.Live v) :
    e ∈ ((q.absorb p clique dead).node v).adjElems ↔ e ∈ (q.node v).adjElems ∧ e ∉ dead := by
  have hnot : v ∉ dead := fun he => hv.ne_element (hd.element he) rfl
  rw [node_absorb_dead h hlive hd, if_neg hnot]
  split
  · rw [List.mem_filter, decide_eq_true_iff]
  · next hout =>
    refine ⟨fun he => ⟨he, fun hdead => hout ?_⟩, And.left⟩
    exact (h.mem_list.1 (hd.subset hdead (h.linked.mem_list hv he))).1

theorem elems_ascending_absorb {v : Nat} (hv : q.Live v) :
    ((q.absorb p clique dead).node v).adjElems.Pairwise Before := by
  have hnot : v ∉ dead := fun he => hv.ne_element (hd.element he) rfl
  rw [node_absorb_dead h hlive hd, if_neg hnot]
  split
  · exact (h.linked.elems_ascending hv).filter _
  · exact h.linked.elems_ascending hv

/-- **Dead elements can be absorbed.** -/
theorem Making.absorb : (q.absorb p clique dead).Making L p clique where
  linked :=
    { vars_ascending := fun {v} hv => by
        have hv := (live_absorb h hlive hd).1 hv
        rw [vars_absorb h hlive hd hv]
        exact h.linked.vars_ascending hv
      elems_ascending := fun {v} hv =>
        elems_ascending_absorb h hlive hd ((live_absorb h hlive hd).1 hv)
      vars_live := fun {u v} hv hu => by
        have hv := (live_absorb h hlive hd).1 hv
        rw [vars_absorb h hlive hd hv] at hu
        exact (live_absorb h hlive hd).2 (h.linked.vars_live hv hu)
      vars_symm := fun {u v} hv hu => by
        have hv := (live_absorb h hlive hd).1 hv
        rw [vars_absorb h hlive hd hv] at hu
        rw [vars_absorb h hlive hd (h.linked.vars_live hv hu)]
        exact h.linked.vars_symm hv hu
      vars_loopless := fun {v} hv => by
        have hv := (live_absorb h hlive hd).1 hv
        rw [vars_absorb h hlive hd hv]
        exact h.linked.vars_loopless hv
      mem_elems := fun {e v} hv => by
        have hv := (live_absorb h hlive hd).1 hv
        rw [mem_elems_absorb h hlive hd hv, element_absorb h hlive hd, h.linked.mem_elems hv]
        exact and_right_comm
      list_nodup := fun {e} he => h.linked.list_nodup ((element_absorb h hlive hd).1 he).1
      list_live := fun {e v} he hv =>
        (live_absorb h hlive hd).2 (h.linked.list_live ((element_absorb h hlive hd).1 he).1 hv)
      apart := fun {e u v} he hu hv => by
        have he := ((element_absorb h hlive hd).1 he).1
        rw [vars_absorb h hlive hd (h.linked.list_live he hv)]
        exact h.linked.apart he hu hv }
  element := (element_absorb h hlive hd).2 ⟨h.element, fun he => hd.ne he rfl⟩
  stored {e} he hne := by
    obtain ⟨hel, hnot⟩ := (element_absorb h hlive hd).1 he
    have hout : e ∉ clique := fun hm => (hlive e hm).ne_element hel rfl
    rw [h.stored hel hne, lists, lists, node_absorb_dead h hlive hd, if_neg hnot, if_neg hout]
  list := by
    rw [h.list, variablesOf, variablesOf]
    refine List.filter_congr fun v hv => ?_
    have hnew := (live_absorb h hlive hd).2 (hlive v hv)
    rw [isVariable_iff.2 (hlive v hv).2, isVariable_iff.2 hnew.2]
  nodup := h.nodup
  lt_size hv := by
    rw [size_absorb]
    exact h.lt_size hv

/-- **Absorption leaves adjacency as it is.** -/
theorem joined_absorb {u v : Nat} (hu : q.Live u) :
    (q.absorb p clique dead).Joined L u v ↔ q.Joined L u v := by
  rw [Joined, Joined, vars_absorb h hlive hd hu]
  refine or_congr_right ⟨?_, ?_⟩
  · rintro ⟨e, he, hv⟩
    exact ⟨e, ((mem_elems_absorb h hlive hd hu).1 he).1, hv⟩
  · rintro ⟨e, he, hv⟩
    -- a dead element is replaced by `p`, which has all its variables
    by_cases hdead : e ∈ dead
    · have hup := hd.subset hdead (h.linked.mem_list hu he)
      refine ⟨p, (mem_elems_absorb h hlive hd hu).2 ⟨?_, fun hp => hd.ne hp rfl⟩,
        hd.subset hdead hv⟩
      exact (h.linked.mem_elems hu).2 ⟨h.element, hup⟩
    · exact ⟨e, (mem_elems_absorb h hlive hd hu).2 ⟨he, hdead⟩, hv⟩

end

/-! ### Merging -/

theorem twins_iff {digest : List Nat → List Nat → Nat} {i j : Nat} :
    q.twins digest i j = true ↔
      (q.node i).adjVars = (q.node j).adjVars ∧ (q.node i).adjElems = (q.node j).adjElems := by
  simp only [twins, Bool.and_eq_true, beq_iff_eq]
  constructor
  · exact And.right
  · rintro ⟨hv, he⟩
    exact ⟨by rw [hv, he], hv, he⟩

/-- Twins in the clique can be merged. -/
theorem Making.mergeable (h : q.Making L p clique) {i j : Nat} (hi : i ∈ L p) (hj : j ∈ L p)
    (hne : i ≠ j) (hvars : (q.node i).adjVars = (q.node j).adjVars)
    (helems : (q.node i).adjElems = (q.node j).adjElems) : q.Mergeable i j :=
  have hlive := (h.mem_list.1 hj).2
  { live_left := (h.mem_list.1 hi).2
    live_right := hlive
    ne := hne
    vars_eq := hvars
    elems_eq := helems
    vars_nodup := h.linked.vars_nodup hlive
    vars_live := fun _ hv => h.linked.vars_live hlive hv
    vars_left := h.linked.apart h.element hi hj
    vars_right := h.linked.vars_loopless hlive
    elems_nodup := h.linked.elems_nodup hlive
    elems := fun _ he => h.linked.element hlive he }

section
variable {i j : Nat} (hm : q.Mergeable i j)
include hm

theorem kind_merge (u : Nat) :
    ((q.merge i j).node u).kind = if u = j then .merged i else (q.node u).kind := by
  rw [node_merge hm]
  split
  · rfl
  · split
    · next hu => rw [hu]
    · split
      · rfl
      · split <;> rfl

theorem live_merge {v : Nat} : (q.merge i j).Live v ↔ q.Live v ∧ v ≠ j := by
  rw [Live, Live, size_merge, kind_merge hm]
  by_cases hv : v = j
  · simp [hv]
  · simp [hv]

theorem element_merge {e : Nat} : (q.merge i j).Element e ↔ q.Element e := by
  rw [Element, Element, kind_merge hm]
  by_cases he : e = j
  · subst he
    simp [hm.live_right.2]
  · rw [if_neg he]

theorem elems_merge {v : Nat} (hv : q.Live v) (hne : v ≠ j) :
    ((q.merge i j).node v).adjElems = (q.node v).adjElems := by
  have hnot : v ∉ (q.node j).adjElems := fun he => hv.ne_element (hm.elems v he) rfl
  rw [node_merge hm, if_neg hne]
  split
  · next hvi => rw [hvi]
  · split <;> rfl

end

section
variable {i j : Nat} (h : q.Linked L) (hm : q.Mergeable i j)
include h hm

theorem vars_merge {v : Nat} (hv : q.Live v) (hne : v ≠ j) :
    ((q.merge i j).node v).adjVars = (q.node v).adjVars.filter (· ≠ j) := by
  have hsame : j ∉ (q.node v).adjVars →
      (q.node v).adjVars = (q.node v).adjVars.filter (· ≠ j) := fun hj => by
    refine (List.filter_eq_self.2 fun u hu => decide_eq_true ?_).symm
    rintro rfl
    exact hj hu
  have hnot : v ∉ (q.node j).adjElems := fun he => hv.ne_element (hm.elems v he) rfl
  rw [node_merge hm, if_neg hne]
  split
  · next hvi =>
    subst hvi
    exact hsame (hm.vars_eq ▸ hm.vars_right)
  · split
    · rfl
    · next hout => exact hsame fun hj => hout (h.vars_symm hv hj)

theorem mem_vars_merge {u v : Nat} (hv : q.Live v) (hne : v ≠ j) :
    u ∈ ((q.merge i j).node v).adjVars ↔ u ∈ (q.node v).adjVars ∧ u ≠ j := by
  rw [vars_merge h hm hv hne, List.mem_filter, decide_eq_true_iff]

/-- **Merging keeps the lists linked.** -/
theorem linked_merge : (q.merge i j).Linked fun e => (L e).filter (· ≠ j) where
  vars_ascending {v} hv := by
    obtain ⟨hv, hne⟩ := (live_merge hm).1 hv
    rw [vars_merge h hm hv hne]
    exact (h.vars_ascending hv).filter _
  elems_ascending {v} hv := by
    obtain ⟨hv, hne⟩ := (live_merge hm).1 hv
    rw [elems_merge hm hv hne]
    exact h.elems_ascending hv
  vars_live {u v} hv hu := by
    obtain ⟨hv, hne⟩ := (live_merge hm).1 hv
    obtain ⟨hu, huj⟩ := (mem_vars_merge h hm hv hne).1 hu
    exact (live_merge hm).2 ⟨h.vars_live hv hu, huj⟩
  vars_symm {u v} hv hu := by
    obtain ⟨hv, hne⟩ := (live_merge hm).1 hv
    obtain ⟨hu, huj⟩ := (mem_vars_merge h hm hv hne).1 hu
    exact (mem_vars_merge h hm (h.vars_live hv hu) huj).2 ⟨h.vars_symm hv hu, hne⟩
  vars_loopless {v} hv hu := by
    obtain ⟨hv, hne⟩ := (live_merge hm).1 hv
    exact h.vars_loopless hv ((mem_vars_merge h hm hv hne).1 hu).1
  mem_elems {e v} hv := by
    obtain ⟨hv, hne⟩ := (live_merge hm).1 hv
    rw [elems_merge hm hv hne, element_merge hm, h.mem_elems hv, List.mem_filter,
      decide_eq_true_iff]
    exact and_congr_right fun _ => ⟨fun hl => ⟨hl, hne⟩, And.left⟩
  list_nodup {e} he := (h.list_nodup ((element_merge hm).1 he)).filter _
  list_live {e v} he hv := by
    obtain ⟨hv, hne⟩ := List.mem_filter.1 hv
    exact (live_merge hm).2
      ⟨h.list_live ((element_merge hm).1 he) hv, of_decide_eq_true hne⟩
  apart {e u v} he hu hv huv := by
    have he := (element_merge hm).1 he
    obtain ⟨hu, -⟩ := List.mem_filter.1 hu
    obtain ⟨hv, hne⟩ := List.mem_filter.1 hv
    exact h.apart he hu hv
      ((mem_vars_merge h hm (h.list_live he hv) (of_decide_eq_true hne)).1 huv).1

/-- **Merging leaves the adjacency of other variables as it is.** -/
theorem joined_merge {u v : Nat} (hu : q.Live u) (huj : u ≠ j) :
    (q.merge i j).Joined (fun e => (L e).filter (· ≠ j)) u v ↔ q.Joined L u v ∧ v ≠ j := by
  rw [Joined, Joined, mem_vars_merge h hm hu huj, elems_merge hm hu huj]
  simp only [List.mem_filter, decide_eq_true_iff]
  constructor
  · rintro (⟨hv, hne⟩ | ⟨e, he, hv, hne⟩)
    · exact ⟨Or.inl hv, hne⟩
    · exact ⟨Or.inr ⟨e, he, hv⟩, hne⟩
  · rintro ⟨hv | ⟨e, he, hv⟩, hne⟩
    · exact Or.inl ⟨hv, hne⟩
    · exact Or.inr ⟨e, he, hv, hne⟩

omit h in
/-- Twins are adjacent to the same variables. -/
theorem Mergeable.joined_iff (v : Nat) : q.Joined L i v ↔ q.Joined L j v := by
  rw [Joined, Joined, hm.vars_eq, hm.elems_eq]

end

theorem Making.merge (h : q.Making L p clique) {i j : Nat} (hm : q.Mergeable i j) :
    (q.merge i j).Making (fun e => (L e).filter (· ≠ j)) p clique where
  linked := linked_merge h.linked hm
  element := (element_merge hm).2 h.element
  stored {e} he hne := by
    have he := (element_merge hm).1 he
    have hei : e ≠ i := fun hc => hm.live_left.ne_element he hc.symm
    have hej : e ≠ j := fun hc => hm.live_right.ne_element he hc.symm
    have hvars : e ∉ (q.node j).adjVars := fun hc => (hm.vars_live e hc).ne_element he rfl
    have hlists := h.stored he hne
    show (L e).filter (· ≠ j) = ((q.merge i j).node e).elemVars
    rw [node_merge hm, if_neg hej, if_neg hei]
    split
    · rw [hlists]
      rfl
    · next hout =>
      have hnot : j ∉ L e := fun hj => hout ((h.linked.mem_elems hm.live_right).2 ⟨he, hj⟩)
      refine (List.filter_eq_self.2 fun v hv => decide_eq_true ?_).trans hlists
      rintro rfl
      exact hnot hv
  list := by
    show (L p).filter (· ≠ j) = _
    rw [h.list, variablesOf, variablesOf, List.filter_filter]
    refine List.filter_congr fun v _ => ?_
    simp only [QuotientNode.isVariable, kind_merge hm]
    by_cases hv : v = j
    · simp [hv]
    · simp [hv]
  nodup := h.nodup
  lt_size hv := by
    rw [size_merge]
    exact h.lt_size hv

/-- **Merging the twins of the clique** is a sequence of merges, each of a variable of the clique
into another one.  What holds before and is kept by every such merge holds in the end. -/
theorem mergeTwinsFrom_induction {P : Quotient → (Nat → List Nat) → Prop}
    (hstep : ∀ q L i j, q.Making L p clique → q.Mergeable i j → i ∈ L p → j ∈ L p → P q L →
      P (q.merge i j) fun e => (L e).filter (· ≠ j))
    (digest : List Nat → List Nat → Nat) {stayed rest : List Nat} (h : q.Making L p clique)
    (hP : P q L) (hn : (stayed ++ rest).Nodup) (hmem : ∀ v ∈ stayed ++ rest, v ∈ L p) :
    ∃ L', (mergeTwinsFrom digest stayed rest q).Making L' p clique ∧
      P (mergeTwinsFrom digest stayed rest q) L' := by
  induction rest generalizing q L stayed with
  | nil => exact ⟨L, h, hP⟩
  | cons j rest ih =>
    rw [mergeTwinsFrom]
    have hj : j ∈ L p := hmem j (List.mem_append_right _ (List.mem_cons_self ..))
    split
    · next i htwin =>
      have hstayed : i ∈ stayed := List.mem_of_find?_eq_some htwin
      have hi : i ∈ L p := hmem i (List.mem_append_left _ hstayed)
      have hapart := List.nodup_append.1 hn
      have hne : i ≠ j := hapart.2.2 i hstayed j (List.mem_cons_self ..)
      have hfound := List.find?_some (p := fun i => q.twins digest i j) htwin
      obtain ⟨hvars, helems⟩ := twins_iff.1 hfound
      have hm := h.mergeable hi hj hne hvars helems
      refine ih (h.merge hm) (hstep q L i j h hm hi hj hP) ?_ fun v hv => ?_
      · exact hn.sublist (List.Sublist.append_left (List.sublist_cons_self ..) _)
      · have hvj : v ≠ j := by
          rintro rfl
          rcases List.mem_append.1 hv with hv | hv
          · exact hapart.2.2 v hv v (List.mem_cons_self ..) rfl
          · exact (List.nodup_cons.1 hapart.2.1).1 hv
        refine List.mem_filter.2 ⟨hmem v ?_, decide_eq_true hvj⟩
        exact (List.Sublist.append_left (List.sublist_cons_self ..) _).subset hv
    · refine ih h hP ?_ fun v hv => hmem v ?_
      · rwa [List.append_assoc]
      · rwa [List.append_assoc] at hv

/-! ### Closing -/

section
variable (h : q.Making L p clique) (outside : Table Nat Nat)
include h

theorem node_close_making (u : Nat) :
    (q.close p outside clique).node u =
      if u = p then { q.node p with elemVars := q.variablesOf clique }
      else if u ∈ q.variablesOf clique then
        { q.node u with
          degree := q.newDegree p (q.weightOf (q.variablesOf clique)) outside u }
      else q.node u :=
  node_close h.element h.nodup (fun _ hv => h.lt_size hv) outside u

theorem kind_close (u : Nat) : ((q.close p outside clique).node u).kind = (q.node u).kind := by
  rw [node_close_making h]
  split
  · next hu => rw [hu]
  · split <;> rfl

theorem live_close {v : Nat} : (q.close p outside clique).Live v ↔ q.Live v := by
  rw [Live, Live, size_close, kind_close h]

theorem element_close {e : Nat} : (q.close p outside clique).Element e ↔ q.Element e := by
  rw [Element, Element, kind_close h]

theorem vars_close (u : Nat) : ((q.close p outside clique).node u).adjVars = (q.node u).adjVars := by
  rw [node_close_making h]
  split
  · next hu => rw [hu]
  · split <;> rfl

theorem elems_close (u : Nat) :
    ((q.close p outside clique).node u).adjElems = (q.node u).adjElems := by
  rw [node_close_making h]
  split
  · next hu => rw [hu]
  · split <;> rfl

theorem lists_close {e : Nat} (he : q.Element e) : (q.close p outside clique).lists e = L e := by
  rw [lists, node_close_making h]
  by_cases hep : e = p
  · subst hep
    rw [if_pos rfl, h.list]
  · have hout : e ∉ q.variablesOf clique := fun hm => by
      have hkind := (mem_variablesOf.1 hm).2.symm.trans he
      cases hkind
    rw [if_neg hep, if_neg hout, h.stored he hep]
    rfl

/-- **Closing stores what is linked.** -/
theorem Making.linked_close : (q.close p outside clique).Linked (q.close p outside clique).lists where
  vars_ascending {v} hv := by
    rw [vars_close h]
    exact h.linked.vars_ascending ((live_close h outside).1 hv)
  elems_ascending {v} hv := by
    rw [elems_close h]
    exact h.linked.elems_ascending ((live_close h outside).1 hv)
  vars_live {u v} hv hu := by
    rw [vars_close h] at hu
    exact (live_close h outside).2 (h.linked.vars_live ((live_close h outside).1 hv) hu)
  vars_symm {u v} hv hu := by
    rw [vars_close h] at hu ⊢
    exact h.linked.vars_symm ((live_close h outside).1 hv) hu
  vars_loopless {v} hv := by
    rw [vars_close h]
    exact h.linked.vars_loopless ((live_close h outside).1 hv)
  mem_elems {e v} hv := by
    rw [elems_close h, element_close h, h.linked.mem_elems ((live_close h outside).1 hv)]
    exact and_congr_right fun he => by rw [lists_close h outside he]
  list_nodup {e} he := by
    have he := (element_close h outside).1 he
    rw [lists_close h outside he]
    exact h.linked.list_nodup he
  list_live {e v} he hv := by
    have he := (element_close h outside).1 he
    rw [lists_close h outside he] at hv
    exact (live_close h outside).2 (h.linked.list_live he hv)
  apart {e u v} he hu hv := by
    have he := (element_close h outside).1 he
    rw [lists_close h outside he] at hu hv
    rw [vars_close h]
    exact h.linked.apart he hu hv

/-- **Closing leaves adjacency as it is.** -/
theorem joined_close {u v : Nat} (hu : q.Live u) :
    (q.close p outside clique).Joined (q.close p outside clique).lists u v ↔ q.Joined L u v := by
  rw [Joined, Joined, vars_close h, elems_close h]
  refine or_congr_right (exists_congr fun e => and_congr_right fun he => ?_)
  rw [lists_close h outside (h.linked.element hu he)]

end

end Quotient

end Unknowns
