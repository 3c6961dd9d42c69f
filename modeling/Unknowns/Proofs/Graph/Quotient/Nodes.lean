import Unknowns.Graph.Quotient

/-!
# What each step does to the nodes

Every step of an elimination changes some nodes of the quotient graph and leaves
the others as they are.  For each step there is one equation that says what
becomes of any node: `node_retire`, `node_prune`, `node_absorb`, `node_merge` and
`node_close`.
-/

namespace Unknowns

namespace Quotient

variable {q : Quotient}

/-- The node is a variable of the graph. -/
def Live (q : Quotient) (v : Nat) : Prop := v < q.nodes.size ∧ (q.node v).kind = .variable

/-- The node is an element that is still needed. -/
def Element (q : Quotient) (e : Nat) : Prop := (q.node e).kind = .element

/-- The nodes that a variable stands for, itself first. -/
def group (q : Quotient) (v : Nat) : List Nat := v :: (q.node v).members

/-- The members of a list that are variables. -/
def variablesOf (q : Quotient) (vs : List Nat) : List Nat := vs.filter fun v => (q.node v).isVariable

theorem isVariable_iff {v : Nat} : (q.node v).isVariable = true ↔ (q.node v).kind = .variable :=
  decide_eq_true_iff

theorem isElement_iff {e : Nat} : (q.node e).isElement = true ↔ q.Element e :=
  decide_eq_true_iff

/-- Only nodes of the graph can be anything else than variables. -/
theorem lt_size_of_kind_ne {v : Nat} (h : (q.node v).kind ≠ .variable) : v < q.nodes.size := by
  refine Nat.lt_of_not_le fun hle => h ?_
  have hnone : q.node v = default := by
    rw [node, Array.getD_eq_getD_getElem?, Array.getElem?_eq_none hle]
    rfl
  rw [hnone]
  rfl

theorem Element.lt_size {e : Nat} (h : q.Element e) : e < q.nodes.size :=
  lt_size_of_kind_ne (by rw [h]; decide)

theorem Live.ne_element {v e : Nat} (hv : q.Live v) (he : q.Element e) : v ≠ e := by
  rintro rfl
  have hkind := hv.2.symm.trans he
  cases hkind

/-! ### Changing nodes -/

@[simp] theorem size_modify (v : Nat) (f : QuotientNode → QuotientNode) :
    (q.modify v f).nodes.size = q.nodes.size := Array.size_modify ..

theorem node_modify {v : Nat} (hv : v < q.nodes.size) (f : QuotientNode → QuotientNode) (u : Nat) :
    (q.modify v f).node u = if u = v then f (q.node u) else q.node u := by
  simp only [node, modify, Array.getD_eq_getD_getElem?, Array.getElem?_modify]
  by_cases hu : u = v
  · subst hu
    simp [hv]
  · have hne : ¬ v = u := fun he => hu he.symm
    simp [hu, hne]

/-- What no change of one node changes, no change of a list of nodes does. -/
theorem modifyAll_congr {α : Type} {g : Quotient → α} (hg : ∀ q v f, g (modify q v f) = g q)
    (vs : List Nat) (f : Nat → QuotientNode → QuotientNode) : g (q.modifyAll vs f) = g q := by
  induction vs generalizing q with
  | nil => rfl
  | cons v vs ih => exact (ih (q := q.modify v (f v))).trans (hg q v (f v))

@[simp] theorem size_modifyAll (vs : List Nat) (f : Nat → QuotientNode → QuotientNode) :
    (q.modifyAll vs f).nodes.size = q.nodes.size :=
  modifyAll_congr (g := fun q => q.nodes.size) (fun _ v f => size_modify v f) vs f

theorem node_modifyAll {vs : List Nat} (hn : vs.Nodup) (hvs : ∀ v ∈ vs, v < q.nodes.size)
    (f : Nat → QuotientNode → QuotientNode) (u : Nat) :
    (q.modifyAll vs f).node u = if u ∈ vs then f u (q.node u) else q.node u := by
  induction vs generalizing q with
  | nil => rfl
  | cons v vs ih =>
    have hv := hvs v (List.mem_cons_self ..)
    have hrest := ih (q := q.modify v (f v)) (List.nodup_cons.1 hn).2 fun w hw => by
      rw [size_modify]
      exact hvs w (List.mem_cons_of_mem _ hw)
    refine hrest.trans ?_
    rw [node_modify hv]
    by_cases hu : u = v
    · subst hu
      rw [if_neg (List.nodup_cons.1 hn).1, if_pos rfl, if_pos (List.mem_cons_self ..)]
    · simp only [List.mem_cons, hu, if_false, false_or]

/-! ### The steps -/

@[simp] theorem size_retire (p : Nat) (clique : List Nat) :
    (q.retire p clique).nodes.size = q.nodes.size :=
  (size_modify ..).trans (size_modifyAll ..)

@[simp] theorem size_prune (p : Nat) (clique : List Nat) :
    (q.prune p clique).nodes.size = q.nodes.size := size_modifyAll ..

@[simp] theorem size_absorb (p : Nat) (clique dead : List Nat) :
    (q.absorb p clique dead).nodes.size = q.nodes.size :=
  (size_modifyAll ..).trans (size_modifyAll ..)

@[simp] theorem size_merge (i j : Nat) : (q.merge i j).nodes.size = q.nodes.size :=
  (size_modifyAll ..).trans ((size_modifyAll ..).trans ((size_modify ..).trans (size_modify ..)))

@[simp] theorem size_close (p : Nat) (outside : Table Nat Nat) (clique : List Nat) :
    (q.close p outside clique).nodes.size = q.nodes.size :=
  (size_modify ..).trans (size_modifyAll ..)

/-- **Retiring**: the variable is an element, and its elements are absorbed. -/
theorem node_retire {p : Nat} (hp : q.Live p) (hn : (q.node p).adjElems.Nodup)
    (helems : ∀ e ∈ (q.node p).adjElems, q.Element e) (clique : List Nat) (u : Nat) :
    (q.retire p clique).node u =
      if u = p then
        { q.node p with kind := .element, adjVars := [], adjElems := [], members := [] }
      else if u ∈ (q.node p).adjElems then
        { q.node u with kind := .absorbed p, elemVars := [] }
      else q.node u := by
  have hnot : p ∉ (q.node p).adjElems := fun hm => hp.ne_element (helems p hm) rfl
  have hall := node_modifyAll hn (fun e he => (helems e he).lt_size)
    (fun _ e => { e with kind := .absorbed p, elemVars := [] })
  have hsize : p < (q.modifyAll (q.node p).adjElems
      fun _ e => { e with kind := .absorbed p, elemVars := [] }).nodes.size := by
    rw [size_modifyAll]
    exact hp.1
  refine (node_modify hsize _ u).trans ?_
  rw [hall]
  by_cases hu : u = p
  · subst hu
    rw [if_pos rfl, if_pos rfl, if_neg hnot]
  · rw [if_neg hu, if_neg hu]

/-- **Pruning**: the variables of the clique forget what is superfluous and join the element. -/
theorem node_prune {clique : List Nat} (hn : clique.Nodup) (hlive : ∀ v ∈ clique, q.Live v)
    (p u : Nat) :
    (q.prune p clique).node u =
      if u ∈ clique then
        { q.node u with
          adjVars := (q.node u).adjVars.filter fun v =>
            v ≠ p ∧ v ∉ clique ∧ (q.node v).isVariable
          adjElems := insertAscending p ((q.node u).adjElems.filter fun e =>
            (q.node e).isElement) }
      else q.node u :=
  node_modifyAll hn (fun v hv => (hlive v hv).1) _ u

/-- **Absorption**: the dead elements are absorbed, and the clique forgets them. -/
theorem node_absorb {clique dead : List Nat} (hn : clique.Nodup) (hlive : ∀ v ∈ clique, q.Live v)
    (hd : dead.Nodup) (hdead : ∀ e ∈ dead, q.Element e) (p u : Nat) :
    (q.absorb p clique dead).node u =
      if u ∈ dead then { q.node u with kind := .absorbed p, elemVars := [] }
      else if u ∈ clique then
        { q.node u with adjElems := (q.node u).adjElems.filter (· ∉ dead) }
      else q.node u := by
  have hall := node_modifyAll hd (fun e he => (hdead e he).lt_size)
    (fun _ e => { e with kind := .absorbed p, elemVars := [] })
  refine (node_modifyAll hn (fun v hv => ?_) _ u).trans ?_
  · rw [size_modifyAll]
    exact (hlive v hv).1
  · rw [hall]
    by_cases hu : u ∈ dead
    · have hnot : u ∉ clique := fun hm => (hlive u hm).ne_element (hdead u hu) rfl
      rw [if_pos hu, if_pos hu, if_neg hnot]
    · rw [if_neg hu, if_neg hu]

/-- What has to hold of two variables for one to be merged into the other. -/
structure Mergeable (q : Quotient) (i j : Nat) : Prop where
  live_left : q.Live i
  live_right : q.Live j
  ne : i ≠ j
  vars_eq : (q.node i).adjVars = (q.node j).adjVars
  elems_eq : (q.node i).adjElems = (q.node j).adjElems
  vars_nodup : (q.node j).adjVars.Nodup
  vars_live : ∀ v ∈ (q.node j).adjVars, q.Live v
  vars_left : i ∉ (q.node j).adjVars
  vars_right : j ∉ (q.node j).adjVars
  elems_nodup : (q.node j).adjElems.Nodup
  elems : ∀ e ∈ (q.node j).adjElems, q.Element e

/-- **Merging**: one variable takes over the nodes of the other, which all others forget. -/
theorem node_merge {i j : Nat} (h : q.Mergeable i j) (u : Nat) :
    (q.merge i j).node u =
      if u = j then
        { q.node j with kind := .merged i, weight := 0, members := [], adjVars := [], adjElems := [] }
      else if u = i then
        { q.node i with
          weight := (q.node i).weight + (q.node j).weight
          members := (q.node i).members ++ j :: (q.node j).members }
      else if u ∈ (q.node j).adjElems then
        { q.node u with elemVars := (q.node u).elemVars.filter (· ≠ j) }
      else if u ∈ (q.node j).adjVars then
        { q.node u with adjVars := (q.node u).adjVars.filter (· ≠ j) }
      else q.node u := by
  have hi : i ∉ (q.node j).adjElems := fun hm => h.live_left.ne_element (h.elems i hm) rfl
  have hj : j ∉ (q.node j).adjElems := fun hm => h.live_right.ne_element (h.elems j hm) rfl
  have hapart : u ∈ (q.node j).adjElems → u ∉ (q.node j).adjVars := fun he hv =>
    (h.vars_live u hv).ne_element (h.elems u he) rfl
  let q₁ := q.modify i fun x =>
    { x with weight := x.weight + (q.node j).weight,
             members := x.members ++ j :: (q.node j).members }
  let q₂ := q₁.modify j fun y =>
    { y with kind := .merged i, weight := 0, members := [], adjVars := [], adjElems := [] }
  let q₃ := q₂.modifyAll (q.node j).adjElems fun _ e =>
    { e with elemVars := e.elemVars.filter (· ≠ j) }
  have hsize₁ : q₁.nodes.size = q.nodes.size := size_modify ..
  have hsize₂ : q₂.nodes.size = q.nodes.size := (size_modify ..).trans hsize₁
  have hsize₃ : q₃.nodes.size = q.nodes.size := (size_modifyAll ..).trans hsize₂
  have h₁ := node_modify h.live_left.1 (fun x => { x with
    weight := x.weight + (q.node j).weight, members := x.members ++ j :: (q.node j).members }) u
  have h₂ := node_modify (q := q₁) (hsize₁ ▸ h.live_right.1) (fun y => { y with
    kind := .merged i, weight := 0, members := [], adjVars := [], adjElems := [] }) u
  have h₃ := node_modifyAll (q := q₂) h.elems_nodup (fun e he => hsize₂ ▸ (h.elems e he).lt_size)
    (fun _ e => { e with elemVars := e.elemVars.filter (· ≠ j) }) u
  have h₄ := node_modifyAll (q := q₃) h.vars_nodup (fun v hv => hsize₃ ▸ (h.vars_live v hv).1)
    (fun _ x => { x with adjVars := x.adjVars.filter (· ≠ j) }) u
  refine h₄.trans ?_
  rw [h₃, h₂, h₁]
  by_cases huj : u = j
  · subst huj
    have hne : u ≠ i := fun he => h.ne he.symm
    rw [if_neg h.vars_right, if_neg hj, if_pos rfl, if_neg hne, if_pos rfl]
  · rw [if_neg huj, if_neg huj]
    by_cases hui : u = i
    · subst hui
      rw [if_neg h.vars_left, if_neg hi, if_pos rfl, if_pos rfl]
    · rw [if_neg hui, if_neg hui]
      by_cases hue : u ∈ (q.node j).adjElems
      · rw [if_pos hue, if_neg (hapart hue), if_pos hue]
      · rw [if_neg hue, if_neg hue]

/-- **Closing**: the variables of the clique that are left get their bounds and are those of the
element. -/
theorem node_close {p : Nat} {clique : List Nat} (hp : q.Element p) (hn : clique.Nodup)
    (hlt : ∀ v ∈ clique, v < q.nodes.size) (outside : Table Nat Nat) (u : Nat) :
    (q.close p outside clique).node u =
      if u = p then { q.node p with elemVars := q.variablesOf clique }
      else if u ∈ q.variablesOf clique then
        { q.node u with
          degree := q.newDegree p (q.weightOf (q.variablesOf clique)) outside u }
      else q.node u := by
  have hleft : (q.variablesOf clique).Nodup := hn.filter _
  let q₁ := q.modifyAll (q.variablesOf clique) fun i x =>
    { x with degree := q.newDegree p (q.weightOf (q.variablesOf clique)) outside i }
  have hsize : q₁.nodes.size = q.nodes.size := size_modifyAll ..
  have h₁ := node_modifyAll hleft (fun v hv => hlt v (List.mem_filter.1 hv).1)
    (fun i x => { x with
      degree := q.newDegree p (q.weightOf (q.variablesOf clique)) outside i }) u
  have h₂ := node_modify (q := q₁) (hsize ▸ hp.lt_size)
    (fun x => { x with elemVars := q.variablesOf clique }) u
  have hnot : p ∉ q.variablesOf clique := fun hm => by
    have hkind := (isVariable_iff.1 (List.mem_filter.1 hm).2).symm.trans hp
    cases hkind
  refine h₂.trans ?_
  rw [h₁]
  by_cases hu : u = p
  · subst hu
    rw [if_pos rfl, if_pos rfl, if_neg hnot]
  · rw [if_neg hu, if_neg hu]

end Quotient

end Unknowns
