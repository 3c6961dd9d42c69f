import Mathlib.Data.List.Nodup
import Unknowns.Proofs.Mesh.Calls

/-!
# Meshes that calls put together

A mesh that calls put together from nothing, those that were refused included, is
`Consistent`: its tables have one row for each element, and each block lists the
elements that are in it.  What such a mesh answers is therefore `WellFormed`, and
later calls only add to it (`Extends`).

* `Takes.consistent`, `Takes.only_adds`: what one call keeps;
* `AssembledMesh.answers_assemble`: any calls put a well-formed mesh together, number
  the elements from 0 on, and change nothing when they are refused.
-/

namespace Unknowns

open Assembly (subEntities entityWidth)

namespace AssembledMesh

variable {m m' : AssembledMesh}

/-! ### What one call keeps -/

theorem get?_withBlock (m : AssembledMesh) (block : BlockId) (cell : Cell) (other : BlockId) :
    (m.withBlock block cell).blocks.get? other =
      if other = block then some ⟨cell, []⟩ else m.blocks.get? other :=
  Table.get?_insert ..

theorem get?_withElement (m : AssembledMesh) (block : BlockId) (b : Block)
    (connectivity : List SubEntity) (other : BlockId) :
    (m.withElement block b connectivity).blocks.get? other =
      if other = block then some { b with elements := b.elements ++ [m.connectivity.size] }
      else m.blocks.get? other :=
  Table.get?_insert ..

/-- What the tables of a mesh say of one another. -/
structure Consistent (m : AssembledMesh) : Prop where
  size_elementBlocks : m.elementBlocks.size = m.connectivity.size
  /-- A block lists its elements in order. -/
  elements_eq : ∀ block b, m.blocks.get? block = some b →
    b.elements = (List.range m.connectivity.size).filter fun e => m.elementBlocks[e]? = some block
  /-- Every element is in a declared block and fills its cell. -/
  filled : ∀ (e : Nat) block, m.elementBlocks[e]? = some block → ∃ b connectivity,
    m.blocks.get? block = some b ∧ m.connectivity[e]? = some connectivity ∧
      b.cell.FilledBy connectivity ∧ fits connectivity.length entityWidth

theorem consistent_empty : empty.Consistent where
  size_elementBlocks := rfl
  elements_eq := fun _ _ h => by cases h
  filled := fun _ _ h => by simp [empty] at h

namespace Consistent

variable {block : BlockId}

/-- What is not declared has no elements. -/
theorem filter_eq_nil (h : m.Consistent) (hblock : m.blocks.get? block = none) (size : Nat) :
    ((List.range size).filter fun e => m.elementBlocks[e]? = some block) = [] := by
  refine List.filter_eq_nil_iff.2 fun e _ he => ?_
  obtain ⟨b, -, hb, -⟩ := h.filled e block (of_decide_eq_true he)
  rw [hblock] at hb
  cases hb

theorem withBlock (h : m.Consistent) (hblock : m.blocks.get? block = none) (cell : Cell) :
    (m.withBlock block cell).Consistent where
  size_elementBlocks := h.size_elementBlocks
  elements_eq := fun other b hb => by
    rw [get?_withBlock] at hb
    split at hb
    · next heq =>
      subst heq
      obtain rfl := Option.some.inj hb
      exact (h.filter_eq_nil hblock _).symm
    · exact h.elements_eq other b hb
  filled := fun e other he => by
    obtain ⟨b, connectivity, hb, hrest⟩ := h.filled e other he
    have hne : other ≠ block := by
      rintro rfl
      rw [hblock] at hb
      cases hb
    refine ⟨b, connectivity, ?_, hrest⟩
    rw [get?_withBlock, if_neg hne, hb]

/-- The elements of a block after one more element. -/
theorem filter_push (h : m.Consistent) (block other : BlockId) :
    ((List.range (m.connectivity.size + 1)).filter fun e =>
        (m.elementBlocks.push block)[e]? = some other) =
      ((List.range m.connectivity.size).filter fun e => m.elementBlocks[e]? = some other) ++
        if other = block then [m.connectivity.size] else [] := by
  rw [List.range_succ, List.filter_append]
  congr 1
  · refine List.filter_congr fun e he => ?_
    have hlt : e < m.elementBlocks.size := h.size_elementBlocks ▸ List.mem_range.1 he
    rw [Array.getElem?_push, if_neg (Nat.ne_of_lt hlt)]
  · by_cases hother : other = block
    · simp [hother, ← h.size_elementBlocks, Array.getElem?_push]
    · simp [hother, ← h.size_elementBlocks, Array.getElem?_push, Ne.symm hother]

theorem withElement (h : m.Consistent) {b : Block} (hb : m.blocks.get? block = some b)
    {connectivity : List SubEntity} (hfilled : b.cell.FilledBy connectivity)
    (hfits : fits connectivity.length entityWidth) :
    (m.withElement block b connectivity).Consistent where
  size_elementBlocks := by
    show (m.elementBlocks.push block).size = (m.connectivity.push connectivity).size
    rw [Array.size_push, Array.size_push, h.size_elementBlocks]
  elements_eq := fun other b' hb' => by
    have hsize : (m.withElement block b connectivity).connectivity.size =
        m.connectivity.size + 1 := Array.size_push ..
    rw [hsize]
    refine Eq.trans ?_ (h.filter_push block other).symm
    rw [get?_withElement] at hb'
    split at hb'
    · next heq =>
      subst heq
      obtain rfl := Option.some.inj hb'
      rw [if_pos rfl, ← h.elements_eq _ b hb]
    · next hne => rw [if_neg hne, List.append_nil, h.elements_eq other b' hb']
  filled := fun e other he => by
    have hcell : ∀ b', m.blocks.get? other = some b' →
        ∃ b'', (m.withElement block b connectivity).blocks.get? other = some b'' ∧
          b''.cell = b'.cell := by
      intro b' hb'
      rw [get?_withElement]
      split
      · next heq =>
        subst heq
        obtain rfl := Option.some.inj (hb.symm.trans hb')
        exact ⟨_, rfl, rfl⟩
      · exact ⟨b', hb', rfl⟩
    have he : (m.elementBlocks.push block)[e]? = some other := he
    have hget : (m.withElement block b connectivity).connectivity[e]? =
        if e = m.connectivity.size then some connectivity else m.connectivity[e]? :=
      Array.getElem?_push ..
    rw [Array.getElem?_push, h.size_elementBlocks] at he
    rw [hget]
    split at he
    · next hlast =>
      obtain rfl := Option.some.inj he
      obtain ⟨b'', hb'', heq⟩ := hcell b hb
      exact ⟨b'', connectivity, hb'', if_pos hlast, heq ▸ hfilled, hfits⟩
    · next hlast =>
      obtain ⟨b', connectivity', hb', hget', hfilled', hfits'⟩ := h.filled e other he
      obtain ⟨b'', hb'', heq⟩ := hcell b' hb'
      exact ⟨b'', connectivity', hb'', (if_neg hlast).trans hget', heq ▸ hfilled', hfits'⟩

end Consistent

/-- What a mesh says of its blocks and elements, another says too. -/
structure Extends (m m' : AssembledMesh) : Prop where
  blockCell : ∀ block cell, m.toMesh.blockCell block = some cell →
    m'.toMesh.blockCell block = some cell
  connectivity : ∀ (e : Nat) connectivity, m.toMesh.connectivity e = some connectivity →
    m'.toMesh.connectivity e = some connectivity

theorem Extends.refl (m : AssembledMesh) : m.Extends m :=
  ⟨fun _ _ h => h, fun _ _ h => h⟩

theorem Extends.trans {m'' : AssembledMesh} (h : m.Extends m') (h' : m'.Extends m'') :
    m.Extends m'' :=
  ⟨fun block cell hcell => h'.blockCell block cell (h.blockCell block cell hcell),
    fun e connectivity he => h'.connectivity e connectivity (h.connectivity e connectivity he)⟩

end AssembledMesh

namespace Takes

open AssembledMesh

variable {m m' : AssembledMesh} {answer : Except Error (Option Nat)}

/-- **A call keeps a mesh consistent.** -/
theorem consistent (h : Takes m answer m') (hm : m.Consistent) : m'.Consistent := by
  cases h with
  | refused | kept => exact hm
  | designated owners => exact ⟨hm.size_elementBlocks, hm.elements_eq, hm.filled⟩
  | declared cell hblock => exact hm.withBlock hblock cell
  | added hb hcountable hids hfits =>
    refine hm.withElement hb (filledBy_subEntities hcountable hids) ?_
    rwa [length_subEntities]

/-- **A call only adds to a mesh.** -/
theorem only_adds (h : Takes m answer m') : m.Extends m' := by
  cases h with
  | refused | kept => exact .refl m
  | designated owners => exact ⟨fun _ _ h => h, fun _ _ h => h⟩
  | @declared block cell hblock =>
    refine ⟨fun other cell' hcell => ?_, fun _ _ h => h⟩
    obtain ⟨b, hb, rfl⟩ := Option.map_eq_some_iff.1 hcell
    have hne : other ≠ block := by
      rintro rfl
      rw [hblock] at hb
      cases hb
    show ((m.withBlock block cell).blocks.get? other).map _ = _
    rw [get?_withBlock, if_neg hne, hb]
    rfl
  | @added block b ids hb hcountable hids hfits =>
    refine ⟨fun other cell' hcell => ?_, fun e connectivity he => ?_⟩
    · obtain ⟨b', hb', rfl⟩ := Option.map_eq_some_iff.1 hcell
      show ((m.withElement block b _).blocks.get? other).map _ = _
      rw [get?_withElement]
      split
      · next heq =>
        subst heq
        obtain rfl := Option.some.inj (hb.symm.trans hb')
        rfl
      · rw [hb']
        rfl
    · show (m.connectivity.push _)[e]? = _
      have hlt : e < m.connectivity.size := (Array.getElem?_eq_some_iff.1 he).1
      rw [Array.getElem?_push, if_neg (Nat.ne_of_lt hlt)]
      exact he

/-- A call that is refused leaves the mesh as it was. -/
theorem eq_of_error {e : Error} (h : Takes m (.error e) m') : m' = m := by
  cases h
  rfl

/-- The number that a call answers, if any, is that of the one element that it adds. -/
theorem range_append (h : Takes m answer m') :
    List.range m.connectivity.size ++ answer.toOption.join.toList =
      List.range m'.connectivity.size := by
  cases h with
  | refused | kept | designated | declared => exact List.append_nil _
  | added =>
    show _ = List.range (m.connectivity.push _).size
    rw [Array.size_push, List.range_succ]
    rfl

end Takes

/-! ### Calls one after another -/

namespace AssembledMesh

variable {m : AssembledMesh}

/-- The mesh after calls that are made one after another, whether or not they are refused. -/
def after (m : AssembledMesh) (calls : List Call) : AssembledMesh :=
  calls.foldl (fun m call => (call.perform.run m).2) m

/-- What these calls answer. -/
def answers (m : AssembledMesh) : List Call → List (Except Error (Option Nat))
  | [] => []
  | call :: calls => (call.perform.run m).1 :: answers (call.perform.run m).2 calls

/-- The numbers of elements among answers. -/
def numbersIn (answers : List (Except Error (Option Nat))) : List Nat :=
  answers.filterMap fun answer => answer.toOption.join

theorem after_append (m : AssembledMesh) (calls more : List Call) :
    m.after (calls ++ more) = (m.after calls).after more :=
  List.foldl_append ..

theorem Consistent.after (h : m.Consistent) (calls : List Call) : (m.after calls).Consistent := by
  induction calls generalizing m with
  | nil => exact h
  | cons call calls ih => exact ih ((takes_perform m call).consistent h)

theorem extends_after (m : AssembledMesh) (calls : List Call) : m.Extends (m.after calls) := by
  induction calls generalizing m with
  | nil => exact .refl m
  | cons call calls ih => exact (takes_perform m call).only_adds.trans (ih _)

/-- **Elements are numbered in the order in which they are added.** -/
theorem range_append_numbersIn (m : AssembledMesh) (calls : List Call) :
    List.range m.connectivity.size ++ numbersIn (m.answers calls) =
      List.range (m.after calls).connectivity.size := by
  induction calls generalizing m with
  | nil => exact List.append_nil _
  | cons call calls ih =>
    have hcons : numbersIn (m.answers (call :: calls)) =
        (call.perform.run m).1.toOption.join.toList ++
          numbersIn ((call.perform.run m).2.answers calls) := by
      rw [answers, numbersIn, List.filterMap_cons]
      cases (call.perform.run m).1.toOption.join <;> rfl
    rw [hcons, ← List.append_assoc, (takes_perform m call).range_append, ih]
    rfl

end AssembledMesh

/-! ### What such a mesh answers -/

/-- The elements are those below their number.  Each is in one block, which lists it, and fills the
cell of this block. -/
structure Mesh.WellFormed (mesh : Mesh) : Prop where
  elementBlock_isSome : ∀ e, (mesh.elementBlock e).isSome ↔ e < mesh.numElements
  connectivity_isSome : ∀ e, (mesh.connectivity e).isSome ↔ e < mesh.numElements
  mem_blockIds : ∀ block, block ∈ mesh.blockIds ↔ (mesh.blockCell block).isSome
  blockElements_isSome : ∀ block,
    (mesh.blockElements block).isSome ↔ (mesh.blockCell block).isSome
  ascending : ∀ block elements, mesh.blockElements block = some elements →
    elements.Pairwise (· < ·)
  mem_blockElements : ∀ block elements e, mesh.blockElements block = some elements →
    (e ∈ elements ↔ mesh.elementBlock e = some block)
  /-- The lists of all blocks are a partition of the elements. -/
  partition : (mesh.blockIds.flatMap fun block => (mesh.blockElements block).getD []).Perm
    (List.range mesh.numElements)
  filled : ∀ e block, mesh.elementBlock e = some block → ∃ cell connectivity,
    mesh.blockCell block = some cell ∧ mesh.connectivity e = some connectivity ∧
      cell.FilledBy connectivity

namespace AssembledMesh

variable {m : AssembledMesh}

namespace Consistent

theorem mem_elements (h : m.Consistent) {block : BlockId} {b : Block}
    (hb : m.blocks.get? block = some b) {e : Nat} :
    e ∈ b.elements ↔ m.elementBlocks[e]? = some block := by
  rw [h.elements_eq block b hb, List.mem_filter, List.mem_range, decide_eq_true_iff,
    and_iff_right_iff_imp]
  intro he
  exact h.size_elementBlocks ▸ (Array.getElem?_eq_some_iff.1 he).1

theorem pairwise_elements (h : m.Consistent) {block : BlockId} {b : Block}
    (hb : m.blocks.get? block = some b) : b.elements.Pairwise (· < ·) := by
  rw [h.elements_eq block b hb]
  exact List.pairwise_lt_range.filter _

/-- Each element is listed by one block, once. -/
theorem perm_range (h : m.Consistent) :
    (m.blocks.entries.flatMap fun entry => entry.2.elements).Perm
      (List.range m.connectivity.size) := by
  have hentry : ∀ entry ∈ m.blocks.entries, m.blocks.get? entry.1 = some entry.2 :=
    fun entry hentry => Table.mem_entries_iff.1 hentry
  refine (List.perm_ext_iff_of_nodup ?_ List.nodup_range).2 fun e => ?_
  · refine List.nodup_flatMap.2 ⟨fun entry hmem => ?_, ?_⟩
    · exact (h.pairwise_elements (hentry entry hmem)).imp Nat.ne_of_lt
    · refine m.blocks.sorted.imp_of_mem fun {x y} hx hy hbefore e hex hey => ?_
      have hsame := ((h.mem_elements (hentry x hx)).1 hex).symm.trans
        ((h.mem_elements (hentry y hy)).1 hey)
      exact not_before_self x.1 ((Option.some.inj hsame) ▸ hbefore)
  · rw [List.mem_flatMap, List.mem_range, ← h.size_elementBlocks]
    constructor
    · rintro ⟨entry, hmem, he⟩
      exact (Array.getElem?_eq_some_iff.1 ((h.mem_elements (hentry entry hmem)).1 he)).1
    · intro he
      obtain ⟨b, -, hb, -⟩ := h.filled e _ (Array.getElem?_eq_getElem he)
      exact ⟨_, Table.mem_entries_iff.2 hb, (h.mem_elements hb).2 (Array.getElem?_eq_getElem he)⟩

/-- **What a consistent mesh answers is well-formed.** -/
theorem wellFormed (h : m.Consistent) : m.toMesh.WellFormed where
  elementBlock_isSome e := by
    show (m.elementBlocks[e]?).isSome ↔ e < m.connectivity.size
    simp [← h.size_elementBlocks]
  connectivity_isSome e := by
    show (m.connectivity[e]?).isSome ↔ e < m.connectivity.size
    simp
  mem_blockIds block := by
    show block ∈ m.blocks.keys ↔ ((m.blocks.get? block).map (·.cell)).isSome
    rw [Option.isSome_map, Table.mem_keys_iff]
  blockElements_isSome block := by
    show ((m.blocks.get? block).map _).isSome ↔ ((m.blocks.get? block).map _).isSome
    rw [Option.isSome_map, Option.isSome_map]
  ascending block elements hb := by
    obtain ⟨b, hget, rfl⟩ := Option.map_eq_some_iff.1 hb
    exact h.pairwise_elements hget
  mem_blockElements block elements e hb := by
    obtain ⟨b, hget, rfl⟩ := Option.map_eq_some_iff.1 hb
    exact h.mem_elements hget
  partition := by
    have hlists : ((m.blocks.keys).flatMap fun block =>
        (m.toMesh.blockElements block).getD []) =
        m.blocks.entries.flatMap fun entry => entry.2.elements := by
      rw [Table.keys, List.flatMap_map]
      refine List.flatMap_congr fun entry hmem => ?_
      show ((m.blocks.get? entry.1).map _).getD [] = _
      rw [Table.mem_entries_iff.1 hmem]
      rfl
    exact hlists ▸ h.perm_range
  filled e block he := by
    obtain ⟨b, connectivity, hb, hget, hfilled, -⟩ := h.filled e block he
    exact ⟨b.cell, connectivity, Option.map_eq_some_iff.2 ⟨b, hb, rfl⟩, hget, hfilled⟩

end Consistent

/-- **Whatever is called, the mesh is well-formed.**  The elements are numbered from 0 in the order
in which they are added.  What is called later does not change the cell of a block, and what is
refused changes nothing. -/
theorem answers_assemble (calls : List Call) :
    (empty.after calls).toMesh.WellFormed ∧
    numbersIn (empty.answers calls) = List.range (empty.after calls).toMesh.numElements ∧
    (∀ block cell, (empty.after calls).toMesh.blockCell block = some cell →
      ∀ more, (empty.after (calls ++ more)).toMesh.blockCell block = some cell) ∧
    ∀ (call : Call) e, (call.perform.run (empty.after calls)).1 = .error e →
      (call.perform.run (empty.after calls)).2 = empty.after calls := by
  refine ⟨(consistent_empty.after calls).wellFormed, ?_, fun block cell hcell more => ?_,
    fun call e he => ?_⟩
  · exact range_append_numbersIn empty calls
  · rw [after_append]
    exact (extends_after _ more).blockCell block cell hcell
  · exact (he ▸ takes_perform _ call).eq_of_error

/-- Two segments, and between them one with a node too few and a block that is declared again. -/
theorem answers_assemble_segments :
    let calls : List Call := [.addBlock 0 .segment, .addElementFromNodes 0 [1, 2] 100,
      .addElementFromNodes 0 [2] 101, .addBlock 0 .triangle, .addElementFromNodes 0 [2, 3] 101]
    numbersIn (empty.answers calls) = [0, 1] ∧
      (empty.after (calls ++ [.addBlock 0 .vertex])).toMesh.blockCell 0 = some .segment ∧
      ((Call.addElement 7 [[1]]).perform.run (empty.after calls)).2 = empty.after calls := by
  intro calls
  obtain ⟨-, hnumbers, hcell, hrefused⟩ := answers_assemble calls
  exact ⟨hnumbers, hcell 0 .segment rfl [.addBlock 0 .vertex],
    hrefused (.addElement 7 [[1]]) (.unknownBlock 7) rfl⟩

end AssembledMesh

end Unknowns
