import Unknowns.Proofs.Build.Ids
import Unknowns.Proofs.Field.Layout

/-!
# The ids of the elements

The two phases that concern one rank only, read off their outcome: which blocks
have a layout (`Manager.get?_of_patternPhase`) and which keys the elements have
(`Manager.keysOf_eq_ok`).  After a build that succeeded on all ranks, the places
among the ids of an element *address* keys (`Manager.Addresses`):

* `Crew.Succeeded.addresses_iff`: a place addresses the key that stands there;
* `Crew.Succeeded.elementGids_eq_ok_iff`: and the id there is that of this key;
* `Crew.Succeeded.laidOut`: the ids of an element stand as the layout of its block has them.
-/

namespace Unknowns

namespace Manager

variable {m : Manager} {mesh : Mesh} {block : BlockId}

/-! ### Layouts -/

theorem fieldPattern?_eq (m : Manager) (block : BlockId) (field : Nat) :
    m.fieldPattern? block field = (m.blockFields block).get? field := by
  rw [blockFields, Table.get?_override, fieldPattern?]
  cases m.blockPatterns.get? block with
  | none => rfl
  | some t =>
    rw [Option.bind_some, Option.getD_some]
    cases t.get? field <;> rfl

/-- A block without fields has no layout. -/
theorem layoutOf_of_isEmpty (h : (m.blockFields block).isEmpty = true) :
    m.layoutOf mesh block = .ok none := by
  rw [layoutOf]
  exact if_pos h

/-- **The layout of a block is that of the fields in effect there, on the cell of the block.** -/
theorem layoutOf_eq_some {l : BlockLayout} (h : m.layoutOf mesh block = .ok (some l)) :
    mesh.blockCell block = some l.cell ∧ l.fields = m.blockFields block ∧ l.Complete := by
  unfold layoutOf at h
  dsimp only at h
  split at h
  · cases h
  · next hne =>
    split at h
    · cases h
    · next cell hcell =>
      obtain ⟨_, hcheck, h⟩ := bind_eq_ok_iff.1 h
      split at h
      · next l' hmerge =>
        obtain rfl : l' = l := Option.some.inj (Except.ok.inj h)
        have hcells : ∀ e ∈ (m.blockFields block).entries, e.2.cell = cell := by
          unfold checkBlockCell at hcheck
          split at hcheck
          · cases hcheck
          · next hnone =>
            intro e he
            simpa using List.find?_eq_none.1 hnone e he
        obtain ⟨rfl, hfields, hcomplete⟩ :=
          BlockLayout.merge_eq_ok (Bool.eq_false_iff.2 hne) hcells hmerge
        exact ⟨hcell, hfields, hcomplete⟩
      · cases h

theorem isEmpty_of_layoutOf (h : m.layoutOf mesh block = .ok none) :
    (m.blockFields block).isEmpty = true := by
  unfold layoutOf at h
  dsimp only at h
  split at h
  · assumption
  · split at h
    · cases h
    · obtain ⟨_, -, h⟩ := bind_eq_ok_iff.1 h
      split at h <;> cases h

/-- The blocks of a list that have a layout, with their layouts. -/
def layouts (m : Manager) (mesh : Mesh) (blocks : List BlockId) : List (BlockId × BlockLayout) :=
  blocks.filterMap fun b => match m.layoutOf mesh b with
    | .ok l => l.map fun l => (b, l)
    | .error _ => none

theorem layoutsOf_eq_ok_iff {blocks : List BlockId} {ls : List (BlockId × BlockLayout)} :
    m.layoutsOf mesh blocks = .ok ls ↔
      (∀ b ∈ blocks, ∃ l, m.layoutOf mesh b = .ok l) ∧ ls = m.layouts mesh blocks := by
  induction blocks generalizing ls with
  | nil =>
    show Except.ok [] = Except.ok ls ↔ _
    simp [layouts, eq_comm]
  | cons block blocks ih =>
    rw [layoutsOf, bind_eq_ok_iff, layouts, List.filterMap_cons]
    simp only [bind_eq_ok_iff, ih, List.forall_mem_cons]
    constructor
    · rintro ⟨l, hl, others, ⟨hall, rfl⟩, h⟩
      refine ⟨⟨⟨l, hl⟩, hall⟩, ?_⟩
      rw [hl]
      cases l <;> exact (Except.ok.inj h).symm
    · rintro ⟨⟨⟨l, hl⟩, hall⟩, rfl⟩
      refine ⟨l, hl, _, ⟨hall, rfl⟩, ?_⟩
      rw [hl]
      cases l <;> rfl

theorem mem_layouts {blocks : List BlockId} {l : BlockLayout} :
    (block, l) ∈ m.layouts mesh blocks ↔
      block ∈ blocks ∧ m.layoutOf mesh block = .ok (some l) := by
  rw [layouts, List.mem_filterMap]
  constructor
  · rintro ⟨b, hb, h⟩
    cases hl : m.layoutOf mesh b with
    | error e => simp [hl] at h
    | ok o =>
      rw [hl] at h
      obtain ⟨l', rfl, hpair⟩ := Option.map_eq_some_iff.1 h
      obtain ⟨rfl, rfl⟩ := Prod.mk.inj hpair
      exact ⟨hb, hl⟩
  · rintro ⟨hb, hl⟩
    exact ⟨block, hb, by rw [hl]; rfl⟩

theorem pairwise_layouts {blocks : List BlockId} (h : blocks.Pairwise Before) :
    (m.layouts mesh blocks).Pairwise fun a b => Before a.1 b.1 := by
  have hfst : ∀ b e, (match m.layoutOf mesh b with
      | .ok l => l.map fun l => (b, l)
      | .error _ => none) = some e → e.1 = b := by
    intro b e he
    split at he
    · obtain ⟨l, -, rfl⟩ := Option.map_eq_some_iff.1 he
      rfl
    · cases he
  refine List.Pairwise.filterMap _ (fun a b hab x hx y hy => ?_) h
  rw [hfst a x hx, hfst b y hy]
  exact hab

/-- **The known blocks have the layouts of their fields**, and other blocks have none. -/
theorem get?_of_patternPhase {table : Table BlockId BlockLayout}
    (h : m.patternPhase mesh = .ok table) (block : BlockId) :
    (block ∈ mesh.blockIds → m.layoutOf mesh block = .ok (table.get? block)) ∧
      (block ∉ mesh.blockIds → table.get? block = none) := by
  obtain ⟨_, -, h⟩ := bind_eq_ok_iff.1 h
  obtain ⟨ls, hls, h⟩ := bind_eq_ok_iff.1 h
  obtain rfl := Except.ok.inj h
  obtain ⟨hall, rfl⟩ := layoutsOf_eq_ok_iff.1 hls
  have hsorted : (m.layouts mesh (ascending mesh.blockIds)).Pairwise fun a b => Before a.1 b.1 :=
    pairwise_layouts (pairwise_ascending mesh.blockIds)
  have hget : ∀ l, (Table.ofList (m.layouts mesh (ascending mesh.blockIds))).get? block = some l ↔
      block ∈ mesh.blockIds ∧ m.layoutOf mesh block = .ok (some l) := by
    intro l
    rw [Table.get?_ofList hsorted, Table.find_eq_some hsorted, mem_layouts, mem_ascending]
  constructor
  · intro hmem
    obtain ⟨o, ho⟩ := hall block (mem_ascending.2 hmem)
    rw [ho]
    congr 1
    refine Option.ext fun l => ?_
    rw [hget l, and_iff_right hmem, ho, Except.ok.injEq]
  · intro hmem
    cases hl : (Table.ofList (m.layouts mesh (ascending mesh.blockIds))).get? block with
    | none => rfl
    | some l => exact absurd ((hget l).1 hl).1 hmem

/-- A layout merges the fields in effect on a block, each with the very pattern that is in effect, and
no others. -/
structure Merges (m : Manager) (mesh : Mesh) (block : BlockId) (l : BlockLayout) : Prop where
  cell : mesh.blockCell block = some l.cell
  fieldPattern? : ∀ field, l.fieldPattern? field = m.fieldPattern? block field
  complete : l.Complete

section
variable {table : Table BlockId BlockLayout} (h : m.patternPhase mesh = .ok table)
include h

/-- A block with a layout is known to the mesh, and its layout is that of its fields. -/
theorem layoutOf_of_get? {l : BlockLayout} (hl : table.get? block = some l) :
    m.layoutOf mesh block = .ok (some l) := by
  have hphase := get?_of_patternPhase h block
  have hmem : block ∈ mesh.blockIds := by
    by_contra hmem
    rw [hphase.2 hmem] at hl
    cases hl
  rw [hphase.1 hmem, hl]

theorem merges_of_get? {l : BlockLayout} (hl : table.get? block = some l) :
    m.Merges mesh block l := by
  obtain ⟨hcell, hfields, hcomplete⟩ := layoutOf_eq_some (layoutOf_of_get? h hl)
  refine ⟨hcell, fun field => ?_, hcomplete⟩
  rw [fieldPattern?_eq, BlockLayout.fieldPattern?, hfields]

/-- A known block with a field has a layout. -/
theorem exists_get?_of_fieldPattern? (hblock : block ∈ mesh.blockIds) {field : Nat}
    {p : FieldPattern} (hp : m.fieldPattern? block field = some p) :
    ∃ l, table.get? block = some l := by
  cases hl : table.get? block with
  | some l => exact ⟨l, rfl⟩
  | none =>
    have hlayout := (get?_of_patternPhase h block).1 hblock
    rw [hl] at hlayout
    rw [fieldPattern?_eq, Table.get?_of_isEmpty (isEmpty_of_layoutOf hlayout)] at hp
    cases hp

/-- A block without fields has no layout. -/
theorem get?_of_fieldPattern?_eq_none (hempty : ∀ field, m.fieldPattern? block field = none) :
    table.get? block = none := by
  have hphase := get?_of_patternPhase h block
  by_cases hblock : block ∈ mesh.blockIds
  · have hfields : (m.blockFields block).isEmpty = true :=
      Table.isEmpty_of_forall fun field => by rw [← fieldPattern?_eq, hempty field]
    have hlayout := hphase.1 hblock
    rw [layoutOf_of_isEmpty hfields] at hlayout
    exact (Except.ok.inj hlayout).symm
  · exact hphase.2 hblock

end

/-! ### Keys -/

theorem keysFrom_eq (mesh : Mesh) (layouts : Table BlockId BlockLayout) (element count : Nat) :
    keysFrom mesh layouts element count =
      (List.range' element count).mapM (keysOf mesh layouts) := by
  induction count generalizing element with
  | zero => rfl
  | succ count ih =>
    rw [keysFrom, ih, List.range'_succ, List.mapM_cons]
    rfl

theorem connectivityPhase_eq (mesh : Mesh) (layouts : Table BlockId BlockLayout) :
    connectivityPhase mesh layouts = (List.range mesh.numElements).mapM (keysOf mesh layouts) := by
  rw [connectivityPhase, keysFrom_eq, List.range_eq_range']

/-- **The keys of an element** are those of the layout of its block, and none without one. -/
theorem keysOf_eq_ok {layouts : Table BlockId BlockLayout} {element : Nat} {ks : List DofKey}
    (h : keysOf mesh layouts element = .ok ks) :
    ∃ block, mesh.elementBlock element = some block ∧
      (layouts.get? block = none → ks = []) ∧
      ∀ l, layouts.get? block = some l → ∃ connectivity,
        mesh.connectivity element = some connectivity ∧
          l.elementKeys element connectivity = .ok ks := by
  unfold keysOf at h
  split at h
  · cases h
  · next block hblock =>
    refine ⟨block, hblock, ?_⟩
    split at h
    · next hnone =>
      refine ⟨fun _ => (Except.ok.inj h).symm, fun l hl => ?_⟩
      rw [hnone] at hl
      cases hl
    · next l hl =>
      split at h
      · cases h
      · next connectivity hconnectivity =>
        refine ⟨fun hnone => ?_, fun l' hl' => ?_⟩
        · rw [hnone] at hl
          cases hl
        · obtain rfl := Option.some.inj (hl'.symm.trans hl)
          exact ⟨connectivity, hconnectivity, h⟩

/-! ### Places -/

/-- A place among the ids of an element is the one of component `k.component` of field `k.field` on
a sub-cell, and in the connectivity of the element `k.entity` stands for this sub-cell: after all
sub-cells of lower dimensions and those of its own that come before it. -/
def Addresses (m : Manager) (mesh : Mesh) (element place : Nat) (k : DofKey) : Prop :=
  ∃ block cell connectivity dim subCell offsets,
    mesh.elementBlock element = some block ∧ mesh.blockCell block = some cell ∧
    mesh.connectivity element = some connectivity ∧ subCell < cell.subEntityCount dim ∧
    connectivity[total (cell.subEntityCounts.take dim) + subCell]? = some k.entity ∧
    m.subCellOffsets block k.field dim subCell = .ok offsets ∧
    offsets[k.component]? = some place

/-- The ids of an element of `block` stand where the fields in effect there have their places. -/
structure LaidOut (m : Manager) (mesh : Mesh) (element : Nat) (block : BlockId)
    (gids : List UInt64) : Prop where
  empty : (∀ field, m.fieldPattern? block field = none) → gids = []
  length : ∀ field p, m.fieldPattern? block field = some p →
    ∃ l, m.blockLayout block = .ok l ∧ gids.length = l.numDofs
  /-- The ids of a field on a sub-cell are those of its components on the sub-entity that the
  connectivity has for this sub-cell. -/
  places : ∀ field p, m.fieldPattern? block field = some p →
    ∃ cell connectivity n, mesh.blockCell block = some cell ∧
      mesh.connectivity element = some connectivity ∧ m.numbering = .ok n ∧
      ∀ dim subCell, subCell < cell.subEntityCount dim → ∃ offsets,
        m.subCellOffsets block field dim subCell = .ok offsets ∧
        offsets.length = (p.subCellIndices dim subCell).length ∧
        ∀ i place : Nat, offsets[i]? = some place → ∃ e gid,
          connectivity[total (cell.subEntityCounts.take dim) + subCell]? = some e ∧
          gids[place]? = some gid ∧ n.gid? ⟨e, field, i⟩ = some gid

theorem blockLayout_eq {b : Built} (h : m.built = some b) (block : BlockId) :
    m.blockLayout block = match b.layouts.get? block with
      | some l => .ok l
      | none => .error (.unknownBlock block) := by
  rw [blockLayout, result, h]
  rfl

/-- The offsets in a block are those of its layout. -/
theorem subCellOffsets_eq_ok_iff {b : Built} (h : m.built = some b) {field dim subCell : Nat}
    {offsets : List Nat} :
    m.subCellOffsets block field dim subCell = .ok offsets ↔
      ∃ l, b.layouts.get? block = some l ∧ l.subCellOffsets field dim subCell = .ok offsets := by
  rw [subCellOffsets, blockLayout_eq h, bind_eq_ok_iff]
  constructor
  · rintro ⟨l, hl, hok⟩
    refine ⟨l, ?_, ?_⟩
    · split at hl
      · next hget => exact hget.trans (congrArg some (Except.ok.inj hl))
      · cases hl
    · split at hok
      · cases hok
      · exact hok
  · rintro ⟨l, hl, hok⟩
    refine ⟨l, by rw [hl], ?_⟩
    rw [hok]

end Manager

namespace Crew

variable {c : Crew} {report : Nat → Manager.Report}

/-- What comes of the phases of one rank: layouts, and with them the keys of all elements. -/
theorem of_phases_eq_ok {r : Nat} {p : Manager.Prepared} (h : c.phases r = .ok p) :
    (c.manager r).patternPhase (c.mesh r) = .ok p.layouts ∧
      (List.range (c.mesh r).numElements).mapM (Manager.keysOf (c.mesh r) p.layouts) =
        .ok p.elementKeys := by
  obtain ⟨table, htable, hrest⟩ := bind_eq_ok_iff.1 h
  obtain ⟨kss, hkss, hok⟩ := bind_eq_ok_iff.1 hrest
  obtain rfl := Except.ok.inj hok
  exact ⟨htable, by rw [← Manager.connectivityPhase_eq, hkss]⟩

namespace Succeeded

theorem patternPhase_eq (h : c.Succeeded report) {r : Nat} (hr : r < c.count) :
    (c.manager r).patternPhase (c.mesh r) = .ok (c.prepared r).layouts :=
  (of_phases_eq_ok (h.phases_eq hr)).1

theorem connectivityPhase_eq (h : c.Succeeded report) {r : Nat} (hr : r < c.count) :
    (List.range (c.mesh r).numElements).mapM
      (Manager.keysOf (c.mesh r) (c.prepared r).layouts) = .ok (c.prepared r).elementKeys :=
  (of_phases_eq_ok (h.phases_eq hr)).2

/-- The keys of each element are what they were found to be. -/
theorem exists_keys (h : c.Succeeded report) {r : Nat} (hr : r < c.count) {e : Nat}
    (he : e < (c.mesh r).numElements) :
    ∃ ks, (c.prepared r).elementKeys[e]? = some ks ∧
      Manager.keysOf (c.mesh r) (c.prepared r).layouts e = .ok ks :=
  (getElem?_of_mapM (h.connectivityPhase_eq hr)).2 e e (List.getElem?_range he)

theorem length_elementKeys (h : c.Succeeded report) {r : Nat} (hr : r < c.count) :
    (c.prepared r).elementKeys.length = (c.mesh r).numElements := by
  rw [(getElem?_of_mapM (h.connectivityPhase_eq hr)).1, List.length_range]

theorem mem_keys_of_getElem? {r e : Nat} {ks : List DofKey}
    (hks : (c.prepared r).elementKeys[e]? = some ks) {k : DofKey} (hk : k ∈ ks) :
    k ∈ c.parties.keys r :=
  mem_keys_parties.2 ⟨ks, List.mem_of_getElem? hks, hk⟩

/-- **The ids of an element are those of its keys**, and there are no others. -/
theorem elementGids_eq_ok_iff (h : c.Succeeded report) {r : Nat} (hr : r < c.count) {e : Nat}
    {gids : List UInt64} :
    (report r).manager.elementGids e = .ok gids ↔
      ∃ ks, (c.prepared r).elementKeys[e]? = some ks ∧ gids = ks.map (c.gid r) := by
  rw [h.manager_eq hr, Manager.elementGids_eq_ok_iff (b := c.built r) rfl]
  show ((c.prepared r).elementKeys.map fun ks => ks.map (c.gid r))[e]? = _ ↔ _
  rw [List.getElem?_map, Option.map_eq_some_iff]
  exact exists_congr fun ks => and_congr_right fun _ => eq_comm

theorem lt_numElements (h : c.Succeeded report) {r : Nat} (hr : r < c.count) {e : Nat}
    {ks : List DofKey} (hks : (c.prepared r).elementKeys[e]? = some ks) :
    e < (c.mesh r).numElements := by
  rw [← h.length_elementKeys hr]
  exact (List.getElem?_eq_some_iff.1 hks).1

theorem subCellOffsets_eq_ok_iff (h : c.Succeeded report) {r : Nat} (hr : r < c.count)
    {block : BlockId} {field dim subCell : Nat} {offsets : List Nat} :
    (report r).manager.subCellOffsets block field dim subCell = .ok offsets ↔
      ∃ l, (c.prepared r).layouts.get? block = some l ∧
        l.subCellOffsets field dim subCell = .ok offsets := by
  rw [h.manager_eq hr]
  exact Manager.subCellOffsets_eq_ok_iff (b := c.built r) rfl

theorem layout_of_get? (h : c.Succeeded report) {r : Nat} (hr : r < c.count) {block : BlockId}
    {l : BlockLayout} (hl : (c.prepared r).layouts.get? block = some l) :
    (c.mesh r).blockCell block = some l.cell ∧ l.fields = (c.manager r).blockFields block ∧
      l.Complete :=
  Manager.layoutOf_eq_some (Manager.layoutOf_of_get? (h.patternPhase_eq hr) hl)

/-- **A place of an element addresses the key that stands there.** -/
theorem addresses_iff (h : c.Succeeded report) {r : Nat} (hr : r < c.count) {e : Nat}
    (he : e < (c.mesh r).numElements) {ks : List DofKey}
    (hks : (c.prepared r).elementKeys[e]? = some ks) {o : Nat} {k : DofKey} :
    (report r).manager.Addresses (c.mesh r) e o k ↔ ks[o]? = some k := by
  obtain ⟨ks', hks', hkeys⟩ := h.exists_keys hr he
  obtain rfl : ks' = ks := Option.some.inj (hks'.symm.trans hks)
  obtain ⟨block, hblock, hnone, hsome⟩ := Manager.keysOf_eq_ok hkeys
  constructor
  · rintro ⟨block', cell, connectivity, dim, subCell, offsets, hblock', hcell, hconn, hsub, hentity,
      hoffsets, hplace⟩
    obtain rfl := Option.some.inj (hblock'.symm.trans hblock)
    obtain ⟨l, hl, hok⟩ := (h.subCellOffsets_eq_ok_iff hr).1 hoffsets
    obtain ⟨hblockCell, -, hcomplete⟩ := h.layout_of_get? hr hl
    obtain rfl := Option.some.inj (hcell.symm.trans hblockCell)
    obtain ⟨connectivity', hconn', helement⟩ := hsome l hl
    obtain rfl := Option.some.inj (hconn'.symm.trans hconn)
    obtain ⟨x, hx, hkey⟩ := BlockLayout.key_of_offset hcomplete helement hok hplace
    obtain rfl := Option.some.inj (hentity.symm.trans hx)
    exact hkey
  · intro hk
    cases hl : (c.prepared r).layouts.get? block with
    | none =>
      rw [hnone hl] at hk
      cases hk
    | some l =>
      obtain ⟨hblockCell, -, hcomplete⟩ := h.layout_of_get? hr hl
      obtain ⟨connectivity, hconn, helement⟩ := hsome l hl
      obtain ⟨dim, subCell, os, hsub, hx, hos, ho⟩ :=
        BlockLayout.offset_of_key hcomplete helement hk
      exact ⟨block, l.cell, connectivity, dim, subCell, os, hblock, hblockCell, hconn, hsub, hx,
        (h.subCellOffsets_eq_ok_iff hr).2 ⟨l, hl, hos⟩, ho⟩

/-- A known block with a field has a layout with this field. -/
theorem exists_layout (h : c.Succeeded report) {r : Nat} (hr : r < c.count) {block : BlockId}
    (hblock : block ∈ (c.mesh r).blockIds) {field : Nat} {p : FieldPattern}
    (hp : (c.manager r).fieldPattern? block field = some p) :
    ∃ l, (c.prepared r).layouts.get? block = some l ∧ l.fields.get? field = some p := by
  obtain ⟨l, hl⟩ := Manager.exists_get?_of_fieldPattern? (h.patternPhase_eq hr) hblock hp
  exact ⟨l, hl, ((Manager.merges_of_get? (h.patternPhase_eq hr) hl).fieldPattern? field).trans hp⟩

/-- **The ids of an element stand as the layout of its block has them.** -/
theorem laidOut (h : c.Succeeded report) {r : Nat} (hr : r < c.count) {e : Nat}
    {gids : List UInt64} (hgids : (report r).manager.elementGids e = .ok gids) :
    ∃ block, (c.mesh r).elementBlock e = some block ∧
      (block ∉ (c.mesh r).blockIds → gids = []) ∧
      (block ∈ (c.mesh r).blockIds → (report r).manager.LaidOut (c.mesh r) e block gids) := by
  obtain ⟨ks, hks, rfl⟩ := (h.elementGids_eq_ok_iff hr).1 hgids
  have he := h.lt_numElements hr hks
  obtain ⟨ks', hks', hkeys⟩ := h.exists_keys hr he
  obtain rfl : ks' = ks := Option.some.inj (hks'.symm.trans hks)
  obtain ⟨block, hblock, hnone, hsome⟩ := Manager.keysOf_eq_ok hkeys
  have hpattern : ∀ field, (report r).manager.fieldPattern? block field =
      (c.manager r).fieldPattern? block field := by
    intro field
    rw [h.manager_eq hr]
    rfl
  refine ⟨block, hblock, fun hmem => ?_, fun hmem => ⟨fun hempty => ?_, fun field p hp => ?_,
    fun field p hp => ?_⟩⟩
  · rw [hnone ((Manager.get?_of_patternPhase (h.patternPhase_eq hr) block).2 hmem), List.map_nil]
  · have hfields : ∀ field, (c.manager r).fieldPattern? block field = none := fun field =>
      (hpattern field).symm.trans (hempty field)
    rw [hnone (Manager.get?_of_fieldPattern?_eq_none (h.patternPhase_eq hr) hfields), List.map_nil]
  · rw [hpattern] at hp
    obtain ⟨l, hl, -⟩ := h.exists_layout hr hmem hp
    obtain ⟨connectivity, -, helement⟩ := hsome l hl
    refine ⟨l, ?_, by rw [List.length_map, (BlockLayout.getElem?_elementKeys helement).1]⟩
    rw [h.manager_eq hr, Manager.blockLayout_eq (b := c.built r) rfl]
    show (match (c.prepared r).layouts.get? block with
      | some l => Except.ok l
      | none => _) = _
    rw [hl]
  · rw [hpattern] at hp
    obtain ⟨l, hl, hfield⟩ := h.exists_layout hr hmem hp
    obtain ⟨hcell, -, hcomplete⟩ := h.layout_of_get? hr hl
    obtain ⟨connectivity, hconn, helement⟩ := hsome l hl
    refine ⟨l.cell, connectivity, _, hcell, hconn, h.numbering_eq_ok hr, fun dim subCell hsub => ?_⟩
    obtain ⟨os, hos, hlength, -⟩ := BlockLayout.subCellOffsets_eq_ok hcomplete hfield hsub
    refine ⟨os, (h.subCellOffsets_eq_ok_iff hr).2 ⟨l, hl, hos⟩, hlength, fun i place hplace => ?_⟩
    obtain ⟨x, hx, hkey⟩ := BlockLayout.key_of_offset hcomplete helement hos hplace
    refine ⟨x, c.gid r ⟨x, field, i⟩, hx, by rw [List.getElem?_map, hkey, Option.map_some], ?_⟩
    exact gid?_numbering_eq (mem_keys_of_getElem? hks (List.mem_of_getElem? hkey))

end Succeeded

end Crew

end Unknowns
