import Unknowns.Proofs.Build.Distribution
import Unknowns.Proofs.Field.Faults
import Unknowns.Proofs.Field.Keys

/-!
# What the phases of one rank refuse

The pattern phase goes through the blocks in ascending order: first through those that
have fields of their own, which must all be known, and then through the known ones,
whose fields must number their unknowns on the cell of the block (`Manager.Suits`).

* `Manager.exists_patternPhase_iff`: when it succeeds;
* `Manager.patternPhase_eq_error`: what it blames, which is always the first block at
  fault, and in it the first field whose pattern has another cell (`Manager.Blamed`);
* `Manager.exists_connectivityPhase`: the connectivity phase refuses nothing of a mesh whose
  elements fill their cells;
* `Crew.steady_of_roomy`: what is refused is always reported, unless a pattern declares more
  unknowns than memory has room for or its cell cannot be counted.
-/

namespace Unknowns

section
variable {α κ : Type} [Ord κ] [Std.TransOrd κ] {key : α → κ}

/-- In an ascending list, what is smaller than a member stands before it. -/
theorem mem_of_smaller {before rest : List α} {x y : α}
    (h : (before ++ x :: rest).Pairwise fun a b => Before (key a) (key b))
    (hy : y ∈ before ++ x :: rest) (hyx : Before (key y) (key x)) : y ∈ before := by
  rcases List.mem_append.1 hy with hy | hy
  · exact hy
  · rcases List.mem_cons.1 hy with rfl | hy
    · exact absurd hyx (not_before_self _)
    · have hxy := (List.pairwise_cons.1 (List.pairwise_append.1 h).2.1).1 y hy
      exact absurd (Std.TransCmp.lt_trans hyx hxy) (not_before_self _)

/-- Of an ascending list, the first member with a property is the least. -/
theorem least_of_find? {xs : List α} {p : α → Bool} {x : α}
    (hxs : xs.Pairwise fun a b => Before (key a) (key b)) (h : xs.find? p = some x) :
    x ∈ xs ∧ p x = true ∧ ∀ y ∈ xs, Before (key y) (key x) → p y = false := by
  obtain ⟨hx, before, rest, rfl, hbefore⟩ := List.find?_eq_some_iff_append.1 h
  refine ⟨by simp, hx, fun y hy hyx => ?_⟩
  simpa using hbefore y (mem_of_smaller hxs hy hyx)

end

namespace Mesh

/-- The smallest block of a mesh that does not fit. -/
structure FirstUnfit (mesh : Mesh) (Fits : BlockId → Cell → Prop) (block : BlockId) (cell : Cell) :
    Prop where
  declared : mesh.blockCell block = some cell
  unfit : ¬Fits block cell
  first : ∀ other < block, ∀ c, mesh.blockCell other = some c → Fits other c

/-- The elements of a mesh fill the cells of their blocks. -/
def FillsCells (mesh : Mesh) : Prop :=
  ∀ e < mesh.numElements, ∃ block cell connectivity, mesh.elementBlock e = some block ∧
    mesh.blockCell block = some cell ∧ mesh.connectivity e = some connectivity ∧
    connectivity.length = total cell.subEntityCounts

end Mesh

namespace Manager

variable {m : Manager} {mesh : Mesh} {block : BlockId} {cell : Cell} {e : Error}

/-! ### One block -/

/-- The patterns in effect on a block number their unknowns on its cell, which can be counted. -/
def Suits (m : Manager) (block : BlockId) (cell : Cell) : Prop :=
  ∀ field p, m.fieldPattern? block field = some p → p.cell = cell ∧ cell.Countable ∧ p.Numbers

/-- The patterns in effect on a block are those of its cell. -/
def CellsMatch (m : Manager) (block : BlockId) (cell : Cell) : Prop :=
  ∀ field p, m.fieldPattern? block field = some p → p.cell = cell

/-- The first field on a block whose pattern has another cell. -/
structure FirstMismatch (m : Manager) (block : BlockId) (cell : Cell) (field : Nat)
    (p : FieldPattern) : Prop where
  pattern : m.fieldPattern? block field = some p
  mismatch : p.cell ≠ cell
  first : ∀ other < field, ∀ q, m.fieldPattern? block other = some q → q.cell = cell

/-- What is blamed for a block with a given cell. -/
inductive Blamed (m : Manager) (block : BlockId) (cell : Cell) : Error → Prop
  | cell {field : Nat} {p : FieldPattern} {name : String}
    (hfirst : m.FirstMismatch block cell field p) (hname : m.fieldName field = .ok name) :
    Blamed m block cell (.patternMismatch block (.name name) (.notOnBlock p.cell cell))
  /-- Where all cells are the same, a field whose pattern does not number its unknowns. -/
  | numbers {field : Nat} {p : FieldPattern} {name : String} {fault : PatternFault}
    (hcells : m.CellsMatch block cell) (hp : m.fieldPattern? block field = some p)
    (hnot : ¬p.Numbers) (hname : m.fieldName field = .ok name) :
    Blamed m block cell (.patternMismatch block (.name name) fault)
  /-- Or memory that has no room for what some pattern declares. -/
  | memory {field : Nat} {p : FieldPattern} (hcells : m.CellsMatch block cell)
    (hp : m.fieldPattern? block field = some p) (hnot : ¬p.Numbers) :
    Blamed m block cell .outOfMemory
  /-- The sub-entities of the cell cannot be counted. -/
  | uncounted {field : Nat} {p : FieldPattern} (hcells : m.CellsMatch block cell)
    (hp : m.fieldPattern? block field = some p) (hnot : ¬cell.Countable) :
    Blamed m block cell .overflow

/-- Every field that is in effect somewhere has a name. -/
def NamesFields (m : Manager) : Prop :=
  ∀ block field p, m.fieldPattern? block field = some p → ∃ name, m.fieldName field = .ok name

theorem label_eq {field : Nat} {name : String} (h : m.fieldName field = .ok name) :
    m.registry.label field = .name name := by
  cases hname : m.registry.name? field with
  | none =>
    rw [fieldName, hname] at h
    cases h
  | some s =>
    rw [fieldName, hname] at h
    rw [Registry.label, hname, Except.ok.inj h]

theorem mem_blockFields_iff {field : Nat} {p : FieldPattern} :
    (field, p) ∈ (m.blockFields block).entries ↔ m.fieldPattern? block field = some p := by
  rw [Table.mem_entries_iff, ← fieldPattern?_eq]

theorem checkBlockCell_eq_ok_iff :
    m.checkBlockCell block cell (m.blockFields block).entries = .ok () ↔
      m.CellsMatch block cell := by
  have hentries : m.CellsMatch block cell ↔
      ∀ f ∈ (m.blockFields block).entries, ¬decide (f.2.cell ≠ cell) = true := by
    simp only [CellsMatch, ← mem_blockFields_iff, Prod.forall, decide_eq_true_iff, not_not]
  rw [hentries, ← List.find?_eq_none, checkBlockCell]
  cases (m.blockFields block).entries.find? (·.2.cell ≠ cell) <;> simp

/-- **The first field whose pattern has another cell is blamed.** -/
theorem blamed_of_checkBlockCell (hnames : m.NamesFields)
    (h : m.checkBlockCell block cell (m.blockFields block).entries = .error e) :
    m.Blamed block cell e := by
  unfold checkBlockCell at h
  split at h
  · next f hfind =>
    obtain rfl := Except.error.inj h
    obtain ⟨hmem, hne, hleast⟩ := least_of_find? (m.blockFields block).sorted hfind
    have hf := mem_blockFields_iff.1 hmem
    obtain ⟨name, hname⟩ := hnames block _ _ hf
    rw [label_eq hname]
    refine .cell ⟨hf, of_decide_eq_true hne, fun other hlt q hq => ?_⟩ hname
    simpa using hleast (other, q) (mem_blockFields_iff.2 hq) (Nat.compare_eq_lt.2 hlt)
  · cases h

/-- A fault of a field is reported with the block and the name of the field. -/
theorem inBlock_eq {field : Nat} {name : String} (h : m.fieldName field = .ok name)
    (fault : PatternFault) : m.inBlock block (.patternMismatch 0 (.number field) fault) =
      .patternMismatch block (.name name) fault := by
  rw [inBlock, label_eq h]

/-- The layout of a block with fields is what merging their patterns gives. -/
theorem layoutOf_eq (hcell : mesh.blockCell block = some cell)
    (hne : (m.blockFields block).isEmpty = false) :
    m.layoutOf mesh block = (do
      m.checkBlockCell block cell (m.blockFields block).entries
      ((BlockLayout.merge (m.blockFields block).entries).mapError (m.inBlock block)).map some) := by
  unfold layoutOf
  dsimp only
  rw [if_neg (Bool.eq_false_iff.1 hne), hcell]
  cases BlockLayout.merge (m.blockFields block).entries <;> rfl

theorem suits_of_isEmpty (h : (m.blockFields block).isEmpty = true) : m.Suits block cell := by
  intro field p hp
  rw [fieldPattern?_eq, Table.get?_of_isEmpty h] at hp
  cases hp

theorem exists_of_not_isEmpty (h : (m.blockFields block).isEmpty = false) :
    ∃ field p, m.fieldPattern? block field = some p := by
  by_contra hnone
  have hempty : (m.blockFields block).isEmpty = true := Table.isEmpty_of_forall fun field => by
    rw [← fieldPattern?_eq]
    exact Option.eq_none_iff_forall_ne_some.2 fun p hp => hnone ⟨field, p, hp⟩
  rw [hempty] at h
  cases h

/-- Patterns of one cell are merged if they suit it. -/
theorem exists_mergeFields_iff (hne : (m.blockFields block).isEmpty = false)
    (hcells : m.CellsMatch block cell) :
    (∃ l, BlockLayout.merge (m.blockFields block).entries = .ok l) ↔ m.Suits block cell := by
  rw [BlockLayout.exists_merge_iff]
  simp only [BlockLayout.firstPattern?_eq_some_iff (m.blockFields block).nodup_keys,
    mem_blockFields_iff]
  constructor
  · rintro ⟨cell', hcountable, hpatterns⟩ field p hp
    have hcell := hcells field p hp
    obtain rfl : cell' = cell := (hpatterns field p hp).1.symm.trans hcell
    exact ⟨hcell, hcountable, (hpatterns field p hp).2⟩
  · intro h
    obtain ⟨field, p, hp⟩ := exists_of_not_isEmpty hne
    exact ⟨cell, (h field p hp).2.1, fun num q hq => ⟨hcells num q hq, (h num q hq).2.2⟩⟩

/-- **A block has a layout, or needs none, if its fields suit its cell.** -/
theorem exists_layoutOf_iff (hcell : mesh.blockCell block = some cell) :
    (∃ l, m.layoutOf mesh block = .ok l) ↔ m.Suits block cell := by
  cases hempty : (m.blockFields block).isEmpty with
  | true =>
    rw [layoutOf_of_isEmpty hempty]
    exact iff_of_true ⟨_, rfl⟩ (suits_of_isEmpty hempty)
  | false =>
    rw [layoutOf_eq hcell hempty]
    constructor
    · rintro ⟨_, h⟩
      obtain ⟨_, hcheck, hmerge⟩ := bind_eq_ok_iff.1 h
      obtain ⟨l, hl, -⟩ := map_eq_ok_iff.1 hmerge
      exact (exists_mergeFields_iff hempty (checkBlockCell_eq_ok_iff.1 hcheck)).1
        ⟨l, mapError_eq_ok_iff.1 hl⟩
    · intro h
      have hcells : m.CellsMatch block cell := fun field p hp => (h field p hp).1
      obtain ⟨l, hl⟩ := (exists_mergeFields_iff hempty hcells).2 h
      rw [checkBlockCell_eq_ok_iff.2 hcells, hl]
      exact ⟨some l, rfl⟩

/-- **What is blamed where a block has no layout.** -/
theorem blamed_of_layoutOf (hnames : m.NamesFields) (hcell : mesh.blockCell block = some cell)
    (h : m.layoutOf mesh block = .error e) : m.Blamed block cell e := by
  cases hempty : (m.blockFields block).isEmpty with
  | true =>
    rw [layoutOf_of_isEmpty hempty] at h
    cases h
  | false =>
    rw [layoutOf_eq hcell hempty] at h
    rcases bind_eq_error_iff.1 h with hcheck | ⟨_, hcheck, hmerge⟩
    · exact blamed_of_checkBlockCell hnames hcheck
    · have hcells := checkBlockCell_eq_ok_iff.1 hcheck
      have hentries : ∀ f ∈ (m.blockFields block).entries, f.2.cell = cell :=
        fun f hf => hcells f.1 f.2 (mem_blockFields_iff.1 hf)
      obtain ⟨fault, hfault, rfl⟩ := mapError_eq_error_iff.1 (map_eq_error_iff.1 hmerge)
      by_cases hcountable : cell.Countable
      · obtain ⟨f, hf, hnot, hkind⟩ := BlockLayout.merge_eq_error hentries hcountable hfault
        have hp := mem_blockFields_iff.1 hf
        rcases hkind with ⟨rfl, -⟩ | ⟨kind, rfl⟩
        · exact .memory hcells hp hnot
        · obtain ⟨name, hname⟩ := hnames block _ _ hp
          rw [inBlock_eq hname]
          exact .numbers hcells hp hnot hname
      · obtain ⟨field, p, hp⟩ := exists_of_not_isEmpty hempty
        have hfirst := BlockLayout.firstCell_eq hentries (mem_blockFields_iff.2 hp)
        have hoverflow : BlockLayout.merge (m.blockFields block).entries = .error .overflow :=
          BlockLayout.merge_entries_eq_overflow (hfirst ▸ hentries) (hfirst ▸ hcountable)
        obtain rfl := Except.error.inj (hfault.symm.trans hoverflow)
        exact .uncounted hcells hp hcountable

/-- What is blamed does not suit the cell of the block. -/
theorem Blamed.not_suits (h : m.Blamed block cell e) : ¬m.Suits block cell := by
  intro hsuits
  cases h with
  | cell hfirst _ => exact hfirst.mismatch (hsuits _ _ hfirst.pattern).1
  | numbers _ hp hnot _ => exact hnot (hsuits _ _ hp).2.2
  | memory _ hp hnot => exact hnot (hsuits _ _ hp).2.2
  | uncounted _ hp hnot => exact hnot (hsuits _ _ hp).2.1

/-! ### All blocks -/

/-- **The layouts of a list of blocks fail with the first block that has none.** -/
theorem layoutsOf_eq_error {blocks : List BlockId} (h : m.layoutsOf mesh blocks = .error e) :
    ∃ before block rest, blocks = before ++ block :: rest ∧
      m.layoutOf mesh block = .error e ∧ ∀ b ∈ before, ∃ l, m.layoutOf mesh b = .ok l := by
  induction blocks with
  | nil => cases h
  | cons block blocks ih =>
    rw [layoutsOf] at h
    rcases bind_eq_error_iff.1 h with h | ⟨l, hl, h⟩
    · exact ⟨[], block, blocks, rfl, h, fun b hb => by cases hb⟩
    · have hothers : m.layoutsOf mesh blocks = .error e := by
        rcases bind_eq_error_iff.1 h with h | ⟨_, -, h⟩
        · exact h
        · cases l <;> cases h
      obtain ⟨before, b, rest, rfl, hb, hbefore⟩ := ih hothers
      exact ⟨block :: before, b, rest, rfl, hb, List.forall_mem_cons.2 ⟨⟨l, hl⟩, hbefore⟩⟩

/-- Blocks with fields of their own are all known. -/
def ScopesKnown (m : Manager) (mesh : Mesh) : Prop :=
  ∀ block ∈ m.blockPatterns.keys, (mesh.blockCell block).isSome

section
variable (hmesh : ∀ block, block ∈ mesh.blockIds ↔ (mesh.blockCell block).isSome)
include hmesh

theorem checkScopes_eq_error (h : m.checkScopes (ascending mesh.blockIds) = .error e) :
    ∃ block ∈ m.blockPatterns.keys, mesh.blockCell block = none ∧ e = .unknownBlock block ∧
      ∀ other ∈ m.blockPatterns.keys, other < block → (mesh.blockCell other).isSome := by
  have hknown : ∀ b, b ∈ ascending mesh.blockIds ↔ (mesh.blockCell b).isSome :=
    fun b => mem_ascending.trans (hmesh b)
  unfold checkScopes at h
  split at h
  · next block hfind =>
    have hsorted : m.blockPatterns.keys.Pairwise fun a b => Before (id a) (id b) :=
      List.pairwise_map.2 m.blockPatterns.sorted
    obtain ⟨hmem, hunknown, hleast⟩ := least_of_find? hsorted hfind
    refine ⟨block, hmem, ?_, (Except.error.inj h).symm, fun other hother hlt => ?_⟩
    · simpa [hknown] using hunknown
    · simpa [hknown, Option.isSome_iff_ne_none] using hleast other hother (Int.compare_eq_lt.2 hlt)
  · cases h

/-- **When the pattern phase succeeds.** -/
theorem exists_patternPhase_iff :
    (∃ table, m.patternPhase mesh = .ok table) ↔ m.ScopesKnown mesh ∧
      ∀ block cell, mesh.blockCell block = some cell → m.Suits block cell := by
  constructor
  · rintro ⟨table, htable⟩
    refine ⟨fun block hblock => (hmesh block).1 (scopes_of_patternPhase htable block hblock),
      fun block cell hcell => ?_⟩
    have hblock := (hmesh block).2 (Option.isSome_of_eq_some hcell)
    exact (exists_layoutOf_iff hcell).1 ⟨_, (get?_of_patternPhase htable block).1 hblock⟩
  · rintro ⟨hscopes, hsuits⟩
    refine exists_patternPhase (fun b hb => (hmesh b).2 (hscopes b hb)) fun b hb => ?_
    obtain ⟨cell, hcell⟩ := Option.isSome_iff_exists.1 ((hmesh b).1 hb)
    exact (exists_layoutOf_iff hcell).2 (hsuits b cell hcell)

/-- The first block without a layout is the smallest whose fields do not suit its cell. -/
theorem firstUnfit_of_layoutsOf (hnames : m.NamesFields)
    (h : m.layoutsOf mesh (ascending mesh.blockIds) = .error e) :
    ∃ block cell, mesh.FirstUnfit m.Suits block cell ∧ m.Blamed block cell e := by
  obtain ⟨before, block, rest, hsplit, hblock, hbefore⟩ := layoutsOf_eq_error h
  have hsorted : (before ++ block :: rest).Pairwise fun a b => Before (id a) (id b) :=
    hsplit ▸ pairwise_ascending mesh.blockIds
  have hmem : ∀ b, b ∈ before ++ block :: rest ↔ (mesh.blockCell b).isSome := fun b => by
    rw [← hsplit, mem_ascending, hmesh]
  obtain ⟨cell, hcell⟩ := Option.isSome_iff_exists.1 ((hmem block).1 (by simp))
  have hblamed := blamed_of_layoutOf hnames hcell hblock
  refine ⟨block, cell, ⟨hcell, hblamed.not_suits, fun other hlt c hc => ?_⟩, hblamed⟩
  -- The blocks are taken in ascending order, so a smaller one has its layout already.
  have hother := mem_of_smaller hsorted ((hmem other).2 (Option.isSome_of_eq_some hc))
    (Int.compare_eq_lt.2 hlt)
  exact (exists_layoutOf_iff hc).1 (hbefore other hother)

/-- **What the pattern phase blames.**  Blocks with fields of their own come first, then the fields
on the known blocks. -/
theorem patternPhase_eq_error (hnames : m.NamesFields) (h : m.patternPhase mesh = .error e) :
    (∃ block ∈ m.blockPatterns.keys, mesh.blockCell block = none ∧ e = .unknownBlock block ∧
      ∀ other ∈ m.blockPatterns.keys, other < block → (mesh.blockCell other).isSome) ∨
    m.ScopesKnown mesh ∧
      ∃ block cell, mesh.FirstUnfit m.Suits block cell ∧ m.Blamed block cell e := by
  rcases bind_eq_error_iff.1 h with hscopes | ⟨_, hscopes, h⟩
  · exact .inl (checkScopes_eq_error hmesh hscopes)
  · have hlayouts : m.layoutsOf mesh (ascending mesh.blockIds) = .error e := by
      rcases bind_eq_error_iff.1 h with h | ⟨_, -, h⟩
      · exact h
      · cases h
    refine .inr ⟨fun b hb => ?_, firstUnfit_of_layoutsOf hmesh hnames hlayouts⟩
    exact (hmesh b).1 (mem_ascending.1 (checkScopes_eq_ok_iff.1 hscopes b hb))

end

/-! ### Both phases -/

/-- **The connectivity phase refuses no element that fills its cell.** -/
theorem exists_connectivityPhase {table : Table BlockId BlockLayout}
    (h : m.patternPhase mesh = .ok table) (hfills : mesh.FillsCells) :
    ∃ keys, connectivityPhase mesh table = .ok keys := by
  have hkeys : ∀ e ∈ List.range mesh.numElements,
      keysOf mesh table e = .ok ((keysOf mesh table e).toOption.getD []) := by
    intro e he
    obtain ⟨block, cell, connectivity, hblock, hcell, hconnectivity, hlength⟩ :=
      hfills e (List.mem_range.1 he)
    unfold keysOf
    rw [hblock, hconnectivity]
    dsimp only
    cases hl : table.get? block with
    | none => rfl
    | some l =>
      obtain ⟨hlcell, -, hcomplete⟩ := merges_of_get? h hl
      obtain rfl : l.cell = cell := Option.some.inj (hlcell.symm.trans hcell)
      obtain ⟨ks, hks⟩ : ∃ ks, l.elementKeys e connectivity = .ok ks :=
        BlockLayout.exists_elementKeys hcomplete hlength
      dsimp only
      rw [hks]
      rfl
  rw [connectivityPhase_eq]
  exact ⟨_, mapM_eq_ok hkeys⟩

/-- **What one rank refuses before it talks to others** is what its pattern phase refuses. -/
theorem prepare_eq_of_fillsCells (m : Manager) (seat : Seat) (hfills : mesh.FillsCells) :
    ((m.prepare ⟨mesh, seat⟩).1.map fun _ => ()) = (m.patternPhase mesh).map fun _ => () := by
  unfold prepare
  cases hphase : m.patternPhase mesh with
  | error e => rfl
  | ok table =>
    obtain ⟨keys, hkeys⟩ := exists_connectivityPhase hphase hfills
    dsimp only
    rw [hkeys]
    rfl

/-! ### What does not stop a rank -/

/-- Memory has room for as many unknowns as each pattern in effect on a block of the mesh declares,
and the sub-entities of their cells can be counted. -/
def Roomy (m : Manager) (mesh : Mesh) : Prop :=
  ∀ block ∈ mesh.blockIds, ∀ field p, m.fieldPattern? block field = some p →
    p.numDofs * BlockLayout.offsetWidth < memoryBound ∧ p.cell.Countable

/-- A block whose patterns have room has a layout, or it is reported why not. -/
theorem Roomy.stops_layoutOf (hroomy : m.Roomy mesh) (hblock : block ∈ mesh.blockIds)
    (h : m.layoutOf mesh block = .error e) : e.stops = false := by
  cases hempty : (m.blockFields block).isEmpty with
  | true =>
    rw [layoutOf_of_isEmpty hempty] at h
    cases h
  | false =>
    cases hcell : mesh.blockCell block with
    | none =>
      rw [layoutOf, hempty, hcell] at h
      obtain rfl := Except.error.inj h
      rfl
    | some cell =>
      rw [layoutOf_eq hcell hempty] at h
      rcases bind_eq_error_iff.1 h with hcheck | ⟨_, hcheck, hmerge⟩
      · unfold checkBlockCell at hcheck
        split at hcheck
        · obtain rfl := Except.error.inj hcheck
          rfl
        · cases hcheck
      · have hcells := checkBlockCell_eq_ok_iff.1 hcheck
        obtain ⟨field, p, hp⟩ := exists_of_not_isEmpty hempty
        have hcountable : cell.Countable :=
          hcells field p hp ▸ (hroomy block hblock field p hp).2
        obtain ⟨fault, hfault, rfl⟩ := mapError_eq_error_iff.1 (map_eq_error_iff.1 hmerge)
        obtain ⟨f, -, -, hkind⟩ := BlockLayout.merge_eq_error
          (fun f hf => hcells f.1 f.2 (mem_blockFields_iff.1 hf)) hcountable hfault
        rcases hkind with ⟨-, g, hg, hnot⟩ | ⟨kind, rfl⟩
        · exact absurd (hroomy block hblock g.1 g.2 (mem_blockFields_iff.1 hg)).1 hnot
        · rfl

/-- **Patterns that have room do not stop the pattern phase.** -/
theorem Roomy.stopped_patternPhase (hroomy : m.Roomy mesh) :
    stopped (m.patternPhase mesh) = false := by
  cases hphase : m.patternPhase mesh with
  | ok table => rfl
  | error e =>
    show e.stops = false
    rcases bind_eq_error_iff.1 hphase with hscopes | ⟨_, -, h⟩
    · unfold checkScopes at hscopes
      split at hscopes
      · obtain rfl := Except.error.inj hscopes
        rfl
      · cases hscopes
    · rcases bind_eq_error_iff.1 h with h | ⟨_, -, h⟩
      · obtain ⟨before, block, rest, hsplit, hblock, -⟩ := layoutsOf_eq_error h
        have hmem : block ∈ ascending mesh.blockIds := hsplit ▸ by simp
        exact hroomy.stops_layoutOf (mem_ascending.1 hmem) hblock
      · cases h

/-- **The connectivity phase never stops a rank**: the layouts of the pattern phase find every
sub-entity in a connectivity of the right length. -/
theorem stopped_connectivityPhase {table : Table BlockId BlockLayout}
    (h : m.patternPhase mesh = .ok table) : stopped (connectivityPhase mesh table) = false := by
  cases hphase : connectivityPhase mesh table with
  | ok keys => rfl
  | error e =>
    show e.stops = false
    rw [connectivityPhase_eq] at hphase
    obtain ⟨element, -, hkeys⟩ := exists_of_mapM_eq_error hphase
    unfold keysOf at hkeys
    split at hkeys
    · obtain rfl := Except.error.inj hkeys
      rfl
    · split at hkeys
      · cases hkeys
      · next l hl =>
        split at hkeys
        · obtain rfl := Except.error.inj hkeys
          rfl
        · next connectivity _ =>
          by_cases hlength : connectivity.length = l.connectivityLength
          · obtain ⟨ks, hks⟩ : ∃ ks, l.elementKeys element connectivity = .ok ks :=
              BlockLayout.exists_elementKeys (merges_of_get? h hl).complete hlength
            rw [hks] at hkeys
            cases hkeys
          · rw [BlockLayout.elementKeys, if_pos hlength] at hkeys
            obtain rfl := Except.error.inj hkeys
            rfl

end Manager

/-- **Where all patterns have room, no rank is stopped.** -/
theorem Crew.steady_of_roomy {c : Crew} (h : ∀ r < c.count, (c.manager r).Roomy (c.mesh r)) :
    c.Steady := by
  intro r hr
  rw [phases]
  cases hphase : (c.manager r).patternPhase (c.mesh r) with
  | error e =>
    have hsteady := (h r hr).stopped_patternPhase
    rw [hphase] at hsteady
    exact hsteady
  | ok table =>
    have hsteady := Manager.stopped_connectivityPhase hphase
    show stopped (Manager.connectivityPhase (c.mesh r) table >>= _) = false
    cases hkeys : Manager.connectivityPhase (c.mesh r) table with
    | error e =>
      rw [hkeys] at hsteady
      exact hsteady
    | ok keys => rfl

end Unknowns
