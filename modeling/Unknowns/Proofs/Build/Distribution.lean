import Mathlib.Data.Set.Function
import Unknowns.Proofs.Build.Elements

/-!
# The same mesh on one rank and on many

A mesh whose elements are spread over the ranks of a crew (`Crew.Distributes`) can
also be built by one manager alone, with the same fields.  Each element then has
the same keys on both sides (`Succeeded.serial_keys`), so its ids differ by a
renumbering only (`Succeeded.map_renumber`).

`Succeeded.element_ids` collects what holds of the ids of the elements: where they
stand, when two of them are equal, and how they compare with those of one rank.
-/

namespace Unknowns

namespace Manager

variable {m : Manager} {mesh mesh' : Mesh}

theorem checkScopes_eq_ok_iff {known : List BlockId} :
    m.checkScopes known = .ok () ↔ ∀ b ∈ m.blockPatterns.keys, b ∈ known := by
  have hall : (∀ b ∈ m.blockPatterns.keys, b ∈ known) ↔
      m.blockPatterns.keys.find? (· ∉ known) = none := by
    simp only [List.find?_eq_none, decide_eq_true_iff, not_not]
  rw [hall, checkScopes]
  cases m.blockPatterns.keys.find? (· ∉ known) <;> simp

/-- All blocks with fields of their own are known. -/
theorem scopes_of_patternPhase {table : Table BlockId BlockLayout}
    (h : m.patternPhase mesh = .ok table) : ∀ b ∈ m.blockPatterns.keys, b ∈ mesh.blockIds := by
  obtain ⟨_, hscopes, -⟩ := bind_eq_ok_iff.1 h
  exact fun b hb => mem_ascending.1 (checkScopes_eq_ok_iff.1 hscopes b hb)

/-- The pattern phase succeeds where all scopes are known and all blocks have their layouts. -/
theorem exists_patternPhase (hscopes : ∀ b ∈ m.blockPatterns.keys, b ∈ mesh.blockIds)
    (hlayouts : ∀ b ∈ mesh.blockIds, ∃ l, m.layoutOf mesh b = .ok l) :
    ∃ table, m.patternPhase mesh = .ok table := by
  have hcheck := checkScopes_eq_ok_iff.2 fun b hb => mem_ascending.2 (hscopes b hb)
  have hall := layoutsOf_eq_ok_iff.2
    ⟨fun b hb => hlayouts b (mem_ascending.1 hb), rfl (a := m.layouts mesh (ascending mesh.blockIds))⟩
  exact ⟨_, bind_eq_ok_iff.2 ⟨(), hcheck, bind_eq_ok_iff.2 ⟨_, hall, rfl⟩⟩⟩

/-- The keys of an element depend on its connectivity and on the layout of its block only. -/
theorem keysOf_congr {layouts layouts' : Table BlockId BlockLayout} {element element' : Nat}
    (hblock : mesh'.elementBlock element' = mesh.elementBlock element)
    (hconnectivity : mesh'.connectivity element' = mesh.connectivity element)
    (hlayouts : ∀ b, mesh.elementBlock element = some b → layouts'.get? b = layouts.get? b)
    {ks : List DofKey} (h : keysOf mesh layouts element = .ok ks) :
    keysOf mesh' layouts' element' = .ok ks := by
  obtain ⟨block, hb, hnone, hsome⟩ := keysOf_eq_ok h
  unfold keysOf
  rw [hblock, hb, hconnectivity]
  dsimp only
  rw [hlayouts block hb]
  cases hl : layouts.get? block with
  | none => rw [hnone hl]
  | some l =>
    obtain ⟨connectivity, hc, hkeys⟩ := hsome l hl
    rw [hc]
    dsimp only
    unfold BlockLayout.elementKeys at hkeys ⊢
    split at hkeys
    · cases hkeys
    · next hlength => rw [if_neg hlength, hkeys]

end Manager

namespace Crew

open World Negotiation Parties

/-- The elements of a mesh are spread over the ranks: element `e` of rank `r` is element
`place r e` of the whole, and each element of the whole is on some rank.  A rank knows the blocks
of its elements. -/
structure Distributes (c : Crew) (whole : Mesh) (place : Nat → Nat → Nat) : Prop where
  pos : 0 < c.count
  lt : ∀ r < c.count, ∀ e < (c.mesh r).numElements, place r e < whole.numElements
  onto : ∀ j < whole.numElements, ∃ r < c.count, ∃ e < (c.mesh r).numElements, place r e = j
  elementBlock : ∀ r < c.count, ∀ e < (c.mesh r).numElements,
    whole.elementBlock (place r e) = (c.mesh r).elementBlock e
  connectivity : ∀ r < c.count, ∀ e < (c.mesh r).numElements,
    whole.connectivity (place r e) = (c.mesh r).connectivity e
  blockIds : ∀ r < c.count, ∀ b ∈ (c.mesh r).blockIds, b ∈ whole.blockIds
  blockCell : ∀ r < c.count, ∀ b ∈ (c.mesh r).blockIds,
    whole.blockCell b = (c.mesh r).blockCell b
  known : ∀ r < c.count, ∀ e < (c.mesh r).numElements, ∀ b,
    (c.mesh r).elementBlock e = some b → b ∈ whole.blockIds → b ∈ (c.mesh r).blockIds

/-- A single manager that has nobody to talk to. -/
def single (m : Manager) (mesh : Mesh) (h : m.binding = some ⟨mesh, Seat.solitary⟩) : Crew where
  count := 1
  config := m.config
  manager _ := m
  mesh _ := mesh
  seat _ := Seat.solitary
  bound _ _ := h
  tags _ _ := rfl
  checked := .inl fun _ _ => rfl
  seated _ _ := .inr ⟨rfl, rfl⟩

/-- A single manager is ready when its own phases succeed. -/
theorem ready_single_iff {m : Manager} {mesh : Mesh}
    (h : m.binding = some ⟨mesh, Seat.solitary⟩) :
    (single m mesh h).Ready ↔ ∃ p, (single m mesh h).phases 0 = .ok p := by
  constructor
  · exact fun hready => ⟨_, phases_eq_ok Nat.one_pos (hready 0 Nat.one_pos)⟩
  · rintro ⟨p, hp⟩
    refine ready_of_agreed Nat.one_pos ((agreed_eq_ok_iff Nat.one_pos).2 ⟨by decide, ?_, fun _ => ?_⟩)
    · refine List.filter_eq_nil_iff.2 fun r hr => ?_
      obtain rfl : r = 0 := Nat.lt_one_iff.1 (List.mem_range.1 hr)
      rw [outcome, hp]
      exact Bool.false_ne_true
    · refine differing?_eq_none_iff.2 fun r hr => ?_
      rw [Nat.lt_one_iff.1 hr]

end Crew

/-! ### A row of bars on one rank -/

namespace Bars

/-- The whole row of `n` bars. -/
def whole (n : Nat) : Mesh :=
  .ofTables [⟨1, some .segment, List.range n⟩] n (List.replicate n (some 1))
    ((List.range n).map fun r => some [.node (.ofNat r), .node (.ofNat (r + 1)), .edge (.ofNat r)])

/-- The manager of the whole row. -/
def serial (n : Nat) : Manager :=
  { manager 1 0 with binding := some ⟨whole n, Seat.solitary⟩ }

theorem distributes_two : (crew 2).Distributes (whole 2) fun r _ => r where
  pos := by decide
  lt := by decide
  onto := by decide
  elementBlock := by decide
  connectivity := by decide
  blockIds _ _ _ hb := hb
  blockCell _ _ b hb := by
    obtain rfl := List.mem_singleton.1 hb
    rfl
  known _ _ _ _ _ _ hb := hb

end Bars

namespace Crew

open World Negotiation Parties

variable {c : Crew} {report : Nat → Manager.Report} {whole : Mesh} {place : Nat → Nat → Nat}
  {m : Manager} (hbound : m.binding = some ⟨whole, Seat.solitary⟩)

namespace Succeeded

/-- The layouts of a rank are those of the whole. -/
theorem serial_layout (h : c.Succeeded report) (hd : c.Distributes whole place)
    (hsame : ∀ r < c.count, (c.manager r).SameFields m) {table : Table BlockId BlockLayout}
    (htable : m.patternPhase whole = .ok table) {r : Nat} (hr : r < c.count) {e : Nat}
    (he : e < (c.mesh r).numElements) {b : BlockId}
    (hb : (c.mesh r).elementBlock e = some b) :
    table.get? b = (c.prepared r).layouts.get? b := by
  have hrank := Manager.get?_of_patternPhase (h.patternPhase_eq hr) b
  have hwhole := Manager.get?_of_patternPhase htable b
  by_cases hmem : b ∈ (c.mesh r).blockIds
  · have hlayout := (hsame r hr).layoutOf_eq (hd.blockCell r hr b hmem).symm
    rw [hrank.1 hmem, hwhole.1 (hd.blockIds r hr b hmem)] at hlayout
    exact (Except.ok.inj hlayout).symm
  · have hmem' : b ∉ whole.blockIds := fun hw => hmem (hd.known r hr e he b hb hw)
    rw [hrank.2 hmem, hwhole.2 hmem']

/-- **An element has the same keys in the whole mesh as on its rank.** -/
theorem serial_keys (h : c.Succeeded report) (hd : c.Distributes whole place)
    (hsame : ∀ r < c.count, (c.manager r).SameFields m) {table : Table BlockId BlockLayout}
    (htable : m.patternPhase whole = .ok table) {r : Nat} (hr : r < c.count) {e : Nat}
    (he : e < (c.mesh r).numElements) {ks : List DofKey}
    (hks : (c.prepared r).elementKeys[e]? = some ks) :
    Manager.keysOf whole table (place r e) = .ok ks := by
  obtain ⟨ks', hks', hkeys⟩ := h.exists_keys hr he
  obtain rfl : ks' = ks := Option.some.inj (hks'.symm.trans hks)
  exact Manager.keysOf_congr (hd.elementBlock r hr e he) (hd.connectivity r hr e he)
    (fun b hb => h.serial_layout hd hsame htable hr he hb) hkeys

/-- The whole mesh is ready where all its blocks are known to some rank. -/
theorem ready_serial (h : c.Succeeded report) (hd : c.Distributes whole place)
    (hsame : ∀ r < c.count, (c.manager r).SameFields m)
    (hblocks : ∀ b ∈ whole.blockIds, ∃ r < c.count, b ∈ (c.mesh r).blockIds) :
    (single m whole hbound).Ready := by
  have hscopes : ∀ b ∈ m.blockPatterns.keys, b ∈ whole.blockIds := by
    intro b hb
    rw [← (hsame 0 hd.pos).blockPatterns] at hb
    exact hd.blockIds 0 hd.pos b (Manager.scopes_of_patternPhase (h.patternPhase_eq hd.pos) b hb)
  have hlayouts : ∀ b ∈ whole.blockIds, ∃ l, m.layoutOf whole b = .ok l := by
    intro b hb
    obtain ⟨r, hr, hmem⟩ := hblocks b hb
    have hlayout := (hsame r hr).layoutOf_eq (hd.blockCell r hr b hmem).symm
    rw [(Manager.get?_of_patternPhase (h.patternPhase_eq hr) b).1 hmem] at hlayout
    exact ⟨_, hlayout.symm⟩
  obtain ⟨table, htable⟩ := Manager.exists_patternPhase hscopes hlayouts
  have hkeys : ∀ j ∈ List.range whole.numElements,
      Manager.keysOf whole table j = .ok ((Manager.keysOf whole table j).toOption.getD []) := by
    intro j hj
    obtain ⟨r, hr, e, he, rfl⟩ := hd.onto j (List.mem_range.1 hj)
    obtain ⟨ks, hks, -⟩ := h.exists_keys hr he
    rw [h.serial_keys hd hsame htable hr he hks]
    rfl
  have hphase := mapM_eq_ok hkeys
  rw [← Manager.connectivityPhase_eq] at hphase
  exact (ready_single_iff hbound).2
    ⟨_, bind_eq_ok_iff.2 ⟨table, htable, bind_eq_ok_iff.2 ⟨_, hphase, rfl⟩⟩⟩

/-! ### The build of the whole -/

/-- In the whole mesh an element stands with its keys. -/
theorem serial_getElem? (h : c.Succeeded report) (hd : c.Distributes whole place)
    (hsame : ∀ r < c.count, (c.manager r).SameFields m)
    (hready : (single m whole hbound).Ready) {r : Nat} (hr : r < c.count) {e : Nat}
    (he : e < (c.mesh r).numElements) {ks : List DofKey}
    (hks : (c.prepared r).elementKeys[e]? = some ks) :
    ((single m whole hbound).prepared 0).elementKeys[place r e]? = some ks := by
  have hphases := phases_eq_ok (c := single m whole hbound) Nat.one_pos (hready 0 Nat.one_pos)
  obtain ⟨htable, hmap⟩ := of_phases_eq_ok hphases
  obtain ⟨ks', hks', hkeys⟩ := (getElem?_of_mapM hmap).2 _ _ (List.getElem?_range (hd.lt r hr e he))
  rw [hks', ← Except.ok.inj (hkeys.symm.trans (h.serial_keys hd hsame htable hr he hks))]

/-- The keys of the whole mesh are those of all ranks. -/
theorem allKeys_single (h : c.Succeeded report) (hd : c.Distributes whole place)
    (hsame : ∀ r < c.count, (c.manager r).SameFields m)
    (hready : (single m whole hbound).Ready) :
    (single m whole hbound).parties.allKeys = c.parties.allKeys := by
  have hphases := phases_eq_ok (c := single m whole hbound) Nat.one_pos (hready 0 Nat.one_pos)
  have hlength := (getElem?_of_mapM (of_phases_eq_ok hphases).2).1
  rw [List.length_range] at hlength
  ext k
  simp only [mem_allKeys, mem_keys_parties]
  constructor
  · rintro ⟨s, hs, ks, hks, hk⟩
    obtain rfl : s = 0 := Nat.lt_one_iff.1 hs
    obtain ⟨j, hj⟩ := List.mem_iff_getElem?.1 hks
    have hlt := (List.getElem?_eq_some_iff.1 hj).1
    rw [hlength] at hlt
    obtain ⟨r, hr, e, he, rfl⟩ := hd.onto j hlt
    obtain ⟨ks', hks', -⟩ := h.exists_keys hr he
    obtain rfl := Option.some.inj
      (hj.symm.trans (h.serial_getElem? hbound hd hsame hready hr he hks'))
    exact ⟨r, hr, ks, List.mem_of_getElem? hks', hk⟩
  · rintro ⟨r, hr, ks, hks, hk⟩
    obtain ⟨e, hks⟩ := List.mem_iff_getElem?.1 hks
    have he := (List.getElem?_eq_some_iff.1 hks).1
    rw [h.length_elementKeys hr] at he
    exact ⟨0, Nat.one_pos, ks,
      List.mem_of_getElem? (h.serial_getElem? hbound hd hsame hready hr he hks), hk⟩

/-- A rank has nothing to tell itself, so whatever a single one would send fits. -/
theorem fits_single (h : c.Succeeded report) (hd : c.Distributes whole place)
    (hsame : ∀ r < c.count, (c.manager r).SameFields m)
    (hready : (single m whole hbound).Ready) : (single m whole hbound).Fits where
  card_lt := by
    rw [h.allKeys_single hbound hd hsame hready]
    exact h.numerable.card_lt
  claims s hs d hd hne := absurd ((Nat.lt_one_iff.1 hs).trans (Nat.lt_one_iff.1 hd).symm) hne
  rows s hs d hd hne := absurd ((Nat.lt_one_iff.1 hs).trans (Nat.lt_one_iff.1 hd).symm) hne
  ghosts s hs d hd hne := absurd ((Nat.lt_one_iff.1 hs).trans (Nat.lt_one_iff.1 hd).symm) hne

/-- A manager that has the whole mesh to itself builds it on its own. -/
theorem alone_single (h : c.Succeeded report) (hd : c.Distributes whole place)
    (hsame : ∀ r < c.count, (c.manager r).SameFields m) :
    m.build.alone = (single m whole hbound).report 0 :=
  alone_build (c := single m whole hbound) rfl (h.fits_single hbound hd hsame)

/-- It succeeds just if it is ready. -/
theorem outcome_alone_eq_ok_iff (h : c.Succeeded report) (hd : c.Distributes whole place)
    (hsame : ∀ r < c.count, (c.manager r).SameFields m) :
    m.build.alone.outcome = .ok () ↔ (single m whole hbound).Ready := by
  rw [h.alone_single hbound hd hsame, outcome_report]
  exact ⟨ready_of_agreed Nat.one_pos, fun hready => hready 0 Nat.one_pos⟩

/-- Its build is one that succeeds on all ranks of a crew. -/
theorem succeeded_single (h : c.Succeeded report) (hd : c.Distributes whole place)
    (hsame : ∀ r < c.count, (c.manager r).SameFields m)
    (hready : (single m whole hbound).Ready) :
    (single m whole hbound).Succeeded (single m whole hbound).report where
  count_lt := Nat.one_lt_two_pow (by decide)
  fits := h.fits_single hbound hd hsame
  narrow s hs k hk := by
    have hall : k ∈ (single m whole hbound).parties.allKeys := mem_allKeys.2 ⟨s, hs, hk⟩
    rw [h.allKeys_single hbound hd hsame hready, mem_allKeys] at hall
    obtain ⟨r, hr, hk⟩ := hall
    exact h.narrow r hr k hk
  run := run_build hready.steady (h.fits_single hbound hd hsame)
    (named_of_count_lt (show 1 < 2 ^ 32 by decide) _)
  ok r hr := (outcome_report r).trans (hready r hr)

/-! ### One renumbering -/

/-- The number that a key has on the ranks, from the number that it has in the whole mesh. -/
noncomputable def renumber (c : Crew) (m : Manager) (whole : Mesh)
    (hbound : m.binding = some ⟨whole, Seat.solitary⟩) : Nat → Nat :=
  c.number ∘ Function.invFunOn (single m whole hbound).number c.parties.allKeys

theorem bijOn_number (h : c.Succeeded report) :
    Set.BijOn c.number c.parties.allKeys (Set.Iio c.parties.allKeys.card) :=
  bijOn_gid h.numerable.carried

theorem bijOn_number_single (h : c.Succeeded report) (hd : c.Distributes whole place)
    (hsame : ∀ r < c.count, (c.manager r).SameFields m)
    (hready : (single m whole hbound).Ready) :
    Set.BijOn (single m whole hbound).number c.parties.allKeys
      (Set.Iio c.parties.allKeys.card) := by
  have hbij := bijOn_number (h.succeeded_single hbound hd hsame hready)
  rw [h.allKeys_single hbound hd hsame hready] at hbij
  exact hbij

theorem bijOn_renumber (h : c.Succeeded report) (hd : c.Distributes whole place)
    (hsame : ∀ r < c.count, (c.manager r).SameFields m)
    (hready : (single m whole hbound).Ready) :
    Set.BijOn (renumber c m whole hbound) (Set.Iio c.parties.allKeys.card)
      (Set.Iio c.parties.allKeys.card) := by
  have hsingle := h.bijOn_number_single hbound hd hsame hready
  exact h.bijOn_number.comp (hsingle.symm hsingle.invOn_invFunOn.symm)

theorem renumber_number (h : c.Succeeded report) (hd : c.Distributes whole place)
    (hsame : ∀ r < c.count, (c.manager r).SameFields m)
    (hready : (single m whole hbound).Ready) {k : DofKey} (hk : k ∈ c.parties.allKeys) :
    renumber c m whole hbound ((single m whole hbound).number k) = c.number k := by
  have hinv := (h.bijOn_number_single hbound hd hsame hready).invOn_invFunOn.1 hk
  rw [renumber, Function.comp_apply, hinv]

/-- The ids of an element are numbers of its keys. -/
theorem map_toNat_gids (h : c.Succeeded report) {r : Nat} (hr : r < c.count) {e : Nat}
    {ks : List DofKey} (hks : (c.prepared r).elementKeys[e]? = some ks) :
    (ks.map (c.gid r)).map UInt64.toNat = ks.map c.number := by
  rw [List.map_map]
  refine List.map_congr_left fun k hk => ?_
  have hmem := mem_keys_of_getElem? hks hk
  rw [Function.comp_apply, h.gid_eq hr hmem, h.toNat_ofNat_number (mem_allKeys_of_mem hr hmem)]

theorem numGlobal_eq (h : c.Succeeded report) {r : Nat} (hr : r < c.count) :
    ∃ n, (report r).manager.numbering = .ok n ∧ n.numGlobal.toNat = c.parties.allKeys.card := by
  refine ⟨c.numbering r, h.numbering_eq_ok hr, ?_⟩
  rw [h.numbering_eq hr]
  exact toNat_numGlobal h.numerable.carried r

/-- **The ids of an element on its rank are those of the whole mesh, renumbered.** -/
theorem map_renumber (h : c.Succeeded report) (hd : c.Distributes whole place)
    (hsame : ∀ r < c.count, (c.manager r).SameFields m)
    (hready : (single m whole hbound).Ready) {r : Nat} (hr : r < c.count) {e : Nat}
    (he : e < (c.mesh r).numElements) :
    ∃ gids gids', (report r).manager.elementGids e = .ok gids ∧
      m.build.alone.manager.elementGids (place r e) = .ok gids' ∧
      gids.map UInt64.toNat = gids'.map fun g => renumber c m whole hbound g.toNat := by
  have hsingle := h.succeeded_single hbound hd hsame hready
  obtain ⟨ks, hks, -⟩ := h.exists_keys hr he
  have hks' := h.serial_getElem? hbound hd hsame hready hr he hks
  refine ⟨ks.map (c.gid r), ks.map ((single m whole hbound).gid 0),
    (h.elementGids_eq_ok_iff hr).2 ⟨ks, hks, rfl⟩, ?_, ?_⟩
  · rw [h.alone_single hbound hd hsame]
    exact (hsingle.elementGids_eq_ok_iff Nat.one_pos).2 ⟨ks, hks', rfl⟩
  · have hserial := hsingle.map_toNat_gids Nat.one_pos hks'
    calc (ks.map (c.gid r)).map UInt64.toNat
      _ = ks.map c.number := h.map_toNat_gids hr hks
      _ = (ks.map (single m whole hbound).number).map (renumber c m whole hbound) := by
        rw [List.map_map]
        exact List.map_congr_left fun k hk => (h.renumber_number hbound hd hsame hready
          (mem_allKeys.2 ⟨r, hr, mem_keys_of_getElem? hks hk⟩)).symm
      _ = _ := by
        rw [← hserial, List.map_map]
        rfl

/-! ### The ids of the elements -/

/-- A place of an element addresses some key, whose id stands there. -/
theorem exists_addresses (h : c.Succeeded report) {r : Nat} (hr : r < c.count) {e o : Nat}
    {gids : List UInt64} {g : UInt64} (hgids : (report r).manager.elementGids e = .ok gids)
    (hg : gids[o]? = some g) :
    ∃ k, (report r).manager.Addresses (c.mesh r) e o k := by
  obtain ⟨ks, hks, rfl⟩ := (h.elementGids_eq_ok_iff hr).1 hgids
  obtain ⟨k, hk, -⟩ := Option.map_eq_some_iff.1 (List.getElem?_map ▸ hg)
  exact ⟨k, (h.addresses_iff hr (h.lt_numElements hr hks) hks).2 hk⟩

theorem gid_of_addresses (h : c.Succeeded report) {r : Nat} (hr : r < c.count) {e o : Nat}
    {gids : List UInt64} {g : UInt64} (hgids : (report r).manager.elementGids e = .ok gids)
    (hg : gids[o]? = some g) {k : DofKey}
    (hk : (report r).manager.Addresses (c.mesh r) e o k) :
    k ∈ c.parties.keys r ∧ g = c.gid r k := by
  obtain ⟨ks, hks, rfl⟩ := (h.elementGids_eq_ok_iff hr).1 hgids
  have hplace := (h.addresses_iff hr (h.lt_numElements hr hks) hks).1 hk
  rw [List.getElem?_map, hplace] at hg
  exact ⟨mem_keys_of_getElem? hks (List.mem_of_getElem? hplace), (Option.some.inj hg).symm⟩

/-- **The ids of the elements after a build that succeeded on all ranks.**

* Each element of a rank has ids; they stand as the layout of its block has them, and on a sub-cell
  they are those of the sub-entity of the element that the connectivity has for it.
* Each place among the ids of an element addresses one sub-entity, field and component, and two
  places, of any elements on any ranks, have the same id just if they address the same.
* A mesh that was spread over the ranks can also be built on one rank with the same fields, if each
  of its blocks is known to some rank; and up to one renumbering of the global range its elements
  have the same ids there. -/
theorem element_ids (h : c.Succeeded report) :
    (∀ r < c.count, ∀ e < (c.mesh r).numElements, ∃ gids block,
      (report r).manager.elementGids e = .ok gids ∧
      (c.mesh r).elementBlock e = some block ∧
      (block ∉ (c.mesh r).blockIds → gids = []) ∧
      (block ∈ (c.mesh r).blockIds → (report r).manager.LaidOut (c.mesh r) e block gids)) ∧
    (∀ r < c.count, ∀ e gids, (report r).manager.elementGids e = .ok gids →
      ∀ o < gids.length, ∃! k, (report r).manager.Addresses (c.mesh r) e o k) ∧
    (∀ r < c.count, ∀ s < c.count, ∀ e e' gids gids',
      (report r).manager.elementGids e = .ok gids → (report s).manager.elementGids e' = .ok gids' →
      ∀ (o o' : Nat) (g g' : UInt64) (k k' : DofKey), gids[o]? = some g → gids'[o']? = some g' →
        (report r).manager.Addresses (c.mesh r) e o k →
        (report s).manager.Addresses (c.mesh s) e' o' k' → (g = g' ↔ k = k')) ∧
    (∀ whole place m, c.Distributes whole place → m.binding = some ⟨whole, Seat.solitary⟩ →
      (∀ r < c.count, (c.manager r).SameFields m) →
      ((∀ b ∈ whole.blockIds, ∃ r < c.count, b ∈ (c.mesh r).blockIds) →
        m.build.alone.outcome = .ok ()) ∧
      (m.build.alone.outcome = .ok () → ∃ numGlobal π,
        (∀ r < c.count, ∃ n, (report r).manager.numbering = .ok n ∧
          n.numGlobal.toNat = numGlobal) ∧
        Set.BijOn π (Set.Iio numGlobal) (Set.Iio numGlobal) ∧
        ∀ r < c.count, ∀ e < (c.mesh r).numElements, ∃ gids gids',
          (report r).manager.elementGids e = .ok gids ∧
          m.build.alone.manager.elementGids (place r e) = .ok gids' ∧
          gids.map UInt64.toNat = gids'.map fun g => π g.toNat)) := by
  refine ⟨fun r hr e he => ?_, fun r hr e gids hgids o ho => ?_,
    fun r hr s hs e e' gids gids' hgids hgids' o o' g g' k k' hg hg' hk hk' => ?_,
    fun whole place m hd hbound hsame => ⟨fun hblocks => ?_, fun hok => ?_⟩⟩
  · obtain ⟨ks, hks, -⟩ := h.exists_keys hr he
    have hgids := (h.elementGids_eq_ok_iff hr).2 ⟨ks, hks, rfl⟩
    obtain ⟨block, hblock, hunknown, hlaid⟩ := h.laidOut hr hgids
    exact ⟨_, block, hgids, hblock, hunknown, hlaid⟩
  · have hg := List.getElem?_eq_getElem ho
    obtain ⟨k, hk⟩ := h.exists_addresses hr hgids hg
    refine ⟨k, hk, fun k' hk' => ?_⟩
    obtain ⟨hmem, hgid⟩ := h.gid_of_addresses hr hgids hg hk
    obtain ⟨hmem', hgid'⟩ := h.gid_of_addresses hr hgids hg hk'
    exact (h.gid_inj hr hr hmem' hmem).1 (hgid'.symm.trans hgid)
  · obtain ⟨hmem, rfl⟩ := h.gid_of_addresses hr hgids hg hk
    obtain ⟨hmem', rfl⟩ := h.gid_of_addresses hs hgids' hg' hk'
    exact h.gid_inj hr hs hmem hmem'
  · exact (h.outcome_alone_eq_ok_iff hbound hd hsame).2 (h.ready_serial hbound hd hsame hblocks)
  · have hready := (h.outcome_alone_eq_ok_iff hbound hd hsame).1 hok
    exact ⟨_, renumber c m whole hbound, fun r hr => h.numGlobal_eq hr,
      h.bijOn_renumber hbound hd hsame hready,
      fun r hr e he => h.map_renumber hbound hd hsame hready hr he⟩

/-- Two bars on two ranks have the ids that they have on one rank, renumbered. -/
theorem element_ids_bars :
    (Bars.crew 2).Succeeded (Bars.crew 2).report ∧
      (Bars.crew 2).Distributes (Bars.whole 2) (fun r _ => r) ∧
      (Bars.serial 2).build.alone.outcome = .ok () ∧
      ∃ numGlobal π, Set.BijOn π (Set.Iio numGlobal) (Set.Iio numGlobal) ∧
        ∀ r < 2, ∃ gids gids', ((Bars.crew 2).report r).manager.elementGids 0 = .ok gids ∧
          (Bars.serial 2).build.alone.manager.elementGids r = .ok gids' ∧
          gids.map UInt64.toNat = gids'.map fun g => π g.toNat := by
  have hserial := (element_ids succeeded_bars).2.2.2 _ _ (Bars.serial 2) Bars.distributes_two rfl
    fun _ _ => ⟨rfl, rfl, rfl⟩
  have hok := hserial.1 fun b hb => ⟨0, by decide, hb⟩
  obtain ⟨numGlobal, π, -, hbij, hids⟩ := hserial.2 hok
  exact ⟨succeeded_bars, Bars.distributes_two, hok, numGlobal, π, hbij,
    fun r hr => hids r hr 0 Nat.one_pos⟩

end Succeeded

end Crew

end Unknowns
