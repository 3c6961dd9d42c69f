import Unknowns.Proofs.Build.Stopped

/-!
# The ids after a successful build

After a build that succeeded on all ranks (`Crew.Succeeded`) a global id is the
number of one key, and the same key has the same id on all ranks that refer to it
(`gid_inj`).  A rank owns the ids of the keys that it owns (`mem_ownedGids`), its
ghosts are the ids of its other keys (`mem_ghosts`), and the two together are the
ids of all its keys (`mem_overlapGids`).
-/

namespace Unknowns

namespace Manager

/-- The ids of the elements are those of the latest build. -/
theorem elementGids_eq_ok_iff {m : Manager} {b : Built} (h : m.built = some b) {element : Nat}
    {gids : List UInt64} :
    m.elementGids element = .ok gids ↔ b.elementGids[element]? = some gids := by
  simp only [elementGids, result, h, Bind.bind, Except.bind]
  cases b.elementGids[element]? <;> simp

end Manager

namespace Crew

open World Negotiation Parties

/-- All ranks of a crew that can be told in 32 bits succeed in a build with these reports; everything
that travels fits into the words that carry it. -/
structure Succeeded (c : Crew) (report : Nat → Manager.Report) : Prop where
  count_lt : c.count < 2 ^ 32
  fits : c.Ready → c.Fits
  narrow : c.parties.Narrow
  run : World.run [] ((List.range c.count).map fun r => (c.manager r).build) =
    some ((List.range c.count).map report, [])
  ok : ∀ r < c.count, (report r).outcome = .ok ()

variable {c : Crew} {report : Nat → Manager.Report}

namespace Succeeded

/-- A rank that was stopped would have kept all from building. -/
theorem steady (h : c.Succeeded report) : c.Steady := by
  by_contra hnot
  obtain ⟨r, hr⟩ : ∃ r, r < c.count := by
    by_contra hnone
    exact hnot fun r hr => absurd ⟨r, hr⟩ hnone
  exact outcome_ne_ok_of_not_steady hnot h.run (report r) (List.mem_map_of_mem (List.mem_range.2 hr))
    (h.ok r hr)

theorem report_eq (h : c.Succeeded report) {r : Nat} (hr : r < c.count) :
    report r = c.report r := by
  have hrun := h.run.symm.trans (run_build h.steady h.fits (named_of_count_lt h.count_lt _))
  have hlists := (Prod.mk.inj (Option.some.inj hrun)).1
  exact List.map_inj_left.1 hlists r (List.mem_range.2 hr)

theorem agreed (h : c.Succeeded report) {r : Nat} (hr : r < c.count) : c.agreed r = .ok () := by
  rw [← outcome_report, ← h.report_eq hr]
  exact h.ok r hr

theorem ready (h : c.Succeeded report) : c.Ready := fun _ hr => h.agreed hr

theorem numerable (h : c.Succeeded report) : c.parties.Numerable := (h.fits h.ready).numerable

/-- The manager that is left has the result of the build. -/
theorem manager_eq (h : c.Succeeded report) {r : Nat} (hr : r < c.count) :
    (report r).manager = { (c.manager r).discard with built := some (c.built r) } := by
  rw [h.report_eq hr, Crew.report, h.agreed hr]

theorem phases_eq (h : c.Succeeded report) {r : Nat} (hr : r < c.count) :
    c.phases r = .ok (c.prepared r) := phases_eq_ok hr (h.agreed hr)

/-- The numbering that is left is that of the build. -/
theorem numbering_eq_ok (h : c.Succeeded report) {r : Nat} (hr : r < c.count) :
    (report r).manager.numbering = .ok (c.numbering r) := by
  rw [h.manager_eq hr]
  rfl

end Succeeded

/-- Two bars that share a node are built. -/
theorem succeeded_bars : (Bars.crew 2).Succeeded (Bars.crew 2).report where
  count_lt := by decide
  fits _ := Bars.fits_two
  narrow := by
    unfold Parties.Narrow
    decide +kernel
  run := run_build (Bars.ready_crew (by decide)).steady (fun _ => Bars.fits_two)
    (named_of_count_lt (by decide) _)
  ok r hr := (outcome_report r).trans (Bars.ready_crew (by decide) r hr)

/-! ### Ids of keys -/

/-- The number of a key in the outcome of the negotiation as seen from above. -/
def number (c : Crew) (k : DofKey) : Nat := c.parties.carried.gid k

/-- The owner of a key as seen from above. -/
def keyOwner (c : Crew) (k : DofKey) : Nat := c.parties.carried.owner k

namespace Succeeded

theorem numbering_eq (h : c.Succeeded report) {r : Nat} (hr : r < c.count) :
    c.numbering r = c.parties.carried.numbering r :=
  settled_eq h.numerable h.narrow hr

theorem mem_allKeys_of_mem {r : Nat} (hr : r < c.count) {k : DofKey}
    (hk : k ∈ c.parties.keys r) : k ∈ c.parties.carried.allKeys :=
  mem_allKeys.2 ⟨r, hr, hk⟩

/-- The id of a key is its number. -/
theorem gid_eq (h : c.Succeeded report) {r : Nat} (hr : r < c.count) {k : DofKey}
    (hk : k ∈ c.parties.keys r) : c.gid r k = UInt64.ofNat (c.number k) := by
  have hok := gidOf_numbering hk
  have hget : (c.numbering r).gid? k = some (UInt64.ofNat (c.number k)) := by
    rw [h.numbering_eq hr, gid?_numbering, keys_carried, if_pos hk]
    rfl
  simp only [Numbering.gidOf, hget, Except.ok.injEq] at hok
  exact hok.symm

theorem toNat_ofNat_number (h : c.Succeeded report) {k : DofKey}
    (hk : k ∈ c.parties.carried.allKeys) : (UInt64.ofNat (c.number k)).toNat = c.number k :=
  toNat_word h.numerable.carried (Nat.le_of_lt (gid_lt hk))

theorem ofNat_number_inj (h : c.Succeeded report) {j k : DofKey}
    (hj : j ∈ c.parties.carried.allKeys) (hk : k ∈ c.parties.carried.allKeys) :
    UInt64.ofNat (c.number j) = UInt64.ofNat (c.number k) ↔ j = k := by
  refine ⟨fun he => ?_, fun he => he ▸ rfl⟩
  have hnat := congrArg UInt64.toNat he
  rw [h.toNat_ofNat_number hj, h.toNat_ofNat_number hk] at hnat
  exact (gid_inj hj).1 hnat

/-- **Only the same key has the same id**, whichever ranks refer to it. -/
theorem gid_inj (h : c.Succeeded report) {r s : Nat} (hr : r < c.count) (hs : s < c.count)
    {j k : DofKey} (hj : j ∈ c.parties.keys r) (hk : k ∈ c.parties.keys s) :
    c.gid r j = c.gid s k ↔ j = k := by
  rw [h.gid_eq hr hj, h.gid_eq hs hk,
    h.ofNat_number_inj (mem_allKeys_of_mem hr hj) (mem_allKeys_of_mem hs hk)]

/-! ### Ids of a rank -/

/-- **A rank owns the ids of the keys that it owns.** -/
theorem mem_ownedGids (h : c.Succeeded report) {r : Nat} (hr : r < c.count) {g : UInt64} :
    g ∈ (c.numbering r).ownedGids ↔
      ∃ k ∈ c.parties.keys r, c.keyOwner k = r ∧ g = UInt64.ofNat (c.number k) := by
  have hnum := h.numerable.carried
  rw [h.numbering_eq hr]
  have hiff : g ∈ (c.parties.carried.numbering r).ownedGids ↔
      (c.parties.carried.rosterBelow r).length ≤ g.toNat ∧
        g.toNat < (c.parties.carried.rosterBelow (r + 1)).length := by
    have hmap : g ∈ (c.parties.carried.numbering r).ownedGids ↔
        g.toNat ∈ (c.parties.carried.numbering r).ownedGids.map UInt64.toNat := by
      rw [List.mem_map]
      exact ⟨fun hg => ⟨g, hg, rfl⟩, fun ⟨g', hg', he⟩ => UInt64.toNat_inj.1 he ▸ hg'⟩
    rw [hmap, ownedGids_numbering hnum hr, List.mem_range'_1, length_rosterBelow_succ]
  rw [hiff]
  constructor
  · rintro ⟨hlow, hhigh⟩
    have hlt : g.toNat < c.parties.carried.roster.length :=
      Nat.lt_of_lt_of_le hhigh (length_rosterBelow_le (show r + 1 ≤ c.count from hr))
    obtain ⟨k, hk, hgid⟩ := exists_gid_eq hnum hlt
    have hrank : c.keyOwner k = r := (gid_mem_interval_iff hk r).1 (by rw [hgid]; exact ⟨hlow, hhigh⟩)
    refine ⟨k, hrank ▸ mem_keys_owner hk, hrank, ?_⟩
    rw [number, hgid, UInt64.ofNat_toNat]
  · rintro ⟨k, hk, howner, rfl⟩
    have hall := mem_allKeys_of_mem hr hk
    rw [h.toNat_ofNat_number hall]
    exact (gid_mem_interval_iff hall r).2 howner

/-- **The ghosts of a rank are the ids of its keys that others own.** -/
theorem mem_ghosts (h : c.Succeeded report) {r : Nat} (hr : r < c.count) {g : Ghost} :
    g ∈ (c.numbering r).ghosts ↔
      ∃ k ∈ c.parties.keys r, c.keyOwner k = g.owner ∧ g.owner ≠ r ∧
        g.gid = UInt64.ofNat (c.number k) := by
  rw [h.numbering_eq hr]
  exact mem_ghosts_numbering

/-- **The ids of the overlap are the ids of all keys of the rank.** -/
theorem mem_overlapGids (h : c.Succeeded report) {r : Nat} (hr : r < c.count) {g : UInt64} :
    g ∈ Builder.overlapGids (c.numbering r) ↔
      ∃ k ∈ c.parties.keys r, g = UInt64.ofNat (c.number k) := by
  rw [Builder.overlapGids, List.mem_append, h.mem_ownedGids hr, List.mem_map]
  constructor
  · rintro (⟨k, hk, -, rfl⟩ | ⟨g, hg, rfl⟩)
    · exact ⟨k, hk, rfl⟩
    · obtain ⟨k, hk, -, -, hgid⟩ := (h.mem_ghosts hr).1 hg
      exact ⟨k, hk, hgid⟩
  · rintro ⟨k, hk, rfl⟩
    by_cases howner : c.keyOwner k = r
    · exact .inl ⟨k, hk, howner, rfl⟩
    · exact .inr ⟨⟨_, c.keyOwner k⟩, (h.mem_ghosts hr).2 ⟨k, hk, rfl, howner, rfl⟩, rfl⟩

theorem nodup_ownedGids (h : c.Succeeded report) {r : Nat} (hr : r < c.count) :
    (c.numbering r).ownedGids.Nodup := by
  have hnodup : (List.range' (c.parties.carried.rosterBelow r).length
      (c.parties.carried.owned r).length).Nodup := List.nodup_range'
  rw [← ownedGids_numbering h.numerable.carried hr] at hnodup
  rw [h.numbering_eq hr]
  exact hnodup.of_map _

/-- No id occurs twice in the overlap. -/
theorem nodup_overlapGids (h : c.Succeeded report) {r : Nat} (hr : r < c.count) :
    (Builder.overlapGids (c.numbering r)).Nodup := by
  have hghosts : ((c.numbering r).ghosts.map (·.gid)).Nodup := by
    refine (nodup_of_pairwise (pairwise_ascending _)).map_on fun a ha b hb he => ?_
    obtain ⟨j, hj, hja, -, hgj⟩ := (h.mem_ghosts hr).1 ha
    obtain ⟨k, hk, hkb, -, hgk⟩ := (h.mem_ghosts hr).1 hb
    have hsame := (h.ofNat_number_inj (mem_allKeys_of_mem hr hj) (mem_allKeys_of_mem hr hk)).1
      (hgj.symm.trans (he.trans hgk))
    subst hsame
    cases a
    cases b
    simp_all
  refine List.nodup_append.2 ⟨h.nodup_ownedGids hr, hghosts, fun g hg g' hg' he => ?_⟩
  obtain ⟨k, hk, howner, hgk⟩ := (h.mem_ownedGids hr).1 hg
  obtain ⟨a, ha, rfl⟩ := List.mem_map.1 hg'
  obtain ⟨j, hj, hja, hne, hgj⟩ := (h.mem_ghosts hr).1 ha
  have hsame := (h.ofNat_number_inj (mem_allKeys_of_mem hr hk) (mem_allKeys_of_mem hr hj)).1
    (hgk.symm.trans (he.trans hgj))
  subst hsame
  exact hne (hja.symm.trans howner)

/-- All ids of keys lie in the global range. -/
theorem ofNat_number_lt (h : c.Succeeded report) (r : Nat) {k : DofKey} (hr : r < c.count)
    (hk : k ∈ c.parties.carried.allKeys) :
    UInt64.ofNat (c.number k) < (c.numbering r).numGlobal := by
  rw [h.numbering_eq hr, UInt64.lt_iff_toNat_lt, h.toNat_ofNat_number hk,
    toNat_numGlobal h.numerable.carried, ← length_roster h.numerable.carried]
  exact gid_lt hk

end Succeeded

end Crew

end Unknowns
