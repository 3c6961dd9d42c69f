import Unknowns.Proofs.Build.Graphs
import Unknowns.Proofs.Field.Layout

/-!
# The overlap after a build

What two ranks share is known to both of them, and each learned it in its own way:
the holder of a ghost from its list of ghosts, the owner from the exchange in which
holders tell owners about them.

* `Numbering.mem_holders`: what an owner notes for a peer are the ghosts that the
  peer has of it;
* `Crew.Succeeded.overlap_matches`: after a build that succeeded on all ranks, both
  have the same ascending list, which holds the ids of the peer's overlap that the
  owner owns; and the overlap of a rank is what it owns and, behind that, what it
  has from all others.
-/

namespace Unknowns

/-! ### Lists by rank -/

theorem Table.get?_filter {κ ν : Type} [Ord κ] [Std.TransOrd κ] [Std.LawfulEqOrd κ] [DecidableEq κ]
    (t : Table κ ν) (p : κ → ν → Bool) (k : κ) : (t.filter p).get? k = (t.get? k).filter (p k) := by
  refine Option.ext fun v => ?_
  rw [← mem_entries_iff, filter, List.mem_filter, mem_entries_iff, Option.filter_eq_some_iff]

namespace RankLists

theorem mem_ofRank {t : RankLists} {rank : Nat} {g : UInt64} :
    g ∈ t.ofRank rank ↔ ∃ gids, (rank, gids) ∈ t.entries ∧ g ∈ gids := by
  simp only [Table.mem_entries_iff, ofRank]
  cases t.get? rank <;> simp

/-- Leaving out ranks without ids changes no list. -/
theorem ofRank_filter (t : RankLists) (rank : Nat) :
    ofRank (t.filter fun _ gids => !gids.isEmpty) rank = t.ofRank rank := by
  rw [ofRank, ofRank, Table.get?_filter]
  cases t.get? rank with
  | none => rfl
  | some gids => cases gids <;> rfl

end RankLists

/-- Ghosts come by id, then by owner. -/
theorem before_ghost_iff {a b : Ghost} :
    Before a b ↔ a.gid < b.gid ∨ a.gid = b.gid ∧ a.owner < b.owner := by
  show (compare a.gid b.gid).then (compare a.owner b.owner) = .lt ↔ _
  rw [Ordering.then_eq_lt, Std.compare_eq_lt, Nat.compare_eq_lt, Std.compare_eq_iff_eq]

namespace OverlapImport

theorem fromRank_ofGhosts (ghosts : List Ghost) (rank : Nat) :
    (ofGhosts ghosts).fromRank rank =
      ascending ((ghosts.filter (·.owner = rank)).map (·.gid)) :=
  Numbering.listFor_map_groupBy Ghost.owner ghosts (fun gs => ascending (gs.map Ghost.gid)) rfl rank

theorem mem_fromRank_ofGhosts {ghosts : List Ghost} {rank : Nat} {g : UInt64} :
    g ∈ (ofGhosts ghosts).fromRank rank ↔ ⟨g, rank⟩ ∈ ghosts := by
  rw [fromRank_ofGhosts, mem_ascending, List.mem_map]
  constructor
  · rintro ⟨⟨i, s⟩, hmem, rfl⟩
    obtain ⟨hghost, howner⟩ := List.mem_filter.1 hmem
    obtain rfl : s = rank := of_decide_eq_true howner
    exact hghost
  · exact fun hghost => ⟨_, List.mem_filter.2 ⟨hghost, decide_eq_true rfl⟩, rfl⟩

end OverlapImport

/-- An export has the lists that are given for the holders, in ascending order. -/
theorem OverlapExport.heldByRank_ofGhosts (ghosts : List Ghost) (held : RankLists) (rank : Nat) :
    (ofGhosts ghosts held.entries).heldByRank rank = ascending (held.ofRank rank) := by
  have hlist : RankLists.ofRank ((Table.groupBy (·.1) held.entries).map fun _ lists =>
      ascending (lists.flatMap (·.2))) rank =
        ascending ((held.entries.filter (·.1 = rank)).flatMap (·.2)) :=
    Numbering.listFor_map_groupBy Prod.fst held.entries
      (fun lists => ascending (lists.flatMap Prod.snd)) rfl rank
  rw [heldByRank, ofGhosts, RankLists.ofRank_filter, hlist]
  refine ascending_congr fun g => ?_
  simp only [List.mem_flatMap, List.mem_filter, decide_eq_true_eq, RankLists.mem_ofRank]
  constructor
  · rintro ⟨⟨s, gids⟩, ⟨hmem, rfl⟩, hg⟩
    exact ⟨gids, hmem, hg⟩
  · rintro ⟨gids, hmem, hg⟩
    exact ⟨_, ⟨hmem, rfl⟩, hg⟩

/-! ### What owners note -/

namespace Numbering

open World

/-- What an owner notes for a peer, if anything, is what it reads of the messages of this peer. -/
theorem mem_entries_holders {n : Nat} {numbering : Nat → Numbering} {r q : Nat}
    {gids : List UInt64} :
    (q, gids) ∈ (holders n numbering r).entries ↔ gids ≠ [] ∧ ∃ records,
      (q, records) ∈ (incomingLists n (fun s => (numbering s).ghostMessages) r).entries ∧
        ascending (records.filterMap GidRecord.gid?) = gids := by
  have hsorted : (((incomingLists n (fun s => (numbering s).ghostMessages) r).entries.map fun e =>
      (e.1, ascending (e.2.filterMap GidRecord.gid?))).filter fun h => !h.2.isEmpty).Pairwise
        fun a b => Before a.1 b.1 :=
    List.Pairwise.filter _ (List.pairwise_map.2
      (incomingLists n (fun s => (numbering s).ghostMessages) r).sorted)
  rw [Table.mem_entries_iff, holders, Table.get?_ofList hsorted, Table.find_eq_some hsorted]
  simp only [List.mem_filter, List.mem_map, Prod.exists, Prod.mk.injEq, Bool.not_eq_true',
    List.isEmpty_eq_false_iff]
  constructor
  · rintro ⟨⟨s, records, hmem, rfl, hgids⟩, hne⟩
    exact ⟨hne, records, hmem, hgids⟩
  · rintro ⟨hne, records, hmem, hgids⟩
    exact ⟨⟨q, records, hmem, rfl, hgids⟩, hne⟩

/-- **An owner notes the ghosts that its peers have of it**, but for the largest id, which is told as
none. -/
theorem mem_holders {n : Nat} {numbering : Nat → Numbering} {r q : Nat} (hr : r < n) {g : UInt64} :
    g ∈ (holders n numbering r).ofRank q ↔
      q < n ∧ q ≠ r ∧ g ≠ noGid ∧ ⟨g, r⟩ ∈ (numbering q).ghosts := by
  rw [RankLists.mem_ofRank]
  simp only [mem_entries_holders, mem_entries_incomingLists hr]
  constructor
  · rintro ⟨_, ⟨-, _, ⟨⟨hq, hne⟩, -, rfl⟩, rfl⟩, hg⟩
    exact ⟨hq, hne, mem_ghostMessages.1 (mem_ascending.1 hg)⟩
  · rintro ⟨hq, hne, hg⟩
    have hlist := mem_ghostMessages.2 hg
    refine ⟨_, ⟨List.ne_nil_of_mem (mem_ascending.2 hlist), _, ⟨⟨hq, hne⟩, ?_, rfl⟩, rfl⟩,
      mem_ascending.2 hlist⟩
    -- The peer sends something, since the ghost is among it.
    rintro hnil
    rw [hnil] at hlist
    cases hlist

end Numbering

namespace Manager

/-- What a manager answers about the ids of its rank: its numbering, the maps of the owned ids and of
the overlap, and both directions of the overlap. -/
structure OverlapAnswers (m : Manager) (n : Numbering) (owned whole : IndexMap)
    (imported : OverlapImport) (exported : OverlapExport) : Prop where
  numbering : m.numbering = .ok n
  map : (Manager.map.run m).1 = .ok owned
  overlapMap : (Manager.overlapMap.run m).1 = .ok whole
  overlapImport : m.overlapImport = .ok imported
  overlapExport : m.overlapExport = .ok exported

end Manager

namespace Crew

open World Negotiation Parties

variable {c : Crew} {report : Nat → Manager.Report}

/-- What rank `q` has from others. -/
def imported (c : Crew) (q : Nat) : OverlapImport := .ofGhosts (c.numbering q).ghosts

/-- Both directions of the overlap of rank `r`. -/
def exported (c : Crew) (r : Nat) : OverlapExport :=
  .ofGhosts (c.numbering r).ghosts (c.built r).heldBy.entries

namespace Succeeded

/-- No key has the largest id as its number. -/
theorem ofNat_number_ne_noGid (h : c.Succeeded report) {k : DofKey}
    (hk : k ∈ c.parties.carried.allKeys) : UInt64.ofNat (c.number k) ≠ noGid := by
  intro he
  have hnat := congrArg UInt64.toNat he
  have hlargest : noGid.toNat = 2 ^ 64 - 1 := rfl
  have hlt : c.number k < c.parties.carried.roster.length := gid_lt hk
  have hroster := length_roster_lt h.numerable.carried
  rw [h.toNat_ofNat_number hk, hlargest] at hnat
  omega

/-- **The ghosts that a rank has of another one** are the ids of its overlap that the other owns. -/
theorem mem_fromRank (h : c.Succeeded report) {r q : Nat} (hr : r < c.count) (hq : q < c.count)
    (hne : r ≠ q) {g : UInt64} :
    g ∈ (c.imported q).fromRank r ↔
      g ∈ Builder.overlapGids (c.numbering q) ∧ g ∈ (c.numbering r).ownedGids := by
  rw [imported, OverlapImport.mem_fromRank_ofGhosts, h.mem_ghosts hq, h.mem_overlapGids hq,
    h.mem_ownedGids hr]
  constructor
  · rintro ⟨k, hk, rfl, -, rfl⟩
    exact ⟨⟨k, hk, rfl⟩, k, mem_keys_owner (mem_allKeys_of_mem hq hk), rfl, rfl⟩
  · rintro ⟨⟨k, hk, rfl⟩, j, hj, howner, he⟩
    obtain rfl := (h.ofNat_number_inj (mem_allKeys_of_mem hq hk) (mem_allKeys_of_mem hr hj)).1 he
    exact ⟨k, hk, howner, hne, rfl⟩

/-- **Owners know their ghosts**, each as its holder does. -/
theorem heldByRank_eq (h : c.Succeeded report) {r q : Nat} (hr : r < c.count) (hq : q < c.count)
    (hne : r ≠ q) : (c.exported r).heldByRank q = (c.imported q).fromRank r := by
  rw [exported, OverlapExport.heldByRank_ofGhosts, imported, OverlapImport.fromRank_ofGhosts]
  refine ascending_congr fun g => ?_
  have hghost : g ∈ ((c.numbering q).ghosts.filter (·.owner = r)).map (·.gid) ↔
      ⟨g, r⟩ ∈ (c.numbering q).ghosts := by
    rw [← mem_ascending, ← OverlapImport.fromRank_ofGhosts, OverlapImport.mem_fromRank_ofGhosts]
  rw [hghost]
  refine (Numbering.mem_holders hr).trans ⟨fun hg => hg.2.2.2, fun hg => ⟨hq, hne.symm, ?_, hg⟩⟩
  obtain ⟨k, hk, -, -, hgid⟩ := (h.mem_ghosts hq).1 hg
  rw [show g = UInt64.ofNat (c.number k) from hgid]
  exact h.ofNat_number_ne_noGid (mem_allKeys_of_mem hq hk)

/-- A ghost has one owner, whatever keys it stands for. -/
theorem owner_of_ghost (h : c.Succeeded report) {q : Nat} (hq : q < c.count) {g g' : Ghost}
    (hg : g ∈ (c.numbering q).ghosts) (hg' : g' ∈ (c.numbering q).ghosts) (he : g.gid = g'.gid) :
    g.owner = g'.owner := by
  obtain ⟨k, hk, howner, -, hgid⟩ := (h.mem_ghosts hq).1 hg
  obtain ⟨j, hj, howner', -, hgid'⟩ := (h.mem_ghosts hq).1 hg'
  have hsame := (h.ofNat_number_inj (mem_allKeys_of_mem hq hk) (mem_allKeys_of_mem hq hj)).1
    (hgid.symm.trans (he.trans hgid'))
  rw [← howner, ← howner', hsame]

/-- The ghosts of a rank stand in ascending order of their ids. -/
theorem pairwise_ghosts (h : c.Succeeded report) {q : Nat} (hq : q < c.count) :
    ((c.numbering q).ghosts.map (·.gid)).Pairwise (· < ·) := by
  refine List.pairwise_map.2 ((pairwise_ascending _).imp_of_mem fun {a b} ha hb hbefore => ?_)
  rcases before_ghost_iff.1 hbefore with hgid | ⟨hgid, howner⟩
  · exact hgid
  · have hsame := h.owner_of_ghost hq ha hb hgid
    omega

/-- **The ghosts of a rank are what it has from the others**, put together. -/
theorem perm_ghosts (h : c.Succeeded report) {q : Nat} (hq : q < c.count) :
    ((c.numbering q).ghosts.map (·.gid)).Perm
      ((List.range c.count).flatMap (c.imported q).fromRank) := by
  have hnodup : ((c.numbering q).ghosts.map (·.gid)).Nodup :=
    (h.pairwise_ghosts hq).imp fun hlt => UInt64.ne_of_lt hlt
  have hlists : ((List.range c.count).flatMap (c.imported q).fromRank).Nodup := by
    refine List.nodup_flatMap.2 ⟨fun r _ => ?_, List.nodup_range.imp fun {r s} hne g hr hs => ?_⟩
    · rw [imported, OverlapImport.fromRank_ofGhosts]
      exact nodup_of_pairwise (pairwise_ascending _)
    · exact hne (h.owner_of_ghost hq (OverlapImport.mem_fromRank_ofGhosts.1 hr)
        (OverlapImport.mem_fromRank_ofGhosts.1 hs) rfl)
  refine (List.perm_ext_iff_of_nodup hnodup hlists).2 fun g => ?_
  simp only [List.mem_map, List.mem_flatMap, List.mem_range, imported,
    OverlapImport.mem_fromRank_ofGhosts]
  constructor
  · rintro ⟨⟨i, s⟩, hg, rfl⟩
    obtain ⟨k, hk, rfl, -, -⟩ := (h.mem_ghosts hq).1 hg
    exact ⟨_, owner_lt (mem_allKeys_of_mem hq hk), hg⟩
  · rintro ⟨s, -, hg⟩
    exact ⟨_, hg, rfl⟩

/-- **Every id of an overlap has one owner.** -/
theorem existsUnique_owner (h : c.Succeeded report) {q : Nat} (hq : q < c.count) {g : UInt64}
    (hg : g ∈ Builder.overlapGids (c.numbering q)) :
    ∃! r, r < c.count ∧ g ∈ (c.numbering r).ownedGids := by
  obtain ⟨k, hk, rfl⟩ := (h.mem_overlapGids hq).1 hg
  have hall := mem_allKeys_of_mem hq hk
  have howner : c.keyOwner k < c.count := owner_lt hall
  refine ⟨c.keyOwner k, ⟨howner, (h.mem_ownedGids howner).2 ⟨k, mem_keys_owner hall, rfl, rfl⟩⟩, ?_⟩
  rintro r ⟨hr, hgr⟩
  obtain ⟨j, hj, rfl, he⟩ := (h.mem_ownedGids hr).1 hgr
  rw [(h.ofNat_number_inj hall (mem_allKeys_of_mem hr hj)).1 he]

/-- The ids that a rank owns follow one another. -/
theorem ownedGids_eq_range' (h : c.Succeeded report) {r : Nat} (hr : r < c.count) :
    (c.numbering r).ownedGids.map UInt64.toNat =
      List.range' (c.numbering r).ownedBase.toNat (c.numbering r).numOwned := by
  rw [h.numbering_eq hr, ownedGids_numbering h.numerable.carried hr,
    toNat_ownedBase h.numerable.carried (Nat.le_of_lt hr)]
  rfl

theorem run_map (h : c.Succeeded report) {r : Nat} (hr : r < c.count)
    (hbuilder : (c.manager r).builder = .standard) :
    (Manager.map.run (report r).manager).1 = .ok (h.ownedMap hr) :=
  (h.run_query hr hbuilder .map).trans (IndexMap.ofGids_self (h.ownedMap hr))

/-- The exchange in which owners learn about their ghosts succeeds at all ranks: no rank is told of
a ghost that it does not own. -/
theorem run_ghostHolders (h : c.Succeeded report) (tags : Tags) :
    World.run [] ((List.range c.count).map fun r =>
      ((c.numbering r).ghostHolders (World.seat c.count r) tags).run) =
        some ((List.range c.count).map fun r => .ok (c.built r).heldBy, []) :=
  (Parties.succeeds_ghostHolders h.numerable (h.fits h.ready).ghosts).run_eq

/-- **Both sides of every overlap agree.**  After a build that succeeded on all ranks, with the
standard builder:

* what rank `r` knows `q` to hold of its ids is what `q` has from `r` and what `q` would send back:
  the ascending list of the ids of the overlap of `q` that `r` owns;
* the overlap of a rank is the interval of ids that it owns and behind it, ascending, its lists from
  all ranks, which have no id in common; both maps can be made;
* every id of an overlap has one owner;
* the exchange by which owners learn about their ghosts succeeds at all ranks. -/
theorem overlap_matches (h : c.Succeeded report)
    (hbuilder : ∀ r < c.count, (c.manager r).builder = .standard) :
    ∃ (n : Nat → Numbering) (owned whole : Nat → IndexMap) (imported : Nat → OverlapImport)
      (exported : Nat → OverlapExport),
      (∀ r < c.count,
        (report r).manager.OverlapAnswers (n r) (owned r) (whole r) (imported r) (exported r)) ∧
      (∀ r < c.count, ∀ q < c.count, r ≠ q →
        (exported r).heldByRank q = (imported q).fromRank r ∧
        (exported q).toRank r = (imported q).fromRank r ∧
        ((imported q).fromRank r).Pairwise (· < ·) ∧
        ∀ g, g ∈ (imported q).fromRank r ↔ g ∈ (whole q).gids ∧ g ∈ (n r).ownedGids) ∧
      (∀ q < c.count, (owned q).gids = (n q).ownedGids ∧
        (n q).ownedGids.map UInt64.toNat = List.range' (n q).ownedBase.toNat (n q).numOwned ∧
        ∃ ghosts, (whole q).gids = (n q).ownedGids ++ ghosts ∧ ghosts.Pairwise (· < ·) ∧
          ghosts.Perm ((List.range c.count).flatMap (imported q).fromRank)) ∧
      (∀ q < c.count, ∀ g ∈ (whole q).gids, ∃! r, r < c.count ∧ g ∈ (n r).ownedGids) ∧
      ∀ tags, ∃ held : Nat → RankLists,
        World.run [] ((List.range c.count).map fun r =>
          ((n r).ghostHolders (World.seat c.count r) tags).run) =
            some ((List.range c.count).map fun r => .ok (held r), []) ∧
        ∀ r < c.count, exported r = .ofGhosts (n r).ghosts (held r).entries := by
  have hmaps : ∀ r, ∃ owned whole : IndexMap, ∀ hr : r < c.count,
      owned = h.ownedMap hr ∧ whole = h.wholeMap hr := by
    intro r
    by_cases hr : r < c.count
    · exact ⟨h.ownedMap hr, h.wholeMap hr, fun _ => ⟨rfl, rfl⟩⟩
    · exact ⟨⟨[], 0, .nil, by simp⟩, ⟨[], 0, .nil, by simp⟩, fun hr' => absurd hr' hr⟩
  choose owned whole hmaps using hmaps
  refine ⟨c.numbering, owned, whole, c.imported, c.exported, fun r hr => ?_,
    fun r hr q hq hne => ⟨h.heldByRank_eq hr hq hne, rfl, ?_, fun g => ?_⟩,
    fun q hq => ⟨?_, h.ownedGids_eq_range' hq, _, ?_, h.pairwise_ghosts hq, h.perm_ghosts hq⟩,
    fun q hq g hg => ?_, fun tags => ⟨_, h.run_ghostHolders tags, fun _ _ => rfl⟩⟩
  · rw [(hmaps r hr).1, (hmaps r hr).2]
    refine ⟨h.numbering_eq_ok hr, h.run_map hr (hbuilder r hr), h.run_overlapMap hr (hbuilder r hr),
      ?_, ?_⟩ <;> rw [h.manager_eq hr] <;> rfl
  · rw [imported, OverlapImport.fromRank_ofGhosts]
    exact (pairwise_ascending _).imp fun hlt => Std.compare_eq_lt.1 hlt
  · rw [(hmaps q hq).2]
    exact h.mem_fromRank hr hq hne
  · rw [(hmaps q hq).1]
    rfl
  · rw [(hmaps q hq).2]
    rfl
  · rw [(hmaps q hq).2] at hg
    exact h.existsUnique_owner hq hg

/-- Two bars that share a node: the owner of the node and the rank that has it as a ghost know it
alike. -/
theorem overlap_matches_bars :
    (Bars.crew 2).Succeeded (Bars.crew 2).report ∧
      (∀ r < 2, (Bars.manager 2 r).builder = .standard) ∧
      ∃ (n : Nat → Numbering) (owned whole : Nat → IndexMap) (imported : Nat → OverlapImport)
        (exported : Nat → OverlapExport),
        (∀ r < 2, ((Bars.crew 2).report r).manager.OverlapAnswers (n r) (owned r) (whole r)
          (imported r) (exported r)) ∧
        ∀ r < 2, ∀ q < 2, r ≠ q →
          (exported r).heldByRank q = (imported q).fromRank r ∧
          (exported q).toRank r = (imported q).fromRank r ∧
          ((imported q).fromRank r).Pairwise (· < ·) ∧
          ∀ g, g ∈ (imported q).fromRank r ↔ g ∈ (whole q).gids ∧ g ∈ (n r).ownedGids := by
  have hstandard : ∀ r < 2, (Bars.manager 2 r).builder = .standard := fun _ _ => rfl
  obtain ⟨n, owned, whole, imported, exported, hanswers, hsides, -⟩ :=
    overlap_matches succeeded_bars hstandard
  exact ⟨succeeded_bars, hstandard, n, owned, whole, imported, exported, hanswers, hsides⟩

end Succeeded

end Crew

end Unknowns
