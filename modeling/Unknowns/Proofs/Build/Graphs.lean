import Unknowns.Proofs.Build.Couplings
import Unknowns.Proofs.Build.Ids
import Unknowns.Proofs.Manager.Answers

/-!
# The graphs after a build

`graphs_complete`: after a build that succeeded on all ranks, the row of an owned
id has all ids that occur in one element with it, on whatever rank that element
is; and the row of an id of the overlap has those that occur in one element of
this rank with it.  So no coupling is lost or invented, the owned rows of all
ranks are symmetric, and on a single rank both graphs are the same.
-/

namespace Unknowns

namespace Manager

variable {m : Manager}

/-- Two ids occur in one element of this rank. -/
def Couples (m : Manager) (g c : UInt64) : Prop :=
  ∃ element gids, m.elementGids element = .ok gids ∧ g ∈ gids ∧ c ∈ gids

/-- The owned graph has this row for an id. -/
def OwnedRow (m : Manager) (g : UInt64) (row : List UInt64) : Prop :=
  ∃ rows, (graph.run m).1 = .ok rows ∧ rows.rowByGid? g = some row

/-- The graph of the overlap has this row for an id. -/
def OverlapRow (m : Manager) (g : UInt64) (row : List UInt64) : Prop :=
  ∃ rows, (overlapGraph.run m).1 = .ok rows ∧ rows.rowByGid? g = some row

theorem couples_iff {b : Built} (h : m.built = some b) {g c : UInt64} :
    m.Couples g c ↔ Couplings.Joined b.elementGids g c := by
  constructor
  · rintro ⟨element, gids, hok, hg, hc⟩
    exact ⟨gids, List.mem_of_getElem? ((elementGids_eq_ok_iff h).1 hok), hg, hc⟩
  · rintro ⟨gids, hmem, hg, hc⟩
    obtain ⟨element, hget⟩ := List.mem_iff_getElem?.1 hmem
    exact ⟨element, gids, (elementGids_eq_ok_iff h).2 hget, hg, hc⟩

end Manager

namespace Crew

open World Negotiation Parties

variable {c : Crew} {report : Nat → Manager.Report}

namespace Succeeded

/-! ### Couplings of keys -/

/-- Two keys occur in one element of a rank. -/
def SameElement (c : Crew) (r : Nat) (j k : DofKey) : Prop :=
  ∃ ks ∈ (c.prepared r).elementKeys, j ∈ ks ∧ k ∈ ks

/-- **Ids are coupled where their keys are.** -/
theorem joined_iff (h : c.Succeeded report) {r : Nat} (hr : r < c.count) {g i : UInt64} :
    Couplings.Joined (c.elementGids r) g i ↔
      ∃ j k, SameElement c r j k ∧ g = UInt64.ofNat (c.number j) ∧
        i = UInt64.ofNat (c.number k) := by
  simp only [Couplings.Joined, elementGids, List.mem_map]
  constructor
  · rintro ⟨_, ⟨ks, hks, rfl⟩, hg, hi⟩
    obtain ⟨j, hj, rfl⟩ := List.mem_map.1 hg
    obtain ⟨k, hk, rfl⟩ := List.mem_map.1 hi
    exact ⟨j, k, ⟨ks, hks, hj, hk⟩, h.gid_eq hr (mem_keys_parties.2 ⟨ks, hks, hj⟩),
      h.gid_eq hr (mem_keys_parties.2 ⟨ks, hks, hk⟩)⟩
  · rintro ⟨j, k, ⟨ks, hks, hj, hk⟩, rfl, rfl⟩
    refine ⟨_, ⟨ks, hks, rfl⟩, ?_, ?_⟩
    · rw [← h.gid_eq hr (mem_keys_parties.2 ⟨ks, hks, hj⟩)]
      exact List.mem_map_of_mem hj
    · rw [← h.gid_eq hr (mem_keys_parties.2 ⟨ks, hks, hk⟩)]
      exact List.mem_map_of_mem hk

theorem SameElement.mem_keys {r : Nat} {j k : DofKey} (h : SameElement c r j k) :
    j ∈ c.parties.keys r ∧ k ∈ c.parties.keys r := by
  obtain ⟨ks, hks, hj, hk⟩ := h
  exact ⟨mem_keys_parties.2 ⟨ks, hks, hj⟩, mem_keys_parties.2 ⟨ks, hks, hk⟩⟩

/-- Each id of a rank is coupled to itself there. -/
theorem joined_self (h : c.Succeeded report) {r : Nat} (hr : r < c.count) {g : UInt64}
    (hg : g ∈ Builder.overlapGids (c.numbering r)) :
    Couplings.Joined (c.elementGids r) g g := by
  obtain ⟨k, hk, rfl⟩ := (h.mem_overlapGids hr).1 hg
  obtain ⟨ks, hks, hmem⟩ := mem_keys_parties.1 hk
  exact (h.joined_iff hr).2 ⟨k, k, ⟨ks, hks, hmem, hmem⟩, rfl, rfl⟩

/-- **What a rank couples to an id that another one owns reaches the owner.** -/
theorem mem_remoteRows (h : c.Succeeded report) {r : Nat} (hr : r < c.count) {g i : UInt64}
    (hg : g ∈ (c.numbering r).ownedGids) :
    (g, i) ∈ (c.built r).remoteRows ↔
      ∃ s < c.count, s ≠ r ∧ Couplings.Joined (c.elementGids s) g i := by
  obtain ⟨k, hk, howner, rfl⟩ := (h.mem_ownedGids hr).1 hg
  have hrows : ∀ s, i ∈ ((c.couplings s).get? (UInt64.ofNat (c.number k))).getD [] ↔
      Couplings.Joined (c.elementGids s) (UInt64.ofNat (c.number k)) i := fun s =>
    Couplings.mem_ofElements
  refine (Numbering.mem_remoteRows hr).trans ⟨?_, ?_⟩
  · rintro ⟨s, hs, hne, -, hrow⟩
    exact ⟨s, hs, hne, (hrows s).1 hrow⟩
  · rintro ⟨s, hs, hne, hjoined⟩
    refine ⟨s, hs, hne, (h.mem_ghosts hs).2 ?_, (hrows s).2 hjoined⟩
    -- The id occurs on rank `s`, so `s` knows its key, and knows it as a ghost of `r`.
    obtain ⟨j, k', hsame, hgj, -⟩ := (h.joined_iff hs).1 hjoined
    have hkeys := hsame.mem_keys
    obtain rfl := (h.ofNat_number_inj (mem_allKeys_of_mem hr hk)
      (mem_allKeys_of_mem hs hkeys.1)).1 hgj
    exact ⟨k, hkeys.1, howner, hne.symm, rfl⟩

/-! ### The graphs of the standard builder -/

/-- The map of the owned ids. -/
def ownedMap (h : c.Succeeded report) {r : Nat} (hr : r < c.count) : IndexMap where
  gids := (c.numbering r).ownedGids
  numGlobal := (c.numbering r).numGlobal
  nodup := h.nodup_ownedGids hr
  inRange g hg := by
    obtain ⟨k, hk, -, rfl⟩ := (h.mem_ownedGids hr).1 hg
    exact h.ofNat_number_lt r hr (mem_allKeys_of_mem hr hk)

/-- The map of the overlap. -/
def wholeMap (h : c.Succeeded report) {r : Nat} (hr : r < c.count) : IndexMap where
  gids := Builder.overlapGids (c.numbering r)
  numGlobal := (c.numbering r).numGlobal
  nodup := h.nodup_overlapGids hr
  inRange g hg := by
    obtain ⟨k, hk, rfl⟩ := (h.mem_overlapGids hr).1 hg
    exact h.ofNat_number_lt r hr (mem_allKeys_of_mem hr hk)

/-- The pairs of the graph of the owned ids. -/
def ownedPairs (c : Crew) (r : Nat) : List (UInt64 × UInt64) :=
  (c.built r).couplings.pairs ++ (c.built r).remoteRows

/-- **An owned row has what any rank couples to it.** -/
theorem mem_columnsOf_owned (h : c.Succeeded report) {r : Nat} (hr : r < c.count) {g i : UInt64}
    (hg : g ∈ (c.numbering r).ownedGids) :
    i ∈ RowGraph.columnsOf (ownedPairs c r) g ↔
      ∃ s < c.count, Couplings.Joined (c.elementGids s) g i := by
  have hpairs : (g, i) ∈ (c.built r).couplings.pairs ↔ Couplings.Joined (c.elementGids r) g i :=
    Couplings.mem_pairs.trans Couplings.mem_ofElements
  rw [RowGraph.mem_columnsOf, ownedPairs, List.mem_append, hpairs, h.mem_remoteRows hr hg]
  constructor
  · rintro (rfl | hjoined | ⟨s, hs, -, hjoined⟩)
    · exact ⟨r, hr, h.joined_self hr (List.mem_append_left _ hg)⟩
    · exact ⟨r, hr, hjoined⟩
    · exact ⟨s, hs, hjoined⟩
  · rintro ⟨s, hs, hjoined⟩
    by_cases hsr : s = r
    · exact .inr (.inl (hsr ▸ hjoined))
    · exact .inr (.inr ⟨s, hs, hsr, hjoined⟩)

theorem mem_columnsOf_overlap (h : c.Succeeded report) {r : Nat} (hr : r < c.count) {g i : UInt64}
    (hg : g ∈ Builder.overlapGids (c.numbering r)) :
    i ∈ RowGraph.columnsOf (c.built r).couplings.pairs g ↔
      Couplings.Joined (c.elementGids r) g i := by
  have hpairs : (g, i) ∈ (c.built r).couplings.pairs ↔ Couplings.Joined (c.elementGids r) g i :=
    Couplings.mem_pairs.trans Couplings.mem_ofElements
  rw [RowGraph.mem_columnsOf, hpairs]
  refine or_iff_right_of_imp ?_
  rintro rfl
  exact h.joined_self hr hg

section
variable (h : c.Succeeded report) {r : Nat} (hr : r < c.count)
  (hbuilder : (c.manager r).builder = .standard)
include h hr hbuilder

/-- The standard builder answers all questions. -/
theorem run_query (q : Question) :
    (q.query.run (report r).manager).1 = Builder.standard.fresh (c.built r).context q := by
  rw [h.manager_eq hr, ← hbuilder]
  exact Manager.run_query_of_empty rfl rfl q

theorem run_overlapMap :
    (Manager.overlapMap.run (report r).manager).1 = .ok (h.wholeMap hr) :=
  (h.run_query hr hbuilder .overlapMap).trans (IndexMap.ofGids_self (h.wholeMap hr))

theorem run_graph :
    (Manager.graph.run (report r).manager).1 =
      .ok (.ofPairs (h.ownedMap hr) (ownedPairs c r)) := by
  have hrows : Builder.standard.map (c.built r).context = .ok (h.ownedMap hr) :=
    IndexMap.ofGids_self (h.ownedMap hr)
  refine (h.run_query hr hbuilder .graph).trans ?_
  rw [Builder.fresh, hrows]
  rfl

theorem run_overlapGraph :
    (Manager.overlapGraph.run (report r).manager).1 =
      .ok (.ofPairs (h.wholeMap hr) (c.built r).couplings.pairs) := by
  have hrows : Builder.standard.overlapMap (c.built r).context = .ok (h.wholeMap hr) :=
    IndexMap.ofGids_self (h.wholeMap hr)
  refine (h.run_query hr hbuilder .overlapGraph).trans ?_
  rw [Builder.fresh, hrows]
  rfl

end

theorem couples_iff (h : c.Succeeded report) {r : Nat} (hr : r < c.count) {g i : UInt64} :
    (report r).manager.Couples g i ↔ Couplings.Joined (c.elementGids r) g i := by
  rw [h.manager_eq hr]
  exact Manager.couples_iff (b := c.built r) rfl

/-! ### Rows -/

theorem ownedRow_iff (h : c.Succeeded report) {r : Nat} (hr : r < c.count)
    (hbuilder : (c.manager r).builder = .standard) {g : UInt64} {row : List UInt64} :
    (report r).manager.OwnedRow g row ↔
      g ∈ (c.numbering r).ownedGids ∧ row = RowGraph.columnsOf (ownedPairs c r) g := by
  rw [Manager.OwnedRow, h.run_graph hr hbuilder]
  constructor
  · rintro ⟨graph, hok, hrow⟩
    obtain rfl := Except.ok.inj hok
    exact RowGraph.rowByGid?_ofPairs_eq_some_iff.1 hrow
  · exact fun hrow => ⟨_, rfl, RowGraph.rowByGid?_ofPairs_eq_some_iff.2 hrow⟩

theorem overlapRow_iff (h : c.Succeeded report) {r : Nat} (hr : r < c.count)
    (hbuilder : (c.manager r).builder = .standard) {g : UInt64} {row : List UInt64} :
    (report r).manager.OverlapRow g row ↔
      g ∈ Builder.overlapGids (c.numbering r) ∧
        row = RowGraph.columnsOf (c.built r).couplings.pairs g := by
  rw [Manager.OverlapRow, h.run_overlapGraph hr hbuilder]
  constructor
  · rintro ⟨graph, hok, hrow⟩
    obtain rfl := Except.ok.inj hok
    exact RowGraph.rowByGid?_ofPairs_eq_some_iff.1 hrow
  · exact fun hrow => ⟨_, rfl, RowGraph.rowByGid?_ofPairs_eq_some_iff.2 hrow⟩

/-- What is coupled to an owned id has an owner. -/
theorem exists_owner (h : c.Succeeded report) {s : Nat} (hs : s < c.count) {g i : UInt64}
    (hjoined : Couplings.Joined (c.elementGids s) g i) :
    ∃ t < c.count, i ∈ (c.numbering t).ownedGids := by
  obtain ⟨j, k, hsame, -, rfl⟩ := (h.joined_iff hs).1 hjoined
  have hall := mem_allKeys_of_mem hs hsame.mem_keys.2
  have howner : c.keyOwner k < c.count := owner_lt hall
  exact ⟨c.keyOwner k, howner, (h.mem_ownedGids howner).2 ⟨k, mem_keys_owner hall, rfl, rfl⟩⟩

/-- On a single rank there are no ghosts, and nothing comes from elsewhere. -/
theorem single_graph (h : c.Succeeded report) (hone : c.count = 1) (hr : 0 < c.count) :
    RowGraph.ofPairs (h.ownedMap hr) (ownedPairs c 0) =
      .ofPairs (h.wholeMap hr) (c.built 0).couplings.pairs := by
  have hghosts : (c.numbering 0).ghosts = [] := by
    refine List.eq_nil_iff_forall_not_mem.2 fun g hg => ?_
    obtain ⟨k, hk, howner, hne, -⟩ := (h.mem_ghosts hr).1 hg
    have hlt : c.keyOwner k < c.count := owner_lt (mem_allKeys_of_mem hr hk)
    omega
  have hrows : (c.built 0).remoteRows = [] := by
    refine List.eq_nil_iff_forall_not_mem.2 fun p hp => ?_
    obtain ⟨s, hs, hne, -⟩ := (Numbering.mem_remoteRows hr).1 hp
    omega
  have hmaps : h.ownedMap hr = h.wholeMap hr := by
    simp only [ownedMap, wholeMap, Builder.overlapGids, hghosts, List.map_nil, List.append_nil]
  rw [hmaps, ownedPairs, hrows, List.append_nil]

/-- **The graphs hold all couplings and no others.**  After a build that succeeded on all ranks, with
the standard builder:

* the row of an owned id lists, ascending, the ids that occur in one element with it, whichever
  rank holds the element;
* the row of an id of the overlap lists, ascending, the ids that occur in one element of the rank
  with it, itself among them;
* each column of an owned row has an owned row of its own, and the owned rows are symmetric;
* a single rank has one graph. -/
theorem graphs_complete (h : c.Succeeded report)
    (hbuilder : ∀ r < c.count, (c.manager r).builder = .standard) :
    (∀ r < c.count, ∃ n, (report r).manager.numbering = .ok n ∧ ∀ g ∈ n.ownedGids,
      ∃ row, (report r).manager.OwnedRow g row ∧ row.Pairwise (· < ·) ∧
        ∀ i, i ∈ row ↔ ∃ s < c.count, (report s).manager.Couples g i) ∧
    (∀ r < c.count, ∃ map, (Manager.overlapMap.run (report r).manager).1 = .ok map ∧
      ∀ g ∈ map.gids, ∃ row, (report r).manager.OverlapRow g row ∧ row.Pairwise (· < ·) ∧ g ∈ row ∧
        ∀ i, i ∈ row ↔ (report r).manager.Couples g i) ∧
    (∀ r < c.count, ∀ g row, (report r).manager.OwnedRow g row → ∀ i ∈ row,
      ∃ s < c.count, ∃ row', (report s).manager.OwnedRow i row') ∧
    (∀ r < c.count, ∀ s < c.count, ∀ g row i row', (report r).manager.OwnedRow g row →
      (report s).manager.OwnedRow i row' → (i ∈ row ↔ g ∈ row')) ∧
    (c.count = 1 → ∃ graph, (Manager.graph.run (report 0).manager).1 = .ok graph ∧
      (Manager.overlapGraph.run (report 0).manager).1 = .ok graph) := by
  refine ⟨fun r hr => ⟨c.numbering r, h.numbering_eq_ok hr, fun g hg => ?_⟩,
    fun r hr => ⟨_, h.run_overlapMap hr (hbuilder r hr), fun g hg => ?_⟩,
    fun r hr g row hrow i hi => ?_, fun r hr s hs g row i row' hrow hrow' => ?_, fun hone => ?_⟩
  · refine ⟨_, (h.ownedRow_iff hr (hbuilder r hr)).2 ⟨hg, rfl⟩,
      RowGraph.pairwise_columnsOf _ _, fun i => ?_⟩
    rw [h.mem_columnsOf_owned hr hg]
    exact exists_congr fun s => and_congr_right fun hs => (h.couples_iff hs).symm
  · have hself := (h.mem_columnsOf_overlap hr hg).2 (h.joined_self hr hg)
    refine ⟨_, (h.overlapRow_iff hr (hbuilder r hr)).2 ⟨hg, rfl⟩,
      RowGraph.pairwise_columnsOf _ _, hself, fun i => ?_⟩
    rw [h.mem_columnsOf_overlap hr hg, h.couples_iff hr]
  · obtain ⟨hg, rfl⟩ := (h.ownedRow_iff hr (hbuilder r hr)).1 hrow
    obtain ⟨s, hs, hjoined⟩ := (h.mem_columnsOf_owned hr hg).1 hi
    obtain ⟨t, ht, howned⟩ := h.exists_owner hs hjoined
    exact ⟨t, ht, _, (h.ownedRow_iff ht (hbuilder t ht)).2 ⟨howned, rfl⟩⟩
  · obtain ⟨hg, rfl⟩ := (h.ownedRow_iff hr (hbuilder r hr)).1 hrow
    obtain ⟨hi, rfl⟩ := (h.ownedRow_iff hs (hbuilder s hs)).1 hrow'
    rw [h.mem_columnsOf_owned hr hg, h.mem_columnsOf_owned hs hi]
    exact exists_congr fun t => and_congr_right fun _ => ⟨.symm, .symm⟩
  · have hr : 0 < c.count := by omega
    refine ⟨_, h.run_graph hr (hbuilder 0 hr), ?_⟩
    rw [h.run_overlapGraph hr (hbuilder 0 hr), h.single_graph hone hr]

/-- Of two bars that share a node, each rank knows the couplings of both to its unknowns. -/
theorem graphs_complete_bars :
    (Bars.crew 2).Succeeded (Bars.crew 2).report ∧
      (∀ r < 2, (Bars.manager 2 r).builder = .standard) ∧
      ∀ r < 2, ∃ n, ((Bars.crew 2).report r).manager.numbering = .ok n ∧ ∀ g ∈ n.ownedGids,
        ∃ row, ((Bars.crew 2).report r).manager.OwnedRow g row ∧ row.Pairwise (· < ·) ∧
          ∀ i, i ∈ row ↔ ∃ s < 2, ((Bars.crew 2).report s).manager.Couples g i := by
  have hstandard : ∀ r < 2, (Bars.manager 2 r).builder = .standard := fun _ _ => rfl
  exact ⟨succeeded_bars, hstandard, (graphs_complete succeeded_bars hstandard).1⟩

end Succeeded

end Crew

end Unknowns
