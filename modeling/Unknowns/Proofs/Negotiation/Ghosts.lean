import Unknowns.Proofs.Negotiation.Gids

/-!
# Owners learn about their ghosts

After a negotiation every rank sends two messages to each owner of its ghosts:
what its elements couple to them (`Numbering.rowMessages`), and which ones they
are (`Numbering.ghostMessages`).

* `mem_remoteRows`: a rank gets just the couplings that its peers have for ghosts
  whose owner it is;
* `succeeds_ghostHolders`: what peers hold as ghosts of a rank does lie in its
  interval of numbers, so no rank refuses what it is told.
-/

namespace Unknowns

open World

namespace Numbering

variable {n : Nat} {tags : Tags}

/-! ### Couplings of ghosts -/

/-- The couplings of its ghosts that a rank has for their owners. -/
def rowMessages (m : Numbering) (couplings : Couplings) : Table Nat (List EdgeRecord) :=
  (Table.groupBy Ghost.owner (m.ghosts.filter fun g => couplings.contains g.gid)).map fun _ gs =>
    gs.flatMap (ghostEdges couplings)

theorem listFor_map_groupBy {α ρ : Type} (key : α → Nat) (xs : List α) (f : List α → List ρ)
    (hf : f [] = []) (d : Nat) :
    listFor ((Table.groupBy key xs).map fun _ group => f group) d =
      f (xs.filter fun x => key x = d) := by
  rw [listFor, Table.get?_map, Table.get?_groupBy]
  by_cases hany : xs.any fun x => key x = d
  · rw [if_pos hany]
    rfl
  · have hnil : xs.filter (fun x => key x = d) = [] :=
      List.filter_eq_nil_iff.2 fun x hx hxd => hany (List.any_eq_true.2 ⟨x, hx, hxd⟩)
    rw [if_neg hany, hnil, hf]
    rfl

theorem mem_rowMessages {m : Numbering} {couplings : Couplings} {d : Nat} {e : EdgeRecord} :
    e ∈ listFor (m.rowMessages couplings) d ↔
      ⟨e.row, d⟩ ∈ m.ghosts ∧ e.col ∈ (couplings.get? e.row).getD [] := by
  rw [rowMessages, listFor_map_groupBy Ghost.owner _ (·.flatMap (ghostEdges couplings)) rfl]
  simp only [ghostEdges, List.mem_flatMap, List.mem_filter, List.mem_map, decide_eq_true_eq]
  constructor
  · rintro ⟨g, ⟨⟨hg, -⟩, rfl⟩, c, hc, rfl⟩
    exact ⟨hg, hc⟩
  · rintro ⟨hg, hc⟩
    have hcontains : couplings.contains e.row := by
      unfold Table.contains
      cases hrow : couplings.get? e.row with
      | none =>
        rw [hrow] at hc
        cases hc
      | some cols => rfl
    exact ⟨_, ⟨⟨hg, hcontains⟩, rfl⟩, e.col, hc, rfl⟩

/-- The couplings that come to rank `r`. -/
def remoteRows (n : Nat) (numbering : Nat → Numbering) (couplings : Nat → Couplings) (r : Nat) :
    List (UInt64 × UInt64) :=
  (incomingLists n (fun s => (numbering s).rowMessages (couplings s)) r).values.flatten.map
    fun e => (e.row, e.col)

/-- **A rank gets the couplings that its peers have for ghosts whose owner it is.** -/
theorem mem_remoteRows {numbering : Nat → Numbering} {couplings : Nat → Couplings} {r : Nat}
    (hr : r < n) {row col : UInt64} :
    (row, col) ∈ remoteRows n numbering couplings r ↔
      ∃ s < n, s ≠ r ∧ ⟨row, r⟩ ∈ (numbering s).ghosts ∧
        col ∈ ((couplings s).get? row).getD [] := by
  simp only [remoteRows, List.mem_map, mem_flatten_incomingLists hr, mem_rowMessages,
    Prod.mk.injEq]
  constructor
  · rintro ⟨e, ⟨s, hs, hne, hghost, hcol⟩, rfl, rfl⟩
    exact ⟨s, hs, hne, hghost, hcol⟩
  · rintro ⟨s, hs, hne, hghost, hcol⟩
    exact ⟨⟨row, col⟩, ⟨s, hs, hne, hghost, hcol⟩, rfl, rfl⟩

/-- **Every rank gets the couplings of its unknowns that peers have**, if each message is short
enough to be counted. -/
theorem succeeds_shipGhostRows {numbering : Nat → Numbering} {couplings : Nat → Couplings}
    (h : ∀ s < n, ∀ d < n, s ≠ d →
      (listFor ((numbering s).rowMessages (couplings s)) d).length < 2 ^ 32) :
    Succeeds n (fun r => (numbering r).shipGhostRows (couplings r) (seat n r) tags)
      (remoteRows n numbering couplings) :=
  Succeeds.bind
    (succeeds_exchangeLists tags.graphSizes tags.graphRows h)
    (succeeds_pure n (remoteRows n numbering couplings))

/-! ### Holders of ghosts -/

/-- The ghosts of a rank, as their owners are told of them. -/
def ghostMessages (m : Numbering) : Table Nat (List GidRecord) :=
  (Table.groupBy Ghost.owner m.ghosts).map fun _ gs =>
    gs.map fun g => GidRecord.ofGid? (some g.gid)

theorem gid?_ofGid?_some {g i : UInt64} :
    (GidRecord.ofGid? (some g)).gid? = some i ↔ g ≠ noGid ∧ g = i := by
  by_cases hg : g = noGid <;> simp [GidRecord.gid?, GidRecord.ofGid?, hg]

/-- An owner is told of its ghosts, but for the largest id, which is told as none. -/
theorem mem_ghostMessages {m : Numbering} {d : Nat} {g : UInt64} :
    g ∈ (listFor m.ghostMessages d).filterMap GidRecord.gid? ↔ g ≠ noGid ∧ ⟨g, d⟩ ∈ m.ghosts := by
  have hmessages : listFor m.ghostMessages d =
      (m.ghosts.filter (·.owner = d)).map fun g => GidRecord.ofGid? (some g.gid) :=
    listFor_map_groupBy Ghost.owner _ (List.map fun g : Ghost => GidRecord.ofGid? (some g.gid)) rfl d
  rw [hmessages, List.filterMap_map, List.mem_filterMap]
  simp only [Function.comp_apply, gid?_ofGid?_some, List.mem_filter, decide_eq_true_eq]
  constructor
  · rintro ⟨⟨i, s⟩, ⟨hghost, rfl⟩, hne, rfl⟩
    exact ⟨hne, hghost⟩
  · rintro ⟨hne, hghost⟩
    exact ⟨_, ⟨hghost, rfl⟩, hne, rfl⟩

/-- What rank `r` notes of the ghosts that its peers hold. -/
def holders (n : Nat) (numbering : Nat → Numbering) (r : Nat) : RankLists :=
  Table.ofList (((incomingLists n (fun s => (numbering s).ghostMessages) r).entries.map fun e =>
    (e.1, ascending (e.2.filterMap GidRecord.gid?))).filter fun h => !h.2.isEmpty)

/-- A rank that owns all ids that it is told of notes them. -/
theorem allHeld_eq_ok {m : Numbering} {incoming : List (Nat × List GidRecord)}
    (h : ∀ e ∈ incoming, ∀ g ∈ e.2.filterMap GidRecord.gid?, m.ownerOfGid? g = some m.rank) :
    m.allHeld incoming =
      .ok (Table.ofList ((incoming.map fun e =>
        (e.1, ascending (e.2.filterMap GidRecord.gid?))).filter fun h => !h.2.isEmpty)) := by
  have hone : ∀ e ∈ incoming, m.heldBy e.1 e.2 = .ok (ascending (e.2.filterMap GidRecord.gid?)) := by
    intro e he
    have hnone : (e.2.filterMap GidRecord.gid?).find? (fun g => m.ownerOfGid? g ≠ some m.rank) =
        none := List.find?_eq_none.2 fun g hg => by simpa using h e he g hg
    simp only [heldBy, hnone]
  have hall := mapM_eq_ok (f := fun e : Nat × List GidRecord => do
    let gids ← m.heldBy e.1 e.2
    Except.ok (e.1, gids)) (g := fun e => (e.1, ascending (e.2.filterMap GidRecord.gid?)))
    fun e (he : e ∈ incoming) => by rw [hone e he]; rfl
  rw [allHeld, hall]
  rfl

end Numbering

namespace Negotiation

namespace Parties

variable {w : Parties} {home : HomeRule} {tags : Tags}

theorem mem_ghosts_settled {r : Nat} {g : Ghost} :
    g ∈ (w.settled home r).ghosts ↔
      ∃ k ∈ w.keys r, w.settledOwner home k = g.owner ∧ g.owner ≠ r ∧
        g.gid = w.settledNumber home r k :=
  Numbering.mem_ghosts rfl rfl

/-- **What a rank holds as a ghost of another one is a number in the interval of the owner.** -/
theorem ownerOfGid?_ghost (h : w.Numerable) {s : Nat} (hs : s < w.count) {g : Ghost}
    (hg : g ∈ (w.settled home s).ghosts) :
    (w.settled home g.owner).ownerOfGid? g.gid = some g.owner := by
  obtain ⟨k, hk, howner, -, hgid⟩ := mem_ghosts_settled.1 hg
  obtain ⟨j, hj, -, hvalue⟩ := exists_settledNumber_eq home h hs hk
  have hlt : g.owner < w.count := howner ▸ settledOwner_lt home hs hk
  rw [howner] at hj hvalue
  have hnumber := ownNumber_lt hj
  have hword := (ownNumber_word h hlt hj).1
  have hbase : (w.settled home g.owner).ownedBase.toNat = (w.settledBelow home g.owner).length :=
    (toNat_ofNat_le h (Nat.le_of_lt hlt) (Nat.le_refl _)).1
  have hend : (w.settled home g.owner).ownedEnd.toNat =
      (w.settledBelow home (g.owner + 1)).length := by
    have hsum : (w.settled home g.owner).ownedEnd =
        UInt64.ofNat (w.settledBelow home (g.owner + 1)).length := by
      rw [settledBelow_succ, List.length_append, UInt64.ofNat_add]
      rfl
    rw [hsum]
    exact (toNat_ofNat_le h (show g.owner + 1 ≤ w.count from hlt) (Nat.le_refl _)).1
  refine if_pos ⟨?_, ?_⟩
  · rw [UInt64.le_iff_toNat_le, hbase, hgid, hvalue, hword, ownNumber]
    omega
  · rw [UInt64.lt_iff_toNat_lt, hend, hgid, hvalue, hword]
    exact hnumber

/-- **Every rank learns which peers hold its unknowns as ghosts**, if each message is short enough
to be counted. -/
theorem succeeds_ghostHolders (h : w.Numerable)
    (hfit : ∀ s < w.count, ∀ d < w.count, s ≠ d →
      (listFor (w.settled home s).ghostMessages d).length < 2 ^ 32) :
    Succeeds w.count (fun r => (w.settled home r).ghostHolders (seat w.count r) tags)
      (Numbering.holders w.count (w.settled home)) := by
  have hmessages := succeeds_exchangeLists tags.ghostSizes tags.ghostGids hfit
  refine hmessages.bind (succeeds_ofExcept fun r hr =>
    Numbering.allHeld_eq_ok fun e he i hi => ?_)
  obtain ⟨⟨hs, -⟩, -, hlist⟩ := (mem_entries_incomingLists hr).1 he
  rw [hlist] at hi
  have hg := (Numbering.mem_ghostMessages.1 hi).2
  exact ownerOfGid?_ghost h hs hg

end Parties

end Negotiation

end Unknowns
