import Unknowns.Proofs.Negotiation.Outcome

/-!
# What a rank sees of the outcome

`Parties.numbering` answers all questions about the keys of its rank: the number
and the owner of a key (`gid?_numbering`, `owner?_numbering`), the numbers owned
here (`ownedGids_numbering`) and the owner of a number (`ownerOfGid?_numbering`).
The answers are the same on every rank that knows the key.
-/

namespace Unknowns

/-! ### Numberings whose keys have given owners and numbers -/

namespace Ownership

/-- Every key of a list has the owner that `owner` says, as rank `me` sees it. -/
def ofOwners (ks : List DofKey) (owner : DofKey → Nat) (me : Nat) : Ownership :=
  ⟨Table.tabulate ks fun k => ⟨owner k, owner k != me⟩⟩

variable {ks : List DofKey} {owner : DofKey → Nat} {me : Nat}

theorem owner?_ofOwners (k : DofKey) :
    (ofOwners ks owner me).owner? k = if k ∈ ks then some (owner k) else none := by
  rw [Ownership.owner?, Ownership.entry?, ofOwners, Table.get?_tabulate]
  split <;> rfl

theorem ownedKeys_ofOwners (h : ks.Pairwise Before) :
    (ofOwners ks owner me).ownedKeys = ks.filter fun k => owner k = me := by
  show ((Table.tabulate ks fun k =>
    (⟨owner k, owner k != me⟩ : OwnershipEntry)).entries.filter fun e => !e.2.isGhost).map
      (·.1) = _
  rw [Table.entries_tabulate _ h, List.filter_map, List.map_map]
  have hid : (fun e : DofKey × OwnershipEntry => e.1) ∘
      (fun k => (k, (⟨owner k, owner k != me⟩ : OwnershipEntry))) = id := rfl
  rw [hid, List.map_id]
  refine List.filter_congr fun k _ => ?_
  simp [bne, beq_eq_decide]

theorem mem_ghostKeys_ofOwners {e : DofKey × Nat} :
    e ∈ (ofOwners ks owner me).ghostKeys ↔ e.1 ∈ ks ∧ owner e.1 = e.2 ∧ e.2 ≠ me := by
  obtain ⟨k, s⟩ := e
  simp only [Ownership.ghostKeys, Table.filter, ofOwners, List.mem_map, List.mem_filter]
  constructor
  · rintro ⟨⟨j, entry⟩, ⟨hmem, hghost⟩, he⟩
    have hmem := Table.mem_entries_iff.1 hmem
    rw [Table.get?_tabulate] at hmem
    obtain ⟨rfl, rfl⟩ := Prod.mk.inj he
    by_cases hj : j ∈ ks
    · rw [if_pos hj] at hmem
      obtain rfl := Option.some.inj hmem
      exact ⟨hj, rfl, by simpa using hghost⟩
    · rw [if_neg hj] at hmem
      cases hmem
  · rintro ⟨hk, rfl, hne⟩
    refine ⟨⟨k, ⟨owner k, owner k != me⟩⟩, ⟨Table.mem_entries_iff.2 ?_, by simpa using hne⟩, rfl⟩
    rw [Table.get?_tabulate, if_pos hk]

end Ownership

/-- **The ghosts are the numbers of the keys of other owners.** -/
theorem Numbering.mem_ghosts {n : Numbering} {ks : List DofKey} {owner : DofKey → Nat} {me : Nat}
    {number : DofKey → UInt64} (ho : n.ownership = .ofOwners ks owner me)
    (hg : n.gids = Table.tabulate ks number) {g : Ghost} :
    g ∈ n.ghosts ↔ ∃ k ∈ ks, owner k = g.owner ∧ g.owner ≠ me ∧ g.gid = number k := by
  obtain ⟨i, s⟩ := g
  simp only [Numbering.ghosts, mem_ascending, List.mem_filterMap, ho,
    Ownership.mem_ghostKeys_ofOwners, Numbering.gid?, hg, Table.get?_tabulate]
  constructor
  · rintro ⟨⟨k, t⟩, ⟨hk, howner, hne⟩, he⟩
    simp only [if_pos hk, Option.map_some, Option.some.injEq, Ghost.mk.injEq] at he
    obtain ⟨rfl, rfl⟩ := he
    exact ⟨k, hk, howner, hne, rfl⟩
  · rintro ⟨k, hk, howner, hne, hi⟩
    refine ⟨⟨k, s⟩, ⟨hk, howner, hne⟩, ?_⟩
    simp only [if_pos hk, Option.map_some, Option.some.injEq, Ghost.mk.injEq]
    exact ⟨hi.symm, trivial⟩

namespace Negotiation

namespace Parties

variable {w : Parties}

/-! ### Keys -/

theorem gid?_numbering (r : Nat) (k : DofKey) :
    (w.numbering r).gid? k = if k ∈ w.keys r then some (UInt64.ofNat (w.gid k)) else none :=
  Table.get?_tabulate ..

theorem owner?_numbering (r : Nat) (k : DofKey) :
    (w.numbering r).ownership.owner? k = if k ∈ w.keys r then some (w.owner k) else none :=
  Ownership.owner?_ofOwners k

/-- The keys that a rank finds it owns are those that it owns as seen from above. -/
theorem ownedKeys_numbering (h : w.Numerable) {r : Nat} (hr : r < w.count) :
    (w.numbering r).ownership.ownedKeys = w.owned r :=
  Ownership.ownedKeys_ofOwners (h.ascending r hr)

/-! ### Numbers -/

/-- A number of a key as a word. -/
theorem toNat_word (h : w.Numerable) {i : Nat} (hi : i ≤ w.roster.length) :
    (UInt64.ofNat i).toNat = i :=
  UInt64.toNat_ofNat_of_lt' (Nat.lt_of_le_of_lt hi (Nat.lt_trans (length_roster_lt h) (by decide)))

theorem length_rosterBelow_le {r s : Nat} (hrs : r ≤ s) :
    (w.rosterBelow r).length ≤ (w.rosterBelow s).length := (rosterBelow_mono hrs).length_le

theorem length_rosterBelow_succ (r : Nat) :
    (w.rosterBelow (r + 1)).length = (w.rosterBelow r).length + (w.owned r).length := by
  rw [rosterBelow_succ, List.length_append]

theorem toNat_ownedBase (h : w.Numerable) {r : Nat} (hr : r ≤ w.count) :
    (w.numbering r).ownedBase.toNat = (w.rosterBelow r).length :=
  toNat_word h (length_rosterBelow_le hr)

theorem toNat_ownedEnd (h : w.Numerable) {r : Nat} (hr : r < w.count) :
    (w.numbering r).ownedEnd.toNat = (w.rosterBelow (r + 1)).length := by
  have hend : (w.numbering r).ownedEnd = UInt64.ofNat (w.rosterBelow (r + 1)).length := by
    rw [length_rosterBelow_succ, UInt64.ofNat_add]
    rfl
  rw [hend, toNat_word h (length_rosterBelow_le hr)]

theorem toNat_numGlobal (h : w.Numerable) (r : Nat) :
    (w.numbering r).numGlobal.toNat = w.allKeys.card := by
  rw [← length_roster h]
  exact toNat_word h (Nat.le_refl _)

/-- **A rank owns an interval of numbers.** -/
theorem ownedGids_numbering (h : w.Numerable) {r : Nat} (hr : r < w.count) :
    (w.numbering r).ownedGids.map UInt64.toNat =
      List.range' (w.rosterBelow r).length (w.owned r).length := by
  have hlen : (w.numbering r).ownedEnd.toNat - (w.numbering r).ownedBase.toNat =
      (w.owned r).length := by
    rw [toNat_ownedEnd h hr, toNat_ownedBase h (Nat.le_of_lt hr), length_rosterBelow_succ]
    omega
  rw [Numbering.ownedGids, hlen, List.map_map, List.range'_eq_map_range]
  refine List.map_congr_left fun i hi => ?_
  have hi := List.mem_range.1 hi
  have hle : (w.rosterBelow r).length + i ≤ w.roster.length := by
    have hsucc := length_rosterBelow_succ (w := w) r
    have hall := length_rosterBelow_le (w := w) (show r + 1 ≤ w.count from hr)
    rw [roster]
    omega
  have hword : (w.numbering r).ownedBase + UInt64.ofNat i =
      UInt64.ofNat ((w.rosterBelow r).length + i) := (UInt64.ofNat_add ..).symm
  rw [Function.comp_apply, hword, toNat_word h hle]

/-- **The intervals of the ranks follow one another.** -/
theorem flatMap_ownedGids (h : w.Numerable) {n : Nat} (hn : n ≤ w.count) :
    ((List.range n).flatMap fun r => (w.numbering r).ownedGids.map UInt64.toNat) =
      List.range (w.rosterBelow n).length := by
  induction n with
  | zero => rfl
  | succ n ih =>
    rw [List.range_succ, List.flatMap_append, ih (by omega), List.flatMap_singleton,
      ownedGids_numbering h hn, length_rosterBelow_succ, List.range_eq_range',
      List.range_eq_range', ← List.range'_append_1, Nat.zero_add]

/-! ### The owner of a number -/

/-- The number of a key lies in the interval of its owner. -/
theorem gid_mem_interval {k : DofKey} (hk : k ∈ w.allKeys) :
    (w.rosterBelow (w.owner k)).length ≤ w.gid k ∧
      w.gid k < (w.rosterBelow (w.owner k + 1)).length := by
  have howned : k ∈ w.owned (w.owner k) := mem_owned.2 ⟨mem_keys_owner hk, rfl⟩
  have hlt := List.idxOf_lt_length_of_mem howned
  rw [gid_eq hk, length_rosterBelow_succ]
  omega

/-- **Only the owner of a key has its number in its interval.** -/
theorem gid_mem_interval_iff {k : DofKey} (hk : k ∈ w.allKeys) (r : Nat) :
    ((w.rosterBelow r).length ≤ w.gid k ∧ w.gid k < (w.rosterBelow (r + 1)).length) ↔
      w.owner k = r := by
  have hown := gid_mem_interval hk
  constructor
  · intro hr
    by_contra hne
    rcases Nat.lt_or_gt_of_ne hne with hlt | hgt
    · have hle := length_rosterBelow_le (w := w) (show w.owner k + 1 ≤ r from hlt)
      omega
    · have hle := length_rosterBelow_le (w := w) (show r + 1 ≤ w.owner k from hgt)
      omega
  · rintro rfl
    exact hown

theorem mem_ghosts_numbering {r : Nat} {g : Ghost} :
    g ∈ (w.numbering r).ghosts ↔
      ∃ k ∈ w.keys r, w.owner k = g.owner ∧ g.owner ≠ r ∧ g.gid = UInt64.ofNat (w.gid k) :=
  Numbering.mem_ghosts rfl rfl

/-- **The owner of the number of a key is the owner of the key**, where the key is known. -/
theorem ownerOfGid?_numbering (h : w.Numerable) {r : Nat} (hr : r < w.count) {k : DofKey}
    (hk : k ∈ w.allKeys) :
    (w.numbering r).ownerOfGid? (UInt64.ofNat (w.gid k)) =
      (w.numbering r).ownership.owner? k := by
  have hword : ∀ j ∈ w.allKeys, (UInt64.ofNat (w.gid j)).toNat = w.gid j := fun j hj =>
    toNat_word h (Nat.le_of_lt (gid_lt hj))
  have hown : ((w.numbering r).ownedBase ≤ UInt64.ofNat (w.gid k) ∧
      UInt64.ofNat (w.gid k) < (w.numbering r).ownedEnd) ↔ w.owner k = r := by
    rw [UInt64.le_iff_toNat_le, UInt64.lt_iff_toNat_lt, hword k hk,
      toNat_ownedBase h (Nat.le_of_lt hr), toNat_ownedEnd h hr, gid_mem_interval_iff hk]
  rw [Numbering.ownerOfGid?, owner?_numbering]
  by_cases ho : w.owner k = r
  · have hmem : k ∈ w.keys r := ho ▸ mem_keys_owner hk
    rw [if_pos (hown.2 ho), if_pos hmem, ho]
    rfl
  · rw [if_neg fun hc => ho (hown.1 hc)]
    have hghost : ∀ g ∈ (w.numbering r).ghosts.filter (·.gid = UInt64.ofNat (w.gid k)),
        k ∈ w.keys r ∧ g.owner = w.owner k := by
      intro g hg
      obtain ⟨hmem, hgid⟩ := List.mem_filter.1 hg
      obtain ⟨j, hj, hoj, -, hgj⟩ := mem_ghosts_numbering.1 hmem
      have hall : j ∈ w.allKeys := mem_allKeys.2 ⟨r, hr, hj⟩
      have heq : w.gid j = w.gid k := by
        rw [← hword j hall, ← hword k hk, ← hgj, of_decide_eq_true hgid]
      obtain rfl := (gid_inj hall).1 heq
      exact ⟨hj, hoj.symm⟩
    by_cases hmem : k ∈ w.keys r
    · have hin : (⟨UInt64.ofNat (w.gid k), w.owner k⟩ : Ghost) ∈
          (w.numbering r).ghosts.filter (·.gid = UInt64.ofNat (w.gid k)) :=
        List.mem_filter.2 ⟨mem_ghosts_numbering.2 ⟨k, hmem, rfl, ho, rfl⟩, decide_eq_true rfl⟩
      have hne := List.ne_nil_of_mem hin
      rw [if_pos hmem, List.getLast?_eq_some_getLast hne, Option.map_some,
        (hghost _ (List.getLast_mem hne)).2]
    · have hnil : (w.numbering r).ghosts.filter (·.gid = UInt64.ofNat (w.gid k)) = [] :=
        List.eq_nil_iff_forall_not_mem.2 fun g hg => hmem (hghost g hg).1
      rw [if_neg hmem, hnil]
      rfl

end Parties

end Negotiation

end Unknowns
