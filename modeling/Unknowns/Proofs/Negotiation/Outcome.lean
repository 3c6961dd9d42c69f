import Mathlib.Algebra.Group.Nat.Defs
import Mathlib.Data.Finset.Card
import Mathlib.Data.List.Nodup
import Unknowns.Negotiation

/-!
# The outcome of a negotiation

`Parties` is what the ranks of a world bring to a negotiation: the keys that each
refers to, and the owners that its mesh designates.  Seen from above, without any
messages, the outcome is simple:

* the owner of a key is the one that the lowest claimant with a designation
  designates, if it claims the key, and else the lowest claimant;
* in the *roster* the keys stand by their owners, and those of one owner in their
  own order; the number of a key is its place in the roster.

`Parties.numbering` is what a rank has to know of this in the end.
-/

namespace Unknowns

/-! ### The order of the keys -/

theorem before_subEntity_iff {d e : SubEntity} :
    Before d e ↔ d.dim < e.dim ∨ d.dim = e.dim ∧ d.gid < e.gid := by
  show (compare d.dim e.dim).then (compare d.gid e.gid) = .lt ↔ _
  rw [Ordering.then_eq_lt, Std.compare_eq_lt, Std.compare_eq_lt, Std.compare_eq_iff_eq]

/-- **Keys come by dimension, then by id of the sub-entity, then by field, then by component.** -/
theorem before_dofKey_iff {j k : DofKey} :
    Before j k ↔
      (j.entity.dim < k.entity.dim ∨ j.entity.dim = k.entity.dim ∧ j.entity.gid < k.entity.gid) ∨
        j.entity = k.entity ∧ (j.field < k.field ∨ j.field = k.field ∧ j.component < k.component) := by
  rw [← before_subEntity_iff]
  show (compare j.entity k.entity).then
    ((compare j.field k.field).then (compare j.component k.component)) = .lt ↔ _
  rw [Ordering.then_eq_lt, Ordering.then_eq_lt, Nat.compare_eq_lt, Nat.compare_eq_lt,
    Std.compare_eq_iff_eq, Std.compare_eq_iff_eq]

namespace Negotiation

/-- What the ranks of a world bring to a negotiation. -/
structure Parties where
  /-- Number of ranks. -/
  count : Nat
  /-- The keys that each rank refers to. -/
  keys : Nat → List DofKey
  /-- The owner that the mesh of each rank designates for a sub-entity. -/
  hint : Nat → SubEntity → Option Nat

namespace Parties

variable (w : Parties)

/-- There is a rank, ranks and keys can be counted in 32 bits, the keys of a rank ascend, and their
fields and components fit into 32 bits. -/
structure Valid : Prop where
  count_pos : 0 < w.count
  count_lt : w.count < 2 ^ 32
  ascending : ∀ r < w.count, (w.keys r).Pairwise Before
  length_lt : ∀ r < w.count, (w.keys r).length < 2 ^ 32
  narrow : ∀ r < w.count, ∀ k ∈ w.keys r, k.field < 2 ^ 32 ∧ k.component < 2 ^ 32

/-- The keys of all ranks. -/
def allKeys : Finset DofKey := ((List.range w.count).flatMap w.keys).toFinset

/-- The keys of a rank ascend, and all keys can be numbered in words, of which the largest one means
that there is no number. -/
structure Numerable : Prop where
  ascending : ∀ r < w.count, (w.keys r).Pairwise Before
  card_lt : w.allKeys.card < 2 ^ 64 - 1

/-- The ranks that refer to a key, ascending. -/
def claimants (k : DofKey) : List Nat := (List.range w.count).filter fun r => k ∈ w.keys r

/-- The owner that is designated for a key by the lowest claimant that designates one. -/
def designated? (k : DofKey) : Option Nat := (w.claimants k).findSome? fun r => w.hint r k.entity

/-- The designated owner of a key if it is a claimant, else the lowest claimant. -/
def owner (k : DofKey) : Nat :=
  let lowest := (w.claimants k).min?.getD 0
  match w.designated? k with
  | some r => if r ∈ w.claimants k then r else lowest
  | none => lowest

/-- The keys that a rank owns, ascending. -/
def owned (r : Nat) : List DofKey := (w.keys r).filter fun k => w.owner k = r

/-- The keys that the ranks below `r` own, by their owners. -/
def rosterBelow (r : Nat) : List DofKey := (List.range r).flatMap w.owned

/-- All keys by their owners. -/
def roster : List DofKey := w.rosterBelow w.count

/-- The number of a key. -/
def gid (k : DofKey) : Nat := w.roster.idxOf k

/-- What rank `r` knows in the end. -/
def numbering (r : Nat) : Numbering where
  rank := r
  ownership := ⟨Table.tabulate (w.keys r) fun k => ⟨w.owner k, w.owner k != r⟩⟩
  gids := Table.tabulate (w.keys r) fun k => UInt64.ofNat (w.gid k)
  numOwned := (w.owned r).length
  ownedBase := UInt64.ofNat (w.rosterBelow r).length
  numGlobal := UInt64.ofNat w.roster.length

/-- The same parties with their designations as they arrive at the homes: reduced to 32 bits, of
which the largest number means that there is none. -/
def carried : Parties := { w with hint := fun r e => (Claim.ofKey ⟨e, 0, 0⟩ (w.hint r e)).hint? }

variable {w}

theorem Valid.carried (h : w.Valid) : w.carried.Valid :=
  ⟨h.count_pos, h.count_lt, h.ascending, h.length_lt, h.narrow⟩

theorem Numerable.carried (h : w.Numerable) : w.carried.Numerable := ⟨h.ascending, h.card_lt⟩

/-- Fewer than 2³² ranks with fewer than 2³² keys each have fewer keys than there are words. -/
theorem Valid.numerable (h : w.Valid) : w.Numerable where
  ascending := h.ascending
  card_lt := by
    have hbelow : ∀ r ≤ w.count, ((List.range r).flatMap w.keys).length ≤ r * (2 ^ 32 - 1) := by
      intro r
      induction r with
      | zero => exact fun _ => Nat.zero_le _
      | succ r ih =>
        intro hr
        have hkeys := h.length_lt r hr
        have hlower := ih (by omega)
        rw [List.range_succ, List.flatMap_append, List.length_append, List.flatMap_singleton]
        omega
    have hall := hbelow w.count (Nat.le_refl _)
    have hcard : w.allKeys.card ≤ ((List.range w.count).flatMap w.keys).length :=
      List.toFinset_card_le _
    have hcount := h.count_lt
    omega

instance : Coe w.Valid w.Numerable := ⟨Valid.numerable⟩

@[simp] theorem count_carried : w.carried.count = w.count := rfl

@[simp] theorem keys_carried : w.carried.keys = w.keys := rfl

@[simp] theorem claimants_carried (k : DofKey) : w.carried.claimants k = w.claimants k := rfl

@[simp] theorem allKeys_carried : w.carried.allKeys = w.allKeys := rfl

@[simp] theorem mem_claimants {k : DofKey} {r : Nat} :
    r ∈ w.claimants k ↔ r < w.count ∧ k ∈ w.keys r := by
  simp [claimants]

@[simp] theorem mem_allKeys {k : DofKey} : k ∈ w.allKeys ↔ ∃ r < w.count, k ∈ w.keys r := by
  simp [allKeys]

@[simp] theorem mem_owned {k : DofKey} {r : Nat} :
    k ∈ w.owned r ↔ k ∈ w.keys r ∧ w.owner k = r := by
  simp [owned]

theorem pairwise_claimants (k : DofKey) : (w.claimants k).Pairwise (· < ·) :=
  List.pairwise_lt_range.filter _

/-- Of the claimants that designate an owner, the lowest one counts. -/
theorem designated?_eq_some_iff {k : DofKey} {g : Nat} :
    w.designated? k = some g ↔
      ∃ s ∈ w.claimants k, w.hint s k.entity = some g ∧
        ∀ t ∈ w.claimants k, t < s → w.hint t k.entity = none := by
  rw [designated?, List.findSome?_eq_some_iff]
  constructor
  · rintro ⟨before, s, after, hsplit, hs, hnone⟩
    have hasc := pairwise_claimants (w := w) k
    rw [hsplit, List.pairwise_append, List.pairwise_cons] at hasc
    have hmem : s ∈ before ++ s :: after := List.mem_append_right _ (List.mem_cons_self ..)
    refine ⟨s, hsplit ▸ hmem, hs, fun t ht hlt => ?_⟩
    rw [hsplit, List.mem_append, List.mem_cons] at ht
    rcases ht with ht | rfl | ht
    · exact hnone t ht
    · exact absurd hlt (Nat.lt_irrefl _)
    · exact absurd (hasc.2.1.1 t ht) (Nat.lt_asymm hlt)
  · rintro ⟨s, hs, hg, hnone⟩
    obtain ⟨before, after, hsplit⟩ := List.append_of_mem hs
    have hasc := pairwise_claimants (w := w) k
    rw [hsplit, List.pairwise_append] at hasc
    refine ⟨before, s, after, hsplit, hg, fun t ht => hnone t ?_ ?_⟩
    · exact hsplit ▸ List.mem_append_left _ ht
    · exact hasc.2.2 t ht s (List.mem_cons_self ..)

/-- **The owner of a key refers to it.** -/
theorem owner_mem_claimants {k : DofKey} (h : k ∈ w.allKeys) : w.owner k ∈ w.claimants k := by
  obtain ⟨r, hr⟩ := mem_allKeys.1 h
  have hmin : (w.claimants k).min?.getD 0 ∈ w.claimants k := by
    obtain ⟨m, hm⟩ := Option.isSome_iff_exists.1
      (List.isSome_min?_of_mem (mem_claimants.2 hr))
    rw [hm]
    exact List.min?_mem hm
  unfold owner
  split
  · split
    · assumption
    · exact hmin
  · exact hmin

theorem owner_lt {k : DofKey} (h : k ∈ w.allKeys) : w.owner k < w.count :=
  (mem_claimants.1 (owner_mem_claimants h)).1

theorem mem_keys_owner {k : DofKey} (h : k ∈ w.allKeys) : k ∈ w.keys (w.owner k) :=
  (mem_claimants.1 (owner_mem_claimants h)).2

theorem mem_rosterBelow {k : DofKey} {r : Nat} (hr : r ≤ w.count) :
    k ∈ w.rosterBelow r ↔ k ∈ w.allKeys ∧ w.owner k < r := by
  simp only [rosterBelow, List.mem_flatMap, List.mem_range, mem_owned]
  constructor
  · rintro ⟨s, hs, hk, rfl⟩
    exact ⟨mem_allKeys.2 ⟨_, by omega, hk⟩, hs⟩
  · rintro ⟨hk, ho⟩
    exact ⟨_, ho, mem_keys_owner hk, rfl⟩

/-- **The roster has every key.** -/
theorem mem_roster {k : DofKey} : k ∈ w.roster ↔ k ∈ w.allKeys := by
  rw [roster, mem_rosterBelow (Nat.le_refl _)]
  exact ⟨And.left, fun h => ⟨h, owner_lt h⟩⟩

/-- **The roster has every key only once.** -/
theorem nodup_rosterBelow (h : w.Numerable) {r : Nat} (hr : r ≤ w.count) : (w.rosterBelow r).Nodup := by
  refine List.nodup_flatMap.2 ⟨fun s hs => ?_, ?_⟩
  · have hs := List.mem_range.1 hs
    exact (nodup_of_pairwise (h.ascending s (by omega))).filter _
  · refine List.pairwise_lt_range.imp fun {s t} hst k hs ht => ?_
    have hs := (mem_owned.1 hs).2
    have ht := (mem_owned.1 ht).2
    omega

theorem nodup_roster (h : w.Numerable) : w.roster.Nodup := nodup_rosterBelow h (Nat.le_refl _)

/-- There are as many numbers as keys. -/
theorem length_roster (h : w.Numerable) : w.roster.length = w.allKeys.card := by
  rw [← List.toFinset_card_of_nodup (nodup_roster h)]
  congr 1
  ext k
  rw [List.mem_toFinset, mem_roster]

/-! ### Numbers -/

theorem gid_lt {k : DofKey} (hk : k ∈ w.allKeys) : w.gid k < w.roster.length :=
  List.idxOf_lt_length_of_mem (mem_roster.2 hk)

/-- **Different keys have different numbers.** -/
theorem gid_inj {j k : DofKey} (hj : j ∈ w.allKeys) : w.gid j = w.gid k ↔ j = k :=
  List.idxOf_inj (mem_roster.2 hj)

/-- **Every number below the number of keys is the number of a key.** -/
theorem exists_gid_eq (h : w.Numerable) {i : Nat} (hi : i < w.roster.length) :
    ∃ k ∈ w.allKeys, w.gid k = i :=
  ⟨w.roster[i], mem_roster.1 (List.getElem_mem hi), (nodup_roster h).idxOf_getElem i hi⟩

theorem rosterBelow_succ (r : Nat) : w.rosterBelow (r + 1) = w.rosterBelow r ++ w.owned r := by
  simp [rosterBelow, List.range_succ]

theorem rosterBelow_mono {r s : Nat} (h : r ≤ s) : w.rosterBelow r <+: w.rosterBelow s := by
  induction s, h using Nat.le_induction with
  | base => exact List.prefix_refl _
  | succ s _ ih =>
    rw [rosterBelow_succ]
    exact ih.trans (List.prefix_append ..)

/-- **The number of a key** counts the keys of lower owners and the keys before it of its own. -/
theorem gid_eq {k : DofKey} (hk : k ∈ w.allKeys) :
    w.gid k = (w.rosterBelow (w.owner k)).length + (w.owned (w.owner k)).idxOf k := by
  have howned : k ∈ w.owned (w.owner k) := mem_owned.2 ⟨mem_keys_owner hk, rfl⟩
  have hbelow : k ∉ w.rosterBelow (w.owner k) := fun hmem =>
    absurd ((mem_rosterBelow (Nat.le_of_lt (owner_lt hk))).1 hmem).2 (Nat.lt_irrefl _)
  obtain ⟨rest, hrest⟩ := rosterBelow_mono (w := w) (owner_lt hk)
  rw [gid, roster, ← hrest, rosterBelow_succ, List.append_assoc,
    List.idxOf_append_of_notMem hbelow, List.idxOf_append_of_mem howned]

/-- All numbers fit into words, and the largest word is none of them. -/
theorem length_roster_lt (h : w.Numerable) : w.roster.length < 2 ^ 64 - 1 := by
  rw [length_roster h]
  exact h.card_lt

/-- In an ascending list a member stands after those that are before it in the order. -/
theorem idxOf_eq_card_filter {ks : List DofKey} (h : ks.Pairwise Before) {k : DofKey} (hk : k ∈ ks) :
    ks.idxOf k = (ks.toFinset.filter fun j => Before j k).card := by
  induction ks with
  | nil => cases hk
  | cons j ks ih =>
    have hj := List.pairwise_cons.1 h
    rcases List.mem_cons.1 hk with rfl | hk
    · rw [List.idxOf_cons_self, eq_comm, Finset.card_eq_zero, Finset.filter_eq_empty_iff]
      intro i hi hik
      rcases List.mem_cons.1 (List.mem_toFinset.1 hi) with rfl | hi
      · exact not_before_self _ hik
      · exact not_before_self _ (Std.TransCmp.lt_trans hik (hj.1 i hi))
    · have hjk := hj.1 k hk
      have hne : j ≠ k := fun he => not_before_self k (he ▸ hjk)
      have hnotin : j ∉ ks.toFinset.filter fun i => Before i k := fun hmem =>
        not_before_self j (hj.1 j (List.mem_toFinset.1 (Finset.mem_filter.1 hmem).1))
      rw [List.idxOf_cons_ne _ hne, ih hj.2 hk, List.toFinset_cons, Finset.filter_insert,
        if_pos hjk, Finset.card_insert_of_notMem hnotin]

/-- The keys of the ranks below `r` are those with an owner below `r`. -/
theorem length_rosterBelow (h : w.Numerable) {r : Nat} (hr : r ≤ w.count) :
    (w.rosterBelow r).length = (w.allKeys.filter fun k => w.owner k < r).card := by
  rw [← List.toFinset_card_of_nodup (nodup_rosterBelow h hr)]
  congr 1
  ext k
  rw [List.mem_toFinset, mem_rosterBelow hr, Finset.mem_filter]

/-- **The number of a key as a count of keys.** -/
theorem gid_eq_card (h : w.Numerable) {k : DofKey} (hk : k ∈ w.allKeys) :
    w.gid k = (w.allKeys.filter fun j => w.owner j < w.owner k).card +
      (w.allKeys.filter fun j => w.owner j = w.owner k ∧ Before j k).card := by
  have howned : k ∈ w.owned (w.owner k) := mem_owned.2 ⟨mem_keys_owner hk, rfl⟩
  have hasc : (w.owned (w.owner k)).Pairwise Before :=
    (h.ascending _ (owner_lt hk)).filter _
  have hsame : (w.owned (w.owner k)).toFinset.filter (fun j => Before j k) =
      w.allKeys.filter fun j => w.owner j = w.owner k ∧ Before j k := by
    ext j
    rw [Finset.mem_filter, Finset.mem_filter, List.mem_toFinset, mem_owned, and_assoc]
    constructor
    · rintro ⟨hj, ho, hb⟩
      exact ⟨mem_allKeys.2 ⟨_, owner_lt hk, hj⟩, ho, hb⟩
    · rintro ⟨hj, ho, hb⟩
      exact ⟨ho ▸ mem_keys_owner hj, ho, hb⟩
  rw [gid_eq hk, length_rosterBelow h (Nat.le_of_lt (owner_lt hk)),
    idxOf_eq_card_filter hasc howned, hsame]

end Parties

end Negotiation

end Unknowns
