import Unknowns.Proofs.Negotiation.Gids

/-!
# Keys that claims carry as they are

Where all fields and components fit into 32 bits (`Parties.Narrow`), no two keys
are claimed as the same.  Then a home sees the claimants of a key in the order of
the ranks and decides as `Parties.owner` does, for the designations as they
arrived (`settledOwner_eq`), and what a rank knows in the end is its part of the
outcome as seen from above (`settled_eq`).
-/

namespace Unknowns

namespace Negotiation

namespace Parties

open World

variable {w : Parties} {home : HomeRule}

/-- All fields and components fit into 32 bits. -/
def Narrow (w : Parties) : Prop :=
  ∀ r < w.count, ∀ k ∈ w.keys r, k.field < 2 ^ 32 ∧ k.component < 2 ^ 32

theorem Narrow.carriedKey_eq (h : w.Narrow) {r : Nat} (hr : r < w.count) {k : DofKey}
    (hk : k ∈ w.keys r) : carriedKey k = k :=
  carriedKey_eq_self (h r hr k hk).1 (h r hr k hk).2

/-! ### What the home decides -/

/-- A rank claims a key once, and only at its home. -/
theorem filter_claims (h : w.Numerable) (hnarrow : w.Narrow) {s d : Nat} {k : DofKey} :
    ((w.sent home s d).map (w.claimOf s)).filter (fun c => c.key = k) =
      if k ∈ w.sent home s d then [w.claimOf s k] else [] := by
  have hkey : ∀ j ∈ w.sent home s d, (w.claimOf s j).key = j := fun j hj =>
    hnarrow.carriedKey_eq (mem_sent.1 hj).1 (mem_sent.1 hj).2.1
  have hsame : (w.sent home s d).filter (fun j => (w.claimOf s j).key = k) =
      (w.sent home s d).filter (· == k) :=
    List.filter_congr fun j hj => by rw [hkey j hj, beq_eq_decide]
  have hcount : (w.sent home s d).count k = if k ∈ w.sent home s d then 1 else 0 :=
    (nodup_sent h s d).count
  rw [List.filter_map]
  show ((w.sent home s d).filter fun j => (w.claimOf s j).key = k).map (w.claimOf s) = _
  rw [hsame, List.filter_beq, hcount]
  split <;> rfl

/-- Of the lists that ranks contribute, those of the ranks that satisfy `p` hold the rank itself and
the others nothing. -/
theorem flatMap_eq_filter {ranks : List Nat} {p : Nat → Prop} [DecidablePred p]
    {g : Nat → List Nat} (h : ∀ s ∈ ranks, g s = if p s then [s] else []) :
    ranks.flatMap g = ranks.filter p := by
  induction ranks with
  | nil => rfl
  | cons s ranks ih =>
    have hs := h s (List.mem_cons_self ..)
    rw [List.flatMap_cons, hs, ih fun t ht => h t (List.mem_cons_of_mem _ ht)]
    by_cases hp : p s
    · rw [if_pos hp, List.filter_cons_of_pos (by simpa using hp), List.singleton_append]
    · rw [if_neg hp, List.filter_cons_of_neg (by simpa using hp), List.nil_append]

/-- The first answer among the ranks that satisfy `p`, the others answering nothing. -/
theorem findSome?_eq_filter {ranks : List Nat} {p : Nat → Prop} [DecidablePred p]
    {f g : Nat → Option Nat} (h : ∀ s ∈ ranks, g s = if p s then f s else none) :
    ranks.findSome? g = (ranks.filter p).findSome? f := by
  induction ranks with
  | nil => rfl
  | cons s ranks ih =>
    have hs := h s (List.mem_cons_self ..)
    rw [List.findSome?_cons, hs, ih fun t ht => h t (List.mem_cons_of_mem _ ht)]
    by_cases hp : p s
    · rw [if_pos hp, List.filter_cons_of_pos (by simpa using hp), List.findSome?_cons]
    · rw [if_neg hp, List.filter_cons_of_neg (by simpa using hp)]

theorem mem_sent_home {s : Nat} {k : DofKey} (hs : s < w.count) :
    k ∈ w.sent home s (home k.entity w.count) ↔ k ∈ w.keys s := by
  rw [mem_sent]
  exact ⟨fun h => h.2.1, fun h => ⟨hs, h, rfl⟩⟩

/-- **The home sees all claimants of its keys.** -/
theorem claimants_arrived (h : w.Numerable) (hnarrow : w.Narrow) (k : DofKey) :
    Negotiation.claimants (w.arrived home (home k.entity w.count)) k = w.claimants k := by
  rw [Negotiation.claimants, arrived, flatMap_entries_listTable
    (fun s (cs : List Claim) => (cs.filter fun c => c.key = k).map fun _ => s) fun _ => rfl]
  refine flatMap_eq_filter fun s hs => ?_
  have hs := List.mem_range.1 hs
  rw [filter_claims h hnarrow]
  by_cases hk : k ∈ w.keys s
  · rw [if_pos ((mem_sent_home hs).2 hk), if_pos hk]
    rfl
  · rw [if_neg fun hm => hk ((mem_sent_home hs).1 hm), if_neg hk]
    rfl

/-- **The home follows the lowest claimant that designates an owner.** -/
theorem designated?_arrived (h : w.Numerable) (hnarrow : w.Narrow) (k : DofKey) :
    Negotiation.designated? (w.arrived home (home k.entity w.count)) k =
      w.carried.designated? k := by
  rw [Negotiation.designated?, arrived, findSome?_entries_listTable
    (fun _ (cs : List Claim) => (cs.filter fun c => c.key = k).findSome? Claim.hint?) fun _ => rfl]
  refine findSome?_eq_filter fun s hs => ?_
  have hs := List.mem_range.1 hs
  have hhint : (w.claimOf s k).hint? = w.carried.hint s k.entity := rfl
  rw [filter_claims h hnarrow, keys_carried]
  by_cases hk : k ∈ w.keys s
  · rw [if_pos ((mem_sent_home hs).2 hk), if_pos hk, List.findSome?_cons, hhint]
    cases w.carried.hint s k.entity <;> rfl
  · rw [if_neg fun hm => hk ((mem_sent_home hs).1 hm), if_neg hk]
    rfl

/-- **The home decides as seen from above.** -/
theorem settledOwner_eq (h : w.Numerable) (hnarrow : w.Narrow) {r : Nat} (hr : r < w.count)
    {k : DofKey} (hk : k ∈ w.keys r) : w.settledOwner home k = w.carried.owner k := by
  have hclaim : r ∈ w.claimants k := mem_claimants.2 ⟨hr, hk⟩
  obtain ⟨m, hm⟩ := Option.isSome_iff_exists.1 (List.isSome_min?_of_mem hclaim)
  cases hd : w.carried.designated? k <;>
    simp only [settledOwner, hnarrow.carriedKey_eq hr hk, decideOwner, claimants_arrived h hnarrow,
      designated?_arrived h hnarrow, Parties.owner, claimants_carried, hm, hd, Option.getD_some]

/-! ### What a rank knows in the end -/

theorem settledOwned_eq (h : w.Numerable) (hnarrow : w.Narrow) {r : Nat} (hr : r < w.count) :
    w.settledOwned home r = w.carried.owned r :=
  List.filter_congr fun _ hk => by rw [settledOwner_eq h hnarrow hr hk]

theorem settledBelow_eq (h : w.Numerable) (hnarrow : w.Narrow) {r : Nat} (hr : r ≤ w.count) :
    w.settledBelow home r = w.carried.rosterBelow r :=
  List.flatMap_congr fun s hs => settledOwned_eq h hnarrow (by have := List.mem_range.1 hs; omega)

/-- **What is settled for a rank is its part of the outcome.** -/
theorem settled_eq (h : w.Numerable) (hnarrow : w.Narrow) {r : Nat} (hr : r < w.count) :
    w.settled home r = w.carried.numbering r := by
  have howners : w.settledOwnership home r = (w.carried.numbering r).ownership := by
    refine congrArg Ownership.mk (Table.ext_get? fun k => ?_)
    rw [Table.get?_tabulate, Table.get?_tabulate, keys_carried]
    by_cases hk : k ∈ w.keys r
    · rw [if_pos hk, if_pos hk, settledOwner_eq h hnarrow hr hk]
    · rw [if_neg hk, if_neg hk]
  have hnumbers : Table.tabulate (w.keys r) (w.settledNumber home r) =
      (w.carried.numbering r).gids := by
    refine Table.ext_get? fun k => ?_
    rw [Parties.numbering, Table.get?_tabulate, Table.get?_tabulate, keys_carried]
    by_cases hk : k ∈ w.keys r
    · obtain ⟨j, hj, hkey, hvalue⟩ := exists_settledNumber_eq home h hr hk
      have howner := settledOwner_lt home hr hk
      have hj' := (mem_settledOwned.1 hj).1
      rw [hnarrow.carriedKey_eq hr hk, hnarrow.carriedKey_eq howner hj'] at hkey
      subst hkey
      have hall : j ∈ w.carried.allKeys := mem_allKeys.2 ⟨r, hr, hk⟩
      rw [if_pos hk, if_pos hk, hvalue, ownNumber, settledOwned_eq h hnarrow howner,
        settledBelow_eq h hnarrow (Nat.le_of_lt howner), settledOwner_eq h hnarrow hr hk,
        ← gid_eq hall]
    · rw [if_neg hk, if_neg hk]
  rw [settled, howners, hnumbers, settledOwned_eq h hnarrow hr,
    settledBelow_eq h hnarrow (Nat.le_of_lt hr), settledBelow_eq h hnarrow (Nat.le_refl _)]
  rfl

end Parties

end Negotiation

end Unknowns
