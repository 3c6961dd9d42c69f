import Unknowns.Proofs.Negotiation.Agreement

/-!
# Designations common to all ranks

When all ranks know the same designations, the rule for the owner of a key does
not depend on which claimant is asked: it is the designated rank if that claims
the key, and else the lowest claimant (`Parties.ruled`).

A claim has 32 bits for the designated rank, and a larger one is reduced to
them.  So the rule is applied to designations modulo 2³² (`owner_carried_of_common`),
and a designation beyond 32 bits, which can be none of a rank, may be taken for
that of a claimant.  This is the only way in which the rule can be missed
(`owner_follows_designations`).
-/

namespace Unknowns

namespace Negotiation

namespace Parties

variable {w : Parties} {hint : SubEntity → Option Nat}

/-- The rank that is designated for the entity of a key, if it claims the key, and else the lowest
claimant. -/
def ruled (w : Parties) (hint : SubEntity → Option Nat) (k : DofKey) : Nat :=
  let lowest := (w.claimants k).min?.getD 0
  match hint k.entity with
  | some d => if d ∈ w.claimants k then d else lowest
  | none => lowest

theorem ruled_of_none {k : DofKey} (h : hint k.entity = none) :
    w.ruled hint k = (w.claimants k).min?.getD 0 := by
  simp only [ruled, h]

theorem ruled_of_some {k : DofKey} {d : Nat} (h : hint k.entity = some d) :
    w.ruled hint k = if d ∈ w.claimants k then d else (w.claimants k).min?.getD 0 := by
  simp only [ruled, h]

/-- **Any claimant** of a key tells a common designation. -/
theorem owner_of_common (hcommon : ∀ r < w.count, w.hint r = hint) {k : DofKey}
    (hk : k ∈ w.allKeys) : w.owner k = w.ruled hint k := by
  obtain ⟨r, hr, hkr⟩ := mem_allKeys.1 hk
  obtain ⟨s, rest, hclaims⟩ := List.exists_cons_of_ne_nil
    (List.ne_nil_of_mem (mem_claimants.2 ⟨hr, hkr⟩))
  have hs : w.hint s = hint :=
    hcommon s (mem_claimants.1 (hclaims ▸ List.mem_cons_self .. : s ∈ w.claimants k)).1
  have hdesignated : w.designated? k = hint k.entity := by
    cases hd : hint k.entity with
    | some d => rw [designated?, hclaims, List.findSome?_cons, hs, hd]
    | none =>
      rw [designated?, List.findSome?_eq_none_iff]
      intro t ht
      rw [hcommon t (mem_claimants.1 ht).1, hd]
  rw [owner, hdesignated]
  rfl

/-- A designation as it arrives: reduced to 32 bits, of which the largest number means that there is
none. -/
theorem hint?_ofKey (k : DofKey) (d : Nat) :
    (Claim.ofKey k (some d)).hint? =
      if d % 2 ^ 32 = 2 ^ 32 - 1 then none else some (d % 2 ^ 32) := by
  have hval : (UInt32.ofNat d).toNat = d % 2 ^ 32 := UInt32.toNat_ofNat
  have hno : noHint.toNat = 2 ^ 32 - 1 := by decide
  have hiff : UInt32.ofNat d = noHint ↔ d % 2 ^ 32 = 2 ^ 32 - 1 := by
    rw [← hval, ← hno, UInt32.toNat_inj]
  show (if UInt32.ofNat d = noHint then none else some (UInt32.ofNat d).toNat) = _
  simp only [hiff, hval]

/-- **The owner of a key** follows the rule for designations modulo 2³². -/
theorem owner_carried_of_common (hcount : w.count < 2 ^ 32)
    (hcommon : ∀ r < w.count, w.hint r = hint) {k : DofKey} (hk : k ∈ w.allKeys) :
    w.carried.owner k = w.ruled (fun e => (hint e).map (· % 2 ^ 32)) k := by
  let arrived (e : SubEntity) : Option Nat := (Claim.ofKey ⟨e, 0, 0⟩ (hint e)).hint?
  let reduced (e : SubEntity) : Option Nat := (hint e).map (· % 2 ^ 32)
  have hcarried : ∀ r < w.carried.count, w.carried.hint r = arrived := fun r hr => by
    have hr : w.hint r = hint := hcommon r hr
    funext e
    show (Claim.ofKey ⟨e, 0, 0⟩ (w.hint r e)).hint? = _
    rw [hr]
  have howner : w.carried.owner k = w.ruled arrived k := owner_of_common hcarried hk
  rw [howner]
  cases hd : hint k.entity with
  | none =>
    have harrived : arrived k.entity = none := by
      simp only [arrived, hd]
      rfl
    have hreduced : reduced k.entity = none := by simp only [reduced, hd, Option.map_none]
    rw [ruled_of_none harrived, ruled_of_none hreduced]
  | some d =>
    have hreduced : reduced k.entity = some (d % 2 ^ 32) := by
      simp only [reduced, hd, Option.map_some]
    by_cases hno : d % 2 ^ 32 = 2 ^ 32 - 1
    · -- no rank has the number that means that there is none
      have harrived : arrived k.entity = none := by simp only [arrived, hd, hint?_ofKey, if_pos hno]
      have hout : d % 2 ^ 32 ∉ w.claimants k := fun hm => by
        have hlt := (mem_claimants.1 hm).1
        omega
      rw [ruled_of_none harrived, ruled_of_some hreduced, if_neg hout]
    · have harrived : arrived k.entity = some (d % 2 ^ 32) := by
        simp only [arrived, hd, hint?_ofKey, if_neg hno]
      rw [ruled_of_some harrived, ruled_of_some hreduced]

/-- **Reducing a designation** matters only if it is beyond 32 bits and taken for that of another
claimant than the lowest. -/
theorem ruled_mod_eq_iff (h : w.Valid) {k : DofKey} (hk : k ∈ w.allKeys) :
    w.ruled (fun e => (hint e).map (· % 2 ^ 32)) k = w.ruled hint k ↔
      ∀ d, hint k.entity = some d → 2 ^ 32 ≤ d → d % 2 ^ 32 ∈ w.claimants k →
        (w.claimants k).min? = some (d % 2 ^ 32) := by
  let reduced (e : SubEntity) : Option Nat := (hint e).map (· % 2 ^ 32)
  show w.ruled reduced k = w.ruled hint k ↔ _
  cases hd : hint k.entity with
  | none =>
    have hreduced : reduced k.entity = none := by simp only [reduced, hd, Option.map_none]
    rw [ruled_of_none hreduced, ruled_of_none hd]
    exact iff_of_true rfl fun d hd => nomatch hd
  | some d =>
    have hreduced : reduced k.entity = some (d % 2 ^ 32) := by
      simp only [reduced, hd, Option.map_some]
    rw [ruled_of_some hreduced, ruled_of_some hd]
    by_cases hlarge : 2 ^ 32 ≤ d
    · have hout : d ∉ w.claimants k := fun hm => by
        have hlt := (mem_claimants.1 hm).1
        have hcount := h.count_lt
        omega
      obtain ⟨r, hr, hkr⟩ := mem_allKeys.1 hk
      obtain ⟨m, hm⟩ := Option.isSome_iff_exists.1
        (List.isSome_min?_of_mem (mem_claimants.2 ⟨hr, hkr⟩))
      rw [if_neg hout, hm, Option.getD_some]
      by_cases hin : d % 2 ^ 32 ∈ w.claimants k
      · rw [if_pos hin]
        constructor
        · rintro he d' hd' - -
          obtain rfl := Option.some.inj hd'
          rw [he]
        · exact fun hall => (Option.some.inj (hall d rfl hlarge hin)).symm
      · rw [if_neg hin]
        refine iff_of_true rfl fun d' hd' _ hin' => ?_
        obtain rfl := Option.some.inj hd'
        exact absurd hin' hin
    · rw [Nat.mod_eq_of_lt (Nat.lt_of_not_le hlarge)]
      refine iff_of_true rfl fun d' hd' hlarge' => ?_
      obtain rfl := Option.some.inj hd'
      exact absurd hlarge' hlarge

/-- **The owners follow the designations modulo 2³².**  In every world of fewer than 2³² ranks that
know the same designations, a negotiation succeeds, and each key is owned by the rank that its
designation modulo 2³² names, if that claims the key, and else by its lowest claimant.  This is the
rule for the designations themselves unless a designation beyond 32 bits is taken for that of a
claimant other than the lowest. -/
theorem owner_follows_designations (tags : Tags) (h : w.Valid)
    (hcommon : ∀ r < w.count, w.hint r = hint) :
    ∃ numbering : Nat → Numbering,
      w.negotiated? SubEntity.home tags =
        some ((List.range w.count).map fun r => .ok (numbering r), []) ∧
      ∀ r < w.count, ∀ k ∈ w.keys r,
        (numbering r).ownership.owner? k =
          some (w.ruled (fun e => (hint e).map (· % 2 ^ 32)) k) ∧
        ((numbering r).ownership.owner? k = some (w.ruled hint k) ↔
          ∀ d, hint k.entity = some d → 2 ^ 32 ≤ d → d % 2 ^ 32 ∈ w.claimants k →
            (w.claimants k).min? = some (d % 2 ^ 32)) := by
  have hhome : ∀ e : SubEntity, e.home w.count < w.count := fun e => e.home_lt h.count_pos
  refine ⟨w.carried.numbering, negotiated?_eq h hhome tags, fun r hr k hk => ?_⟩
  have hall : k ∈ w.allKeys := mem_allKeys.2 ⟨r, hr, hk⟩
  have howner : (w.carried.numbering r).ownership.owner? k =
      some (w.ruled (fun e => (hint e).map (· % 2 ^ 32)) k) := by
    rw [owner?_numbering, keys_carried, if_pos hk, owner_carried_of_common h.count_lt hcommon hall]
  refine ⟨howner, ?_⟩
  rw [howner, Option.some.injEq]
  exact ruled_mod_eq_iff h hall

/-- Two ranks with one node in common, for which both know the designation `d`. -/
def pair (d : Nat) : Parties where
  count := 2
  keys _ := [⟨.node 5, 0, 0⟩]
  hint _ _ := some d

theorem valid_pair (d : Nat) : (pair d).Valid where
  count_pos := Nat.zero_lt_two
  count_lt := show 2 < 2 ^ 32 by decide
  ascending _ _ := List.pairwise_singleton ..
  length_lt _ _ := show 1 < 2 ^ 32 by decide
  narrow _ _ k hk := by
    obtain rfl := List.mem_singleton.1 hk
    decide

/-- The designated rank 1 owns the common node, as the rule says. -/
theorem owner_follows_designations_pair :
    (pair 1).Valid ∧ ∃ numbering : Nat → Numbering,
      (pair 1).negotiated? SubEntity.home .standard =
        some ([.ok (numbering 0), .ok (numbering 1)], []) ∧
      (numbering 0).ownership.owner? ⟨.node 5, 0, 0⟩ = some 1 ∧
      (pair 1).ruled (fun _ => some 1) ⟨.node 5, 0, 0⟩ = 1 := by
  have hcommon : ∀ r < (pair 1).count, (pair 1).hint r = fun _ => some 1 := fun _ _ => rfl
  obtain ⟨numbering, hrun, hview⟩ :=
    owner_follows_designations .standard (valid_pair 1) hcommon
  have howner := (hview 0 (by decide) ⟨.node 5, 0, 0⟩ (by decide)).2.2 fun d hd hlarge => by
    obtain rfl := Option.some.inj hd
    exact absurd hlarge (by decide)
  exact ⟨valid_pair 1, numbering, hrun, howner, by decide⟩

/-- **A designation of no rank can decide.**  Both ranks know 2³² + 1 as the designation of their
common node, and rank 1 comes to own it, where the rule says rank 0. -/
theorem designation_of_no_rank_decides :
    (pair (2 ^ 32 + 1)).Valid ∧ (pair (2 ^ 32 + 1)).count ≤ 2 ^ 32 + 1 ∧
      ∃ numbering : Nat → Numbering,
        (pair (2 ^ 32 + 1)).negotiated? SubEntity.home .standard =
          some ([.ok (numbering 0), .ok (numbering 1)], []) ∧
        (∀ r < 2, (numbering r).ownership.owner? ⟨.node 5, 0, 0⟩ = some 1) ∧
        (pair (2 ^ 32 + 1)).ruled (fun _ => some (2 ^ 32 + 1)) ⟨.node 5, 0, 0⟩ = 0 := by
  have h := valid_pair (2 ^ 32 + 1)
  have hhome : ∀ e : SubEntity, e.home (pair (2 ^ 32 + 1)).count < (pair (2 ^ 32 + 1)).count :=
    fun e => e.home_lt h.count_pos
  have hcommon : ∀ r < (pair (2 ^ 32 + 1)).count,
      (pair (2 ^ 32 + 1)).hint r = fun _ => some (2 ^ 32 + 1) := fun _ _ => rfl
  have hrun := negotiated?_eq h hhome .standard
  refine ⟨h, by decide, _, hrun, fun r hr => ?_, by decide⟩
  have hk : (⟨.node 5, 0, 0⟩ : DofKey) ∈ (pair (2 ^ 32 + 1)).keys r := List.mem_cons_self ..
  rw [owner?_numbering, keys_carried, if_pos hk,
    owner_carried_of_common h.count_lt hcommon (mem_allKeys.2 ⟨r, hr, hk⟩)]
  decide

end Parties

end Negotiation

end Unknowns
