import Mathlib.Data.Set.Function
import Unknowns.Proofs.Negotiation.Exact
import Unknowns.Proofs.World.Solitary

/-!
# All ranks agree

* `negotiate_agrees`: in every world a negotiation succeeds on all ranks and
  establishes one numbering of all keys, of which every rank knows its part.
* `negotiate_refines_outcome`: the owners and numbers are those of the outcome
  as seen from above, and the homes do not influence them.
-/

namespace Unknowns

namespace Negotiation

/-! ### A rank that is alone -/

theorem quiet_negotiate (home : HomeRule) (tags : Tags) (hint : SubEntity → Option Nat)
    (keys : List DofKey) :
    Rounds.Quiet (negotiate home (World.seat 1 0) tags hint keys).run := by
  refine .protocol_bind (.protocol_bind (Rounds.quiet_exchangeSizes ..) fun _ =>
    .protocol_bind (Rounds.quiet_exchangeRecords ..) fun _ => .done _) fun x => ?_
  refine .protocol_bind (.protocol_bind (Rounds.quiet_exchangeRecords ..) fun _ =>
    .ofExcept _) fun _ => ?_
  refine .protocol_bind (.protocol_bind (Rounds.quiet_gather ..) fun _ => .done _) fun _ => ?_
  refine .protocol_bind (.ofExcept _) fun _ => ?_
  refine .protocol_bind (.protocol_bind (Rounds.quiet_exchangeRecords ..) fun _ =>
    .protocol_bind (Rounds.quiet_exchangeRecords ..) fun _ => .done _) fun _ => ?_
  exact .protocol_bind (.ofExcept _) fun _ => .done _

/-- A rank that cannot talk negotiates like the only rank of a world. -/
theorem negotiate_solitary (home : HomeRule) (tags : Tags) (hint : SubEntity → Option Nat)
    (keys : List DofKey) :
    negotiate home Seat.solitary tags hint keys =
      negotiate home (World.seat 1 0) tags hint keys := by
  unfold negotiate gatherTotals
  rw [Rounds.gather_solitary]
  rfl

namespace Parties

open World

variable {w : Parties}

/-- What comes of a negotiation of all ranks, with the messages that are left. -/
def negotiated? (w : Parties) (home : HomeRule) (tags : Tags) :
    Option (List (Except Error Numbering) × Mailbox) :=
  World.run [] ((List.range w.count).map fun r =>
    (negotiate home (seat w.count r) tags (w.hint r) (w.keys r)).run)

theorem negotiated?_eq (h : w.Valid) {home : HomeRule} (hhome : ∀ e, home e w.count < w.count)
    (tags : Tags) :
    w.negotiated? home tags =
      some ((List.range w.count).map fun r => .ok (w.carried.numbering r), []) := by
  have hnumerable := h.numerable
  have hrun := (succeeds_negotiate tags hnumerable (h.brief home)
    (named_of_count_lt h.count_lt home) hhome).run_eq
  rw [negotiated?, hrun]
  refine congrArg (fun as => some (as, [])) (List.map_congr_left fun r hr => ?_)
  rw [settled_eq hnumerable h.narrow (List.mem_range.1 hr)]

/-- The only rank of a world comes to the same numbering without any messages. -/
theorem alone_negotiate (h : w.Valid) (hone : w.count = 1) {home : HomeRule}
    (hhome : ∀ e, home e w.count < w.count) (tags : Tags) :
    (negotiate home Seat.solitary tags (w.hint 0) (w.keys 0)).run.alone =
      .ok (w.carried.numbering 0) := by
  have hrun := negotiated?_eq h hhome tags
  rw [negotiated?, hone] at hrun
  rw [negotiate_solitary]
  exact (quiet_negotiate home tags (w.hint 0) (w.keys 0)).alone_of_run hrun

/-! ### Agreement -/

/-- The numberings of the ranks are views of one numbering `G` of all keys. -/
structure Agreement (w : Parties) (numbering : Nat → Numbering) (G : DofKey → Nat) : Prop where
  /-- The keys are numbered without gaps, and each has its own number. -/
  bijOn : Set.BijOn G w.allKeys (Set.Iio w.allKeys.card)
  /-- A rank knows the numbers of its keys and no others. -/
  gid : ∀ r < w.count, ∀ k,
    ((numbering r).gid? k).map UInt64.toNat = if k ∈ w.keys r then some (G k) else none
  /-- All ranks know how many keys there are. -/
  numGlobal : ∀ r < w.count, (numbering r).numGlobal.toNat = w.allKeys.card
  /-- In the order of the ranks, the numbers that they own are all numbers in their order. -/
  tiling : ((List.range w.count).flatMap fun r => (numbering r).ownedGids.map UInt64.toNat) =
    List.range w.allKeys.card
  /-- One of the ranks that refer to a key owns it, and all ranks that refer to it know which. -/
  owner : ∀ k ∈ w.allKeys, ∃ s < w.count, k ∈ w.keys s ∧
    (∀ r < w.count, k ∈ (numbering r).ownership.ownedKeys ↔ r = s) ∧
    ∀ r < w.count, (numbering r).ownership.owner? k = if k ∈ w.keys r then some s else none
  /-- The owner of a number is the owner of its key. -/
  ownerOfGid : ∀ r < w.count, ∀ k ∈ w.allKeys,
    (numbering r).ownerOfGid? (UInt64.ofNat (G k)) = (numbering r).ownership.owner? k

theorem bijOn_gid (h : w.Numerable) : Set.BijOn w.gid w.allKeys (Set.Iio w.allKeys.card) := by
  rw [← length_roster h]
  refine ⟨fun k hk => gid_lt hk, fun j hj k _ he => (gid_inj hj).1 he, fun i hi => ?_⟩
  obtain ⟨k, hk, hgid⟩ := exists_gid_eq h hi
  exact ⟨k, hk, hgid⟩

theorem toNat_gid?_numbering (h : w.Numerable) {r : Nat} (hr : r < w.count) (k : DofKey) :
    ((w.numbering r).gid? k).map UInt64.toNat = if k ∈ w.keys r then some (w.gid k) else none := by
  rw [gid?_numbering]
  by_cases hk : k ∈ w.keys r
  · have hall : k ∈ w.allKeys := mem_allKeys.2 ⟨r, hr, hk⟩
    rw [if_pos hk, if_pos hk, Option.map_some, toNat_word h (Nat.le_of_lt (gid_lt hall))]
  · rw [if_neg hk, if_neg hk, Option.map_none]

/-- **The parts of one outcome agree.** -/
theorem Numerable.agreement (h : w.Numerable) : w.Agreement w.numbering w.gid where
  bijOn := bijOn_gid h
  gid _ hr := toNat_gid?_numbering h hr
  numGlobal r _ := toNat_numGlobal h r
  tiling := by
    rw [flatMap_ownedGids h (Nat.le_refl _), ← length_roster h]
    rfl
  owner k hk := by
    refine ⟨w.owner k, owner_lt hk, mem_keys_owner hk, fun r hr => ?_, fun r _ =>
      owner?_numbering r k⟩
    rw [ownedKeys_numbering h hr, mem_owned]
    constructor
    · exact fun hmem => hmem.2.symm
    · rintro rfl
      exact ⟨mem_keys_owner hk, rfl⟩
  ownerOfGid _ hr _ hk := ownerOfGid?_numbering h hr hk

theorem agreement_numbering (h : w.Valid) : w.Agreement w.numbering w.gid :=
  Numerable.agreement h

/-- **A negotiation succeeds and its ranks agree.**  In every world of fewer than 2³² ranks, with
any keys and any designations, all ranks succeed, no message is left behind, and one numbering of
all keys is what every rank knows its part of.  A rank that cannot talk comes to the same. -/
theorem negotiate_agrees (tags : Tags) (h : w.Valid) :
    ∃ (numbering : Nat → Numbering) (G : DofKey → Nat),
      w.negotiated? SubEntity.home tags =
        some ((List.range w.count).map fun r => .ok (numbering r), []) ∧
      (w.count = 1 →
        (negotiate SubEntity.home Seat.solitary tags (w.hint 0) (w.keys 0)).run.alone =
          .ok (numbering 0)) ∧
      w.Agreement numbering G := by
  have hhome : ∀ e : SubEntity, e.home w.count < w.count := fun e => e.home_lt h.count_pos
  have hagree := agreement_numbering h.carried
  exact ⟨w.carried.numbering, w.carried.gid, negotiated?_eq h hhome tags,
    fun hone => alone_negotiate h hone hhome tags,
    ⟨hagree.bijOn, hagree.gid, hagree.numGlobal, hagree.tiling, hagree.owner, hagree.ownerOfGid⟩⟩

/-- Two ranks that share a node; the second one, which also has a node of its own, is told to own
it. -/
def sharedNode : Parties where
  count := 2
  keys r := if r = 0 then [⟨.node 1, 0, 0⟩] else [⟨.node 1, 0, 0⟩, ⟨.node 2, 0, 0⟩]
  hint r e := if r = 1 ∧ e = .node 1 then some 1 else none

theorem valid_sharedNode : sharedNode.Valid where
  count_pos := by decide
  count_lt := by decide
  ascending := by decide
  length_lt := by decide
  narrow := by decide

theorem negotiate_agrees_sharedNode :
    sharedNode.Valid ∧
      ∃ (numbering : Nat → Numbering) (G : DofKey → Nat),
        sharedNode.negotiated? SubEntity.home .standard =
          some ([.ok (numbering 0), .ok (numbering 1)], []) ∧
        sharedNode.Agreement numbering G := by
  obtain ⟨numbering, G, hrun, -, hagree⟩ := negotiate_agrees .standard valid_sharedNode
  exact ⟨valid_sharedNode, numbering, G, hrun, hagree⟩

/-! ### The homes do not matter -/

/-- All designations fit into the words that carry them. -/
def HintsFit (w : Parties) : Prop :=
  ∀ r < w.count, ∀ e g, w.hint r e = some g → g < 2 ^ 32 - 1

theorem hint_carried (hhint : w.HintsFit) {r : Nat} (hr : r < w.count) (e : SubEntity) :
    w.carried.hint r e = w.hint r e := by
  show (if (Claim.ofKey ⟨e, 0, 0⟩ (w.hint r e)).hint = noHint then none
    else some (Claim.ofKey ⟨e, 0, 0⟩ (w.hint r e)).hint.toNat) = w.hint r e
  cases hg : w.hint r e with
  | none => exact if_pos rfl
  | some g =>
    have hlt := hhint r hr e g hg
    have hval : (UInt32.ofNat g).toNat = g := UInt32.toNat_ofNat_of_lt' (Nat.lt_trans hlt (by decide))
    have hne : UInt32.ofNat g ≠ noHint := by
      intro he
      have hno : noHint.toNat = 2 ^ 32 - 1 := by decide
      rw [he, hno] at hval
      omega
    exact (if_neg hne).trans (congrArg some hval)

theorem owner_carried (hhint : w.HintsFit) : w.carried.owner = w.owner := by
  funext k
  have hsame : ∀ r ∈ w.claimants k, w.carried.hint r k.entity = w.hint r k.entity := fun r hr =>
    hint_carried hhint (mem_claimants.1 hr).1 k.entity
  have hdesignated : w.carried.designated? k = w.designated? k := by
    rw [designated?, designated?, claimants_carried, ← List.head?_filterMap,
      ← List.head?_filterMap, List.filterMap_congr hsame]
  rw [owner, owner, hdesignated, claimants_carried]

theorem numbering_carried (hhint : w.HintsFit) : w.carried.numbering = w.numbering := by
  have howned : w.carried.owned = w.owned := by
    funext r
    rw [owned, owned, owner_carried hhint, keys_carried]
  have hgid : w.carried.gid = w.gid := by
    funext k
    rw [gid, gid, roster, roster, rosterBelow, rosterBelow, howned, count_carried]
  funext r
  simp only [numbering, owner_carried hhint, hgid, roster, rosterBelow, howned, keys_carried,
    count_carried]

/-- **A negotiation refines the outcome as seen from above.**  Where all designations fit, the owner
of a key is the one that its lowest claimant with a designation designates, if it claims the key,
and else the lowest claimant; and the number of a key counts the keys of lower owners and the keys
before it of its own.  Every rule that has its homes among the ranks leads to the same. -/
theorem negotiate_refines_outcome (tags : Tags) (h : w.Valid) (hhint : w.HintsFit) :
    ∃ numbering : Nat → Numbering,
      (∀ home : HomeRule, (∀ e, home e w.count < w.count) →
        w.negotiated? home tags = some ((List.range w.count).map fun r => .ok (numbering r), [])) ∧
      ∀ r < w.count, ∀ k,
        (numbering r).ownership.owner? k = (if k ∈ w.keys r then some (w.owner k) else none) ∧
        ((numbering r).gid? k).map UInt64.toNat =
          if k ∈ w.keys r then
            some ((w.allKeys.filter fun j => w.owner j < w.owner k).card +
              (w.allKeys.filter fun j => w.owner j = w.owner k ∧ Before j k).card)
          else none := by
  refine ⟨w.numbering, fun home hhome => ?_, fun r hr k => ⟨owner?_numbering r k, ?_⟩⟩
  · rw [negotiated?_eq h hhome tags, numbering_carried hhint]
  · rw [toNat_gid?_numbering h hr]
    by_cases hk : k ∈ w.keys r
    · rw [if_pos hk, if_pos hk, gid_eq_card h (mem_allKeys.2 ⟨r, hr, hk⟩)]
    · rw [if_neg hk, if_neg hk]

theorem hintsFit_sharedNode : sharedNode.HintsFit := by
  intro r _ e g hg
  simp only [sharedNode] at hg
  split at hg
  · obtain rfl := Option.some.inj hg
    decide
  · cases hg

/-- The designated rank 1 owns the shared node, though rank 0 refers to it too. -/
theorem negotiate_refines_outcome_sharedNode :
    ∃ numbering : Nat → Numbering,
      sharedNode.negotiated? SubEntity.home .standard =
        some ([.ok (numbering 0), .ok (numbering 1)], []) ∧
      (numbering 0).ownership.owner? ⟨.node 1, 0, 0⟩ = some 1 ∧
      ((numbering 1).gid? ⟨.node 2, 0, 0⟩).map UInt64.toNat = some 1 := by
  obtain ⟨numbering, hrun, hview⟩ :=
    negotiate_refines_outcome .standard valid_sharedNode hintsFit_sharedNode
  have howner := (hview 0 (by decide) ⟨.node 1, 0, 0⟩).1
  have hgid := (hview 1 (by decide) ⟨.node 2, 0, 0⟩).2
  refine ⟨numbering, hrun SubEntity.home fun e => e.home_lt (by decide), howner.trans (by decide),
    hgid.trans (by decide)⟩

end Parties

end Negotiation

end Unknowns
