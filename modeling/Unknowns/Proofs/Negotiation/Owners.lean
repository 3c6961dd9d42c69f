import Unknowns.Proofs.Negotiation.Claims
import Unknowns.Proofs.Negotiation.Views

/-!
# Every rank learns the owners of its keys

The second phase of a negotiation.  A home sees all claims for its keys, and it
decides for one of the claimants (`exists_claim_of_owner`).  Its answers stand in
the places of the claims, and from them every rank records the owners of its keys
(`succeeds_learnOwners`), if ranks that own something can be told in 32 bits
(`Parties.Named`).

Whatever is said here holds for keys that claims carry as they are and for keys
that they do not.
-/

namespace Unknowns

namespace Negotiation

namespace Parties

open World

variable {w : Parties} {home : HomeRule} {tags : Tags}

/-! ### What the home decides -/

/-- **The home knows who claims a key.** -/
theorem mem_claimants_arrived {s d : Nat} {k : DofKey} :
    s ∈ Negotiation.claimants (w.arrived home d) k ↔
      ∃ j ∈ w.sent home s d, carriedKey j = k := by
  rw [Negotiation.claimants, arrived, flatMap_entries_listTable
    (fun s (cs : List Claim) => (cs.filter fun c => c.key = k).map fun _ => s) fun _ => rfl]
  simp only [List.mem_flatMap, List.mem_range, List.mem_map, List.mem_filter, decide_eq_true_eq]
  constructor
  · rintro ⟨t, -, c, ⟨⟨j, hj, rfl⟩, hkey⟩, rfl⟩
    exact ⟨j, hj, hkey⟩
  · rintro ⟨j, hj, hkey⟩
    exact ⟨s, (mem_sent.1 hj).1, w.claimOf s j, ⟨⟨j, hj, rfl⟩, hkey⟩, rfl⟩

/-- The home decides for a claimant of the key, whichever claim it answers. -/
theorem decideOwner_mem {incoming : Table Nat (List Claim)} {k : DofKey} {s : Nat}
    (h : s ∈ Negotiation.claimants incoming k) (t : Nat) :
    decideOwner incoming t k ∈ Negotiation.claimants incoming k ∧
      decideOwner incoming t k = decideOwner incoming s k := by
  obtain ⟨m, hm⟩ := Option.isSome_iff_exists.1 (List.isSome_min?_of_mem h)
  have hmem : m ∈ Negotiation.claimants incoming k := List.min?_mem hm
  simp only [decideOwner, hm, Option.getD_some, and_true]
  split
  · split
    · assumption
    · exact hmem
  · exact hmem

/-- The owner that the home of a key decides for. -/
def settledOwner (w : Parties) (home : HomeRule) (k : DofKey) : Nat :=
  decideOwner (w.arrived home (home k.entity w.count)) 0 (carriedKey k)

/-- Keys that are claimed as the same have the same owner. -/
theorem settledOwner_congr {j k : DofKey} (h : carriedKey j = carriedKey k) :
    w.settledOwner home j = w.settledOwner home k := by
  have hentity : j.entity = k.entity := by
    rw [← entity_carriedKey j, ← entity_carriedKey k, h]
  rw [settledOwner, settledOwner, h, hentity]

/-- **All claims for a key are answered alike.** -/
theorem decideOwner_arrived {s d : Nat} {k : DofKey} (hk : k ∈ w.sent home s d) :
    decideOwner (w.arrived home d) s (carriedKey k) = w.settledOwner home k := by
  have hmem : s ∈ Negotiation.claimants (w.arrived home d) (carriedKey k) :=
    mem_claimants_arrived.2 ⟨k, hk, rfl⟩
  rw [settledOwner, (mem_sent.1 hk).2.2]
  exact (decideOwner_mem hmem 0).2.symm

variable (home) in
/-- **The owner of a key claims it**, or another key that is claimed as the same. -/
theorem exists_claim_of_owner {r : Nat} (hr : r < w.count) {k : DofKey} (hk : k ∈ w.keys r) :
    ∃ j ∈ w.sent home (w.settledOwner home k) (home k.entity w.count),
      carriedKey j = carriedKey k := by
  have hsent : k ∈ w.sent home r (home k.entity w.count) := mem_sent.2 ⟨hr, hk, rfl⟩
  have hmem : r ∈ Negotiation.claimants (w.arrived home (home k.entity w.count)) (carriedKey k) :=
    mem_claimants_arrived.2 ⟨k, hsent, rfl⟩
  exact mem_claimants_arrived.1 (decideOwner_mem hmem 0).1

variable (home) in
theorem settledOwner_lt {r : Nat} (hr : r < w.count) {k : DofKey} (hk : k ∈ w.keys r) :
    w.settledOwner home k < w.count := by
  obtain ⟨j, hj, -⟩ := exists_claim_of_owner home hr hk
  exact (mem_sent.1 hj).1

/-! ### What the claimants learn -/

/-- Ranks that own something can be told in 32 bits. -/
def Named (w : Parties) (home : HomeRule) : Prop :=
  ∀ r < w.count, ∀ k ∈ w.keys r, w.settledOwner home k < 2 ^ 32

/-- All ranks of a world of fewer than 2³² can be told. -/
theorem named_of_count_lt (h : w.count < 2 ^ 32) (home : HomeRule) : w.Named home :=
  fun _ hr _ hk => Nat.lt_trans (settledOwner_lt home hr hk) h

/-- **The answers stand in the places of the claims.** -/
theorem lists_answerClaims (d : Nat) :
    Lists (answerClaims (w.arrived home d)) fun s =>
      (w.sent home s d).map fun k => OwnerReply.ofRank (w.settledOwner home k) := by
  have hnil : ∀ s, w.count ≤ s → (w.sent home s d).map (w.claimOf s) = [] := fun s hs => by
    rw [sent_eq_nil hs, List.map_nil]
  have hlists := (lists_listTable hnil).map
    fun s c => OwnerReply.ofRank (decideOwner (w.arrived home d) s c.key)
  have hsame : ∀ s, ((w.sent home s d).map (w.claimOf s)).map
      (fun c => OwnerReply.ofRank (decideOwner (w.arrived home d) s c.key)) =
        (w.sent home s d).map fun k => OwnerReply.ofRank (w.settledOwner home k) := by
    intro s
    rw [List.map_map]
    refine List.map_congr_left fun k hk => ?_
    simp only [Function.comp_apply, key_claimOf, decideOwner_arrived hk]
  simp only [hsame] at hlists
  exact hlists

theorem foldl_setOwner (me : Nat) (ks : List DofKey) (f : DofKey → Nat) (o : Ownership) :
    ks.foldl (fun o k => o.setOwner k (f k) me) o =
      ⟨ks.foldl (fun t k => t.insert k ⟨f k, f k != me⟩) o.entries⟩ := by
  induction ks generalizing o with
  | nil => rfl
  | cons k ks ih => exact ih _

/-- Answers that match the claims are recorded for all keys. -/
theorem collectOwners_eq_ok {me : Nat} {replies : Table Nat (List OwnerReply)} {f : DofKey → Nat}
    {claims : List (Nat × List DofKey)} (o : Ownership) (hf : ∀ c ∈ claims, ∀ k ∈ c.2, f k < 2 ^ 32)
    (h : ∀ c ∈ claims, (replies.get? c.1).getD [] = c.2.map fun k => OwnerReply.ofRank (f k)) :
    collectOwners me replies claims o =
      .ok ((claims.flatMap (·.2)).foldl (fun o k => o.setOwner k (f k) me) o) := by
  induction claims generalizing o with
  | nil => rfl
  | cons c claims ih =>
    have hc := h c (List.mem_cons_self ..)
    have hrest : ∀ o', collectOwners me replies claims o' = _ := fun o' =>
      ih o' (fun e he => hf e (List.mem_cons_of_mem _ he)) fun e he =>
        h e (List.mem_cons_of_mem _ he)
    have hfold : (c.2.zip (c.2.map fun k => OwnerReply.ofRank (f k))).foldl
        (fun o r => o.setOwner r.1 r.2.rank me) o = c.2.foldl (fun o k => o.setOwner k (f k) me) o := by
      rw [zip_map_self, List.foldl_map]
      refine List.foldl_ext _ _ _ fun o' k hk => ?_
      rw [OwnerReply.rank_ofRank_eq_iff.2 (hf c (List.mem_cons_self ..) k hk)]
    have hrec : recordOwners me c.1 c.2 ((replies.get? c.1).getD []) o =
        .ok (c.2.foldl (fun o k => o.setOwner k (f k) me) o) := by
      rw [hc, recordOwners, if_neg (by rw [List.length_map]; exact fun hn => hn rfl), hfold]
    obtain ⟨d, ks⟩ := c
    rw [collectOwners, hrec]
    simp only [bind, Except.bind, hrest, List.flatMap_cons, List.foldl_append]

/-- The owners of its keys, as rank `r` learns them. -/
def settledOwnership (w : Parties) (home : HomeRule) (r : Nat) : Ownership :=
  .ofOwners (w.keys r) (w.settledOwner home) r

theorem collectOwners_sent (h : w.Named home) (hhome : ∀ e, home e w.count < w.count) {r : Nat}
    (hr : r < w.count) :
    collectOwners r
        (listTable w.count fun d => (w.sent home r d).map fun k =>
          OwnerReply.ofRank (w.settledOwner home k))
        (byHome home (seat w.count r) (w.keys r)).entries ∅ =
      .ok (w.settledOwnership home r) := by
  have hnil : ∀ d, w.count ≤ d →
      (w.sent home r d).map (fun k => OwnerReply.ofRank (w.settledOwner home k)) = [] := fun d hd => by
    rw [sent_eq_nil_of_le hhome hd, List.map_nil]
  have hclaims : ∀ c ∈ (byHome home (seat w.count r) (w.keys r)).entries,
      c.2 = w.sent home r c.1 := fun c hc => ((lists_byHome hr).mem_entries.1 hc).2
  have hsmall : ∀ c ∈ (byHome home (seat w.count r) (w.keys r)).entries, ∀ k ∈ c.2,
      w.settledOwner home k < 2 ^ 32 := by
    intro c hc k hk
    rw [hclaims c hc] at hk
    exact h r hr k (mem_sent.1 hk).2.1
  rw [collectOwners_eq_ok ∅ hsmall fun c hc => ?_, foldl_setOwner]
  · refine congrArg Except.ok (congrArg Ownership.mk (Table.ext_get? fun k => ?_))
    rw [Table.get?_foldl_insert, Table.get?_tabulate]
    by_cases hk : k ∈ w.keys r
    · rw [if_pos ((mem_flatMap_byHome ..).2 hk), if_pos hk]
    · rw [if_neg fun hm => hk ((mem_flatMap_byHome ..).1 hm), if_neg hk]
      rfl
  · rw [(lists_listTable hnil).getD_get?, hclaims c hc]

/-- **Every rank learns the owners of its keys.** -/
theorem succeeds_learnOwners (hnamed : w.Named home) (hhome : ∀ e, home e w.count < w.count) :
    Succeeds w.count
      (fun r => learnOwners (seat w.count r) tags (byHome home (seat w.count r) (w.keys r))
        (w.arrived home r))
      (w.settledOwnership home) := by
  refine Succeeds.bind (succeeds_exchangeRecords tags.owners
    (fun d s => (w.sent home s d).map fun k => OwnerReply.ofRank (w.settledOwner home k))
    (fun d _ s _ => (lists_answerClaims d).getD_get? s) fun r hr d _ _ => ?_)
      (succeeds_ofExcept fun r hr => ?_)
  · rw [List.length_map, (lists_byHome hr).length_getD]
  · have hreplies := withOwn_eq_listTable hr
      (fun d s => (w.sent home s d).map fun k => OwnerReply.ofRank (w.settledOwner home k))
      (lists_answerClaims r)
    exact (congrArg (collectOwners r · _ ∅) hreplies).trans (collectOwners_sent hnamed hhome hr)

end Parties

end Negotiation

end Unknowns
