import Unknowns.Proofs.Negotiation.Agreement

/-!
# The negotiation of a rank that is alone

A rank without peers is the home of all its keys and their only claimant, so it owns
them all and numbers them itself.  This needs no bound on how many there are: the
numbers are words and may start again, but no key is left without one
(`exists_negotiate_alone`).
-/

namespace Unknowns

namespace Negotiation

variable {keys : List DofKey} {gids : Table DofKey UInt64} {k : DofKey}

/-! ### Phase by phase -/

/-- One rank with its keys and designations. -/
def Parties.alone (keys : List DofKey) (hint : SubEntity → Option Nat) : Parties where
  count := 1
  keys _ := keys
  hint _ := hint

section
variable {home : HomeRule} (tags : Tags) (hint : SubEntity → Option Nat)

theorem Parties.brief_alone : (Parties.alone keys hint).Brief home := by
  intro s hs d hd hne
  have hs : s < 1 := hs
  have hd : d < 1 := hd
  omega

/-- The rank owns all its keys. -/
theorem Parties.ownedKeys_alone (h : keys.Pairwise Before) :
    ((Parties.alone keys hint).settledOwnership home 0).ownedKeys = keys := by
  refine (Ownership.ownedKeys_ofOwners h).trans (List.filter_eq_self.2 fun k hk => ?_)
  have hlt : (Parties.alone keys hint).settledOwner home k < 1 :=
    settledOwner_lt home (w := .alone keys hint) (r := 0) Nat.one_pos hk
  exact decide_eq_true (Nat.lt_one_iff.1 hlt)

theorem alone_collectClaims :
    (collectClaims (World.seat 1 0) tags hint (byHome home (World.seat 1 0) keys)).run.alone =
      .ok ((Parties.alone keys hint).claimCounts home 0,
        (Parties.alone keys hint).arrived home 0) :=
  Rounds.Quiet.alone_eq (.protocol_bind (Rounds.quiet_exchangeSizes ..) fun _ =>
    .protocol_bind (Rounds.quiet_exchangeRecords ..) fun _ => .done _)
    (Parties.succeeds_collectClaims (Parties.brief_alone hint))

theorem alone_learnOwners (hhome : ∀ e, home e 1 < 1) :
    (learnOwners (World.seat 1 0) tags (byHome home (World.seat 1 0) keys)
        ((Parties.alone keys hint).arrived home 0)).run.alone =
      .ok ((Parties.alone keys hint).settledOwnership home 0) :=
  have hnamed : (Parties.alone keys hint).Named home :=
    Parties.named_of_count_lt (show 1 < 2 ^ 32 by decide) home
  Rounds.Quiet.alone_eq (.protocol_bind (Rounds.quiet_exchangeRecords ..) fun _ => .ofExcept _)
    (Parties.succeeds_learnOwners hnamed hhome)

/-- The only number that is told is a word, so there is an interval. -/
theorem exists_gatherTotals (owned : Nat) :
    ∃ totals bounds, (gatherTotals (World.seat 1 0) owned).run.alone = .ok totals ∧
      interval 0 totals = .ok bounds := by
  have hgather : ∃ gathered, (gather (World.seat 1 0) (writeBytes 8 owned)).run.alone =
      .ok gathered := by
    have hone : (World.seat 1 0).count = 1 ∨ (World.seat 1 0).serial = true := Or.inl rfl
    rw [gather, if_neg (World.not_astray Nat.one_pos _), if_pos hone]
    exact ⟨_, rfl⟩
  obtain ⟨gathered, hgathered⟩ := hgather
  refine ⟨readWords 1 gathered, _, Rounds.alone_protocol_bind_ok hgathered,
    interval_eq_ok ?_ 0⟩
  exact UInt64.toNat_lt _

/-- No key loses its number. -/
theorem exists_spreadGids (claims : Table Nat (List DofKey)) (counts : Table Nat Nat)
    (incoming : Table Nat (List Claim)) (h : ∀ k ∈ keys, ∃ g, gids.get? k = some g) :
    ∃ gids', (spreadGids (World.seat 1 0) tags claims counts incoming gids).run.alone = .ok gids' ∧
      ∀ k ∈ keys, ∃ g, gids'.get? k = some g :=
  ⟨_, rfl, fun k hk =>
    let ⟨g, hg⟩ := h k hk
    ⟨g, get?_addRelayed_of_some _ _ hg⟩⟩

/-- **A rank that is alone numbers all its keys**, however many they are. -/
theorem exists_negotiate_alone (hhome : ∀ e, home e 1 < 1) (h : keys.Pairwise Before) :
    ∃ n, (negotiate home Seat.solitary tags hint keys).run.alone = .ok n ∧
      ∀ k ∈ keys, ∃ g, n.gid? k = some g := by
  obtain ⟨totals, ⟨base, all⟩, htotals, hinterval⟩ := exists_gatherTotals keys.length
  have hbounds : (Protocol.ofExcept (interval (World.seat 1 0).rank totals)).run.alone =
      .ok (base, all) := hinterval
  obtain ⟨gids, hgids, hall⟩ := exists_spreadGids tags (byHome home (World.seat 1 0) keys)
    ((Parties.alone keys hint).claimCounts home 0) ((Parties.alone keys hint).arrived home 0)
    fun k hk => exists_numberOwned base h hk
  rw [negotiate_solitary, negotiate, Rounds.alone_protocol_bind_ok (alone_collectClaims tags hint)]
  dsimp only
  rw [Rounds.alone_protocol_bind_ok (alone_learnOwners tags hint hhome),
    Parties.ownedKeys_alone hint h, Rounds.alone_protocol_bind_ok htotals,
    Rounds.alone_protocol_bind_ok hbounds]
  dsimp only
  rw [Rounds.alone_protocol_bind_ok hgids, checkComplete_eq_ok_iff.2 hall]
  exact ⟨_, rfl, hall⟩

end

end Negotiation

end Unknowns
