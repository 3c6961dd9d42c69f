import Unknowns.Proofs.Negotiation.Bookkeeping
import Unknowns.Proofs.World.Arrivals

/-!
# A negotiation ends with all numbers or with an error

A rank negotiates with peers that may answer anything, or nothing, in every round.
Replies are matched with claims by their places, and where one is missing a default takes
its place, so it has to be seen that nothing is left out.  Either the rank gets a numbering
that is `Complete` for its keys, or it ends with an error that names a peer or a key for
which no number came (`Expected`).

The numbers of a rank begin after those of the ranks below it, so they are consecutive if
what the ranks own, as they tell it (`tally`), can be counted in 64 bits; else the rank is
stopped.  What it tells is not more than what it knows of itself (`of_gatherTotals`), so
the `closing` half can count as well: `negotiate_completes_or_fails`.
-/

namespace Unknowns

namespace Negotiation

open World Rounds

variable {home : HomeRule} {seat : Seat} {tags : Tags} {hint : SubEntity → Option Nat}
  {keys : List DofKey} {box : List Delivery}

/-! ### Errors -/

/-- The errors of a negotiation: a message of a peer is bad, or a key has got no number. -/
def Expected (keys : List DofKey) (e : Error) : Prop :=
  (∃ p, e.neighbor? = some p) ∨ ∃ k ∈ keys, e = .missingGlobalIndex k

theorem failsOnly_exchangeSizes (peers : List Nat) (tag : Tag) (counts : Table Nat Nat) :
    FailsOnly (Expected keys) (exchangeSizes peers tag counts) := by
  refine (failsOnly_rounds _ _).bind fun replies => failsOnly_ofExcept fun e he => ?_
  obtain ⟨r, -, hr⟩ := exists_of_mapM_eq_error (bind_ok_eq_error_iff.1 he)
  have hr := bind_ok_eq_error_iff.1 hr
  exact .inl ⟨r.1, ((judged_announced r.1 r.2).blames hr).2⟩

theorem neighbor?_of_received {ρ : Type} [Record ρ] {p count : Nat} {reply : Option Payload}
    {e : Error} (h : (received p count reply : Except Error (List ρ)) = .error e) :
    e.neighbor? = some p := by
  unfold received at h
  split at h
  · obtain rfl := Except.error.inj h
    rfl
  · split at h
    · split at h
      · cases h
      · obtain rfl := Except.error.inj h
        rfl
    · obtain rfl := Except.error.inj h
      rfl

theorem failsOnly_exchangeRecords {ρ : Type} [Record ρ] (peers : List Nat) (tag : Tag)
    (outgoing : Table Nat (List ρ)) (expected : Table Nat Nat) :
    FailsOnly (Expected keys) (exchangeRecords peers tag outgoing expected) := by
  refine (failsOnly_rounds _ _).bind fun replies => failsOnly_ofExcept fun e he => ?_
  obtain ⟨r, -, hr⟩ := exists_of_mapM_eq_error (bind_ok_eq_error_iff.1 he)
  have hr := bind_ok_eq_error_iff.1 hr
  exact .inl ⟨r.1.1, neighbor?_of_received hr⟩

/-- A rank of the world gathers without errors. -/
theorem failsOnly_gather {n r : Nat} (hr : r < n) (own : Payload) (allowed : Error → Prop) :
    FailsOnly allowed (gather (World.seat n r) own) := by
  rw [gather, if_neg (not_astray hr own)]
  split
  · exact failsOnly_pure allowed _
  · exact .bind (failsOnly_rounds allowed _) fun _ => failsOnly_pure allowed _

theorem neighbor?_of_collectOwners {me : Nat} {replies : Table Nat (List OwnerReply)}
    {claims : List (Nat × List DofKey)} {o : Ownership} {e : Error}
    (h : collectOwners me replies claims o = .error e) : ∃ p, e.neighbor? = some p := by
  induction claims generalizing o with
  | nil => cases h
  | cons c claims ih =>
    rcases bind_eq_error_iff.1 h with h | ⟨o', -, h⟩
    · unfold recordOwners at h
      split at h
      · obtain rfl := Except.error.inj h
        exact ⟨_, rfl⟩
      · cases h
    · exact ih h

theorem failsOnly_collectClaims (seat : Seat) (claims : Table Nat (List DofKey)) :
    FailsOnly (Expected keys) (collectClaims seat tags hint claims) :=
  .bind (failsOnly_exchangeSizes _ _ _) fun _ => .bind (failsOnly_exchangeRecords _ _ _ _) fun _ =>
    failsOnly_pure _ _

theorem failsOnly_learnOwners (seat : Seat) (claims : Table Nat (List DofKey))
    (incoming : Table Nat (List Claim)) :
    FailsOnly (Expected keys) (learnOwners seat tags claims incoming) :=
  .bind (failsOnly_exchangeRecords _ _ _ _) fun _ => failsOnly_ofExcept fun _ he =>
    .inl (neighbor?_of_collectOwners he)

theorem failsOnly_gatherTotals {n r : Nat} (hr : r < n) (owned : Nat) :
    FailsOnly (Expected keys) (gatherTotals (World.seat n r) owned) :=
  .bind (failsOnly_gather hr _ _) fun _ => failsOnly_pure _ _

theorem failsOnly_spreadGids (seat : Seat) (claims : Table Nat (List DofKey))
    (counts : Table Nat Nat) (incoming : Table Nat (List Claim)) (gids : Table DofKey UInt64) :
    FailsOnly (Expected keys) (spreadGids seat tags claims counts incoming gids) :=
  .bind (failsOnly_exchangeRecords _ _ _ _) fun _ => .bind (failsOnly_exchangeRecords _ _ _ _)
    fun _ => failsOnly_pure _ _

theorem failsOnly_checkComplete (gids : Table DofKey UInt64) :
    FailsOnly (Expected keys) (Protocol.ofExcept (checkComplete gids keys)) :=
  failsOnly_ofExcept fun _ he => .inr (of_checkComplete_eq_error he)

/-! ### The two halves of a negotiation -/

/-- The first half of a negotiation: how many keys each rank owns, as the others tell it and as this
rank knows it of itself. -/
def tally (home : HomeRule) (seat : Seat) (tags : Tags) (hint : SubEntity → Option Nat)
    (keys : List DofKey) : Protocol (List Nat) := do
  let claims := byHome home seat keys
  let (_, incoming) ← collectClaims seat tags hint claims
  let ownership ← learnOwners seat tags claims incoming
  let owned := ownership.ownedKeys.length
  let totals ← gatherTotals seat owned
  pure ((totals.map UInt64.toNat).set seat.rank owned)

/-- The second half, from the counts of all ranks on. -/
def closing (home : HomeRule) (seat : Seat) (tags : Tags) (keys : List DofKey)
    (recvCounts : Table Nat Nat) (incoming : Table Nat (List Claim)) (ownership : Ownership)
    (totals : List UInt64) : Protocol Numbering := do
  let (base, numGlobal) ← Protocol.ofExcept (interval seat.rank totals)
  let gids ← spreadGids seat tags (byHome home seat keys) recvCounts incoming
    (numberOwned base ownership.ownedKeys)
  Protocol.ofExcept (checkComplete gids keys)
  pure ⟨seat.rank, ownership, gids, ownership.ownedKeys.length, base, numGlobal⟩

theorem collected_of_learnOwners {claims : Table Nat (List DofKey)}
    {incoming : Table Nat (List Claim)} {ownership : Ownership}
    (h : ((learnOwners seat tags claims incoming).run.against box).1 = .ok ownership) :
    ∃ replies, collectOwners seat.rank replies claims.entries ∅ = .ok ownership := by
  obtain ⟨_, -, h⟩ := against_ok_iff.1 h
  exact ⟨_, h⟩

/-- **Among the counts that a rank gathers is its own**, as far as a word holds it. -/
theorem of_gatherTotals {n r : Nat} (hr : r < n) {owned : Nat} {totals : List UInt64}
    (h : ((gatherTotals (World.seat n r) owned).run.against box).1 = .ok totals) :
    totals.length = n ∧ totals[r]? = some (UInt64.ofNat owned) := by
  obtain ⟨gathered, hgathered, h⟩ := against_ok_iff.1 h
  rw [against_gather hr] at hgathered
  obtain rfl := Except.ok.inj hgathered
  have hwords : readWords (List.range n).length
      ((List.range n).flatMap (slot box r (writeBytes 8 owned))) = _ :=
    readWords_flatMap fun _ _ => (length_slot ..).trans (length_writeBytes 8 owned)
  obtain rfl : readWords (World.seat n r).count _ = totals := Except.ok.inj h
  rw [List.length_range] at hwords
  rw [count_seat hr, hwords, List.getElem?_map, List.getElem?_range hr, Option.map_some, slot,
    if_pos rfl, ofNat_readBytes_writeBytes, List.length_map, List.length_range]
  exact ⟨rfl, rfl⟩

/-- What the first half of a negotiation of rank `r` of `n` comes to. -/
structure Opened (home : HomeRule) (tags : Tags) (hint : SubEntity → Option Nat)
    (keys : List DofKey) (box : List Delivery) (n r : Nat) (ownership : Ownership)
    (totals : List UInt64) : Prop where
  collected : ∃ replies,
    collectOwners r replies (byHome home (World.seat n r) keys).entries ∅ = .ok ownership
  length : totals.length = n
  own : totals[r]? = some (UInt64.ofNat ownership.ownedKeys.length)
  tally : ((tally home (World.seat n r) tags hint keys).run.against box).1 =
    .ok ((totals.map UInt64.toNat).set r ownership.ownedKeys.length)

/-- **Either the first half of a negotiation fails as expected, or the second half decides.** -/
theorem negotiate_cases {n r : Nat} (hr : r < n) (home : HomeRule) (tags : Tags)
    (hint : SubEntity → Option Nat) (keys : List DofKey) (box : List Delivery) :
    (∃ e, ((negotiate home (World.seat n r) tags hint keys).run.against box).1 = .error e ∧
      Expected keys e) ∨
    ∃ recvCounts incoming ownership totals box',
      Opened home tags hint keys box n r ownership totals ∧
      ((negotiate home (World.seat n r) tags hint keys).run.against box).1 =
        ((closing home (World.seat n r) tags keys recvCounts incoming ownership totals).run.against
          box').1 := by
  unfold negotiate
  cases hclaims : ((collectClaims (World.seat n r) tags hint
      (byHome home (World.seat n r) keys)).run.against box).1 with
  | error e =>
    exact .inl ⟨e, against_bind_error hclaims, (failsOnly_collectClaims _ _).of_against hclaims⟩
  | ok x =>
    obtain ⟨recvCounts, incoming⟩ := x
    rw [against_bind_ok hclaims]
    cases howners : ((learnOwners (World.seat n r) tags (byHome home (World.seat n r) keys)
        incoming).run.against ((collectClaims (World.seat n r) tags hint
          (byHome home (World.seat n r) keys)).run.against box).2.2).1 with
    | error e =>
      exact .inl ⟨e, against_bind_error howners, (failsOnly_learnOwners _ _ _).of_against howners⟩
    | ok ownership =>
      dsimp only
      rw [against_bind_ok howners]
      cases htotals : ((gatherTotals (World.seat n r) ownership.ownedKeys.length).run.against
          ((learnOwners (World.seat n r) tags (byHome home (World.seat n r) keys)
            incoming).run.against ((collectClaims (World.seat n r) tags hint
              (byHome home (World.seat n r) keys)).run.against box).2.2).2.2).1 with
      | error e =>
        exact .inl ⟨e, against_bind_error htotals, (failsOnly_gatherTotals hr _).of_against htotals⟩
      | ok totals =>
        obtain ⟨hlength, hown⟩ := of_gatherTotals hr htotals
        refine .inr ⟨recvCounts, incoming, ownership, totals, _,
          ⟨collected_of_learnOwners howners, hlength, hown, ?_⟩, against_bind_ok htotals⟩
        rw [tally, against_bind_ok hclaims]
        dsimp only
        rw [against_bind_ok howners, against_bind_ok htotals]
        rfl

theorem added_of_spreadGids {claims : Table Nat (List DofKey)} {counts : Table Nat Nat}
    {incoming : Table Nat (List Claim)} {gids gids' : Table DofKey UInt64}
    (h : ((spreadGids seat tags claims counts incoming gids).run.against box).1 = .ok gids') :
    ∃ down, gids' = addRelayed claims.entries down gids := by
  obtain ⟨_, -, h⟩ := against_ok_iff.1 h
  obtain ⟨_, -, h⟩ := against_ok_iff.1 h
  exact ⟨_, (Except.ok.inj h).symm⟩

section
variable {recvCounts : Table Nat Nat} {incoming : Table Nat (List Claim)} {ownership : Ownership}
  {totals : List UInt64} {bounds : UInt64 × UInt64}

/-- Where there is an interval, the second half fails for bad messages and missing numbers only. -/
theorem failsOnly_closing (h : interval seat.rank totals = .ok bounds) :
    FailsOnly (Expected keys)
      (closing home seat tags keys recvCounts incoming ownership totals) := by
  unfold closing
  rw [h]
  exact .bind (failsOnly_pure _ _) fun _ => .bind (failsOnly_spreadGids _ _ _ _ _) fun _ =>
    .bind (failsOnly_checkComplete _) fun _ => failsOnly_pure _ _

/-- **What a second half that succeeds is made of.** -/
theorem parts_of_closing (h : interval seat.rank totals = .ok bounds) {N : Numbering}
    (hN : ((closing home seat tags keys recvCounts incoming ownership totals).run.against box).1 =
      .ok N) :
    N.ownership = ownership ∧ N.numOwned = ownership.ownedKeys.length ∧ N.ownedBase = bounds.1 ∧
      (∃ down, N.gids = addRelayed (byHome home seat keys).entries down
        (numberOwned bounds.1 ownership.ownedKeys)) ∧
      checkComplete N.gids keys = .ok () := by
  unfold closing at hN
  rw [h] at hN
  obtain ⟨_, ⟨⟩, hN⟩ := against_ok_iff.1 hN
  obtain ⟨gids, hgids, hN⟩ := against_ok_iff.1 hN
  obtain ⟨_, hcheck, hN⟩ := against_ok_iff.1 hN
  obtain rfl := Except.ok.inj hN
  exact ⟨rfl, rfl, rfl, added_of_spreadGids hgids, hcheck⟩

end

/-! ### Complete numberings -/

/-- The numbering has just the given keys, and what it says of the owned ones is what the rank
decided itself. -/
structure Complete (keys : List DofKey) (N : Numbering) : Prop where
  owners : N.ownership.keys = keys
  numbers : N.gids.keys = keys
  numOwned : N.numOwned = N.ownership.ownedKeys.length
  /-- The owned keys have the numbers from `ownedBase` on, in their order. -/
  consecutive : ∀ i k, N.ownership.ownedKeys[i]? = some k →
    ∃ g, N.gid? k = some g ∧ g.toNat = N.ownedBase.toNat + i
  /-- A number that the rank gave stands, whatever was relayed. -/
  kept : ∀ k g, (numberOwned N.ownedBase N.ownership.ownedKeys).get? k = some g →
    N.gid? k = some g

theorem mem_keys_of_mem_ownedKeys {o : Ownership} {k : DofKey} (h : k ∈ o.ownedKeys) :
    k ∈ o.keys := by
  obtain ⟨e, he, rfl⟩ := List.mem_map.1 h
  exact List.mem_map_of_mem (List.mem_of_mem_filter he)

/-- One count of a list is put in the place of another. -/
theorem total_set {counts : List Nat} {r : Nat} (hr : r < counts.length) (own : Nat) :
    total (counts.set r own) = total (counts.take r) + own + total (counts.drop (r + 1)) := by
  rw [List.set_eq_take_append_cons_drop, if_pos hr, total_append, total_cons, Nat.add_assoc]

/-- **All keys can be counted** if they can with what this rank knows better of itself, and its own
numbers end within. -/
theorem Opened.interval_eq {n r : Nat} (hr : r < n) {ownership : Ownership} {totals : List UInt64}
    (h : Opened home tags hint keys box n r ownership totals)
    (hsum : total ((totals.map UInt64.toNat).set r ownership.ownedKeys.length) < 2 ^ 64) :
    ∃ bounds, interval r totals = .ok bounds ∧
      bounds.1.toNat + ownership.ownedKeys.length < 2 ^ 64 := by
  have hr' : r < (totals.map UInt64.toNat).length := by rwa [List.length_map, h.length]
  have hget : (totals.map UInt64.toNat)[r] = (UInt64.ofNat ownership.ownedKeys.length).toNat := by
    have hown := congrArg (Option.map UInt64.toNat) h.own
    rw [← List.getElem?_map, List.getElem?_eq_getElem hr'] at hown
    exact Option.some.inj hown
  have hown : (UInt64.ofNat ownership.ownedKeys.length).toNat ≤ ownership.ownedKeys.length :=
    Nat.mod_le ..
  have hsame := total_set hr' (totals.map UInt64.toNat)[r]
  rw [List.set_getElem_self, hget, ← List.map_take] at hsame
  rw [total_set hr', ← List.map_take] at hsum
  have hall : total (totals.map UInt64.toNat) < 2 ^ 64 := by omega
  have hbase : (UInt64.ofNat (total ((totals.take r).map UInt64.toNat))).toNat =
      total ((totals.take r).map UInt64.toNat) :=
    UInt64.toNat_ofNat_of_lt' (show _ < 2 ^ 64 by omega)
  refine ⟨_, interval_eq_ok hall r, ?_⟩
  rw [hbase]
  omega

/-- **A second half that succeeds is complete** if the own numbers end among the words. -/
theorem Opened.complete {n r : Nat} (hkeys : keys.Pairwise Before) {ownership : Ownership}
    {totals : List UInt64} (h : Opened home tags hint keys box n r ownership totals)
    {bounds : UInt64 × UInt64} (hbounds : interval r totals = .ok bounds)
    (hlast : bounds.1.toNat + ownership.ownedKeys.length < 2 ^ 64) {recvCounts : Table Nat Nat}
    {incoming : Table Nat (List Claim)} {box' : List Delivery} {N : Numbering}
    (hN : ((closing home (World.seat n r) tags keys recvCounts incoming ownership
      totals).run.against box').1 = .ok N) : Complete keys N := by
  obtain ⟨replies, hcollect⟩ := h.collected
  obtain ⟨rfl, howned, hbase, ⟨down, hgids⟩, hcheck⟩ := parts_of_closing hbounds hN
  rw [← hbase] at hgids hlast
  have howners : ∀ k, k ∈ N.ownership.keys ↔ k ∈ keys := by
    intro k
    rw [mem_keys_of_collectOwners hcollect, mem_flatMap_byHome]
    exact or_iff_right (List.not_mem_nil (a := k))
  have hascending : N.ownership.ownedKeys.Pairwise Before := Table.pairwise_keys _
  have hkept : ∀ k g, (numberOwned N.ownedBase N.ownership.ownedKeys).get? k = some g →
      N.gids.get? k = some g := by
    intro k g hg
    rw [hgids]
    exact get?_addRelayed_of_some _ _ hg
  have hnumbers : ∀ k, k ∈ N.gids.keys ↔ k ∈ keys := by
    intro k
    rw [Table.mem_keys_iff, Option.isSome_iff_exists]
    refine ⟨fun ⟨g, hg⟩ => ?_, checkComplete_eq_ok_iff.1 hcheck k⟩
    rw [hgids] at hg
    rcases of_get?_addRelayed hg with hg | hk
    · obtain ⟨i, hi, -⟩ := (get?_numberOwned _ hascending).1 hg
      exact (howners k).1 (mem_keys_of_mem_ownedKeys (List.mem_of_getElem? hi))
    · exact (mem_flatMap_byHome ..).1 hk
  refine ⟨eq_of_mem_iff (Table.pairwise_keys _) hkeys howners,
    eq_of_mem_iff (Table.pairwise_keys _) hkeys hnumbers, howned, fun i k hi => ?_, hkept⟩
  have hi' : i < N.ownership.ownedKeys.length := (List.getElem?_eq_some_iff.1 hi).1
  refine ⟨_, hkept k _ ((get?_numberOwned _ hascending).2 ⟨i, hi, rfl⟩), ?_⟩
  have hword : (UInt64.ofNat i).toNat = i :=
    UInt64.toNat_ofNat_of_lt' (show i < 2 ^ 64 by omega)
  rw [UInt64.toNat_add, hword, Nat.mod_eq_of_lt (by omega)]

theorem Expected.ne_indexOutOfBounds {e : Error} (h : Expected keys e) : e ≠ .indexOutOfBounds := by
  rintro rfl
  rcases h with ⟨_, hp⟩ | ⟨_, -, hk⟩
  · cases hp
  · cases hk

/-- **A negotiation ends with all numbers or with an error**, whatever the peers send.

* It fails only for a message of a peer that is bad or for a key that has got no number, so never
  for an index out of bounds.
* If it succeeds, just the given keys have owners and numbers.  The keys that are owned here have the
  numbers from `ownedBase` on, in their order, and nothing that was relayed has replaced one.

The numbers do not start again where this rank and the others, as they tell it, own fewer than 2⁶⁴
keys together. -/
theorem negotiate_completes_or_fails {n r : Nat} (hr : r < n) (home : HomeRule) (tags : Tags)
    (hint : SubEntity → Option Nat) {keys : List DofKey} (hkeys : keys.Pairwise Before)
    (box : List Delivery)
    (hsum : ∀ counts, ((tally home (World.seat n r) tags hint keys).run.against box).1 = .ok counts →
      total counts < 2 ^ 64) :
    (∃ e, ((negotiate home (World.seat n r) tags hint keys).run.against box).1 = .error e ∧
      e ≠ .indexOutOfBounds ∧ Expected keys e) ∨
    ∃ N, ((negotiate home (World.seat n r) tags hint keys).run.against box).1 = .ok N ∧
      Complete keys N := by
  rcases negotiate_cases hr home tags hint keys box with
    ⟨e, he, hexpected⟩ | ⟨recvCounts, incoming, ownership, totals, box', hopened, hclosing⟩
  · exact .inl ⟨e, he, hexpected.ne_indexOutOfBounds, hexpected⟩
  · obtain ⟨bounds, hbounds, hlast⟩ := hopened.interval_eq hr (hsum _ hopened.tally)
    rw [hclosing]
    cases h : ((closing home (World.seat n r) tags keys recvCounts incoming ownership
        totals).run.against box').1 with
    | ok N => exact .inr ⟨N, rfl, hopened.complete hkeys hbounds hlast h⟩
    | error e =>
      have hexpected : Expected keys e := (failsOnly_closing hbounds).of_against h
      exact .inl ⟨e, rfl, hexpected.ne_indexOutOfBounds, hexpected⟩

/-- Rank 1 of two owns the first of its keys.  Rank 0, where both keys are claimed, says so, and it
relays a number for the owned key as well. -/
def relayedBox : List Delivery :=
  [⟨0, Tags.standard.sizes, some (writeBytes 4 0)⟩,
    ⟨0, Tags.standard.owners, some (writeBytes 4 1 ++ writeBytes 4 0)⟩,
    ⟨0, gatherTag, some (writeBytes 8 5)⟩,
    ⟨0, Tags.standard.gidsDown, some (writeBytes 8 9 ++ writeBytes 8 3)⟩]

/-- Two keys at two nodes. -/
def relayedKeys : List DofKey := [⟨⟨0, 7⟩, 0, 0⟩, ⟨⟨0, 8⟩, 0, 0⟩]

/-- The number 5 of the owned key stands. -/
theorem negotiate_completes_or_fails_relayed :
    1 < 2 ∧ relayedKeys.Pairwise Before ∧
    (∀ counts, ((tally (fun _ _ => 0) (World.seat 2 1) .standard (fun _ => none)
      relayedKeys).run.against relayedBox).1 = .ok counts → total counts < 2 ^ 64) ∧
    ∃ N, ((negotiate (fun _ _ => 0) (World.seat 2 1) .standard (fun _ => none)
      relayedKeys).run.against relayedBox).1 = .ok N ∧ Complete relayedKeys N ∧
        N.gids.values = [5, 3] := by
  have hr : 1 < 2 := by decide
  have hkeys : relayedKeys.Pairwise Before := by decide
  have htally : ((tally (fun _ _ => 0) (World.seat 2 1) .standard (fun _ => none)
      relayedKeys).run.against relayedBox).1 = .ok [5, 1] := by decide +kernel
  have hsum : ∀ counts, ((tally (fun _ _ => 0) (World.seat 2 1) .standard (fun _ => none)
      relayedKeys).run.against relayedBox).1 = .ok counts → total counts < 2 ^ 64 := by
    intro counts hcounts
    obtain rfl := Except.ok.inj (htally.symm.trans hcounts)
    decide
  have hvalues : ((negotiate (fun _ _ => 0) (World.seat 2 1) .standard (fun _ => none)
      relayedKeys).run.against relayedBox).1.map (fun N => N.gids.values) = .ok [5, 3] := by
    decide +kernel
  refine ⟨hr, hkeys, hsum, ?_⟩
  rcases negotiate_completes_or_fails hr (fun _ _ => 0) .standard (fun _ => none) hkeys relayedBox hsum
    with ⟨e, he, -⟩ | ⟨N, hN, hcomplete⟩
  · rw [he] at hvalues
    cases hvalues
  · rw [hN] at hvalues
    exact ⟨N, hN, hcomplete, Except.ok.inj hvalues⟩

end Negotiation

end Unknowns
