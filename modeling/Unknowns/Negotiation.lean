import Unknowns.Numbering

/-!
# Negotiating owners and numbers

No rank knows who else refers to an unknown.  Each sub-entity therefore has a
*home* rank, found by a rule that all ranks share, where the claims for its
unknowns meet:

1. every rank claims its keys at their homes, with the owners that its mesh
   designates;
2. the home decides: the designated owner if it claims the key, else the lowest
   claimant; each claim is answered in its place;
3. every rank numbers what it owns in the order of the keys, after the unknowns
   of all lower ranks; it stops if it is told of more unknowns than words can count;
4. the owners report the numbers to the homes, and these relay them to all
   claimants.

What a rank sends to itself does not travel.

Beforehand all ranks agree that they are ready (`agreeReady`), so that none is
left waiting for one that failed.  Only one that is stopped (`Error.stops`) tells
the others nothing.
-/

namespace Unknowns

/-- A rule that gives every sub-entity a home among `size` ranks. -/
abbrev HomeRule := SubEntity → Nat → Nat

namespace Negotiation

/-- What each rank sent to this rank, what it sent to itself included. -/
def withOwn {ρ : Type} (me : Nat) (incoming outgoing : Table Nat ρ) : Table Nat ρ :=
  match outgoing.get? me with
  | some own => incoming.insert me own
  | none => incoming

/-- The ranks that claim a key, in the order in which their claims are read. -/
def claimants (incoming : Table Nat (List Claim)) (key : DofKey) : List Nat :=
  incoming.entries.flatMap fun e => (e.2.filter fun c => c.key = key).map fun _ => e.1

/-- The owner designated for a key by the lowest claimant that has one to designate. -/
def designated? (incoming : Table Nat (List Claim)) (key : DofKey) : Option Nat :=
  incoming.entries.findSome? fun e => (e.2.filter fun c => c.key = key).findSome? Claim.hint?

/-- The owner of a key that `source` claims: the designated one if it is a claimant, else the lowest
claimant. -/
def decideOwner (incoming : Table Nat (List Claim)) (source : Nat) (key : DofKey) : Nat :=
  let ranks := claimants incoming key
  let lowest := (ranks.min?).getD source
  match designated? incoming key with
  | some r => if r ∈ ranks then r else lowest
  | none => lowest

/-- The answers to all claims, each in the place of its claim. -/
def answerClaims (incoming : Table Nat (List Claim)) : Table Nat (List OwnerReply) :=
  incoming.map fun source claims =>
    claims.map fun c => OwnerReply.ofRank (decideOwner incoming source c.key)

/-- The owners of the keys claimed at one home, from its answers. -/
def recordOwners (me home : Nat) (keys : List DofKey) (replies : List OwnerReply)
    (ownership : Ownership) : Except Error Ownership :=
  if replies.length ≠ keys.length then
    .error (.bufferSizeMismatch home keys.length replies.length)
  else
    .ok ((keys.zip replies).foldl (fun o r => o.setOwner r.1 r.2.rank me) ownership)

/-- The owners of all claimed keys. -/
def collectOwners (me : Nat) (replies : Table Nat (List OwnerReply)) :
    List (Nat × List DofKey) → Ownership → Except Error Ownership
  | [], ownership => .ok ownership
  | (home, keys) :: rest, ownership => do
    let ownership ← recordOwners me home keys ((replies.get? home).getD []) ownership
    collectOwners me replies rest ownership

/-- The numbers in a string of 8-byte words. -/
def readWords : Nat → Payload → List UInt64
  | 0, _ => []
  | count + 1, bytes => UInt64.ofNat (wordAt bytes 0 8) :: readWords count (bytes.drop 8)

/-- The sum of words, which must be a word too. -/
def wordTotal (words : List UInt64) : Except Error UInt64 :=
  counted ((word? (total (words.map UInt64.toNat))).map UInt64.ofNat)

/-- The first number of a rank, after those of the ranks below it, and how many numbers there are in
all, from how many keys each rank owns. -/
def interval (rank : Nat) (totals : List UInt64) : Except Error (UInt64 × UInt64) := do
  let base ← wordTotal (totals.take rank)
  let all ← wordTotal totals
  .ok (base, all)

/-- The numbers of the keys owned here, in the order of the keys from `base` on. -/
def numberOwned (base : UInt64) (owned : List DofKey) : Table DofKey UInt64 :=
  Table.ofList (owned.zipIdx.map fun k => (k.1, base + UInt64.ofNat k.2))

/-- What the claimants report about the claimed keys, in the order in which it is read. -/
def reports (incoming : Table Nat (List Claim)) (up : Table Nat (List GidRecord)) :
    List (DofKey × UInt64) :=
  incoming.entries.flatMap fun e =>
    (e.2.zip ((up.get? e.1).getD [])).filterMap fun r => (r.2.gid?).map fun g => (r.1.key, g)

/-- The number reported for a key; of several the latest counts. -/
def resolve? (reported : List (DofKey × UInt64)) (key : DofKey) : Option UInt64 :=
  ((reported.filter fun r => r.1 = key).getLast?).map (·.2)

/-- What the home relays about all claims, each in the place of its claim. -/
def relay (incoming : Table Nat (List Claim)) (reported : List (DofKey × UInt64)) :
    Table Nat (List GidRecord) :=
  incoming.map fun _ claims => claims.map fun c => GidRecord.ofGid? (resolve? reported c.key)

/-- Adds the relayed number of a key, unless there is none or the key has one already. -/
def addNumber (gids : Table DofKey UInt64) (relayed : DofKey × GidRecord) : Table DofKey UInt64 :=
  match relayed.2.gid?, gids.get? relayed.1 with
  | some g, none => gids.insert relayed.1 g
  | _, _ => gids

/-- The numbers that the homes relayed are added to those that this rank gave itself. -/
def addRelayed (claims : List (Nat × List DofKey)) (down : Table Nat (List GidRecord))
    (gids : Table DofKey UInt64) : Table DofKey UInt64 :=
  (claims.flatMap fun c => c.2.zip ((down.get? c.1).getD [])).foldl addNumber gids

/-- Checks that every key has a number. -/
def checkComplete (gids : Table DofKey UInt64) (keys : List DofKey) : Except Error Unit :=
  match keys.find? fun k => !gids.contains k with
  | some k => .error (.missingGlobalIndex k)
  | none => .ok ()

/-- The keys of a rank by their homes. -/
def byHome (home : HomeRule) (seat : Seat) (keys : List DofKey) : Table Nat (List DofKey) :=
  Table.groupBy (fun k : DofKey => home k.entity seat.count) keys

/-- Every rank claims its keys at their homes, with the owners that its mesh designates.  The result
is how many claims came from each peer, and the claims that came here, own ones included. -/
def collectClaims (seat : Seat) (tags : Tags) (hint : SubEntity → Option Nat)
    (claims : Table Nat (List DofKey)) : Protocol (Table Nat Nat × Table Nat (List Claim)) := do
  let outgoing := claims.map fun _ ks => ks.map fun k => Claim.ofKey k (hint k.entity)
  let recvCounts ← exchangeSizes seat.peers tags.sizes (claims.map fun _ ks => ks.length)
  let incoming ← exchangeRecords seat.peers tags.claims outgoing recvCounts
  pure (recvCounts, withOwn seat.rank incoming outgoing)

/-- The homes answer the claims that came to them, and every rank learns the owners of its keys. -/
def learnOwners (seat : Seat) (tags : Tags) (claims : Table Nat (List DofKey))
    (incoming : Table Nat (List Claim)) : Protocol Ownership := do
  let answers := answerClaims incoming
  let replies ← exchangeRecords seat.peers tags.owners answers (claims.map fun _ ks => ks.length)
  Protocol.ofExcept
    (collectOwners seat.rank (withOwn seat.rank replies answers) claims.entries ∅)

/-- Every rank learns how many keys each rank owns. -/
def gatherTotals (seat : Seat) (owned : Nat) : Protocol (List UInt64) := do
  let gathered ← gather seat (writeBytes 8 owned)
  pure (readWords seat.count gathered)

/-- The owners report the numbers of their keys to the homes, and these relay them to all
claimants.  The result is the numbers of all keys of this rank. -/
def spreadGids (seat : Seat) (tags : Tags) (claims : Table Nat (List DofKey))
    (recvCounts : Table Nat Nat) (incoming : Table Nat (List Claim))
    (gids : Table DofKey UInt64) : Protocol (Table DofKey UInt64) := do
  let up := claims.map fun _ ks => ks.map fun k => GidRecord.ofGid? (gids.get? k)
  let upIn ← exchangeRecords seat.peers tags.gidsUp up recvCounts
  let down := relay incoming (reports incoming (withOwn seat.rank upIn up))
  let downIn ← exchangeRecords seat.peers tags.gidsDown down (claims.map fun _ ks => ks.length)
  pure (addRelayed claims.entries (withOwn seat.rank downIn down) gids)

end Negotiation

open Negotiation in
/-- Negotiates owners and numbers for the keys of a rank, which come ascending and each once.
`hint` is the owner that the mesh designates for a sub-entity. -/
def negotiate (home : HomeRule) (seat : Seat) (tags : Tags) (hint : SubEntity → Option Nat)
    (keys : List DofKey) : Protocol Numbering := do
  let claims := byHome home seat keys
  let (recvCounts, incoming) ← collectClaims seat tags hint claims
  let ownership ← learnOwners seat tags claims incoming
  let owned := ownership.ownedKeys
  let totals ← gatherTotals seat owned.length
  let (base, numGlobal) ← Protocol.ofExcept (interval seat.rank totals)
  let gids ← spreadGids seat tags claims recvCounts incoming (numberOwned base owned)
  Protocol.ofExcept (checkComplete gids keys)
  pure ⟨seat.rank, ownership, gids, owned.length, base, numGlobal⟩

/-- The statuses of all ranks, if they are all ready and, where that is to be checked, their
fingerprints agree. -/
def checkStatuses (check : Bool) (statuses : List Status) : Except Error Unit :=
  let failed := (statuses.zipIdx.filter fun s => !s.1.isReady).map (·.2)
  if failed ≠ [] then .error (.peerFailure failed)
  else if check then
    match statuses.findIdx? fun s => some s.fingerprint ≠ statuses.head?.map (·.fingerprint) with
    | some r => .error (.registrationMismatch r)
    | none => .ok ()
  else .ok ()

/-- All ranks tell each other whether they are ready.  A rank that is not fails with its own error;
the others learn which ranks failed.  There must be room for the statuses of all. -/
def agreeReady (seat : Seat) (own : Except Error Unit) (fingerprint : UInt64) (check : Bool) :
    Protocol Unit := do
  Protocol.ofExcept (reserve seat.count (Record.width Status))
  let status := Status.of (match own with | .ok () => true | .error _ => false) fingerprint
  let gathered ← gather seat (Record.encode status)
  Protocol.ofExcept own
  Protocol.ofExcept (checkStatuses check (Record.decodeMany seat.count gathered))

end Unknowns
