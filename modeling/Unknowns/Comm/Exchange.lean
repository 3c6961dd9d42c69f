import Unknowns.Comm.Tags
import Unknowns.Memory
import Unknowns.Wire.Record
import Unknowns.Table

/-!
# Exchanges with all peers

Three exchanges make up every collective computation:

* `gather`: all ranks learn a byte string of fixed length from every rank;
* `exchangeSizes`: each rank tells every peer how many records will follow;
* `exchangeRecords`: each rank sends lists of records and takes the announced
  number of records from each peer.

Empty lists are not sent, since the receiver knows that nothing follows.  A rank
waits for everything that it is due to get before it looks at any of it, so a
bad message leaves none behind for the next round.  Of several bad messages the
one of the lowest rank is reported.
-/

namespace Unknowns

/-- A byte string cut or filled up with zeros to `length` bytes; nothing counts as empty. -/
def fitTo (length : Nat) (reply : Option Payload) : Payload :=
  let bytes := reply.getD []
  bytes.take length ++ List.replicate (length - bytes.length) 0

/-- The byte strings of all ranks, one after the other in the order of the ranks.  Each has the
length of this rank's own: what comes is cut or filled up with zeros.  A rank that is none of those
that are counted has no place for its own. -/
def gather (seat : Seat) (own : Payload) : Protocol Payload :=
  if own.length > 0 ∧ seat.count ≤ seat.rank then throw .indexOutOfBounds
  else if seat.count = 1 ∨ seat.serial then
    let blank := List.replicate own.length 0
    pure ((List.range seat.count).flatMap fun r => if r = seat.rank then own else blank)
  else do
    let replies ← Rounds.exchange (seat.peers.map fun p => ⟨p, gatherTag, own⟩)
      (seat.peers.map fun p => ⟨p, gatherTag⟩)
    let slots := replies.map (fitTo own.length)
    pure ((slots.take seat.rank).flatten ++ own ++ (slots.drop seat.rank).flatten)

/-- The number that a peer announced. -/
def announced (peer : Nat) (reply : Option Payload) : Except Error Nat :=
  match reply with
  | none => .error (.commError peer (.noSize peer))
  | some bytes =>
    if bytes.length = Record.width Count then .ok (Record.decode bytes : Count).toNat
    else .error (.commError peer (.sizeHeader (Record.width Count) bytes.length))

/-- The numbers that the peers announced. -/
def allAnnounced (replies : List (Nat × Option Payload)) : Except Error (Table Nat Nat) := do
  let sizes ← replies.mapM fun r => do
    let n ← announced r.1 r.2
    .ok (r.1, n)
  .ok (Table.ofList sizes)

/-- Announces a number of records to every peer, none being announced as zero, and answers what
every peer announced. -/
def exchangeSizes (peers : List Nat) (tag : Tag) (counts : Table Nat Nat) :
    Protocol (Table Nat Nat) := do
  let replies ← Rounds.exchange
    (peers.map fun p => ⟨p, tag, Record.encode (Count.ofNat ((counts.get? p).getD 0))⟩)
    (peers.map fun p => ⟨p, tag⟩)
  Protocol.ofExcept (allAnnounced (peers.zip replies))

section
variable {ρ : Type} [Record ρ]

/-- Number of bytes of `count` records. -/
def dueBytes (ρ : Type) [Record ρ] (count : Nat) : Nat := count * Record.width ρ

/-- The records that a peer sent, of which `count` are due. -/
def received (peer count : Nat) (reply : Option Payload) : Except Error (List ρ) :=
  match reply with
  | none => .error (.commError peer .noData)
  | some bytes =>
    if bytes.length = dueBytes ρ count then
      match Record.decodeAll bytes with
      | .ok records => .ok records
      | .error fault => .error (.commError peer (.unreadable fault))
    else .error (.bufferSizeMismatch peer (dueBytes ρ count) bytes.length)

/-- The records that the peers sent, each with the number that was due. -/
def allReceived (replies : List ((Nat × Nat) × Option Payload)) :
    Except Error (Table Nat (List ρ)) := do
  let incoming ← replies.mapM fun r => do
    let records ← received r.1.1 r.1.2 r.2
    .ok (r.1.1, records)
  .ok (Table.ofList incoming)

/-- The peers from which records are expected, with their number. -/
def dueFrom (peers : List Nat) (expected : Table Nat Nat) : List (Nat × Nat) :=
  (peers.map fun p => (p, (expected.get? p).getD 0)).filter (·.2 ≠ 0)

/-- Checks that memory has room for what is due. -/
def reserveDue (ρ : Type) [Record ρ] (due : List (Nat × Nat)) : Except Error Unit :=
  due.forM fun d => reserve d.2 (Record.width ρ)

/-- The messages that carry the lists meant for the peers; empty lists are not sent. -/
def listMessages (peers : List Nat) (tag : Tag) (outgoing : Table Nat (List ρ)) : List Outgoing :=
  ((peers.map fun p => (p, (outgoing.get? p).getD [])).filter fun m => !m.2.isEmpty).map fun m =>
    ⟨m.1, tag, Record.encodeAll m.2⟩

/-- Sends each peer the records meant for it, and answers the records that came from each peer from
which some are expected. -/
def exchangeRecords (peers : List Nat) (tag : Tag) (outgoing : Table Nat (List ρ))
    (expected : Table Nat Nat) : Protocol (Table Nat (List ρ)) := do
  let due := dueFrom peers expected
  let replies ← Rounds.exchange (listMessages peers tag outgoing) (due.map fun d => ⟨d.1, tag⟩)
  Protocol.ofExcept (allReceived (due.zip replies))

/-- Exchanges records where the expected numbers may be too large for any message: what is due must
have room in memory. -/
def exchangeExpected (peers : List Nat) (tag : Tag) (outgoing : Table Nat (List ρ))
    (expected : Table Nat Nat) : Protocol (Table Nat (List ρ)) := do
  Protocol.ofExcept (reserveDue ρ (dueFrom peers expected))
  exchangeRecords peers tag outgoing expected

/-- Announces the lengths of the lists and then sends the lists. -/
def exchangeLists (peers : List Nat) (sizeTag dataTag : Tag) (outgoing : Table Nat (List ρ)) :
    Protocol (Table Nat (List ρ)) := do
  let expected ← exchangeSizes peers sizeTag (outgoing.map fun _ rs => rs.length)
  exchangeRecords peers dataTag outgoing expected

end

end Unknowns
