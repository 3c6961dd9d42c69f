import Unknowns.Wire.Bytes
import Unknowns.Error

/-!
# Programs that exchange messages

What one rank does in a collective computation is a value of `Rounds`: a
sequence of rounds, each of which sends some messages and then waits for others.
The next round may depend on what came.  All messages of a round are sent before
the first one is awaited, so ranks that wait for each other do not block.

A program says nothing about how messages travel.  It can be run by a rank that
is alone (`Rounds.alone`), against a box of messages laid out beforehand
(`Rounds.against`), or by all ranks of a world together (`Unknowns.Comm.World`).
-/

namespace Unknowns

/-- Tells messages between the same two ranks apart. -/
abbrev Tag := UInt16

/-- The place of a rank among the ranks that compute together. -/
structure Seat where
  rank : Nat
  /-- Number of ranks. -/
  size : Nat
  /-- Whether the rank has nobody to talk to, so that sending does nothing and nothing ever comes. -/
  serial : Bool
deriving DecidableEq

namespace Seat

/-- The only rank of its world. -/
def solitary : Seat := ⟨0, 1, true⟩

/-- Number of ranks, of which there is always one. -/
def count (s : Seat) : Nat := max s.size 1

/-- All other ranks, ascending. -/
def peers (s : Seat) : List Nat := (List.range s.count).filter (· ≠ s.rank)

/-- The place in words. -/
def text (s : Seat) : String :=
  if s.serial then "NoComm"
  else "RayonComm \x7b rank: " ++ toString s.rank ++ ", size: " ++ toString s.size ++ " \x7d"

end Seat

/-- A message to be sent. -/
structure Outgoing where
  dest : Nat
  tag : Tag
  payload : Payload
deriving DecidableEq

/-- A message to be waited for. -/
structure Awaited where
  source : Nat
  tag : Tag
deriving DecidableEq

/-- What one rank does, round by round; a reply is missing when nothing came. -/
inductive Rounds (α : Type) : Type where
  | done (result : α)
  | round (sends : List Outgoing) (awaits : List Awaited)
      (next : List (Option Payload) → Rounds α)

namespace Rounds

variable {α β : Type}

/-- First one program, then the one that its result asks for. -/
def bind : Rounds α → (α → Rounds β) → Rounds β
  | done a, f => f a
  | round sends awaits next, f => round sends awaits fun replies => (next replies).bind f

instance : Monad Rounds where
  pure := done
  bind := bind

/-- One round that answers what came. -/
def exchange (sends : List Outgoing) (awaits : List Awaited) : Rounds (List (Option Payload)) :=
  round sends awaits done

/-- The result when nobody else is there: nothing is sent, and nothing comes. -/
def alone : Rounds α → α
  | done a => a
  | round _ awaits next => alone (next (awaits.map fun _ => none))

/-- A message laid out beforehand; it may be the word that nothing comes. -/
structure Delivery where
  source : Nat
  tag : Tag
  payload : Option Payload
deriving DecidableEq

/-- The oldest delivery from a source under a tag, and the box without it. -/
def take : List Delivery → Awaited → Option Payload × List Delivery
  | [], _ => (none, [])
  | d :: box, a =>
    if d.source = a.source ∧ d.tag = a.tag then (d.payload, box)
    else
      let (reply, box) := take box a
      (reply, d :: box)

/-- The replies to a list of awaited messages in turn, and the box without them. -/
def takeAll : List Delivery → List Awaited → List (Option Payload) × List Delivery
  | box, [] => ([], box)
  | box, a :: rest =>
    let (reply, box) := take box a
    let (replies, box) := takeAll box rest
    (reply :: replies, box)

/-- The result of one rank against a box of deliveries, with all that it sent and with what is left
in the box. -/
def against : List Delivery → Rounds α → α × List Outgoing × List Delivery
  | box, done a => (a, [], box)
  | box, round sends awaits next =>
    let (a, sent, box) := against (takeAll box awaits).2 (next (takeAll box awaits).1)
    (a, sends ++ sent, box)

end Rounds

/-- A program that may fail. -/
abbrev Protocol := ExceptT Error Rounds

/-- The program without rounds that has a given outcome. -/
def Protocol.ofExcept {α : Type} (outcome : Except Error α) : Protocol α :=
  ExceptT.mk (.done outcome)

end Unknowns
