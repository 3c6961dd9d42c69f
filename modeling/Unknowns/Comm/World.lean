import Unknowns.Comm.Rounds

/-!
# Ranks that compute together

The ranks of a world share one `Mailbox`.  Messages from one rank to another
under one tag are taken in the order in which they were sent.  `World.run` runs
the programs of all ranks in lock step: in each round all ranks send, and then
all ranks take what they wait for.
-/

namespace Unknowns

/-- A message on its way. -/
structure Letter where
  source : Nat
  dest : Nat
  tag : Tag
  payload : Payload
deriving DecidableEq

/-- The messages on their way, in the order in which they were sent. -/
abbrev Mailbox := List Letter

namespace Mailbox

/-- The mailbox after `rank` sent a list of messages. -/
def post (box : Mailbox) (rank : Nat) (sends : List Outgoing) : Mailbox :=
  box ++ sends.map fun s => ⟨rank, s.dest, s.tag, s.payload⟩

/-- The oldest message to `rank` that matches, and the mailbox without it. -/
def take? (rank : Nat) (a : Awaited) : Mailbox → Option (Payload × Mailbox)
  | [] => none
  | l :: box =>
    if l.dest = rank ∧ l.source = a.source ∧ l.tag = a.tag then some (l.payload, box)
    else (take? rank a box).map fun r => (r.1, l :: r.2)

/-- The messages that `rank` waits for in turn, and the mailbox without them. -/
def takeAll? (rank : Nat) : List Awaited → Mailbox → Option (List (Option Payload) × Mailbox)
  | [], box => some ([], box)
  | a :: rest, box => do
    let (payload, box) ← take? rank a box
    let (replies, box) ← takeAll? rank rest box
    some (some payload :: replies, box)

end Mailbox

namespace World

variable {α : Type}

/-- The programs of the ranks from `rank` on send the messages of their round. -/
def postAll (rank : Nat) (box : Mailbox) : List (Rounds α) → Mailbox
  | [] => box
  | .done _ :: rest => postAll (rank + 1) box rest
  | .round sends _ _ :: rest => postAll (rank + 1) (Mailbox.post box rank sends) rest

/-- The programs of the ranks from `rank` on take what they wait for and go on to their next round.
A program that has ended has no next round. -/
def advanceAll? (rank : Nat) (box : Mailbox) : List (Rounds α) → Option (List (Rounds α) × Mailbox)
  | [] => some ([], box)
  | .done _ :: _ => none
  | .round _ awaits next :: rest => do
    let (replies, box) ← Mailbox.takeAll? rank awaits box
    let (programs, box) ← advanceAll? (rank + 1) box rest
    some (next replies :: programs, box)

/-- The results of programs that have all ended. -/
def results? : List (Rounds α) → Option (List α)
  | [] => some []
  | .done a :: rest => (results? rest).map (a :: ·)
  | .round _ _ _ :: _ => none

/-- Runs the program of rank 0 and those of the other ranks in lock step.  There is no result when
a rank waits for a message that nobody sent, or ends before the others. -/
def runFrom (box : Mailbox) : Rounds α → List (Rounds α) → Option (List α × Mailbox)
  | .done a, others => (results? others).map fun as => (a :: as, box)
  | .round sends awaits next, others => do
    let box := postAll 1 (Mailbox.post box 0 sends) others
    let (replies, box) ← Mailbox.takeAll? 0 awaits box
    let (others, box) ← advanceAll? 1 box others
    runFrom box (next replies) others

/-- Runs the programs of all ranks in lock step. -/
def run (box : Mailbox) : List (Rounds α) → Option (List α × Mailbox)
  | [] => some ([], box)
  | first :: others => runFrom box first others

end World

end Unknowns
