import Unknowns.Graph.Csr
import Unknowns.Table
import Unknowns.Total

/-!
# The quotient graph of an elimination

Eliminating a node of a graph joins all its neighbours with one another.  The
quotient graph describes the graph that remains without storing the new edges:
an eliminated node stays as an *element*, whose list of *variables* is the
clique that its elimination made.  Two variables of the remaining graph are
adjacent when one lists the other or both belong to a common element.

Each node is of one kind:

* a *variable* is not eliminated yet;
* an *element* is eliminated, and its clique is still needed;
* an *absorbed* element is eliminated, and its clique is part of a newer one;
* a *merged* node is a twin of a variable, which stands for both.

A variable with its twins is a supervariable; its *weight* counts the nodes in
it.  `degree` is an upper bound of the weight of the variables adjacent to a
variable, and the queue orders the variables by that bound.
-/

namespace Unknowns

/-- What became of a node. -/
inductive NodeKind where
  | variable
  | element
  /-- Part of the newer element. -/
  | absorbed (element : Nat)
  /-- Part of the supervariable of the variable. -/
  | merged (principal : Nat)
deriving DecidableEq

/-- What the quotient graph knows of a node. -/
structure QuotientNode where
  kind : NodeKind
  /-- Of a variable: adjacent variables, ascending. -/
  adjVars : List Nat
  /-- Of a variable: the elements that it belongs to, ascending. -/
  adjElems : List Nat
  /-- Of an element: its variables. -/
  elemVars : List Nat
  /-- Number of nodes that the variable stands for. -/
  weight : Nat
  /-- The merged nodes that the variable stands for. -/
  members : List Nat
  /-- Bound of the weight of the adjacent variables. -/
  degree : Nat
deriving DecidableEq

namespace QuotientNode

/-- A node without neighbours. -/
instance : Inhabited QuotientNode := ⟨⟨.variable, [], [], [], 1, [], 0⟩⟩

/-- Whether the node is not eliminated and stands for itself. -/
def isVariable (x : QuotientNode) : Bool := x.kind = .variable

/-- Whether the node is an element that is still needed. -/
def isElement (x : QuotientNode) : Bool := x.kind = .element

end QuotientNode

/-- A variable that waits for elimination, with its bound. -/
structure Candidate where
  degree : Nat
  node : Nat
deriving DecidableEq

namespace Candidate

/-- By bound, then by node. -/
instance : Ord Candidate := ⟨compareLex (compareOn degree) (compareOn node)⟩

instance : Std.TransOrd Candidate :=
  inferInstanceAs (Std.TransCmp (compareLex (compareOn degree) (compareOn node)))

instance : Std.LawfulEqOrd Candidate where
  eq_of_compare {a b} h := by
    have h' : (compareLex (compareOn degree) (compareOn node)) a b = .eq := h
    rw [compareLex_eq_eq] at h'
    have h₁ : a.degree = b.degree := Std.LawfulEqOrd.eq_of_compare h'.1
    have h₂ : a.node = b.node := Std.LawfulEqOrd.eq_of_compare h'.2
    cases a; cases b; simp_all

end Candidate

/-- What an ordering counts. -/
structure OrderingStats where
  /-- Rounds of eliminations at one least bound. -/
  passes : Nat
  /-- Supervariables eliminated. -/
  pivots : Nat
  /-- Variables merged into a twin. -/
  merged : Nat
  /-- Elements absorbed into a newer one. -/
  absorbed : Nat
  /-- Entries of the factor below its diagonal. -/
  fill : Nat
deriving DecidableEq

instance : Inhabited OrderingStats := ⟨⟨0, 0, 0, 0, 0⟩⟩

/-- The state of an elimination. -/
structure Quotient where
  nodes : Array QuotientNode
  /-- The variables by their bounds, ascending. -/
  queue : List Candidate
  /-- Weight of all variables. -/
  liveWeight : Nat
  /-- Whether an element whose variables all belong to the newest one is absorbed. -/
  aggressive : Bool
  /-- The nodes eliminated so far, in order. -/
  order : List Nat
  stats : OrderingStats
deriving DecidableEq

namespace Quotient

/-- What is known of a node. -/
def node (q : Quotient) (v : Nat) : QuotientNode := q.nodes.getD v default

/-- Changes what is known of a node. -/
def modify (q : Quotient) (v : Nat) (f : QuotientNode → QuotientNode) : Quotient :=
  { q with nodes := q.nodes.modify v f }

/-- Changes what is known of each node of a list. -/
def modifyAll (q : Quotient) (vs : List Nat) (f : Nat → QuotientNode → QuotientNode) : Quotient :=
  vs.foldl (fun q v => q.modify v (f v)) q

/-- Weight of a list of variables. -/
def weightOf (q : Quotient) (vs : List Nat) : Nat := total (vs.map fun v => (q.node v).weight)

/-- The graph before any elimination: every node is a variable for itself. -/
def ofGraph (g : Csr) (aggressive : Bool) : Quotient where
  nodes := (g.rows.map fun row => ⟨.variable, row, [], [], 1, [], row.length⟩).toArray
  queue := ascending (g.rows.zipIdx.map fun r => ⟨r.1.length, r.2⟩)
  liveWeight := g.numNodes
  aggressive := aggressive
  order := []
  stats := default

/-- The variables adjacent to variable `p`: those it lists and those of its elements. -/
def reach (q : Quotient) (p : Nat) : List Nat :=
  (ascending ((q.node p).adjVars ++ (q.node p).adjElems.flatMap fun e => (q.node e).elemVars)).filter
    fun v => v ≠ p ∧ (q.node v).isVariable

/-- Variable `p` becomes an element, and its elements become part of it.  The nodes that `p`
stands for are next in the order, and the entries of their columns of the factor are counted: those
among themselves, and one for each of them and each node of the clique. -/
def retire (q : Quotient) (p : Nat) (clique : List Nat) : Quotient :=
  let x := q.node p
  let q' := q.modifyAll x.adjElems fun _ e => { e with kind := .absorbed p, elemVars := [] }
  let q' := q'.modify p fun x => { x with kind := .element, adjVars := [], adjElems := [], members := [] }
  { q' with
    queue := q.queue.erase ⟨x.degree, p⟩
    liveWeight := q.liveWeight - x.weight
    order := q.order ++ p :: x.members.mergeSort (· ≤ ·)
    stats :=
      { q.stats with
        pivots := q.stats.pivots + 1
        absorbed := q.stats.absorbed + x.adjElems.length
        fill := q.stats.fill + (x.weight * (x.weight - 1) / 2 + x.weight * q.weightOf clique) } }

/-- Each variable of the clique leaves the queue, forgets what the new element `p` makes
superfluous (other members of the clique, absorbed elements), and joins `p`. -/
def prune (q : Quotient) (p : Nat) (clique : List Nat) : Quotient :=
  let live v := (q.node v).isVariable
  let needed e := (q.node e).isElement
  let q' := q.modifyAll clique fun _ x =>
    { x with
      adjVars := x.adjVars.filter fun v => v ≠ p ∧ v ∉ clique ∧ live v
      adjElems := insertAscending p (x.adjElems.filter needed) }
  { q' with queue := clique.foldl (fun queue i => queue.erase ⟨(q.node i).degree, i⟩) q.queue }

/-- For each element other than `p` that meets the clique, the weight of its variables outside
the clique. -/
def outside (q : Quotient) (p : Nat) (clique : List Nat) : Table Nat Nat :=
  ((ascending (clique.flatMap fun i => (q.node i).adjElems)).filter (· ≠ p)).foldl
    (fun t e => t.insert e (q.weightOf ((q.node e).elemVars.filter (· ∉ clique)))) ∅

/-- The elements of the list become part of element `p`, and the clique forgets them. -/
def absorb (q : Quotient) (p : Nat) (clique dead : List Nat) : Quotient :=
  let q' := q.modifyAll dead fun _ e => { e with kind := .absorbed p, elemVars := [] }
  let q' := q'.modifyAll clique fun _ x => { x with adjElems := x.adjElems.filter (· ∉ dead) }
  { q' with stats := { q.stats with absorbed := q.stats.absorbed + dead.length } }

/-- Variable `j` becomes part of the supervariable of `i`: nodes and elements that list `j` forget
it. -/
def merge (q : Quotient) (i j : Nat) : Quotient :=
  let y := q.node j
  let q' := q.modify i fun x =>
    { x with weight := x.weight + y.weight, members := x.members ++ j :: y.members }
  let q' := q'.modify j fun y =>
    { y with kind := .merged i, weight := 0, members := [], adjVars := [], adjElems := [] }
  let q' := q'.modifyAll y.adjElems fun _ e => { e with elemVars := e.elemVars.filter (· ≠ j) }
  let q' := q'.modifyAll y.adjVars fun _ x => { x with adjVars := x.adjVars.filter (· ≠ j) }
  { q' with stats := { q.stats with merged := q.stats.merged + 1 } }

/-- Whether two variables have the same digest and list the same variables and elements. -/
def twins (q : Quotient) (digest : List Nat → List Nat → Nat) (i j : Nat) : Bool :=
  let x := q.node i
  let y := q.node j
  digest x.adjVars x.adjElems == digest y.adjVars y.adjElems &&
    (x.adjVars == y.adjVars && x.adjElems == y.adjElems)

/-- Goes through the clique: a variable with a twin among those that stayed is merged into the
first such, any other stays. -/
def mergeTwinsFrom (digest : List Nat → List Nat → Nat) (stayed : List Nat) :
    List Nat → Quotient → Quotient
  | [], q => q
  | j :: rest, q =>
    match stayed.find? fun i => q.twins digest i j with
    | some i => mergeTwinsFrom digest stayed rest (q.merge i j)
    | none => mergeTwinsFrom digest (stayed ++ [j]) rest q

/-- Merges the variables of the clique that have the same neighbours.  The digest only spares
comparisons: lists that are equal have equal digests. -/
def mergeTwins (digest : List Nat → List Nat → Nat) (clique : List Nat) (q : Quotient) : Quotient :=
  mergeTwinsFrom digest [] clique q

/-- The digest in use: the sum of all entries. -/
def listSum (vars elems : List Nat) : Nat := total vars + total elems

/-- A new bound for variable `i` of the new element `p`, whose variables have weight `cliqueWeight`:
the least of what its lists give, of the old bound with the clique added, and of the weight of all
other variables. -/
def newDegree (q : Quotient) (p cliqueWeight : Nat) (outside : Table Nat Nat) (i : Nat) : Nat :=
  let x := q.node i
  let others := total ((x.adjElems.filter (· ≠ p)).map fun e => (outside.get? e).getD 0)
  min (min (q.weightOf x.adjVars + (cliqueWeight - x.weight) + others)
    (x.degree + (cliqueWeight - x.weight))) (q.liveWeight - x.weight)

/-- The variables of the clique that are left get new bounds, return to the queue, and become the
variables of element `p`. -/
def close (q : Quotient) (p : Nat) (outside : Table Nat Nat) (clique : List Nat) : Quotient :=
  let live := clique.filter fun v => (q.node v).isVariable
  let cliqueWeight := q.weightOf live
  let degree i := q.newDegree p cliqueWeight outside i
  let q' := q.modifyAll live fun i x => { x with degree := degree i }
  let q' := q'.modify p fun x => { x with elemVars := live }
  { q' with queue := live.foldl (fun c i => insertAscending ⟨degree i, i⟩ c) q.queue }

/-- Eliminates variable `p`; answers the variables that were adjacent to it. -/
def eliminate (q : Quotient) (p : Nat) : List Nat × Quotient :=
  let clique := q.reach p
  let q := (q.retire p clique).prune p clique
  let weights := q.outside p clique
  let dead := if q.aggressive then (weights.filter fun _ w => w = 0).keys else []
  let q := q.absorb p clique dead
  let q := q.mergeTwins listSum clique
  (clique, q.close p weights clique)

/-- Eliminates in turn those of the candidates that are still variables and not adjacent to one
eliminated before them in the same pass. -/
def eliminateEach (stale : List Nat) : List Nat → Quotient → Quotient
  | [], q => q
  | p :: rest, q =>
    if p ∈ stale ∨ ¬(q.node p).isVariable then eliminateEach stale rest q
    else
      let (clique, q') := q.eliminate p
      eliminateEach (clique ++ stale) rest q'

/-- The variables with the least bound, ascending. -/
def candidates (q : Quotient) : List Nat :=
  match q.queue with
  | [] => []
  | least :: _ => (q.queue.filter (·.degree = least.degree)).map (·.node)

/-- One more pass is counted. -/
def countPass (q : Quotient) : Quotient :=
  { q with stats := { q.stats with passes := q.stats.passes + 1 } }

/-- One pass: goes through the variables that had the least bound when it began. -/
def pass (q : Quotient) : Quotient := eliminateEach [] q.candidates q.countPass

/-- At most `n` passes, as long as variables are left. -/
def passes : Nat → Quotient → Quotient
  | 0, q => q
  | n + 1, q => if q.queue.isEmpty then q else passes n q.pass

/-- Eliminates all variables.  Every pass eliminates at least one, so there are no more passes than
nodes. -/
def eliminateAll (q : Quotient) : Quotient := passes q.nodes.size q

/-- Whether a node with its kind refers to what it has become part of: a merged node to another one
that is no variable, an absorbed element to another one. -/
def referenceResolves (q : Quotient) (v : Nat) (kind : NodeKind) : Bool :=
  match kind with
  | .variable => false
  | .element => true
  | .merged i => i ≠ v && !(q.node i).isVariable
  | .absorbed e =>
    e ≠ v && match (q.node e).kind with
      | .element | .absorbed _ => true
      | _ => false

/-- Whether all nodes do; this is asserted when all variables are eliminated. -/
def backReferencesResolve (q : Quotient) : Bool :=
  q.nodes.toList.zipIdx.all fun x => q.referenceResolves x.2 x.1.kind

end Quotient

end Unknowns
