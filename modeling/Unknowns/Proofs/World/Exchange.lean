import Mathlib.Algebra.Group.Nat.Defs
import Unknowns.Comm.Exchange
import Unknowns.Proofs.Wire.Faithful
import Unknowns.Proofs.World.Lockstep

/-!
# The exchanges in a world

In a world whose ranks all take part, each exchange does what it is named for:

* `succeeds_exchangeSizes`: every rank learns what its peers announced;
* `succeeds_exchangeRecords`: every rank gets the lists that its peers have for
  it, if it expects as many records as they have;
* `succeeds_exchangeLists`: the two together, every rank getting the lists that
  its peers have for it;
* `succeeds_gather`: every rank gets the byte strings of all ranks in their order.
-/

namespace Unknowns

namespace World

variable {α β : Type}

/-- The place of rank `r` in a world of `n` ranks. -/
def seat (n r : Nat) : Seat := ⟨r, n, false⟩

/-- The ranks of a world, running the programs `p r` together, all succeed with the results `a r`
going through matched rounds. -/
def Succeeds (n : Nat) (p : Nat → Protocol α) (a : Nat → α) : Prop :=
  InStep n (fun r => (p r).run) fun r => .ok (a r)

/-- What follows a part that succeeds starts from its results, whether it succeeds or not. -/
theorem Succeeds.inStep_bind {n : Nat} {p : Nat → Protocol α} {a : Nat → α}
    {f : Nat → α → Protocol β} {b : Nat → Except Error β} (h : Succeeds n p a)
    (hf : InStep n (fun r => (f r (a r)).run) b) : InStep n (fun r => (p r >>= f r).run) b :=
  InStep.bind (f := fun r => ExceptT.bindCont (f r)) h hf

theorem Succeeds.bind {n : Nat} {p : Nat → Protocol α} {a : Nat → α} {f : Nat → α → Protocol β}
    {b : Nat → β} (h : Succeeds n p a) (hf : Succeeds n (fun r => f r (a r)) b) :
    Succeeds n (fun r => p r >>= f r) b :=
  h.inStep_bind hf

theorem Succeeds.congr {n : Nat} {p q : Nat → Protocol α} {a b : Nat → α} (h : Succeeds n p a)
    (hp : ∀ r < n, q r = p r) (ha : ∀ r < n, b r = a r) : Succeeds n q b :=
  InStep.congr h (fun r hr => congrArg ExceptT.run (hp r hr)) fun r hr => congrArg _ (ha r hr)

theorem succeeds_pure (n : Nat) (a : Nat → α) : Succeeds n (fun r => pure (a r)) a :=
  .done fun _ _ => rfl

theorem succeeds_ofExcept {n : Nat} {e : Nat → Except Error α} {a : Nat → α}
    (h : ∀ r < n, e r = .ok (a r)) : Succeeds n (fun r => Protocol.ofExcept (e r)) a :=
  (succeeds_pure n a).congr (fun r hr => by rw [h r hr]; rfl) fun _ _ => rfl

/-- A round of messages as a step that cannot fail. -/
theorem succeeds_rounds {n : Nat} {p : Nat → Rounds α} {a : Nat → α} (h : InStep n p a) :
    Succeeds n (fun r => (p r : Protocol α)) a :=
  InStep.bind (f := fun _ x => (.done (.ok x) : Rounds (Except Error α))) h (succeeds_pure n a)

/-! ### Peers -/

theorem count_seat {n r : Nat} (hr : r < n) : (seat n r).count = n := by
  show max n 1 = n
  omega

theorem peers_seat {n r : Nat} (hr : r < n) :
    (seat n r).peers = (List.range n).filter (· ≠ r) := by
  rw [Seat.peers, count_seat hr]
  rfl

theorem mem_peers {n r p : Nat} (hr : r < n) : p ∈ (seat n r).peers ↔ p < n ∧ p ≠ r := by
  rw [peers_seat hr, List.mem_filter, List.mem_range, decide_eq_true_iff]

theorem pairwise_peers {n r : Nat} (hr : r < n) : (seat n r).peers.Pairwise (· < ·) := by
  rw [peers_seat hr]
  exact List.pairwise_lt_range.filter _

/-- Messages that go to those peers for which `want` holds, and are awaited there. -/
theorem matched_peers (n : Nat) (tag : Tag) (want : Nat → Nat → Bool)
    (message : Nat → Nat → Payload) :
    Matched n
      (fun s => ((seat n s).peers.filter (want s)).map fun p => ⟨p, tag, message s p⟩)
      (fun r => ((seat n r).peers.filter (want · r)).map fun p => ⟨p, tag⟩)
      (fun r a => message a.source r) where
  dests s hs := by
    rw [List.pairwise_map]
    exact ((pairwise_peers hs).filter _).imp fun h => Nat.ne_of_lt h
  nodup r hr := by
    refine List.pairwise_map.2 (((pairwise_peers hr).filter _).imp fun h he => ?_)
    exact Nat.ne_of_lt h (Awaited.mk.inj he).1
  sent r hr a ha := by
    obtain ⟨p, hp, rfl⟩ := List.mem_map.1 ha
    obtain ⟨hp, hw⟩ := List.mem_filter.1 hp
    have hp := (mem_peers hr).1 hp
    have hr' := (mem_peers hp.1).2 ⟨hr, hp.2.symm⟩
    exact ⟨hp.1, List.mem_map.2 ⟨r, List.mem_filter.2 ⟨hr', hw⟩, rfl⟩⟩
  awaited s hs o ho := by
    obtain ⟨p, hp, rfl⟩ := List.mem_map.1 ho
    obtain ⟨hp, hw⟩ := List.mem_filter.1 hp
    have hp := (mem_peers hs).1 hp
    have hs' := (mem_peers hp.1).2 ⟨hs, hp.2.symm⟩
    exact ⟨hp.1, List.mem_map.2 ⟨s, List.mem_filter.2 ⟨hs', hw⟩, rfl⟩⟩

/-- **Every peer that has a message for a rank reaches it.** -/
theorem succeeds_peers (n : Nat) (tag : Tag) (want : Nat → Nat → Bool)
    (message : Nat → Nat → Payload) :
    Succeeds n
      (fun r => (Rounds.exchange
        (((seat n r).peers.filter (want r)).map fun p => ⟨p, tag, message r p⟩)
        (((seat n r).peers.filter (want · r)).map fun p => ⟨p, tag⟩) : Protocol _))
      (fun r => ((seat n r).peers.filter (want · r)).map fun p => some (message p r)) := by
  refine (succeeds_rounds (.exchange (matched_peers n tag want message))).congr
    (fun _ _ => rfl) fun r _ => ?_
  rw [List.map_map]
  rfl

/-- What comes in the order of the peers is matched with them. -/
theorem zip_map_self (xs : List α) (f : α → β) : xs.zip (xs.map f) = xs.map fun x => (x, f x) := by
  have h := List.zip_map' (f := id) (g := f) (l := xs)
  rwa [List.map_id] at h

/-! ### Reading what came -/

/-- What is read of the message of each peer. -/
def readAll (peers : List Nat) (read : Nat → Except Error α) : Except Error (Table Nat α) := do
  let values ← peers.mapM fun p => do
    let v ← read p
    .ok (p, v)
  .ok (Table.ofList values)

theorem readAll_eq_ok {peers : List Nat} {read : Nat → Except Error α} {value : Nat → α}
    (h : ∀ p ∈ peers, read p = .ok (value p)) :
    readAll peers read = .ok (Table.tabulate peers value) := by
  have hall : peers.mapM (fun p => do let v ← read p; Except.ok (p, v)) =
      (.ok (peers.map fun p => (p, value p)) : Except Error _) :=
    mapM_eq_ok fun p hp => by rw [h p hp]; rfl
  rw [readAll, hall]
  rfl

/-- Numbers that are announced are read peer by peer. -/
theorem allAnnounced_map (peers : List Nat) (reply : Nat → Option Payload) :
    allAnnounced (peers.map fun p => (p, reply p)) =
      readAll peers fun p => announced p (reply p) := by
  rw [allAnnounced, List.mapM_map]
  rfl

/-- Records that are due are read peer by peer. -/
theorem allReceived_map {ρ : Type} [Record ρ] (peers : List Nat) (count : Nat → Nat)
    (reply : Nat → Option Payload) :
    (allReceived (peers.map fun p => ((p, count p), reply p)) : Except Error (Table Nat (List ρ))) =
      readAll peers fun p => received p (count p) (reply p) := by
  rw [allReceived, List.mapM_map]
  rfl

/-! ### Sizes -/

theorem allAnnounced_eq_ok {peers : List Nat} {counts : Nat → Nat}
    (h : ∀ p ∈ peers, counts p < 2 ^ 32) :
    allAnnounced (peers.map fun p => (p, some (Record.encode (Count.ofNat (counts p))))) =
      .ok (Table.tabulate peers counts) := by
  rw [allAnnounced_map]
  refine readAll_eq_ok fun p hp => ?_
  have hc : (Count.ofNat (counts p)).toNat = counts p := Count.toNat_ofNat_eq_iff.2 (h p hp)
  simp only [announced, LawfulRecord.length_encode, LawfulRecord.decode_encode, if_true, hc]

/-- **Every rank learns what its peers announced to it.** -/
theorem succeeds_exchangeSizes {n : Nat} (tag : Tag) {counts : Nat → Table Nat Nat}
    (h : ∀ r < n, ∀ p < n, p ≠ r → ((counts p).get? r).getD 0 < 2 ^ 32) :
    Succeeds n (fun r => exchangeSizes (seat n r).peers tag (counts r))
      (fun r => Table.tabulate (seat n r).peers fun p => ((counts p).get? r).getD 0) := by
  have hall : ∀ r, (seat n r).peers.filter (fun _ => true) = (seat n r).peers :=
    fun r => List.filter_eq_self.2 fun _ _ => rfl
  have hround := succeeds_peers n tag (fun _ _ => true) fun s d =>
    Record.encode (Count.ofNat (((counts s).get? d).getD 0))
  simp only [hall] at hround
  refine hround.bind (succeeds_ofExcept fun r hr => ?_)
  rw [zip_map_self]
  refine allAnnounced_eq_ok fun p hp => ?_
  have hp := (mem_peers hr).1 hp
  exact h r hr p hp.1 hp.2

/-! ### Records -/

section
variable {ρ : Type} [Record ρ] [LawfulRecord ρ]

theorem received_encodeAll (p : Nat) (records : List ρ) :
    received p records.length (some (Record.encodeAll records)) = .ok records := by
  simp only [received, Record.length_encodeAll, dueBytes, if_true, Record.decodeAll_encodeAll]

theorem allReceived_eq_ok (peers : List Nat) (lists : Nat → List ρ) :
    allReceived (peers.map fun p => ((p, (lists p).length), some (Record.encodeAll (lists p)))) =
      .ok (Table.tabulate peers lists) := by
  rw [allReceived_map]
  exact readAll_eq_ok fun p _ => received_encodeAll p (lists p)

omit [LawfulRecord ρ] in
theorem listMessages_eq (peers : List Nat) (tag : Tag) (outgoing : Table Nat (List ρ)) :
    listMessages peers tag outgoing =
      (peers.filter fun p => !((outgoing.get? p).getD []).isEmpty).map fun p =>
        ⟨p, tag, Record.encodeAll ((outgoing.get? p).getD [])⟩ := by
  rw [listMessages, List.filter_map, List.map_map]
  rfl

theorem dueFrom_eq (peers : List Nat) (expected : Table Nat Nat) :
    dueFrom peers expected = (peers.filter fun p => (expected.get? p).getD 0 ≠ 0).map fun p =>
      (p, (expected.get? p).getD 0) := by
  rw [dueFrom, List.filter_map]
  rfl

/-- **Every rank gets the lists that its peers have for it**, if it expects as many records as they
have. -/
theorem succeeds_exchangeRecords {n : Nat} (tag : Tag) (lists : Nat → Nat → List ρ)
    {outgoing : Nat → Table Nat (List ρ)} {expected : Nat → Table Nat Nat}
    (hout : ∀ s < n, ∀ d < n, ((outgoing s).get? d).getD [] = lists s d)
    (hexp : ∀ r < n, ∀ s < n, s ≠ r → ((expected r).get? s).getD 0 = (lists s r).length) :
    Succeeds n (fun r => exchangeRecords (seat n r).peers tag (outgoing r) (expected r))
      (fun r => Table.tabulate ((seat n r).peers.filter fun s => !(lists s r).isEmpty)
        fun s => lists s r) := by
  have hround := succeeds_peers n tag (fun s d => !(lists s d).isEmpty) fun s d =>
    Record.encodeAll (lists s d)
  have hsends : ∀ r < n, listMessages (seat n r).peers tag (outgoing r) =
      ((seat n r).peers.filter fun p => !(lists r p).isEmpty).map fun p =>
        ⟨p, tag, Record.encodeAll (lists r p)⟩ := by
    intro r hr
    rw [listMessages_eq, List.filter_congr fun p hp => ?_]
    · refine List.map_congr_left fun p hp => ?_
      rw [hout r hr p ((mem_peers hr).1 (List.mem_filter.1 hp).1).1]
    · rw [hout r hr p ((mem_peers hr).1 hp).1]
  have hdue : ∀ r < n, dueFrom (seat n r).peers (expected r) =
      ((seat n r).peers.filter fun s => !(lists s r).isEmpty).map fun s =>
        (s, (lists s r).length) := by
    intro r hr
    rw [dueFrom_eq, List.filter_congr fun p hp => ?_]
    · refine List.map_congr_left fun p hp => ?_
      have hp := (mem_peers hr).1 (List.mem_filter.1 hp).1
      rw [hexp r hr p hp.1 hp.2]
    · have hp := (mem_peers hr).1 hp
      rw [hexp r hr p hp.1 hp.2]
      cases lists p r <;> rfl
  refine (hround.bind (f := fun r replies => Protocol.ofExcept (allReceived
    ((((seat n r).peers.filter fun s => !(lists s r).isEmpty).map fun s =>
      (s, (lists s r).length)).zip replies))) (succeeds_ofExcept fun r hr => ?_)).congr
        (fun r hr => ?_) fun _ _ => rfl
  · rw [List.zip_map']
    exact allReceived_eq_ok _ fun p => lists p r
  · rw [exchangeRecords, hsends r hr, hdue r hr, List.map_map]
    rfl

/-- The list that a table has for a rank; it is empty where the table has none. -/
def listFor (t : Table Nat (List ρ)) (d : Nat) : List ρ := (t.get? d).getD []

/-- The lists that come to rank `r` when rank `s` has the lists `outgoing s`. -/
def incomingLists (n : Nat) (outgoing : Nat → Table Nat (List ρ)) (r : Nat) :
    Table Nat (List ρ) :=
  Table.tabulate ((seat n r).peers.filter fun s => !(listFor (outgoing s) r).isEmpty)
    fun s => listFor (outgoing s) r

omit [Record ρ] [LawfulRecord ρ] in
/-- What comes from a peer is what it has for this rank. -/
theorem mem_entries_incomingLists {n r : Nat} (hr : r < n) {outgoing : Nat → Table Nat (List ρ)}
    {e : Nat × List ρ} :
    e ∈ (incomingLists n outgoing r).entries ↔
      (e.1 < n ∧ e.1 ≠ r) ∧ e.2 ≠ [] ∧ e.2 = listFor (outgoing e.1) r := by
  obtain ⟨s, records⟩ := e
  rw [Table.mem_entries_iff, incomingLists, Table.get?_tabulate]
  simp only [List.mem_filter, mem_peers hr, Bool.not_eq_true', List.isEmpty_eq_false_iff,
    Option.ite_none_right_eq_some, Option.some.injEq]
  constructor
  · rintro ⟨⟨hs, hne⟩, rfl⟩
    exact ⟨hs, hne, rfl⟩
  · rintro ⟨hs, hne, rfl⟩
    exact ⟨⟨hs, hne⟩, rfl⟩

omit [Record ρ] [LawfulRecord ρ] in
/-- Everything that peers have for a rank comes. -/
theorem mem_flatten_incomingLists {n r : Nat} (hr : r < n) {outgoing : Nat → Table Nat (List ρ)}
    {x : ρ} :
    x ∈ (incomingLists n outgoing r).values.flatten ↔
      ∃ s < n, s ≠ r ∧ x ∈ listFor (outgoing s) r := by
  simp only [Table.values, List.mem_flatten, List.mem_map]
  constructor
  · rintro ⟨_, ⟨e, he, rfl⟩, hx⟩
    obtain ⟨⟨hlt, hne⟩, -, hlist⟩ := (mem_entries_incomingLists hr).1 he
    exact ⟨e.1, hlt, hne, hlist ▸ hx⟩
  · rintro ⟨s, hlt, hne, hx⟩
    exact ⟨_, ⟨(s, _), (mem_entries_incomingLists hr).2
      ⟨⟨hlt, hne⟩, List.ne_nil_of_mem hx, rfl⟩, rfl⟩, hx⟩

/-- **Every rank gets the lists that its peers have for it**, whatever their lengths are, if each
can be counted in 32 bits. -/
theorem succeeds_exchangeLists {n : Nat} (sizeTag dataTag : Tag)
    {outgoing : Nat → Table Nat (List ρ)}
    (hcount : ∀ s < n, ∀ d < n, s ≠ d → (listFor (outgoing s) d).length < 2 ^ 32) :
    Succeeds n (fun r => exchangeLists (seat n r).peers sizeTag dataTag (outgoing r))
      (incomingLists n outgoing) := by
  have hlength : ∀ s d, (((outgoing s).map fun _ rs => rs.length).get? d).getD 0 =
      (listFor (outgoing s) d).length := by
    intro s d
    rw [Table.get?_map, listFor]
    cases (outgoing s).get? d <;> rfl
  refine Succeeds.bind (succeeds_exchangeSizes sizeTag fun r hr p hp hne => ?_)
    (succeeds_exchangeRecords dataTag (fun s => listFor (outgoing s)) (fun _ _ _ _ => rfl)
      fun r hr s hs hne => ?_)
  · rw [hlength]
    exact hcount p hp r hr hne
  · rw [Table.get?_tabulate, if_pos ((mem_peers hr).2 ⟨hs, hne⟩), Option.getD_some, hlength]

end

/-! ### Gathering -/

theorem range_eq_append_cons {n r : Nat} (hr : r < n) :
    List.range n = List.range r ++ r :: List.range' (r + 1) (n - (r + 1)) := by
  have h : List.range' 0 r ++ List.range' (0 + r) (n - r) = List.range' 0 (r + (n - r)) :=
    List.range'_append_1
  rw [Nat.zero_add, show n - r = n - (r + 1) + 1 by omega, List.range'_succ] at h
  rw [List.range_eq_range', List.range_eq_range', h]
  congr 1
  omega

/-- The peers below a rank come before those above it. -/
theorem peers_eq_append {n r : Nat} (hr : r < n) :
    (seat n r).peers = List.range r ++ List.range' (r + 1) (n - (r + 1)) := by
  have hlow : (List.range r).filter (· ≠ r) = List.range r :=
    List.filter_eq_self.2 fun p hp => decide_eq_true (Nat.ne_of_lt (List.mem_range.1 hp))
  have hhigh : (List.range' (r + 1) (n - (r + 1))).filter (· ≠ r) =
      List.range' (r + 1) (n - (r + 1)) := by
    refine List.filter_eq_self.2 fun p hp => decide_eq_true ?_
    have hp := List.mem_range'_1.1 hp
    omega
  rw [peers_seat hr, range_eq_append_cons hr, List.filter_append,
    List.filter_cons_of_neg (by simp), hlow, hhigh]

theorem fitTo_eq_self {width : Nat} {bytes : Payload} (h : bytes.length = width) :
    fitTo width (some bytes) = bytes := by
  simp only [fitTo, Option.getD_some, h, Nat.sub_self, List.replicate_zero, List.append_nil]
  exact List.take_of_length_le (Nat.le_of_eq h)

/-- The own bytes stand between those of the lower ranks and those of the higher ones. -/
theorem flatten_slots {n r : Nat} (hr : r < n) (slot : Nat → Payload) :
    (((seat n r).peers.map slot).take r).flatten ++ slot r ++
      (((seat n r).peers.map slot).drop r).flatten = (List.range n).flatMap slot := by
  have hlen : ((List.range r).map slot).length = r := by simp
  rw [peers_eq_append hr, List.map_append, List.take_left' hlen, List.drop_left' hlen,
    range_eq_append_cons hr]
  simp only [List.flatMap_def, List.map_append, List.map_cons, List.flatten_append,
    List.flatten_cons, List.append_assoc]

/-- Strings of the length that is expected are not changed. -/
theorem map_fitTo_peers {n width r : Nat} {own : Nat → Payload}
    (h : ∀ s < n, (own s).length = width) (hr : r < n) :
    ((seat n r).peers.map fun p => some (own p)).map (fitTo (own r).length) =
      (seat n r).peers.map own := by
  rw [List.map_map, h r hr]
  exact List.map_congr_left fun p hp => fitTo_eq_self (h p ((mem_peers hr).1 hp).1)

theorem not_astray {n r : Nat} (hr : r < n) (own : Payload) :
    ¬(own.length > 0 ∧ (seat n r).count ≤ (seat n r).rank) := by
  rw [count_seat hr]
  exact fun h => absurd h.2 (Nat.not_le.2 hr)

/-- The bytes of a rank with those that came of the lower ranks before them and those of the higher
ranks behind them, all of one length. -/
def assembled (r : Nat) (own : Payload) (replies : List (Option Payload)) : Payload :=
  ((replies.map (fitTo own.length)).take r).flatten ++ own ++
    ((replies.map (fitTo own.length)).drop r).flatten

/-- A rank that is alone has gathered without a message. -/
theorem gather_one {r : Nat} (hr : r < 1) (own : Payload) : gather (seat 1 r) own = pure own := by
  obtain rfl : r = 0 := Nat.lt_one_iff.1 hr
  rw [gather, if_neg (not_astray hr _), if_pos (Or.inl (count_seat hr)), count_seat hr]
  exact congrArg pure (List.append_nil own)

/-- One of several ranks exchanges messages with all others. -/
theorem gather_many {n r : Nat} (hn : n ≠ 1) (hr : r < n) (own : Payload) :
    gather (seat n r) own =
      (Rounds.exchange ((seat n r).peers.map fun p => ⟨p, gatherTag, own⟩)
        ((seat n r).peers.map fun p => ⟨p, gatherTag⟩) : Protocol (List (Option Payload))) >>=
          fun replies => pure (assembled r own replies) := by
  have hmany : ¬((seat n r).count = 1 ∨ (seat n r).serial = true) := by
    rw [count_seat hr]
    exact fun hc => hc.elim hn Bool.false_ne_true
  rw [gather, if_neg (not_astray hr _), if_neg hmany]
  rfl

/-- **What is assembled of the bytes of all ranks** is all of them in their order. -/
theorem assembled_peers {n width r : Nat} {own : Nat → Payload} (h : ∀ s < n, (own s).length = width)
    (hr : r < n) :
    assembled r (own r) ((seat n r).peers.map fun p => some (own p)) =
      (List.range n).flatMap own := by
  rw [assembled, map_fitTo_peers h hr, flatten_slots hr]

/-- **Every rank gets the byte strings of all ranks**, one after the other. -/
theorem succeeds_gather {n width : Nat} {own : Nat → Payload} (h : ∀ r < n, (own r).length = width) :
    Succeeds n (fun r => gather (seat n r) (own r)) fun _ => (List.range n).flatMap own := by
  by_cases hn : n = 1
  · subst hn
    refine (succeeds_pure 1 own).congr (fun r hr => gather_one hr _) fun r hr => ?_
    obtain rfl : r = 0 := Nat.lt_one_iff.1 hr
    exact List.append_nil _
  · have hall : ∀ r, (seat n r).peers.filter (fun _ => true) = (seat n r).peers :=
      fun r => List.filter_eq_self.2 fun _ _ => rfl
    have hround := succeeds_peers n gatherTag (fun _ _ => true) fun s _ => own s
    simp only [hall] at hround
    refine (hround.bind (f := fun r replies => pure (assembled r (own r) replies))
      ((succeeds_pure n fun _ => (List.range n).flatMap own).congr (fun r hr => ?_)
        fun _ _ => rfl)).congr (fun r hr => gather_many hn hr _) fun _ _ => rfl
    rw [assembled_peers h hr]

end World

end Unknowns
