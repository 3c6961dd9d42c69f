import Unknowns.Proofs.Outcomes
import Unknowns.Proofs.World.Deliveries
import Unknowns.Proofs.World.Exchange

/-!
# Exchanges with peers that send anything

An exchange is one round with peers, and `Conducts` says how a rank gets through it
whatever comes.  What it waits for and what it sends is settled beforehand, so a bad
message changes neither, and nothing that is due is left to be taken for a message of
the next round.  Only then are the messages read, one peer after the other
(`readAll_cases`); the first one that is bad is that of the lowest rank.

`exchanges_conduct` has this for sizes and for records.  Gathering does not fail at all
(`against_gather`).
-/

namespace Unknowns

/-- The peer whose message an error is about. -/
def Error.neighbor? : Error → Option Nat
  | .commError p _ => some p
  | .bufferSizeMismatch p _ _ => some p
  | _ => none

namespace World

open Rounds

variable {ν : Type}

/-- A message came, and it has the given length. -/
def Came (length : Nat) (reply : Option Payload) : Prop :=
  ∃ bytes, reply = some bytes ∧ bytes.length = length

/-- What comes of reading the replies of some peers, of which each is due to have its `length`;
`reads` tells what is read of them. -/
structure Settles (outcome : Except Error (Table Nat ν)) (peers : List Nat) (length : Nat → Nat)
    (reply : Nat → Option Payload) (reads : Nat → Payload → ν → Prop) : Prop where
  ok_iff : (∃ t, outcome = .ok t) ↔ ∀ p ∈ peers, Came (length p) (reply p)
  keys : ∀ t, outcome = .ok t → t.keys = peers
  values : ∀ t, outcome = .ok t → ∀ p v, t.get? p = some v →
    ∃ bytes, reply p = some bytes ∧ reads p bytes v
  /-- The error is about the lowest peer whose message is missing or has another length. -/
  blames : ∀ e, outcome = .error e →
    ∃ p ∈ peers, e.neighbor? = some p ∧ ¬Came (length p) (reply p) ∧
      ∀ q ∈ peers, q < p → Came (length q) (reply q)

/-- The program is one round in which messages from the `awaited` peers are due under one tag. -/
structure Conducts (program : Protocol (Table Nat ν)) (box : List Delivery) (tag : Tag)
    (sends : List Outgoing) (awaited : List Nat) (length : Nat → Nat)
    (reads : Nat → Payload → ν → Prop) : Prop where
  /-- It waits once for each awaited peer. -/
  waits : program.run.waits box = awaited.map (⟨·, tag⟩)
  sent : (program.run.against box).2.1 = sends
  /-- It takes one message from each of the queues it waits for, and nothing from others. -/
  left : ∀ a, queued (program.run.against box).2.2 a =
    if a.source ∈ awaited ∧ a.tag = tag then (queued box a).tail else queued box a
  settles : Settles (program.run.against box).1 awaited length (fun p => arrival box ⟨p, tag⟩) reads

/-! ### Reading one peer after the other -/

/-- **Either all messages can be read, or the first one that cannot makes the error.** -/
theorem readAll_cases [Inhabited ν] {peers : List Nat} (h : peers.Pairwise (· < ·))
    (read : Nat → Except Error ν) :
    (∃ value : Nat → ν, (∀ p ∈ peers, read p = .ok (value p)) ∧
      readAll peers read = .ok (Table.tabulate peers value)) ∨
    ∃ p ∈ peers, ∃ e, read p = .error e ∧ readAll peers read = .error e ∧
      ∀ q ∈ peers, q < p → ∃ v, read q = .ok v := by
  let entry (p : Nat) : Except Error (Nat × ν) := do
    let v ← read p
    .ok (p, v)
  have hentry : ∀ {p x}, entry p = .ok x → ∃ v, read p = .ok v := fun hx =>
    let ⟨v, hv, _⟩ := bind_eq_ok_iff.1 hx
    ⟨v, hv⟩
  cases hall : peers.mapM entry with
  | ok values =>
    have hread : ∀ p ∈ peers, ∃ v, read p = .ok v := by
      intro p hp
      obtain ⟨i, hi⟩ := List.mem_iff_getElem?.1 hp
      obtain ⟨x, -, hx⟩ := (getElem?_of_mapM hall).2 i p hi
      exact hentry hx
    have hvalue : ∀ p ∈ peers, read p = .ok ((read p).toOption.getD default) := by
      intro p hp
      obtain ⟨v, hv⟩ := hread p hp
      rw [hv]
      rfl
    exact .inl ⟨_, hvalue, readAll_eq_ok hvalue⟩
  | error e =>
    obtain ⟨before, p, rest, rfl, hp, hbefore⟩ := mapM_eq_error_iff.1 hall
    have hp : read p = .error e := bind_ok_eq_error_iff.1 hp
    refine .inr ⟨p, List.mem_append_right _ (List.mem_cons_self ..), e, hp,
      bind_eq_error_iff.2 (.inl hall), fun q hq hlt => ?_⟩
    rcases List.mem_append.1 hq with hq | hq
    · obtain ⟨x, hx⟩ := hbefore q hq
      exact hentry hx
    · have hafter := List.pairwise_cons.1 (List.pairwise_append.1 h).2.1
      rcases List.mem_cons.1 hq with rfl | hq
      · exact absurd hlt (Nat.lt_irrefl q)
      · exact absurd hlt (Nat.lt_asymm (hafter.1 q hq))

theorem came_some_iff {length : Nat} {bytes : Payload} :
    Came length (some bytes) ↔ bytes.length = length :=
  ⟨fun ⟨_, hsome, hlength⟩ => Option.some.inj hsome ▸ hlength, fun hlength => ⟨bytes, rfl, hlength⟩⟩

theorem not_came_none {length : Nat} : ¬Came length none := nofun

/-- A reply is read if it has its length, and otherwise the error is about its sender. -/
inductive Judged (p length : Nat) (reads : Payload → ν → Prop) :
    Option Payload → Except Error ν → Prop
  | read {bytes : Payload} {v : ν} (hlength : bytes.length = length) (hreads : reads bytes v) :
    Judged p length reads (some bytes) (.ok v)
  | refused {reply : Option Payload} {e : Error} (hbad : ¬Came length reply)
    (hname : e.neighbor? = some p) : Judged p length reads reply (.error e)

namespace Judged

variable {p length : Nat} {reads : Payload → ν → Prop} {reply : Option Payload}
  {outcome : Except Error ν}

theorem came (h : Judged p length reads reply outcome) {v : ν} (hv : outcome = .ok v) :
    Came length reply := by
  cases h with
  | read hlength _ => exact came_some_iff.2 hlength
  | refused _ _ => cases hv

theorem exists_reads (h : Judged p length reads reply outcome) {v : ν} (hv : outcome = .ok v) :
    ∃ bytes, reply = some bytes ∧ reads bytes v := by
  cases h with
  | read _ hreads => exact ⟨_, rfl, Except.ok.inj hv ▸ hreads⟩
  | refused _ _ => cases hv

theorem blames (h : Judged p length reads reply outcome) {e : Error} (he : outcome = .error e) :
    ¬Came length reply ∧ e.neighbor? = some p := by
  cases h with
  | read _ _ => cases he
  | refused hbad hname => exact ⟨hbad, Except.error.inj he ▸ hname⟩

end Judged

/-- Ascending numbers are the keys of the table of their values. -/
theorem keys_tabulate {peers : List Nat} (h : peers.Pairwise (· < ·)) (value : Nat → ν) :
    (Table.tabulate peers value).keys = peers := by
  have hbefore : peers.Pairwise Before := h.imp fun hlt => Nat.compare_eq_lt.2 hlt
  rw [Table.keys, Table.entries_tabulate value hbefore, List.map_map]
  exact List.map_id _

/-- **What comes of all replies**, from how each of them is read. -/
theorem settles_readAll [Inhabited ν] {peers : List Nat} (hpeers : peers.Pairwise (· < ·))
    {read : Nat → Except Error ν} {length : Nat → Nat} {reply : Nat → Option Payload}
    {reads : Nat → Payload → ν → Prop}
    (hread : ∀ p ∈ peers, Judged p (length p) (reads p) (reply p) (read p)) :
    Settles (readAll peers read) peers length reply reads := by
  rcases readAll_cases hpeers read with ⟨value, hvalue, hall⟩ | ⟨p, hp, e, hbad, hall, hlower⟩
  · rw [hall]
    refine ⟨iff_of_true ⟨_, rfl⟩ fun p hp => (hread p hp).came (hvalue p hp), ?_, ?_,
      fun _ he => nomatch he⟩
    · rintro _ ⟨⟩
      exact keys_tabulate hpeers value
    · rintro _ ⟨⟩ p v hv
      rw [Table.get?_tabulate, Option.ite_none_right_eq_some, Option.some.injEq] at hv
      obtain ⟨hp, rfl⟩ := hv
      exact (hread p hp).exists_reads (hvalue p hp)
  · obtain ⟨hnot, hname⟩ := (hread p hp).blames hbad
    rw [hall]
    refine ⟨iff_of_false (fun ⟨_, ht⟩ => nomatch ht) fun hcame => hnot (hcame p hp),
      fun _ ht => (nomatch ht), fun _ ht => (nomatch ht), ?_⟩
    rintro _ ⟨⟩
    refine ⟨p, hp, hname, hnot, fun q hq hlt => ?_⟩
    obtain ⟨v, hv⟩ := hlower q hq hlt
    exact (hread q hq).came hv

/-- No message is awaited twice from different ranks. -/
theorem nodup_awaits {ranks : List Nat} (h : ranks.Pairwise (· < ·)) (tag : Tag) :
    (ranks.map (⟨·, tag⟩ : Nat → Awaited)).Nodup :=
  List.pairwise_map.2 (h.imp fun hlt he => Nat.ne_of_lt hlt (Awaited.mk.inj he).1)

/-- **A round with peers**, from how each message is read. -/
theorem conducts_of_run [Inhabited ν] {program : Protocol (Table Nat ν)} {box : List Delivery}
    {tag : Tag} {sends : List Outgoing} {awaited : List Nat} {length : Nat → Nat}
    {reads : Nat → Payload → ν → Prop}
    (settle : List (Option Payload) → Except Error (Table Nat ν)) (read : Nat → Except Error ν)
    (hrun : program.run = .round sends (awaited.map (⟨·, tag⟩)) fun replies => .done (settle replies))
    (hawaited : awaited.Pairwise (· < ·))
    (hsettle : settle (awaited.map fun p => arrival box ⟨p, tag⟩) = readAll awaited read)
    (hread : ∀ p ∈ awaited,
      Judged p (length p) (reads p) (arrival box ⟨p, tag⟩) (read p)) :
    Conducts program box tag sends awaited length reads := by
  have hnodup := nodup_awaits hawaited tag
  have hmem : ∀ a : Awaited,
      a ∈ awaited.map (⟨·, tag⟩ : Nat → Awaited) ↔ a.source ∈ awaited ∧ a.tag = tag := by
    rintro ⟨source, tag'⟩
    simp [eq_comm]
  have houtcome : (program.run.against box).1 = readAll awaited read := by
    rw [hrun, against_round, takeAll_fst hnodup, List.map_map]
    exact hsettle
  refine ⟨?_, ?_, fun a => ?_, ?_⟩
  · rw [hrun]
    exact List.append_nil _
  · rw [hrun]
    exact List.append_nil _
  · rw [hrun, against_round]
    show queued (takeAll box _).2 a = _
    simp only [queued_takeAll hnodup, hmem]
  · rw [houtcome]
    exact settles_readAll hawaited hread

/-! ### Gathering -/

/-- What stands for rank `p` in what rank `r` gathers. -/
def slot (box : List Delivery) (r : Nat) (own : Payload) (p : Nat) : Payload :=
  if p = r then own else fitTo own.length (arrival box ⟨p, gatherTag⟩)

theorem length_slot (box : List Delivery) (r : Nat) (own : Payload) (p : Nat) :
    (slot box r own p).length = own.length := by
  unfold slot fitTo
  split
  · rfl
  · simp only [List.length_append, List.length_take, List.length_replicate]
    omega

/-- **Gathering always succeeds**; what comes is cut or filled up with zeros. -/
theorem against_gather {n r : Nat} (hr : r < n) (box : List Delivery) (own : Payload) :
    ((gather (seat n r) own).run.against box).1 = .ok ((List.range n).flatMap (slot box r own)) := by
  by_cases hn : n = 1
  · subst hn
    obtain rfl : r = 0 := Nat.lt_one_iff.1 hr
    rw [gather_one hr]
    exact congrArg Except.ok (List.append_nil own).symm
  · have hslots : (takeAll box ((seat n r).peers.map (⟨·, gatherTag⟩))).1.map (fitTo own.length) =
        (seat n r).peers.map (slot box r own) := by
      rw [takeAll_fst (nodup_awaits (pairwise_peers hr) gatherTag), List.map_map, List.map_map]
      refine List.map_congr_left fun p hp => ?_
      rw [slot, if_neg ((mem_peers hr).1 hp).2]
      rfl
    have hflat := flatten_slots hr (slot box r own)
    rw [show slot box r own r = own from if_pos rfl] at hflat
    rw [gather_many hn hr]
    show Except.ok (assembled r own
      (takeAll box ((seat n r).peers.map (⟨·, gatherTag⟩))).1) = _
    rw [assembled, hslots, hflat]

/-! ### Sizes -/

/-- A number is read of a message of four bytes. -/
theorem judged_announced (p : Nat) (reply : Option Payload) :
    Judged p 4 (fun bytes n => n < 2 ^ 32 ∧ bytes = writeBytes 4 n) reply (announced p reply) := by
  cases reply with
  | none => exact .refused not_came_none rfl
  | some bytes =>
    by_cases hlength : bytes.length = 4
    · have hannounced : announced p (some bytes) = .ok (Record.decode bytes : Count).toNat :=
        if_pos hlength
      rw [hannounced]
      exact .read hlength ⟨UInt32.toNat_lt _,
        (CanonicalRecord.encode_decode (ρ := Count) bytes hlength).symm⟩
    · have hannounced : announced p (some bytes) = .error _ := if_neg hlength
      rw [hannounced]
      exact .refused (mt came_some_iff.1 hlength) rfl

/-- **The exchange of sizes**, whatever comes. -/
theorem conducts_exchangeSizes {peers : List Nat} (hpeers : peers.Pairwise (· < ·))
    (box : List Delivery) (tag : Tag) (counts : Table Nat Nat) :
    Conducts (exchangeSizes peers tag counts) box tag
      (peers.map fun p => ⟨p, tag, Record.encode (Count.ofNat ((counts.get? p).getD 0))⟩)
      peers (fun _ => 4) fun _ bytes n => n < 2 ^ 32 ∧ bytes = writeBytes 4 n :=
  conducts_of_run (fun replies => allAnnounced (peers.zip replies)) _ rfl hpeers
    (by rw [zip_map_self, allAnnounced_map]) fun p _ => judged_announced p _

/-! ### Records -/

section
variable {ρ : Type} [Record ρ] [CanonicalRecord ρ]

/-- Records are read of a message that has the bytes of as many as are due. -/
theorem judged_received (p count : Nat) (reply : Option Payload) :
    Judged p (count * Record.width ρ)
      (fun bytes (records : List ρ) => records.length = count ∧ Record.encodeAll records = bytes)
      reply (received p count reply) := by
  cases reply with
  | none => exact .refused not_came_none rfl
  | some bytes =>
    by_cases hlength : bytes.length = count * Record.width ρ
    · have hwhole : bytes.length % Record.width ρ = 0 := by rw [hlength, Nat.mul_mod_left]
      obtain ⟨records, hdecode, hencode⟩ := Record.encodeAll_decodeAll (ρ := ρ) hwhole
      have hreceived : received p count (some bytes) = .ok records := by
        simp only [received, dueBytes, hlength, if_true, hdecode]
      have hbytes := Record.length_encodeAll records
      rw [hencode, hlength] at hbytes
      rw [hreceived]
      exact .read hlength ⟨(Nat.eq_of_mul_eq_mul_right LawfulRecord.width_pos hbytes).symm, hencode⟩
    · have hreceived : (received p count (some bytes) : Except Error (List ρ)) = .error _ :=
        if_neg hlength
      rw [hreceived]
      exact .refused (mt came_some_iff.1 hlength) rfl

/-- The peers from which some records are expected. -/
def awaitedFrom (peers : List Nat) (expected : Table Nat Nat) : List Nat :=
  peers.filter fun p => (expected.get? p).getD 0 ≠ 0

/-- **The exchange of records**, whatever comes. -/
theorem conducts_exchangeRecords {peers : List Nat} (hpeers : peers.Pairwise (· < ·))
    (box : List Delivery) (tag : Tag) (outgoing : Table Nat (List ρ)) (expected : Table Nat Nat) :
    Conducts (exchangeRecords peers tag outgoing expected) box tag
      ((peers.filter fun p => !(listFor outgoing p).isEmpty).map fun p =>
        ⟨p, tag, Record.encodeAll (listFor outgoing p)⟩)
      (awaitedFrom peers expected)
      (fun p => (expected.get? p).getD 0 * Record.width ρ)
      fun p bytes records =>
        records.length = (expected.get? p).getD 0 ∧ Record.encodeAll records = bytes := by
  have hdue := dueFrom_eq peers expected
  refine conducts_of_run (fun replies => allReceived ((dueFrom peers expected).zip replies))
    (fun p => received p ((expected.get? p).getD 0) (arrival box ⟨p, tag⟩)) ?_ (hpeers.filter _) ?_
    fun p _ => judged_received p _ _
  · have hawaits : (dueFrom peers expected).map (fun d => (⟨d.1, tag⟩ : Awaited)) =
        (awaitedFrom peers expected).map (⟨·, tag⟩) := by
      rw [hdue, List.map_map]
      rfl
    have hsends := listMessages_eq peers tag outgoing
    unfold listFor
    rw [← hawaits, ← hsends]
    rfl
  · have hzip : ∀ ps : List Nat, ((ps.map fun p => (p, (expected.get? p).getD 0)).zip
        (ps.map fun p => arrival box ⟨p, tag⟩)) =
          ps.map fun p => ((p, (expected.get? p).getD 0), arrival box ⟨p, tag⟩) :=
      fun ps => List.zip_map' ..
    show allReceived ((dueFrom peers expected).zip _) = _
    rw [hdue, awaitedFrom, hzip, allReceived_map]

omit [CanonicalRecord ρ] in
/-- Where all that is due has room in memory, nothing else is checked beforehand. -/
theorem exchangeExpected_eq {peers : List Nat} (tag : Tag) (outgoing : Table Nat (List ρ))
    {expected : Table Nat Nat}
    (hroom : ∀ p ∈ peers, (expected.get? p).getD 0 * Record.width ρ < memoryBound) :
    exchangeExpected peers tag outgoing expected = exchangeRecords peers tag outgoing expected := by
  have hreserve : reserveDue ρ (dueFrom peers expected) = .ok () := by
    refine forM_eq_ok fun d hd => ?_
    rw [dueFrom_eq] at hd
    obtain ⟨p, hp, rfl⟩ := List.mem_map.1 hd
    exact (reserve_eq_ok_iff ..).2 (hroom p (List.mem_filter.1 hp).1)
  rw [exchangeExpected, hreserve]
  rfl

/-- **An exchange waits for all that is due and sends all that it has, whatever comes.**  For every
box of deliveries the following holds of an exchange with ascending peers.

* The exchange of sizes waits once for every peer, and sends every peer one number, in four bytes.
  The exchange of records waits once for every peer from which some are expected, and for no other,
  and sends every list that is meant for a peer and not empty, once.
* Each takes the first message from the queues that it waits for, and nothing from other queues.
* It succeeds just if all these messages came with the number of bytes that is due.  Then the result
  has the awaited peers as its keys, each with the number of which the bytes came, or with as many
  records as are expected, of which the bytes came.
* If it fails, the error is about the lowest peer whose message is bad.

No check goes before the exchange of records where what is due has room in memory, as it has with
fewer than 2³² records of at most 2³¹ bytes. -/
theorem exchanges_conduct {peers : List Nat} (hpeers : peers.Pairwise (· < ·))
    (box : List Delivery) (tag : Tag) {counts : Table Nat Nat}
    (hcounts : ∀ p ∈ peers, (counts.get? p).getD 0 < 2 ^ 32) (outgoing : Table Nat (List ρ))
    {expected : Table Nat Nat}
    (hroom : ∀ p ∈ peers, (expected.get? p).getD 0 * Record.width ρ < memoryBound) :
    Conducts (exchangeSizes peers tag counts) box tag
      (peers.map fun p => ⟨p, tag, writeBytes 4 ((counts.get? p).getD 0)⟩)
      peers (fun _ => 4) (fun _ bytes n => n < 2 ^ 32 ∧ bytes = writeBytes 4 n) ∧
    Conducts (exchangeRecords peers tag outgoing expected) box tag
      ((peers.filter fun p => !(listFor outgoing p).isEmpty).map fun p =>
        ⟨p, tag, Record.encodeAll (listFor outgoing p)⟩)
      (awaitedFrom peers expected)
      (fun p => (expected.get? p).getD 0 * Record.width ρ)
      (fun p bytes records =>
        records.length = (expected.get? p).getD 0 ∧ Record.encodeAll records = bytes) ∧
    exchangeExpected peers tag outgoing expected =
      exchangeRecords peers tag outgoing expected := by
  refine ⟨?_, conducts_exchangeRecords hpeers box tag outgoing expected,
    exchangeExpected_eq tag outgoing hroom⟩
  have hsizes := conducts_exchangeSizes hpeers box tag counts
  have hsends : (peers.map fun p => (⟨p, tag,
      Record.encode (Count.ofNat ((counts.get? p).getD 0))⟩ : Outgoing)) =
        peers.map fun p => ⟨p, tag, writeBytes 4 ((counts.get? p).getD 0)⟩ := by
    refine List.map_congr_left fun p hp => ?_
    have hcount : (Count.ofNat ((counts.get? p).getD 0)).toNat = (counts.get? p).getD 0 :=
      Count.toNat_ofNat_eq_iff.2 (hcounts p hp)
    show Outgoing.mk p tag (writeBytes 4 (Count.ofNat ((counts.get? p).getD 0)).toNat) = _
    rw [hcount]
  rwa [hsends] at hsizes

/-- Of three peers the second one sends too little and the third one nothing. -/
def gaps : List Delivery := [⟨4, 7, none⟩, ⟨2, 7, some [1, 2, 3]⟩, ⟨0, 7, some (writeBytes 8 5)⟩]

/-- One number is due from each of the peers, and something goes to two of them. -/
theorem exchanges_conduct_gaps :
    [0, 2, 4].Pairwise (· < ·) ∧
    (∀ p ∈ [0, 2, 4], ((Table.ofList [(0, 1), (4, 2)]).get? p).getD 0 < 2 ^ 32) ∧
    (∀ p ∈ [0, 2, 4], ((Table.ofList [(0, 1), (2, 1), (4, 1)]).get? p).getD 0 *
      Record.width GidRecord < memoryBound) ∧
    let records : Table Nat (List GidRecord) := Table.ofList [(0, [⟨9⟩]), (3, [⟨8⟩]), (4, [⟨6⟩, ⟨7⟩])]
    let due : Table Nat Nat := Table.ofList [(0, 1), (2, 1), (4, 1)]
    (exchangeRecords [0, 2, 4] 7 records due).run.waits gaps = [⟨0, 7⟩, ⟨2, 7⟩, ⟨4, 7⟩] ∧
    ((exchangeRecords [0, 2, 4] 7 records due).run.against gaps).1 =
      .error (.bufferSizeMismatch 2 8 3) := by
  have hpeers : [0, 2, 4].Pairwise (· < ·) := by decide
  have hcounts : ∀ p ∈ [0, 2, 4], ((Table.ofList [(0, 1), (4, 2)]).get? p).getD 0 < 2 ^ 32 := by
    decide
  have hroom : ∀ p ∈ [0, 2, 4], ((Table.ofList [(0, 1), (2, 1), (4, 1)]).get? p).getD 0 *
      Record.width GidRecord < memoryBound := by decide
  have hboth := exchanges_conduct (ρ := GidRecord) hpeers gaps 7 hcounts
    (Table.ofList [(0, [⟨9⟩]), (3, [⟨8⟩]), (4, [⟨6⟩, ⟨7⟩])]) hroom
  exact ⟨hpeers, hcounts, hroom, hboth.2.1.waits, rfl⟩

end

end World

end Unknowns
