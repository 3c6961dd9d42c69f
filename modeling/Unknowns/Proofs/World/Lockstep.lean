import Unknowns.Comm.World

/-!
# Programs that all ranks of a world run together

A round is *matched* if every pair of ranks passes at most one message in it and
every rank waits for exactly the messages meant for it (`World.Matched`).
`World.InStep n p a` says that the programs `p r` of the ranks `0, …, n - 1` go
through matched rounds only, all through the same number of them, and end with
the results `a r`.

* `InStep.bind`: what comes after a part may start from the results of the part,
  since the part leaves no message behind;
* `InStep.run_eq`: such programs, run in lock step from an empty mailbox, end with
  these results and leave no message behind;
* `eq_done_of_run`: where one rank ends before the others, these wait in vain.
-/

namespace Unknowns

namespace Mailbox

/-- Whether a letter is one that `rank` waits for. -/
def Matches (rank : Nat) (a : Awaited) (l : Letter) : Prop :=
  l.dest = rank ∧ l.source = a.source ∧ l.tag = a.tag

instance (rank : Nat) (a : Awaited) : DecidablePred (Matches rank a) := fun l =>
  inferInstanceAs (Decidable (l.dest = rank ∧ l.source = a.source ∧ l.tag = a.tag))

/-- At most one letter lies in the mailbox for each pair of ranks. -/
def Sparse (box : Mailbox) : Prop :=
  box.Pairwise fun l m => ¬(l.source = m.source ∧ l.dest = m.dest)

/-- **The only letter between two ranks is the one taken.** -/
theorem take?_eq_some {rank : Nat} {a : Awaited} {box : Mailbox} {l : Letter} (hbox : Sparse box)
    (hl : l ∈ box) (hm : Matches rank a l) :
    take? rank a box = some (l.payload, box.filter fun m => ¬ Matches rank a m) := by
  induction box with
  | nil => cases hl
  | cons d box ih =>
    have hd := List.pairwise_cons.1 hbox
    by_cases hmd : Matches rank a d
    · have hld : l = d := by
        rcases List.mem_cons.1 hl with rfl | hl
        · rfl
        · exact absurd ⟨hmd.2.1.trans hm.2.1.symm, hmd.1.trans hm.1.symm⟩ (hd.1 l hl)
      have hrest : box.filter (fun m => ¬ Matches rank a m) = box := by
        rw [List.filter_eq_self]
        intro m hmem
        rw [decide_eq_true_iff]
        exact fun h => hd.1 m hmem ⟨hmd.2.1.trans h.2.1.symm, hmd.1.trans h.1.symm⟩
      have hif : take? rank a (d :: box) = some (d.payload, box) := if_pos hmd
      rw [hif, List.filter_cons_of_neg (by simpa using hmd), hrest, hld]
    · have hl' : l ∈ box := by
        rcases List.mem_cons.1 hl with rfl | hl
        · exact absurd hm hmd
        · exact hl
      have hif : take? rank a (d :: box) = (take? rank a box).map fun r => (r.1, d :: r.2) :=
        if_neg hmd
      rw [hif, ih hd.2 hl', List.filter_cons_of_pos (by simpa using hmd)]
      rfl

theorem takeAll?_cons {rank : Nat} {a : Awaited} {awaits : List Awaited} {box box₁ box₂ : Mailbox}
    {m : Payload} {ms : List (Option Payload)} (h₁ : take? rank a box = some (m, box₁))
    (h₂ : takeAll? rank awaits box₁ = some (ms, box₂)) :
    takeAll? rank (a :: awaits) box = some (some m :: ms, box₂) := by
  simp [takeAll?, h₁, h₂]

/-- Awaited messages that all lie in the mailbox are taken in turn. -/
theorem takeAll?_eq_some {rank : Nat} {awaits : List Awaited} {box : Mailbox}
    {payload : Awaited → Payload} (hbox : Sparse box) (hne : awaits.Nodup)
    (h : ∀ a ∈ awaits, (⟨a.source, rank, a.tag, payload a⟩ : Letter) ∈ box) :
    takeAll? rank awaits box = some (awaits.map fun a => some (payload a),
      box.filter fun l => ∀ a ∈ awaits, ¬ Matches rank a l) := by
  induction awaits generalizing box with
  | nil =>
    have hall : (box.filter fun l => ∀ a ∈ ([] : List Awaited), ¬ Matches rank a l) = box := by
      simp
    rw [hall]
    rfl
  | cons a awaits ih =>
    have ha := List.nodup_cons.1 hne
    have hfirst := take?_eq_some hbox (h a (List.mem_cons_self ..)) ⟨rfl, rfl, rfl⟩
    have hrest : ∀ b ∈ awaits, (⟨b.source, rank, b.tag, payload b⟩ : Letter) ∈
        box.filter fun l => ¬ Matches rank a l := by
      intro b hb
      refine List.mem_filter.2 ⟨h b (List.mem_cons_of_mem _ hb), decide_eq_true fun hab => ?_⟩
      have hba : b = a := by
        cases a; cases b
        exact (Awaited.mk.injEq ..).mpr ⟨hab.2.1, hab.2.2⟩
      exact ha.1 (hba ▸ hb)
    have hothers := ih (hbox.sublist List.filter_sublist) ha.2 hrest
    have hbox' : ((box.filter fun l => ¬ Matches rank a l).filter fun l =>
        ∀ b ∈ awaits, ¬ Matches rank b l) =
          box.filter fun l => ∀ b ∈ a :: awaits, ¬ Matches rank b l := by
      rw [List.filter_filter]
      refine List.filter_congr fun l _ => ?_
      simp [Bool.and_comm]
    rw [takeAll?_cons hfirst hothers, hbox', List.map_cons]

end Mailbox

namespace World

variable {α β : Type}

/-! ### One round -/

/-- The letters that `n` ranks send when rank `r` sends `sends r`. -/
def letters (n : Nat) (sends : Nat → List Outgoing) : Mailbox :=
  (List.range n).flatMap fun r => (sends r).map fun s => ⟨r, s.dest, s.tag, s.payload⟩

theorem postAll_rounds (k m : Nat) (box : Mailbox) (sends : Nat → List Outgoing)
    (awaits : Nat → List Awaited) (next : Nat → List (Option Payload) → Rounds α) :
    postAll k box ((List.range' k m).map fun r => .round (sends r) (awaits r) (next r)) =
      box ++ (List.range' k m).flatMap fun r =>
        (sends r).map fun s => ⟨r, s.dest, s.tag, s.payload⟩ := by
  induction m generalizing k box with
  | zero => exact (List.append_nil box).symm
  | succ m ih =>
    rw [List.range'_succ, List.map_cons, List.flatMap_cons, postAll, ih, Mailbox.post,
      List.append_assoc]

/-- Ranks that each take their letters in turn take all letters. -/
theorem advanceAll?_rounds (k m : Nat) (box : Mailbox) (sends : Nat → List Outgoing)
    (awaits : Nat → List Awaited) (next : Nat → List (Option Payload) → Rounds α)
    (replies : Nat → List (Option Payload))
    (h : ∀ r, k ≤ r → r < k + m → Mailbox.takeAll? r (awaits r) (box.filter (r ≤ ·.dest)) =
      some (replies r, box.filter (r + 1 ≤ ·.dest))) :
    advanceAll? k (box.filter (k ≤ ·.dest))
        ((List.range' k m).map fun r => .round (sends r) (awaits r) (next r)) =
      some ((List.range' k m).map fun r => next r (replies r), box.filter (k + m ≤ ·.dest)) := by
  induction m generalizing k with
  | zero => rfl
  | succ m ih =>
    have hk := h k (Nat.le_refl k) (by omega)
    have hrest := ih (k + 1) fun r hr hm => h r (by omega) (by omega)
    rw [List.range'_succ, List.map_cons, advanceAll?, hk]
    simp only [Option.bind_eq_bind, Option.bind_some, hrest, List.map_cons, Nat.add_assoc,
      Nat.add_comm 1 m]

/-- Every message that is sent is awaited at its destination, everything awaited is sent, and no two
messages of a rank go to the same destination. -/
structure Matched (n : Nat) (sends : Nat → List Outgoing) (awaits : Nat → List Awaited)
    (payload : Nat → Awaited → Payload) : Prop where
  dests : ∀ s < n, (sends s).Pairwise fun o₁ o₂ => o₁.dest ≠ o₂.dest
  nodup : ∀ r < n, (awaits r).Nodup
  sent : ∀ r < n, ∀ a ∈ awaits r, a.source < n ∧ ⟨r, a.tag, payload r a⟩ ∈ sends a.source
  awaited : ∀ s < n, ∀ o ∈ sends s, o.dest < n ∧ ⟨s, o.tag⟩ ∈ awaits o.dest

namespace Matched

variable {n : Nat} {sends : Nat → List Outgoing} {awaits : Nat → List Awaited}
  {payload : Nat → Awaited → Payload}

theorem mem_letters {l : Letter} :
    l ∈ letters n sends ↔ l.source < n ∧ ⟨l.dest, l.tag, l.payload⟩ ∈ sends l.source := by
  obtain ⟨source, dest, tag, bytes⟩ := l
  simp only [letters, List.mem_flatMap, List.mem_range, List.mem_map, Letter.mk.injEq]
  constructor
  · rintro ⟨r, hr, o, ho, rfl, rfl, rfl, rfl⟩
    exact ⟨hr, ho⟩
  · rintro ⟨hr, ho⟩
    exact ⟨source, hr, _, ho, rfl, rfl, rfl, rfl⟩

theorem sparse_letters (h : Matched n sends awaits payload) : (letters n sends).Sparse := by
  refine List.pairwise_flatMap.2 ⟨fun s hs => ?_, ?_⟩
  · rw [List.pairwise_map]
    exact (h.dests s (List.mem_range.1 hs)).imp fun hne he => hne he.2
  · refine List.pairwise_lt_range.imp fun {s t} hst l hl m hm => ?_
    obtain ⟨_, _, rfl⟩ := List.mem_map.1 hl
    obtain ⟨_, _, rfl⟩ := List.mem_map.1 hm
    exact fun he => Nat.ne_of_lt hst he.1

/-- A rank takes its letters and leaves those of the other ranks. -/
theorem takeAll?_letters (h : Matched n sends awaits payload) {r : Nat} (hr : r < n) :
    Mailbox.takeAll? r (awaits r) ((letters n sends).filter (r ≤ ·.dest)) =
      some ((awaits r).map fun a => some (payload r a),
        (letters n sends).filter (r + 1 ≤ ·.dest)) := by
  have hmem : ∀ a ∈ awaits r, (⟨a.source, r, a.tag, payload r a⟩ : Letter) ∈
      (letters n sends).filter (r ≤ ·.dest) := fun a ha =>
    List.mem_filter.2 ⟨mem_letters.2 (h.sent r hr a ha), decide_eq_true (Nat.le_refl r)⟩
  have hleft : ((letters n sends).filter (r ≤ ·.dest)).filter
      (fun l => ∀ a ∈ awaits r, ¬ Mailbox.Matches r a l) =
        (letters n sends).filter (r + 1 ≤ ·.dest) := by
    rw [List.filter_filter]
    refine List.filter_congr fun l hl => ?_
    have hl := mem_letters.1 hl
    have ha := (h.awaited l.source hl.1 _ hl.2).2
    by_cases hd : l.dest = r
    · have hm : Mailbox.Matches r ⟨l.source, l.tag⟩ l := ⟨hd, rfl, rfl⟩
      have hno : ¬ ∀ a ∈ awaits r, ¬ Mailbox.Matches r a l := fun hall =>
        hall ⟨l.source, l.tag⟩ (hd ▸ ha) hm
      simp [hd, hno]
    · have hall : ∀ a ∈ awaits r, ¬ Mailbox.Matches r a l := fun a _ hm => hd hm.1
      rw [decide_eq_true hall, Bool.true_and]
      exact decide_eq_decide.2 (by omega)
  rw [Mailbox.takeAll?_eq_some (h.sparse_letters.sublist List.filter_sublist) (h.nodup r hr) hmem,
    hleft]

/-- **In a matched round every rank gets what it waits for, and nothing is left.** -/
theorem runFrom_round (h : Matched (n + 1) sends awaits payload)
    (next : Nat → List (Option Payload) → Rounds α) :
    run [] ((List.range (n + 1)).map fun r => .round (sends r) (awaits r) (next r)) =
      run [] ((List.range (n + 1)).map fun r =>
        next r ((awaits r).map fun a => some (payload r a))) := by
  have hpost := postAll_rounds 1 n (Mailbox.post [] 0 (sends 0)) sends awaits next
  have hbox : Mailbox.post [] 0 (sends 0) ++ ((List.range' 1 n).flatMap fun r =>
      (sends r).map fun s => ⟨r, s.dest, s.tag, s.payload⟩) = letters (n + 1) sends := by
    rw [letters, List.range_eq_range', List.range'_succ, List.flatMap_cons]
    rfl
  have hfirst := h.takeAll?_letters (Nat.succ_pos n)
  have hothers := advanceAll?_rounds 1 n (letters (n + 1) sends) sends awaits next _
    fun r _ hr => h.takeAll?_letters (by omega : r < n + 1)
  have hall : (letters (n + 1) sends).filter (0 ≤ ·.dest) = letters (n + 1) sends := by simp
  have hnone : (letters (n + 1) sends).filter (1 + n ≤ ·.dest) = [] := by
    rw [List.filter_eq_nil_iff]
    intro l hl
    have hl := mem_letters.1 hl
    have hd : l.dest < n + 1 := (h.awaited l.source hl.1 _ hl.2).1
    simp only [decide_eq_true_eq]
    omega
  rw [hbox] at hpost
  rw [hall] at hfirst
  rw [hnone] at hothers
  rw [List.range_eq_range', List.range'_succ, List.map_cons, List.map_cons]
  simp only [run, runFrom, Nat.zero_add]
  rw [hpost, hfirst, Option.bind_eq_bind, Option.bind_some]
  simp only [Nat.zero_add, hothers, Option.bind_eq_bind, Option.bind_some]

end Matched

/-! ### Round after round -/

/-- The programs `p r` of the ranks below `n` go through matched rounds only and end together, with
the results `a r`. -/
inductive InStep (n : Nat) : (Nat → Rounds α) → (Nat → α) → Prop
  | done {p : Nat → Rounds α} {a : Nat → α} (hp : ∀ r < n, p r = .done (a r)) : InStep n p a
  | round {p : Nat → Rounds α} {sends : Nat → List Outgoing} {awaits : Nat → List Awaited}
      {payload : Nat → Awaited → Payload} {next : Nat → List (Option Payload) → Rounds α}
      {a : Nat → α} (hp : ∀ r < n, p r = .round (sends r) (awaits r) (next r))
      (hm : Matched n sends awaits payload)
      (h : InStep n (fun r => next r ((awaits r).map fun x => some (payload r x))) a) : InStep n p a

namespace InStep

variable {n : Nat}

theorem congr {p q : Nat → Rounds α} {a b : Nat → α} (h : InStep n p a)
    (hp : ∀ r < n, q r = p r) (ha : ∀ r < n, b r = a r) : InStep n q b := by
  induction h generalizing q b with
  | done hd => exact .done fun r hr => by rw [hp r hr, hd r hr, ha r hr]
  | round hr hm _ ih =>
    exact .round (fun r hn => (hp r hn).trans (hr r hn)) hm (ih (fun _ _ => rfl) ha)

/-- **What a part leads to is what the rest makes of its results.** -/
theorem bind {p : Nat → Rounds α} {a : Nat → α} {f : Nat → α → Rounds β} {b : Nat → β}
    (h : InStep n p a) (hf : InStep n (fun r => f r (a r)) b) :
    InStep n (fun r => (p r).bind (f r)) b := by
  induction h with
  | done hd => exact hf.congr (fun r hr => by rw [hd r hr, Rounds.bind]) fun _ _ => rfl
  | round hr hm _ ih => exact .round (fun r hn => by rw [hr r hn, Rounds.bind]) hm (ih hf)

theorem exchange {sends : Nat → List Outgoing} {awaits : Nat → List Awaited}
    {payload : Nat → Awaited → Payload} (h : Matched n sends awaits payload) :
    InStep n (fun r => Rounds.exchange (sends r) (awaits r))
      (fun r => (awaits r).map fun a => some (payload r a)) :=
  .round (fun _ _ => rfl) h (.done fun _ _ => rfl)

theorem results?_map_done (as : List α) : results? (as.map .done) = some as := by
  induction as with
  | nil => rfl
  | cons a as ih => simp [results?, ih]

theorem run_done (as : List α) : run [] (as.map .done) = some (as, []) := by
  cases as with
  | nil => rfl
  | cons a as => simp [run, runFrom, results?_map_done]

/-- **Programs that go in step run in lock step to their results and leave no message behind.** -/
theorem run_eq {p : Nat → Rounds α} {a : Nat → α} (h : InStep n p a) :
    run [] ((List.range n).map p) = some ((List.range n).map a, []) := by
  cases n with
  | zero => rfl
  | succ n =>
    induction h with
    | @done p a hd =>
      have hp : (List.range (n + 1)).map p = ((List.range (n + 1)).map a).map .done := by
        rw [List.map_map]
        exact List.map_congr_left fun r hr => hd r (List.mem_range.1 hr)
      rw [hp, run_done]
    | @round p sends awaits payload next a hr hm _ ih =>
      have hp : (List.range (n + 1)).map p =
          (List.range (n + 1)).map fun r => .round (sends r) (awaits r) (next r) :=
        List.map_congr_left fun r hn => hr r (List.mem_range.1 hn)
      rw [hp, hm.runFrom_round, ih]

end InStep

/-! ### Programs that end before others -/

theorem eq_done_of_results? {ps : List (Rounds α)} {as : List α} (h : results? ps = some as) :
    ps = as.map .done := by
  induction ps generalizing as with
  | nil =>
    obtain rfl : [] = as := Option.some.inj h
    rfl
  | cons p ps ih =>
    cases p with
    | done a =>
      obtain ⟨as, has, rfl⟩ := Option.map_eq_some_iff.1 h
      rw [ih has, List.map_cons]
    | round sends awaits next => cases h

/-- Ranks do not go on where one of them has ended. -/
theorem advanceAll?_eq_none {ps : List (Rounds α)} {a : α} (ha : .done a ∈ ps) (k : Nat)
    (box : Mailbox) : advanceAll? k box ps = none := by
  induction ps generalizing k box with
  | nil => cases ha
  | cons p ps ih =>
    cases p with
    | done => rfl
    | round sends awaits next =>
      have hrest : .done a ∈ ps := (List.mem_cons.1 ha).resolve_left nofun
      rw [advanceAll?]
      cases Mailbox.takeAll? k awaits box with
      | none => rfl
      | some taken => simp only [Option.bind_eq_bind, Option.bind_some, ih hrest, Option.bind_none]

/-- **A world of which one rank has ended comes to an end only if all have.** -/
theorem eq_done_of_run {box box' : Mailbox} {ps : List (Rounds α)} {as : List α} {a : α}
    (h : run box ps = some (as, box')) (ha : .done a ∈ ps) : ps = as.map .done := by
  match ps with
  | [] => cases ha
  | .done b :: others =>
    obtain ⟨bs, hbs, heq⟩ := Option.map_eq_some_iff.1 h
    obtain ⟨rfl, rfl⟩ := Prod.mk.inj heq
    rw [eq_done_of_results? hbs, List.map_cons]
  | .round sends awaits next :: others =>
    have hothers : .done a ∈ others := (List.mem_cons.1 ha).resolve_left nofun
    simp only [run, runFrom, advanceAll?_eq_none hothers, Option.bind_eq_bind, Option.bind_none,
      Option.bind_fun_none] at h
    cases h

end World

end Unknowns
