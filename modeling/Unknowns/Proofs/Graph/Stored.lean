import Mathlib.Data.List.Pairwise
import Unknowns.Proofs.Graph.Relabel
import Unknowns.Proofs.Outcomes

/-!
# Which stored graphs are accepted

Any two lists can be stored as a graph.  Where the offsets begin with 0, do not
decrease and end with the number of entries, they cut the entries into rows and
leave nothing out (`Tiled`), so the graph is stored as its rows would be
(`Tiled.ofRows_rows`).

`Lists` says where an entry stands, in the lists as they are.  With it, what the
check accepts is said without the check (`check_eq_ok_iff`), and so is what counts as
valid (`validate_eq_ok_iff`).
-/

namespace Unknowns

namespace Csr

/-- Node `j` stands in row `i`. -/
def Lists (g : Csr) (i j : Nat) : Prop :=
  ∃ start stop k, g.offsets[i]? = some start ∧ g.offsets[i + 1]? = some stop ∧
    start ≤ k ∧ k < stop ∧ g.targets[k]? = some j

/-- The offsets cut the entries into rows, from the first entry to the last. -/
structure Tiled (g : Csr) : Prop where
  first : g.offsets.head? = some 0
  ascending : g.offsets.Pairwise (· ≤ ·)
  last : g.offsets.getLast? = some g.targets.length

/-- The rows are cut out well, all entries are nodes, and all but loops stand in both directions. -/
structure WellFormed (g : Csr) : Prop extends Tiled g where
  lt : ∀ j ∈ g.targets, j < g.numNodes
  symm : ∀ i j, i ≠ j → (g.Lists i j ↔ g.Lists j i)

/-! ### Rows that are cut out -/

theorem mem_take_drop_iff {xs : List Nat} {a b j : Nat} :
    j ∈ (xs.drop a).take (b - a) ↔ ∃ k, a ≤ k ∧ k < b ∧ xs[k]? = some j := by
  rw [List.mem_iff_getElem?]
  constructor
  · rintro ⟨k, hk⟩
    rw [List.getElem?_take, Option.ite_none_right_eq_some, List.getElem?_drop] at hk
    exact ⟨a + k, Nat.le_add_right .., by omega, hk.2⟩
  · rintro ⟨k, hak, hkb, hk⟩
    refine ⟨k - a, ?_⟩
    rw [List.getElem?_take, if_pos (by omega), List.getElem?_drop, Nat.add_sub_cancel' hak, hk]

/-- In a row that can be read stands what is read. -/
theorem lists_iff_of_row? {g : Csr} {i j : Nat} {row : List Nat} (h : g.row? i = some row) :
    g.Lists i j ↔ j ∈ row := by
  unfold row? at h
  obtain ⟨start, hstart, h⟩ := Option.bind_eq_some_iff.1 h
  obtain ⟨stop, hstop, h⟩ := Option.bind_eq_some_iff.1 h
  obtain ⟨-, hrow⟩ := Option.ite_none_right_eq_some.1 h
  obtain rfl := Option.some.inj hrow
  rw [mem_take_drop_iff, Lists]
  simp [hstart, hstop]

/-- Nothing stands in a row that is not there. -/
theorem lists_ofRows {rows : List (List Nat)} {i j : Nat} :
    (ofRows rows).Lists i j ↔ j ∈ rows.getD i [] := by
  rw [List.getD_eq_getElem?_getD]
  cases hrow : rows[i]? with
  | some row =>
    rw [Option.getD_some]
    exact lists_iff_of_row? ((row?_ofRows rows i).trans hrow)
  | none =>
    refine iff_of_false ?_ List.not_mem_nil
    rintro ⟨_, stop, _, -, hstop, -⟩
    obtain ⟨hlt, -⟩ := List.getElem?_eq_some_iff.1 hstop
    rw [ofRows, length_offsetsFrom] at hlt
    rw [List.getElem?_eq_none_iff] at hrow
    omega

/-- **Ascending offsets** from the place of the first entry to that behind the last are those of
some rows. -/
theorem exists_rows {start : Nat} {offsets targets : List Nat}
    (hascending : (start :: offsets).Pairwise (· ≤ ·))
    (hlast : (start :: offsets).getLast? = some (start + targets.length)) :
    ∃ rows, offsetsFrom start rows = start :: offsets ∧ rows.flatten = targets := by
  induction offsets generalizing start targets with
  | nil =>
    have hnil : targets = [] := List.length_eq_zero_iff.1 (by simpa using hlast)
    exact ⟨[], rfl, hnil.symm⟩
  | cons next offsets ih =>
    obtain ⟨hbelow, hrest⟩ := List.pairwise_cons.1 hascending
    rw [List.getLast?_cons_cons] at hlast
    have hnext : start ≤ next := hbelow next (List.mem_cons_self ..)
    have hend : next ≤ start + targets.length := by
      rcases List.mem_cons.1 (List.mem_of_getLast? hlast) with he | hmem
      · omega
      · exact (List.pairwise_cons.1 hrest).1 _ hmem
    have hlast' : (next :: offsets).getLast? = some (next + (targets.drop (next - start)).length) := by
      rw [hlast, List.length_drop]
      congr 1
      omega
    obtain ⟨rows, hoffsets, hflat⟩ := ih hrest hlast'
    refine ⟨targets.take (next - start) :: rows, ?_, ?_⟩
    · rw [offsetsFrom, List.length_take, Nat.min_eq_left (by omega), Nat.add_sub_cancel' hnext,
        hoffsets]
    · rw [List.flatten_cons, hflat, List.take_append_drop]

/-- **Where the rows are cut out well, the graph is stored as its rows are.** -/
theorem Tiled.ofRows_rows {g : Csr} (h : g.Tiled) : ofRows g.rows = g := by
  obtain ⟨offsets, targets⟩ := g
  cases offsets with
  | nil => cases h.first
  | cons start offsets =>
    obtain rfl : start = 0 := Option.some.inj h.first
    have hlast : (0 :: offsets).getLast? = some (0 + targets.length) := by
      rw [Nat.zero_add]
      exact h.last
    obtain ⟨rows, hoffsets, rfl⟩ := exists_rows h.ascending hlast
    have hrows : ofRows rows = ⟨0 :: offsets, rows.flatten⟩ := by rw [ofRows, hoffsets]
    rw [← hrows, Csr.rows_ofRows]

theorem pairwise_offsetsFrom (start : Nat) (rows : List (List Nat)) :
    (offsetsFrom start rows).Pairwise (· ≤ ·) ∧ ∀ x ∈ offsetsFrom start rows, start ≤ x := by
  induction rows generalizing start with
  | nil => simp [offsetsFrom]
  | cons row rest ih =>
    obtain ⟨hpairwise, hle⟩ := ih (start + row.length)
    have hbelow : ∀ x ∈ offsetsFrom (start + row.length) rest, start ≤ x := fun x hx =>
      Nat.le_trans (Nat.le_add_right ..) (hle x hx)
    exact ⟨List.pairwise_cons.2 ⟨hbelow, hpairwise⟩,
      List.forall_mem_cons.2 ⟨Nat.le_refl start, hbelow⟩⟩

theorem tiled_ofRows (rows : List (List Nat)) : (ofRows rows).Tiled where
  first := head?_offsetsFrom 0 rows
  ascending := (pairwise_offsetsFrom 0 rows).1
  last := by rw [ofRows, getLast?_offsetsFrom, Nat.zero_add]

theorem decreasingAt?_eq_none_iff {i : Nat} {offsets : List Nat} :
    decreasingAt? i offsets = none ↔ offsets.Pairwise (· ≤ ·) := by
  rw [← List.isChain_iff_pairwise]
  induction offsets generalizing i with
  | nil => simp [decreasingAt?]
  | cons a rest ih =>
    cases rest with
    | nil => simp [decreasingAt?]
    | cons b rest =>
      rw [decreasingAt?, List.isChain_cons_cons, ← ih (i := i + 1)]
      split
      · next h => simp [Nat.not_le.2 h]
      · next h => simp [Nat.not_lt.1 h]

/-! ### What is accepted -/

/-- Rows are well-formed when they are closed. -/
theorem wellFormed_ofRows_iff {rows : List (List Nat)} :
    (ofRows rows).WellFormed ↔ Closed rows := by
  constructor
  · intro h
    refine ⟨fun {i j} hj => ?_, fun {i j} hj hne => ?_⟩
    · have hlt := h.lt j ?_
      · rwa [numNodes_ofRows] at hlt
      · obtain ⟨_, _, k, -, -, -, -, hk⟩ := lists_ofRows.2 hj
        exact List.mem_of_getElem? hk
    · exact lists_ofRows.1 ((h.symm j i hne).2 (lists_ofRows.2 hj))
  · intro h
    refine ⟨tiled_ofRows rows, fun j hj => ?_, fun i j hne => ?_⟩
    · obtain ⟨row, hrow, hmem⟩ := List.mem_flatten.1 hj
      obtain ⟨i, hi⟩ := List.mem_iff_getElem?.1 hrow
      rw [numNodes_ofRows]
      refine h.lt (i := i) ?_
      rwa [List.getD_eq_getElem?_getD, hi]
    · rw [lists_ofRows, lists_ofRows]
      exact ⟨fun hj => h.symm hj hne.symm, fun hi => h.symm hi hne⟩

theorem tiled_of_check {g : Csr} (h : g.check = .ok ()) : g.Tiled := by
  unfold check at h
  split at h
  · next first last hfirst hlast =>
    split at h
    · cases h
    · next hzero =>
      split at h
      · cases h
      · next hend =>
        split at h
        · cases h
        · cases h
        · cases h
        · next hdecr _ _ =>
          obtain rfl := not_not.1 hzero
          obtain rfl := not_not.1 hend
          exact ⟨hfirst, decreasingAt?_eq_none_iff.1 hdecr, hlast⟩
  · cases h

/-- **What the check accepts.** -/
theorem check_eq_ok_iff {g : Csr} : g.check = .ok () ↔ g.WellFormed := by
  constructor
  · intro h
    have hrows := (tiled_of_check h).ofRows_rows
    rw [← hrows]
    exact wellFormed_ofRows_iff.2 (closed_of_check h)
  · intro h
    have hrows := h.toTiled.ofRows_rows
    rw [← hrows] at h ⊢
    exact (wellFormed_ofRows_iff.1 h).check

/-- **What is valid**: a graph that is accepted, with ascending rows without loops. -/
theorem validate_eq_ok_iff {g : Csr} :
    g.validate = .ok () ↔ ∃ rows, g = ofRows rows ∧ NormalRows rows := by
  constructor
  · intro h
    obtain ⟨_, hcheck, hrows⟩ := bind_eq_ok_iff.1 h
    refine ⟨g.rows, (tiled_of_check hcheck).ofRows_rows.symm, ?_⟩
    split at hrows
    · cases hrows
    · next hfind =>
      rw [List.find?_eq_none] at hfind
      have hnormal : ∀ i, normalRow i (g.rows.getD i []) = g.rows.getD i [] := by
        intro i
        rw [List.getD_eq_getElem?_getD]
        cases hi : g.rows[i]? with
        | none => rfl
        | some row => simpa using hfind (row, i) (List.mem_zipIdx_iff_getElem?.2 hi)
      have hclosed := (closed_of_check hcheck).normalRows
      rwa [normalRows_eq_self hnormal] at hclosed
  · rintro ⟨rows, rfl, h⟩
    exact h.validate

end Csr

end Unknowns
