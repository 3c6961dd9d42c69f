import Mathlib.Algebra.BigOperators.Fin
import Mathlib.Data.Finset.Dedup
import Unknowns.Graph.Csr
import Unknowns.Proofs.Graph.Elimination

/-!
# The rows of a sparse graph

What is compressed from a list of rows has these rows again (`row?_ofRows`,
`rows_ofRows`), so that all checks of such a graph are about its rows alone.  The
rows of a checked graph are within range and symmetric (`closed_of_check`); made
normal they are `NormalRows`, and a graph with normal rows is valid
(`NormalRows.validate`) and stays as it is when it is normalised
(`NormalRows.normalise`).
-/

namespace Unknowns

namespace Csr

/-! ### Offsets -/

theorem length_offsetsFrom (start : Nat) (rows : List (List Nat)) :
    (offsetsFrom start rows).length = rows.length + 1 := by
  induction rows generalizing start with
  | nil => rfl
  | cons row rest ih => rw [offsetsFrom, List.length_cons, ih, List.length_cons]

/-- Row `i` begins behind all entries of the rows before it. -/
theorem getElem?_offsetsFrom (start : Nat) {rows : List (List Nat)} {i : Nat}
    (hi : i ≤ rows.length) :
    (offsetsFrom start rows)[i]? = some (start + (rows.take i).flatten.length) := by
  induction rows generalizing start i with
  | nil =>
    obtain rfl : i = 0 := Nat.le_zero.1 hi
    rfl
  | cons row rest ih =>
    cases i with
    | zero => rfl
    | succ i =>
      rw [offsetsFrom, List.getElem?_cons_succ, ih _ (Nat.le_of_succ_le_succ hi), List.take_succ_cons,
        List.flatten_cons, List.length_append, Nat.add_assoc]

theorem head?_offsetsFrom (start : Nat) (rows : List (List Nat)) :
    (offsetsFrom start rows).head? = some start := by
  cases rows <;> rfl

theorem getLast?_offsetsFrom (start : Nat) (rows : List (List Nat)) :
    (offsetsFrom start rows).getLast? = some (start + rows.flatten.length) := by
  rw [List.getLast?_eq_getElem?, length_offsetsFrom, Nat.add_sub_cancel,
    getElem?_offsetsFrom start (Nat.le_refl _), List.take_length]

theorem decreasingAt?_offsetsFrom (i start : Nat) (rows : List (List Nat)) :
    decreasingAt? i (offsetsFrom start rows) = none := by
  induction rows generalizing i start with
  | nil => rfl
  | cons row rest ih =>
    have hrest := ih (i + 1) (start + row.length)
    cases rest with
    | nil =>
      rw [offsetsFrom, offsetsFrom, decreasingAt?, if_neg (by omega)]
      exact hrest
    | cons row' rest =>
      rw [offsetsFrom, offsetsFrom, decreasingAt?, if_neg (by omega)]
      exact hrest

/-! ### Rows -/

@[simp] theorem numNodes_ofRows (rows : List (List Nat)) : (ofRows rows).numNodes = rows.length := by
  rw [numNodes, ofRows, length_offsetsFrom, Nat.add_sub_cancel]

@[simp] theorem length_rows (g : Csr) : g.rows.length = g.numNodes := by
  rw [rows, List.length_map, List.length_range]

/-- **Compressed rows can be read back.** -/
theorem row?_ofRows (rows : List (List Nat)) (i : Nat) : (ofRows rows).row? i = rows[i]? := by
  by_cases hi : i < rows.length
  · have hsplit : rows = rows.take i ++ rows[i] :: rows.drop (i + 1) := by
      rw [← List.drop_eq_getElem_cons hi, List.take_append_drop]
    have hflat : rows.flatten =
        (rows.take i).flatten ++ (rows[i] ++ (rows.drop (i + 1)).flatten) := by
      conv_lhs => rw [hsplit]
      rw [List.flatten_append, List.flatten_cons]
    have hend : (rows.take (i + 1)).flatten.length =
        (rows.take i).flatten.length + rows[i].length := by
      rw [← List.take_append_getElem hi, List.flatten_append, List.length_append,
        List.flatten_singleton]
    have hfrom : (ofRows rows).offsets[i]? = some (rows.take i).flatten.length := by
      rw [ofRows, getElem?_offsetsFrom 0 (Nat.le_of_lt hi), Nat.zero_add]
    have hto : (ofRows rows).offsets[i + 1]? =
        some ((rows.take i).flatten.length + rows[i].length) := by
      rw [ofRows, getElem?_offsetsFrom 0 hi, Nat.zero_add, hend]
    have hbound : (rows.take i).flatten.length + rows[i].length ≤ rows.flatten.length := by
      rw [hflat, List.length_append, List.length_append]
      omega
    have hcut : (rows.flatten.drop (rows.take i).flatten.length).take rows[i].length = rows[i] := by
      rw [hflat, List.drop_left, List.take_left]
    rw [row?, hfrom, hto, List.getElem?_eq_getElem hi]
    show (if _ ∧ _ then some _ else none) = _
    rw [if_pos ⟨Nat.le_add_right .., hbound⟩, Nat.add_sub_cancel_left]
    exact congrArg some hcut
  · have hto : (ofRows rows).offsets[i + 1]? = none := by
      rw [List.getElem?_eq_none_iff, ofRows, length_offsetsFrom]
      omega
    rw [row?, hto, List.getElem?_eq_none (Nat.le_of_not_lt hi)]
    cases (ofRows rows).offsets[i]? <;> rfl

@[simp] theorem rows_ofRows (rows : List (List Nat)) : (ofRows rows).rows = rows := by
  refine List.ext_getElem? fun i => ?_
  rw [Csr.rows, numNodes_ofRows, List.getElem?_map]
  by_cases hi : i < rows.length
  · rw [List.getElem?_range hi, Option.map_some, row?_ofRows, List.getElem?_eq_getElem hi,
      Option.getD_some]
  · rw [List.getElem?_eq_none (by rwa [List.length_range, ← Nat.not_lt]),
      List.getElem?_eq_none (Nat.le_of_not_lt hi), Option.map_none]

/-- The neighbours of each node. -/
def adjacency (g : Csr) : Adjacency := fun i => ((g.row? i).getD []).toFinset

theorem mem_adjacency_ofRows {rows : List (List Nat)} {i j : Nat} :
    j ∈ (ofRows rows).adjacency i ↔ j ∈ rows.getD i [] := by
  rw [adjacency, List.mem_toFinset, row?_ofRows, List.getD_eq_getElem?_getD]

/-! ### Checked graphs -/

/-- The entries of all rows, with the places of their rows. -/
theorem forall_mem_zipIdx_iff {rows : List (List Nat)} {P : Nat → Nat → Prop} :
    (∀ r ∈ rows.zipIdx, ∀ j ∈ r.1, P r.2 j) ↔ ∀ i, ∀ j ∈ rows.getD i [], P i j := by
  constructor
  · intro h i j hj
    rw [List.getD_eq_getElem?_getD] at hj
    cases hi : rows[i]? with
    | none =>
      rw [hi] at hj
      cases hj
    | some row =>
      rw [hi] at hj
      exact h (row, i) (List.mem_zipIdx_iff_getElem?.2 hi) j hj
  · intro h r hr j hj
    have hi : rows[r.2]? = some r.1 := List.mem_zipIdx_iff_getElem?.1 hr
    refine h r.2 j ?_
    rwa [List.getD_eq_getElem?_getD, hi]

theorem firstStray?_eq_none_iff {n : Nat} {rows : List (List Nat)} :
    firstStray? n rows = none ↔ ∀ i, ∀ j ∈ rows.getD i [], j < n := by
  simp only [firstStray?, List.findSome?_eq_none_iff, Option.map_eq_none_iff, List.find?_eq_none,
    decide_eq_true_iff, Nat.not_le]
  exact forall_mem_zipIdx_iff (P := fun _ j => j < n)

theorem firstOneWay?_eq_none_iff {rows : List (List Nat)} :
    firstOneWay? rows = none ↔ ∀ i, ∀ j ∈ rows.getD i [], j ≠ i → i ∈ rows.getD j [] := by
  simp only [firstOneWay?, List.findSome?_eq_none_iff, Option.map_eq_none_iff, List.find?_eq_none,
    decide_eq_true_iff, mem_ascending, ← List.getD_eq_getElem?_getD, not_and, not_not]
  exact forall_mem_zipIdx_iff (P := fun i j => j ≠ i → i ∈ rows.getD j [])

/-- Rows of nodes that have a row, with every entry but loops in both directions. -/
structure Closed (rows : List (List Nat)) : Prop where
  lt : ∀ {i j}, j ∈ rows.getD i [] → j < rows.length
  symm : ∀ {i j}, j ∈ rows.getD i [] → j ≠ i → i ∈ rows.getD j []

/-- **A check that succeeds** has found all entries in range and in both directions. -/
theorem closed_of_check {g : Csr} (h : g.check = .ok ()) : Closed g.rows := by
  unfold check at h
  split at h
  · split at h
    · cases h
    · split at h
      · cases h
      · split at h
        · cases h
        · cases h
        · cases h
        · next hdecr hstray honeway =>
          refine ⟨fun {i j} hj => ?_, fun {i j} hj hne => firstOneWay?_eq_none_iff.1 honeway i j hj hne⟩
          rw [length_rows]
          exact firstStray?_eq_none_iff.1 hstray i j hj
  · cases h

/-- **Closed rows pass the check.** -/
theorem Closed.check {rows : List (List Nat)} (h : Closed rows) : (ofRows rows).check = .ok () := by
  have hstray : firstStray? (ofRows rows).numNodes (ofRows rows).rows = none := by
    rw [numNodes_ofRows, rows_ofRows]
    exact firstStray?_eq_none_iff.2 fun i j hj => h.lt hj
  have honeway : firstOneWay? (ofRows rows).rows = none := by
    rw [rows_ofRows]
    exact firstOneWay?_eq_none_iff.2 fun i j hj hne => h.symm hj hne
  have hfirst : (ofRows rows).offsets.head? = some 0 := head?_offsetsFrom 0 rows
  have hlast : (ofRows rows).offsets.getLast? = some (ofRows rows).targets.length := by
    rw [ofRows, getLast?_offsetsFrom, Nat.zero_add]
  have hdecr : decreasingAt? 0 (ofRows rows).offsets = none := decreasingAt?_offsetsFrom 0 0 rows
  rw [Csr.check, hfirst, hlast]
  show (if 0 ≠ 0 then _ else if _ then _ else _) = _
  rw [if_neg (by simp), if_neg (by simp), hdecr, hstray, honeway]

/-! ### Normal rows -/

theorem mem_normalRow {i j : Nat} {row : List Nat} : j ∈ normalRow i row ↔ j ∈ row ∧ j ≠ i := by
  simp only [normalRow, List.mem_filter, mem_ascending, decide_eq_true_iff]

theorem pairwise_normalRow (i : Nat) (row : List Nat) : (normalRow i row).Pairwise Before :=
  (pairwise_ascending row).filter _

theorem normalRow_eq_self {i : Nat} {row : List Nat} (h : row.Pairwise Before) (hi : i ∉ row) :
    normalRow i row = row := by
  rw [normalRow, ascending_eq_self h, List.filter_eq_self]
  exact fun j hj => decide_eq_true fun he => hi (he ▸ hj)

@[simp] theorem length_normalRows (i : Nat) (rows : List (List Nat)) :
    (normalRows i rows).length = rows.length := by
  induction rows generalizing i with
  | nil => rfl
  | cons row rest ih => rw [normalRows, List.length_cons, ih, List.length_cons]

theorem getElem?_normalRows (i : Nat) (rows : List (List Nat)) (k : Nat) :
    (normalRows i rows)[k]? = rows[k]?.map (normalRow (i + k)) := by
  induction rows generalizing i k with
  | nil => rfl
  | cons row rest ih =>
    cases k with
    | zero => rfl
    | succ k =>
      rw [normalRows, List.getElem?_cons_succ, List.getElem?_cons_succ, ih]
      congr 2
      omega

theorem getD_normalRows (rows : List (List Nat)) (k : Nat) :
    (normalRows 0 rows).getD k [] = normalRow k (rows.getD k []) := by
  rw [List.getD_eq_getElem?_getD, getElem?_normalRows, Nat.zero_add, List.getD_eq_getElem?_getD]
  cases rows[k]? <;> rfl

/-- Rows that are normal one by one stay as they are. -/
theorem normalRows_eq_self {rows : List (List Nat)}
    (h : ∀ i, normalRow i (rows.getD i []) = rows.getD i []) : normalRows 0 rows = rows := by
  refine List.ext_getElem? fun i => ?_
  have hrow := h i
  rw [getElem?_normalRows, Nat.zero_add]
  rw [List.getD_eq_getElem?_getD] at hrow
  cases hi : rows[i]? with
  | none => rfl
  | some row =>
    rw [hi] at hrow
    exact congrArg some hrow

theorem normalise_of_check {g : Csr} (h : g.check = .ok ()) :
    g.normalise = .ok (ofRows (normalRows 0 g.rows)) := by
  rw [normalise, h]
  rfl

theorem normalise_of_check_error {g : Csr} {e : Error} (h : g.check = .error e) :
    g.normalise = .error e := by
  rw [normalise, h]
  rfl

/-- Rows that are ascending and without loops, of nodes that have a row, with every entry in both
directions. -/
structure NormalRows (rows : List (List Nat)) : Prop where
  ascending : ∀ i, (rows.getD i []).Pairwise Before
  lt : ∀ {i j}, j ∈ rows.getD i [] → j < rows.length
  loopless : ∀ i, i ∉ rows.getD i []
  symm : ∀ {i j}, j ∈ rows.getD i [] → i ∈ rows.getD j []

/-- **Closed rows can be made normal.** -/
theorem Closed.normalRows {rows : List (List Nat)} (h : Closed rows) :
    NormalRows (normalRows 0 rows) where
  ascending i := by
    rw [getD_normalRows]
    exact pairwise_normalRow i _
  lt {i j} hj := by
    rw [getD_normalRows, mem_normalRow] at hj
    rw [length_normalRows]
    exact h.lt hj.1
  loopless i hi := by
    rw [getD_normalRows, mem_normalRow] at hi
    exact hi.2 rfl
  symm {i j} hj := by
    rw [getD_normalRows, mem_normalRow] at hj ⊢
    exact ⟨h.symm hj.1 hj.2, hj.2.symm⟩

namespace NormalRows

variable {rows : List (List Nat)} (h : NormalRows rows)
include h

theorem closed : Closed rows := ⟨h.lt, fun hj _ => h.symm hj⟩

theorem undirected : (ofRows rows).adjacency.Undirected where
  loopless u hu := h.loopless u (mem_adjacency_ofRows.1 hu)
  symm hv := mem_adjacency_ofRows.2 (h.symm (mem_adjacency_ofRows.1 hv))

/-- **Every edge is stored twice.** -/
theorem sum_card_adjacency :
    ∑ u ∈ Finset.range rows.length, ((ofRows rows).adjacency u).card =
      (ofRows rows).targets.length := by
  have hcard : ∀ u : Fin rows.length,
      ((ofRows rows).adjacency u).card = (rows[(u : Nat)]).length := by
    intro u
    have hrow : ((ofRows rows).row? u).getD [] = rows.getD u [] := by
      rw [row?_ofRows, List.getD_eq_getElem?_getD]
    rw [adjacency, hrow, List.toFinset_card_of_nodup (nodup_of_pairwise (h.ascending u)),
      List.getD_eq_getElem?_getD, List.getElem?_eq_getElem u.isLt, Option.getD_some]
  rw [Finset.sum_range, Finset.sum_congr rfl fun u _ => hcard u,
    Fin.sum_univ_fun_getElem rows List.length, ofRows, List.length_flatten]

theorem normalRow_getD (i : Nat) : normalRow i (rows.getD i []) = rows.getD i [] :=
  normalRow_eq_self (h.ascending i) (h.loopless i)

theorem normalRows_eq : normalRows 0 rows = rows := normalRows_eq_self h.normalRow_getD

/-- **A graph with normal rows is valid.** -/
theorem validate : (ofRows rows).validate = .ok () := by
  have hfind : (ofRows rows).rows.zipIdx.find? (fun r => normalRow r.2 r.1 ≠ r.1) = none := by
    rw [rows_ofRows, List.find?_eq_none]
    intro r hr
    have hget := List.mem_zipIdx_iff_getElem?.1 hr
    have hrow := h.normalRow_getD r.2
    rw [List.getD_eq_getElem?_getD, hget] at hrow
    simpa using hrow
  simp only [Csr.validate, h.closed.check, hfind, bind, Except.bind]

/-- **Normal rows stay as they are.** -/
theorem normalise : (ofRows rows).normalise = .ok (ofRows rows) := by
  rw [normalise_of_check h.closed.check, rows_ofRows, h.normalRows_eq]

end NormalRows

/-- **What a graph is normalised to** has as many nodes, and its rows are normal. -/
theorem normalRows_of_normalise {g g' : Csr} (h : g.normalise = .ok g') :
    ∃ rows, g' = ofRows rows ∧ NormalRows rows ∧ rows.length = g.numNodes := by
  cases hcheck : g.check with
  | error e =>
    rw [normalise_of_check_error hcheck] at h
    cases h
  | ok u =>
    rw [normalise_of_check hcheck] at h
    refine ⟨normalRows 0 g.rows, (Except.ok.inj h).symm, (closed_of_check hcheck).normalRows, ?_⟩
    rw [length_normalRows, length_rows]

/-- **Normalising fails as the check does.** -/
theorem normalise_eq_error_iff {g : Csr} {e : Error} :
    g.normalise = .error e ↔ g.check = .error e := by
  cases hcheck : g.check with
  | error e' =>
    rw [normalise_of_check_error hcheck, Except.error.injEq, Except.error.injEq]
  | ok u =>
    rw [normalise_of_check hcheck]
    exact ⟨fun he => (nomatch he), fun he => (nomatch he)⟩

end Csr

end Unknowns
