import Unknowns.Proofs.Graph.Stored

/-!
# The reads of the check

The check goes by the rows of a graph, which are there whatever is stored.
`checkReads` is the check as it goes through the stored lists: it cuts each row out
where it needs it, and looks up the row of an entry by its number.  Each of these reads
would end it with `indexOutOfBounds` if it went behind the end of a list.  None does,
since earlier checks make later reads safe: the two checks have the same outcome
(`checkReads_eq`), which is never that one (`check_ne_indexOutOfBounds`).
-/

namespace Unknowns

/-! ### Checks that refuse the first bad member -/

/-- Nothing is done unless there is something to refuse. -/
def refuse : Option Error → Except Error Unit
  | some e => .error e
  | none => .ok ()

theorem forM_eq_refuse {α : Type} {f : α → Except Error Unit} {bad : α → Option Error} {xs : List α}
    (h : ∀ x ∈ xs, f x = refuse (bad x)) : xs.forM f = refuse (xs.findSome? bad) := by
  induction xs with
  | nil => rfl
  | cons x xs ih =>
    have hrest := ih fun y hy => h y (List.mem_cons_of_mem _ hy)
    show (f x >>= fun _ => xs.forM f) = _
    rw [h x (List.mem_cons_self ..), hrest, List.findSome?_cons]
    cases bad x <;> rfl

theorem findSome?_ite {α β : Type} (p : α → Prop) [DecidablePred p] (g : α → β) (xs : List α) :
    (xs.findSome? fun x => if p x then some (g x) else none) = (xs.find? fun x => p x).map g := by
  induction xs with
  | nil => rfl
  | cons x xs ih =>
    rw [List.findSome?_cons, List.find?_cons]
    by_cases hx : p x
    · simp [hx]
    · simpa [hx] using ih

namespace Csr

/-- Entry `k` of a list, which has to be there. -/
def entry {α : Type} (xs : List α) (k : Nat) : Except Error α :=
  match xs[k]? with
  | some x => .ok x
  | none => .error .indexOutOfBounds

theorem entry_eq_ok {α : Type} {xs : List α} {k : Nat} {x : α} (h : xs[k]? = some x) :
    entry xs k = .ok x := by
  rw [entry, h]

/-- Cuts out the rows in turn and refuses the first entry that is not a node. -/
def readEntries (g : Csr) : Except Error Unit :=
  (List.range g.numNodes).forM fun i => do
    let row ← g.neighbors i
    row.forM fun j => if g.numNodes ≤ j then .error (.nodeOutOfRange i j g.numNodes) else .ok ()

/-- Sorted copies of the rows. -/
def readSorted (g : Csr) : Except Error (List (List Nat)) :=
  (List.range g.numNodes).mapM fun i => do
    let row ← g.neighbors i
    .ok (ascending row)

/-- Looks for the reverse of an entry, in the row of that entry. -/
def readReverse (sorted : List (List Nat)) (i j : Nat) : Except Error Unit :=
  if j = i then .ok ()
  else do
    let row ← entry sorted j
    if i ∈ row then .ok () else .error (.asymmetricGraph i j)

/-- The check as it goes through the stored lists. -/
def checkReads (g : Csr) : Except Error Unit :=
  match g.offsets.getLast? with
  | none => .error (.graphMalformed .noOffsets)
  | some last => do
    let first ← entry g.offsets 0
    if first ≠ 0 then .error (.graphMalformed (.firstOffset first))
    else if last ≠ g.targets.length then
      .error (.graphMalformed (.lastOffset last g.targets.length))
    else
      match decreasingAt? 0 g.offsets with
      | some i => .error (.graphMalformed (.decreasing i))
      | none => do
        g.readEntries
        let sorted ← g.readSorted
        sorted.zipIdx.forM fun r => r.1.forM fun j => readReverse sorted r.2 j

variable {rows : List (List Nat)}

/-- What is done with the numbers of the rows in turn is done with the rows. -/
theorem range_eq_map_zipIdx : List.range rows.length = rows.zipIdx.map (·.2) := by
  rw [List.range_eq_range']
  exact (List.zipIdx_map_snd 0 rows).symm

theorem neighbors_of_mem_zipIdx {r : List Nat × Nat} (hr : r ∈ rows.zipIdx) :
    (ofRows rows).neighbors r.2 = .ok r.1 := by
  rw [neighbors, row?_ofRows, List.mem_zipIdx_iff_getElem?.1 hr]

theorem readEntries_ofRows : (ofRows rows).readEntries =
    refuse ((firstStray? rows.length rows).map fun e => .nodeOutOfRange e.1 e.2 rows.length) := by
  rw [readEntries, numNodes_ofRows, range_eq_map_zipIdx, firstStray?, List.map_findSome?]
  refine List.forM_map.trans (forM_eq_refuse fun r hr => ?_)
  rw [neighbors_of_mem_zipIdx hr]
  have hrow : (r.1.forM fun j => if rows.length ≤ j then
      .error (.nodeOutOfRange r.2 j rows.length) else .ok ()) =
      refuse (r.1.findSome? fun j => if rows.length ≤ j then
        some (.nodeOutOfRange r.2 j rows.length) else none) := by
    refine forM_eq_refuse fun j _ => ?_
    split <;> rfl
  refine hrow.trans ?_
  rw [findSome?_ite, Function.comp_apply, Option.map_map]
  rfl

theorem readSorted_ofRows : (ofRows rows).readSorted = .ok (rows.map ascending) := by
  have hrows : rows.map ascending = rows.zipIdx.map fun r => ascending r.1 := by
    conv_lhs => rw [← List.zipIdx_map_fst 0 rows, List.map_map]
    rfl
  rw [readSorted, numNodes_ofRows, range_eq_map_zipIdx, List.mapM_map, hrows]
  refine mapM_eq_ok fun r hr => ?_
  rw [Function.comp_apply, neighbors_of_mem_zipIdx hr]
  rfl

/-- Where all entries are nodes, each has a row in which to look for its reverse. -/
theorem readReverse_eq {i j : Nat} (hj : j < rows.length) :
    readReverse (rows.map ascending) i j =
      refuse (if j ≠ i ∧ i ∉ (rows[j]?).getD [] then some (.asymmetricGraph i j) else none) := by
  have hentry : entry (rows.map ascending) j = .ok (ascending rows[j]) :=
    entry_eq_ok (by rw [List.getElem?_map, List.getElem?_eq_getElem hj, Option.map_some])
  rw [readReverse, hentry, List.getElem?_eq_getElem hj, Option.getD_some]
  by_cases hloop : j = i
  · rw [if_pos hloop, if_neg fun h => h.1 hloop]
    rfl
  · rw [if_neg hloop]
    show (if i ∈ ascending rows[j] then _ else _) = _
    by_cases hmem : i ∈ rows[j]
    · rw [if_pos (mem_ascending.2 hmem), if_neg fun h => h.2 hmem]
      rfl
    · rw [if_neg (mt mem_ascending.1 hmem), if_pos ⟨hloop, hmem⟩]
      rfl

theorem readReverses_eq (hlt : ∀ i, ∀ j ∈ rows.getD i [], j < rows.length) :
    ((rows.map ascending).zipIdx.forM fun r => r.1.forM fun j =>
        readReverse (rows.map ascending) r.2 j) =
      refuse ((firstOneWay? rows).map fun e => .asymmetricGraph e.1 e.2) := by
  rw [List.zipIdx_map, firstOneWay?, List.map_findSome?]
  refine List.forM_map.trans (forM_eq_refuse fun r hr => ?_)
  refine (forM_eq_refuse fun j hj => readReverse_eq (hlt r.2 j ?_)).trans ?_
  · rw [List.getD_eq_getElem?_getD, List.mem_zipIdx_iff_getElem?.1 hr]
    exact mem_ascending.1 hj
  · rw [findSome?_ite, Function.comp_apply, Option.map_map]
    rfl

/-- **Where the rows are cut out well**, reading them in turn is as good as having them. -/
theorem readRows_eq (rows : List (List Nat)) :
    (do
      (ofRows rows).readEntries
      let sorted ← (ofRows rows).readSorted
      sorted.zipIdx.forM fun r => r.1.forM fun j => readReverse sorted r.2 j) =
    match firstStray? rows.length rows, firstOneWay? rows with
    | some (i, j), _ => .error (.nodeOutOfRange i j rows.length)
    | none, some (i, j) => .error (.asymmetricGraph i j)
    | none, none => .ok () := by
  rw [readEntries_ofRows, readSorted_ofRows]
  cases hstray : firstStray? rows.length rows with
  | some e => rfl
  | none =>
    show ((rows.map ascending).zipIdx.forM fun r => r.1.forM fun j =>
      readReverse (rows.map ascending) r.2 j) = _
    rw [readReverses_eq (firstStray?_eq_none_iff.1 hstray)]
    cases firstOneWay? rows <;> rfl

/-- **No read goes behind the end of a list**: with every read made explicit the check has the same
outcome. -/
theorem checkReads_eq (g : Csr) : g.checkReads = g.check := by
  cases hoffsets : g.offsets with
  | nil => simp only [checkReads, check, hoffsets, List.getLast?_nil, List.head?_nil]
  | cons first offsets =>
    have hhead : g.offsets.head? = some first := by rw [hoffsets]; rfl
    have hentry : entry g.offsets 0 = .ok first := by rw [hoffsets]; rfl
    obtain ⟨last, hlast⟩ : ∃ last, g.offsets.getLast? = some last := by
      rw [hoffsets]
      exact ⟨_, List.getLast?_eq_some_getLast (List.cons_ne_nil first offsets)⟩
    simp only [checkReads, check, hhead, hlast, hentry]
    show (if first ≠ 0 then _ else if last ≠ g.targets.length then _ else _) = _
    by_cases hzero : first ≠ 0
    · rw [if_pos hzero, if_pos hzero]
    rw [if_neg hzero, if_neg hzero]
    by_cases hend : last ≠ g.targets.length
    · rw [if_pos hend, if_pos hend]
    rw [if_neg hend, if_neg hend]
    cases hdecr : decreasingAt? 0 g.offsets with
    | some i => rfl
    | none =>
      -- Only now all rows can be cut out.
      have htiled : g.Tiled := ⟨by rw [hhead, not_not.1 hzero],
        decreasingAt?_eq_none_iff.1 hdecr, by rw [hlast, not_not.1 hend]⟩
      have hrows := readRows_eq g.rows
      rw [htiled.ofRows_rows, length_rows] at hrows
      refine hrows.trans ?_
      cases firstStray? g.numNodes g.rows with
      | some e => rfl
      | none => cases firstOneWay? g.rows <;> rfl

theorem check_ne_indexOutOfBounds (g : Csr) : g.check ≠ .error .indexOutOfBounds := by
  unfold check
  split
  · split
    · nofun
    · split
      · nofun
      · split <;> nofun
  · nofun

end Csr

end Unknowns
