import Unknowns.Memory

/-!
# Cells whose sub-entities can be counted

A cell is `Countable` if each of its counts and their sum is a word
(`countable_iff`).  Then the partial counts are the total ones (`Countable.count`,
`Countable.counts`, `Countable.total`).  Only simplices can fail to be countable, and
even of these the nodes can be counted (`subEntityCount?_zero`).
-/

namespace Unknowns

/-- A list is mapped if each of its members is. -/
theorem mapM_eq_some_iff {α β : Type} {f : α → Option β} {xs : List α} {ys : List β} (d : β) :
    xs.mapM f = some ys ↔ (∀ x ∈ xs, (f x).isSome) ∧ ys = xs.map fun x => (f x).getD d := by
  induction xs generalizing ys with
  | nil => exact ⟨fun h => ⟨by simp, (Option.some.inj h).symm⟩, fun h => congrArg some h.2.symm⟩
  | cons x xs ih =>
    simp only [List.mapM_cons, Option.bind_eq_bind, Option.bind_eq_some_iff, ih, List.forall_mem_cons,
      List.map_cons]
    constructor
    · rintro ⟨y, hx, _, ⟨hsome, rfl⟩, hys⟩
      rw [hx]
      exact ⟨⟨rfl, hsome⟩, (Option.some.inj hys).symm⟩
    · rintro ⟨⟨hx, hsome⟩, rfl⟩
      obtain ⟨y, hx⟩ := Option.isSome_iff_exists.1 hx
      rw [hx]
      exact ⟨y, rfl, _, ⟨hsome, rfl⟩, rfl⟩

namespace Cell

variable {c : Cell} {dim : Nat}

theorem counts_eq_some_iff {counts : List Nat} :
    c.subEntityCounts? = some counts ↔
      (∀ dim ≤ c.dimension, (c.subEntityCount? dim).isSome) ∧ counts = c.subEntityCounts := by
  rw [subEntityCounts?, mapM_eq_some_iff 0]
  simp only [List.mem_range, Nat.lt_succ_iff]
  rfl

theorem totalSubEntities?_eq_some_iff {n : Nat} :
    c.totalSubEntities? = some n ↔
      (∀ dim ≤ c.dimension, (c.subEntityCount? dim).isSome) ∧ c.totalSubEntities < wordSize ∧
        n = c.totalSubEntities := by
  simp only [totalSubEntities?, Option.bind_eq_bind, Option.bind_eq_some_iff, counts_eq_some_iff,
    word?_eq_some_iff]
  constructor
  · rintro ⟨_, ⟨hsome, rfl⟩, h⟩
    exact ⟨hsome, h⟩
  · rintro ⟨hsome, h⟩
    exact ⟨_, ⟨hsome, rfl⟩, h⟩

theorem countable_iff :
    c.Countable ↔ (∀ dim ≤ c.dimension, (c.subEntityCount? dim).isSome) ∧
      c.totalSubEntities < wordSize := by
  simp only [Countable, Option.isSome_iff_exists, totalSubEntities?_eq_some_iff]
  exact ⟨fun ⟨_, hsome, hlt, _⟩ => ⟨hsome, hlt⟩, fun ⟨hsome, hlt⟩ => ⟨_, hsome, hlt, rfl⟩⟩

theorem Countable.total (h : c.Countable) : c.totalSubEntities? = some c.totalSubEntities :=
  have h := countable_iff.1 h
  totalSubEntities?_eq_some_iff.2 ⟨h.1, h.2, rfl⟩

theorem Countable.counts (h : c.Countable) : c.subEntityCounts? = some c.subEntityCounts :=
  counts_eq_some_iff.2 ⟨(countable_iff.1 h).1, rfl⟩

theorem Countable.total_lt (h : c.Countable) : c.totalSubEntities < wordSize := (countable_iff.1 h).2

theorem subEntityCount?_eq (h : (c.subEntityCount? dim).isSome) :
    c.subEntityCount? dim = some (c.subEntityCount dim) := by
  obtain ⟨n, hn⟩ := Option.isSome_iff_exists.1 h
  rw [subEntityCount, hn, Option.getD_some]

theorem Countable.count (h : c.Countable) (dim : Nat) :
    c.subEntityCount? dim = some (c.subEntityCount dim) := by
  refine subEntityCount?_eq ?_
  rcases Nat.lt_or_ge c.dimension dim with hdim | hdim
  · rw [subEntityCount?, if_pos hdim]
    rfl
  · exact (countable_iff.1 h).1 dim hdim

/-- The nodes of a cell can always be counted. -/
theorem subEntityCount?_zero (c : Cell) : c.subEntityCount? 0 = some (c.subEntityCount 0) := by
  refine subEntityCount?_eq ?_
  cases c with
  | simplex d =>
    rcases Nat.eq_zero_or_pos d.toNat with h | h
    · simp [subEntityCount?, dimension, h]
    · have hd := d.toNat_lt
      have hsize : wordSize = 2 ^ 64 := rfl
      have hword : word? (d.toNat + 1) = some (d.toNat + 1) :=
        word?_eq_some_iff.2 ⟨by omega, rfl⟩
      have hmin : min (0 + 1) (d.toNat + 1 - (0 + 1)) = 1 := by omega
      have hle : ¬0 + 1 > d.toNat + 1 := by omega
      have hface : (simplex d).faceCount? 0 = some (d.toNat + 1) := by
        show binomial? (d.toNat + 1) (0 + 1) = _
        rw [binomial?, if_neg hle, hmin, List.range_one, List.foldlM_cons, Nat.sub_zero, Nat.one_mul,
          hword]
        exact congrArg some (Nat.div_one _)
      rw [subEntityCount?, if_neg (Nat.not_lt_zero _), hface]
      split <;> rfl
  | polygon n => rfl
  | _ => rfl

end Cell

/-! ### Stopping where there is no count -/

@[simp] theorem counted_some {α : Type} (n : α) : counted (some n) = .ok n := rfl

theorem counted_eq_error_iff {α : Type} {count? : Option α} {e : Error} :
    counted count? = .error e ↔ count? = none ∧ e = .overflow := by
  cases count? <;> simp [counted, eq_comm]

theorem counted_total (c : Cell) :
    counted c.totalSubEntities? =
      if c.Countable then .ok c.totalSubEntities else .error .overflow := by
  split
  · next h => rw [h.total, counted_some]
  · next h => exact counted_eq_error_iff.2 ⟨Option.not_isSome_iff_eq_none.1 h, rfl⟩

theorem counted_total_eq_ok_iff {c : Cell} {n : Nat} :
    counted c.totalSubEntities? = .ok n ↔ c.Countable ∧ n = c.totalSubEntities := by
  rw [counted_eq_ok_iff, Cell.totalSubEntities?_eq_some_iff, Cell.countable_iff, and_assoc]

theorem counted_total_eq_error_iff {c : Cell} {e : Error} :
    counted c.totalSubEntities? = .error e ↔ ¬c.Countable ∧ e = .overflow := by
  rw [counted_eq_error_iff, Cell.Countable, Option.not_isSome_iff_eq_none]

end Unknowns
