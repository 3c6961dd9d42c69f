import Mathlib.Data.Nat.Choose.Sum
import Unknowns.Proofs.Cell.Counting

/-!
# Faces of simplices

A face of dimension `k` of a simplex is spanned by `k + 1` of its corners, so there
are as many as a binomial coefficient says.  `binomial?` makes that number factor by
factor, and multiplies each time before it divides: so it is the products that a word
has to hold, and not only the number itself.

What is made after `i` factors is the binomial coefficient of `i`, and its product with
the next factor is `i + 1` times the next coefficient (`product_eq`), so the division is
exact.  Up to the middle these products grow (`choose_mul_le`).  Hence the last product
decides alone:

* `binomial?_eq_some_iff`: a coefficient is made exactly if its product with
  `min k (n - k)` fits a word, and then it is the right one;
* `choose_mul_lt`: so it is for all `n ≤ 62`;
* `countable_simplex_iff`, `countable_of_isSome`: the sub-entities of a simplex can be
  counted exactly up to dimension 61, and those of the other cells always;
* `binomial_counts_faces`: what this says of the faces of simplices.
-/

namespace Unknowns

namespace Binomial

variable {n m i v : Nat}

/-- What `binomial?` has made after its first `i` factors. -/
def running? (n i : Nat) : Option Nat :=
  (List.range i).foldlM (fun acc j => (word? (acc * (n - j))).map (· / (j + 1))) 1

/-- Of the first `m` products each is made and fits a word, and the divisions leave no rest. -/
def Exact (n m : Nat) : Prop :=
  ∀ i < m, ∃ v, running? n i = some v ∧ v * (n - i) < wordSize ∧ i + 1 ∣ v * (n - i)

theorem wordSize_pos : 0 < wordSize := Nat.zero_lt_succ _

theorem running?_zero (n : Nat) : running? n 0 = some (n.choose 0) :=
  congrArg some (Nat.choose_zero_right n).symm

theorem running?_succ (n i : Nat) :
    running? n (i + 1) =
      (running? n i).bind fun v => (word? (v * (n - i))).map (· / (i + 1)) := by
  rw [running?, List.range_succ, List.foldlM_append]
  simp [running?]

/-- The product of a coefficient with the next factor. -/
theorem product_eq (n i : Nat) : n.choose i * (n - i) = n.choose (i + 1) * (i + 1) :=
  (Nat.choose_succ_right_eq n i).symm

/-- **One factor more**: from the right value the next one is made exactly if the product fits. -/
theorem running?_succ_eq_some_iff (h : running? n i = some (n.choose i)) :
    running? n (i + 1) = some v ↔
      n.choose (i + 1) * (i + 1) < wordSize ∧ v = n.choose (i + 1) := by
  rw [running?_succ, h, Option.bind_some, Option.map_eq_some_iff, product_eq]
  constructor
  · rintro ⟨w, hw, rfl⟩
    obtain ⟨hlt, rfl⟩ := word?_eq_some_iff.1 hw
    exact ⟨hlt, Nat.mul_div_cancel _ i.succ_pos⟩
  · rintro ⟨hlt, rfl⟩
    exact ⟨_, word?_eq_some_iff.2 ⟨hlt, rfl⟩, Nat.mul_div_cancel _ i.succ_pos⟩

theorem running?_eq_some_iff :
    running? n m = some v ↔ (∀ i ≤ m, n.choose i * i < wordSize) ∧ v = n.choose m := by
  induction m generalizing v with
  | zero =>
    rw [running?_zero, Option.some_inj, eq_comm]
    exact ⟨fun h => ⟨fun i hi => by rw [Nat.le_zero.1 hi]; exact wordSize_pos, h⟩, And.right⟩
  | succ m ih =>
    constructor
    · intro h
      obtain ⟨w, hw, -⟩ := Option.bind_eq_some_iff.1 (running?_succ n m ▸ h)
      obtain ⟨hbefore, rfl⟩ := ih.1 hw
      obtain ⟨hlast, hv⟩ := (running?_succ_eq_some_iff hw).1 h
      refine ⟨fun i hi => ?_, hv⟩
      rcases Nat.le_succ_iff.1 hi with hi | rfl
      · exact hbefore i hi
      · exact hlast
    · rintro ⟨hall, hv⟩
      have hw := ih.2 ⟨fun i hi => hall i (Nat.le_succ_of_le hi), rfl⟩
      exact (running?_succ_eq_some_iff hw).2 ⟨hall _ (Nat.le_refl _), hv⟩

/-- Up to the middle of a row, the coefficients grow even when they are multiplied
by their places. -/
theorem choose_mul_le (hi : i ≤ m) (hm : 2 * m ≤ n) : n.choose i * i ≤ n.choose m * m := by
  induction m, hi using Nat.le_induction with
  | base => exact Nat.le_refl _
  | succ m _ ih =>
    calc n.choose i * i ≤ n.choose m * m := ih (by omega)
      _ ≤ n.choose m * (n - m) := Nat.mul_le_mul_left _ (by omega)
      _ = n.choose (m + 1) * (m + 1) := product_eq n m

/-- **The last product is the largest**: it decides whether the coefficient is made. -/
theorem running?_eq_some_iff_last (hm : 2 * m ≤ n) :
    running? n m = some v ↔ n.choose m * m < wordSize ∧ v = n.choose m := by
  rw [running?_eq_some_iff]
  exact and_congr_left fun _ => ⟨fun h => h m (Nat.le_refl m), fun h i hi =>
    (choose_mul_le hi hm).trans_lt h⟩

theorem exact_iff : Exact n m ↔ (running? n m).isSome := by
  rw [Option.isSome_iff_exists]
  constructor
  · intro h
    induction m with
    | zero => exact ⟨_, running?_zero n⟩
    | succ m ih =>
      obtain ⟨v, hv, hlt, -⟩ := h m m.lt_succ_self
      obtain ⟨-, rfl⟩ := running?_eq_some_iff.1 hv
      exact ⟨_, (running?_succ_eq_some_iff hv).2 ⟨product_eq n m ▸ hlt, rfl⟩⟩
  · rintro ⟨v, hv⟩ i hi
    obtain ⟨hall, -⟩ := running?_eq_some_iff.1 hv
    refine ⟨n.choose i, running?_eq_some_iff.2 ⟨fun j hj => hall j (by omega), rfl⟩, ?_⟩
    rw [product_eq]
    exact ⟨hall (i + 1) hi, Nat.dvd_mul_left ..⟩

end Binomial

/-! ### Binomial coefficients in words -/

section
open Binomial

variable {n k v : Nat}

theorem binomial?_eq_running (h : k ≤ n) : binomial? n k = running? n (min k (n - k)) :=
  if_neg (Nat.not_lt.2 h)

theorem binomial?_eq_zero (h : n < k) : binomial? n k = some 0 := if_pos h

theorem choose_min (h : k ≤ n) : n.choose (min k (n - k)) = n.choose k := by
  rcases Nat.le_total k (n - k) with hle | hle
  · rw [Nat.min_eq_left hle]
  · rw [Nat.min_eq_right hle, Nat.choose_symm h]

theorem binomial?_eq_some_iff :
    binomial? n k = some v ↔ n.choose k * min k (n - k) < wordSize ∧ v = n.choose k := by
  rcases Nat.lt_or_ge n k with h | h
  · rw [binomial?_eq_zero h, Nat.choose_eq_zero_of_lt h, Nat.zero_mul, Option.some_inj, eq_comm]
    exact (and_iff_right wordSize_pos).symm
  · rw [binomial?_eq_running h, ← choose_min h]
    exact running?_eq_some_iff_last (by omega)

theorem binomial?_isSome_iff_exact : (binomial? n k).isSome ↔ Exact n (min k (n - k)) := by
  rcases Nat.lt_or_ge n k with h | h
  · rw [binomial?_eq_zero h, Nat.sub_eq_zero_of_le (Nat.le_of_lt h), Nat.min_zero]
    exact iff_of_true rfl fun i hi => absurd hi i.not_lt_zero
  · rw [binomial?_eq_running h, exact_iff]

/-- Up to row 62 all products fit, those behind the middle included, which are not formed. -/
theorem choose_mul_lt (h : n ≤ 62) (k : Nat) : n.choose k * k < wordSize := by
  cases k with
  | zero => exact wordSize_pos
  | succ k =>
    calc n.choose (k + 1) * (k + 1) ≤ Nat.choose 62 (k + 1) * (k + 1) :=
          Nat.mul_le_mul_right _ (Nat.choose_le_choose _ h)
      _ = 62 * Nat.choose 61 k := (Nat.add_one_mul_choose_eq 61 k).symm
      _ ≤ 62 * Nat.choose 61 (61 / 2) := Nat.mul_le_mul_left _ (Nat.choose_le_middle k 61)
      _ < wordSize := by
        rw [Nat.choose_eq_descFactorial_div_factorial]
        decide +kernel

theorem binomial?_eq_choose (h : n ≤ 62) (k : Nat) : binomial? n k = some (n.choose k) :=
  binomial?_eq_some_iff.2
    ⟨(Nat.mul_le_mul_left _ (Nat.min_le_left ..)).trans_lt (choose_mul_lt h k), rfl⟩

/-- The first coefficient of a row that is a word while its product is none. -/
theorem choose_63_29 : Nat.choose 63 29 = 759510004936100355 := by
  rw [Nat.choose_eq_descFactorial_div_factorial]
  decide +kernel

/-- From row 63 on there is a coefficient that cannot be made. -/
theorem binomial?_eq_none (h : 63 ≤ n) : binomial? n 29 = none := by
  rw [Option.eq_none_iff_forall_not_mem]
  intro v hv
  have hlt := (binomial?_eq_some_iff.1 hv).1
  rw [Nat.min_eq_left (by omega)] at hlt
  have hle : Nat.choose 63 29 * 29 ≤ n.choose 29 * 29 :=
    Nat.mul_le_mul_right _ (Nat.choose_le_choose _ h)
  rw [choose_63_29] at hle
  exact absurd (hle.trans_lt hlt) (by decide)

end

/-! ### Faces -/

theorem total_map_range (f : Nat → Nat) (m : Nat) :
    total ((List.range m).map f) = ∑ i ∈ Finset.range m, f i := by
  induction m with
  | zero => rfl
  | succ m ih =>
    rw [List.range_succ, List.map_append, total_append, ih, Finset.sum_range_succ,
      List.map_singleton, total_cons, total_nil, Nat.add_zero]

namespace Cell

/-- The faces of dimension `k` of the simplex with the corners `0, …, d`, each with its corners. -/
def simplexFaces (d k : Nat) : Finset (Finset (Fin (d + 1))) := Finset.univ.powersetCard (k + 1)

theorem card_simplexFaces (d k : Nat) : (simplexFaces d k).card = (d + 1).choose (k + 1) := by
  rw [simplexFaces, Finset.card_powersetCard, Finset.card_univ, Fintype.card_fin]

/-- The simplex itself and the dimensions above it are no exceptions. -/
theorem subEntityCount?_simplex (d : UInt8) (k : Nat) :
    (simplex d).subEntityCount? k = binomial? (d.toNat + 1) (k + 1) := by
  rcases Nat.lt_trichotomy k d.toNat with hlt | heq | hgt
  · exact (if_neg (Nat.lt_asymm hlt)).trans (if_neg (Nat.ne_of_lt hlt))
  · rw [binomial?_eq_running (by omega), show d.toNat + 1 - (k + 1) = 0 by omega, Nat.min_zero]
    exact (if_neg (by simp [dimension, heq])).trans (if_pos heq)
  · rw [binomial?_eq_zero (Nat.succ_lt_succ hgt)]
    exact if_pos hgt

theorem subEntityCount?_eq_card {d : UInt8} (h : d.toNat ≤ 61) (k : Nat) :
    (simplex d).subEntityCount? k = some (simplexFaces d.toNat k).card := by
  rw [subEntityCount?_simplex, card_simplexFaces, binomial?_eq_choose (Nat.succ_le_succ h)]

/-- The simplex of dimension 3 is the tetrahedron. -/
example : (simplex 3).subEntityCounts? = tetrahedron.subEntityCounts? := by decide

/-- Each set of corners spans one sub-entity, but for the empty one. -/
theorem totalSubEntities?_simplex {d : UInt8} (h : d.toNat ≤ 61) :
    (simplex d).totalSubEntities? = some (2 ^ (d.toNat + 1) - 1) := by
  have hcounts : (simplex d).subEntityCounts =
      (List.range (d.toNat + 1)).map fun k => (d.toNat + 1).choose (k + 1) :=
    List.map_congr_left fun k _ => by
      rw [subEntityCount, subEntityCount?_eq_card h, card_simplexFaces, Option.getD_some]
  have hall : total (simplex d).subEntityCounts + 1 = 2 ^ (d.toNat + 1) := by
    rw [hcounts, total_map_range, ← Nat.sum_range_choose, Finset.sum_range_succ' _ (d.toNat + 1),
      Nat.choose_zero_right]
  have hword : 2 ^ (d.toNat + 1) ≤ 2 ^ 62 := Nat.pow_le_pow_right Nat.two_pos (Nat.succ_le_succ h)
  have hsize : wordSize = 2 ^ 64 := rfl
  refine totalSubEntities?_eq_some_iff.2 ⟨fun k _ => ?_, ?_, ?_⟩
  · rw [subEntityCount?_eq_card h]
    rfl
  · rw [totalSubEntities]
    omega
  · rw [totalSubEntities]
    omega

theorem countable_simplex_iff (d : UInt8) : (simplex d).Countable ↔ d.toNat ≤ 61 := by
  constructor
  · intro h
    by_contra hd
    have hnone := h.count 28
    rw [subEntityCount?_simplex, binomial?_eq_none (by omega)] at hnone
    cases hnone
  · intro h
    rw [Countable, totalSubEntities?_simplex h]
    rfl

/-- **Only single counts can fail**: if there are all of them, their sum is a word. -/
theorem countable_of_isSome {c : Cell} (h : ∀ k ≤ c.dimension, (c.subEntityCount? k).isSome) :
    c.Countable := by
  cases c with
  | simplex d =>
    rw [countable_simplex_iff]
    by_contra hd
    have hsome := h 28 (show 28 ≤ d.toNat by omega)
    rw [subEntityCount?_simplex, binomial?_eq_none (by omega)] at hsome
    cases hsome
  | polygon n =>
    refine countable_iff.2 ⟨h, ?_⟩
    show total [n.toNat, n.toNat, 1] < wordSize
    have hn := n.toNat_lt
    have hsize : wordSize = 2 ^ 64 := rfl
    simp only [total_cons, total_nil]
    omega
  | _ => decide

end Cell

open Binomial Cell

/-- **Faces of simplices, counted in words.**  What `binomial?` makes is the binomial coefficient,
and it makes it exactly if the last and largest product on its way fits a word, that is if all of
them do; no division leaves a rest.  Up to row 62 this is so.  Hence a simplex has as many
sub-entities of a dimension as it has faces, or they cannot be counted where that product does not
fit.  For simplices up to dimension 61 it always does, and their sub-entities of all dimensions are
one less than their sets of corners. -/
theorem binomial_counts_faces (n k v : Nat) (d : UInt8) (dim count : Nat) :
    (binomial? n k = some v ↔ n.choose k * min k (n - k) < wordSize ∧ v = n.choose k) ∧
    ((binomial? n k).isSome ↔ Exact n (min k (n - k))) ∧
    (n ≤ 62 → binomial? n k = some (n.choose k)) ∧
    ((simplex d).subEntityCount? dim = some count ↔
      (simplexFaces d.toNat dim).card * min (dim + 1) (d.toNat - dim) < wordSize ∧
        count = (simplexFaces d.toNat dim).card) ∧
    (d.toNat ≤ 61 → (simplex d).subEntityCount? dim = some (simplexFaces d.toNat dim).card ∧
      (simplex d).totalSubEntities? = some (2 ^ (d.toNat + 1) - 1)) := by
  refine ⟨binomial?_eq_some_iff, binomial?_isSome_iff_exact, fun h => binomial?_eq_choose h k, ?_,
    fun h => ⟨subEntityCount?_eq_card h dim, totalSubEntities?_simplex h⟩⟩
  rw [subEntityCount?_simplex, card_simplexFaces, binomial?_eq_some_iff, Nat.add_sub_add_right]

/-- The largest count of the largest simplex for which all products fit. -/
theorem binomial_counts_faces_largest :
    62 ≤ 62 ∧ (61 : UInt8).toNat ≤ 61 ∧ Nat.choose 62 31 = 465428353255261088 ∧
      binomial? 62 31 = some (Nat.choose 62 31) ∧
      (simplex 61).subEntityCount? 30 = some (simplexFaces 61 30).card ∧
      (simplex 61).totalSubEntities? = some (2 ^ 62 - 1) := by
  have hchoose : Nat.choose 62 31 = 465428353255261088 := by
    rw [Nat.choose_eq_descFactorial_div_factorial]
    decide +kernel
  have hdim : (61 : UInt8).toNat ≤ 61 := by decide
  obtain ⟨-, -, hrow, -, hfaces⟩ := binomial_counts_faces 62 31 0 61 30 0
  exact ⟨Nat.le_refl _, hdim, hchoose, hrow (Nat.le_refl _), hfaces hdim⟩

/-- **A product can be too large where the number is not.**  The simplex of dimension 62 has fewer
than 2⁶⁴ faces of dimension 28, but they cannot be counted. -/
theorem binomial_overflows :
    Nat.choose 63 29 = 759510004936100355 ∧ Nat.choose 63 29 < wordSize ∧
      binomial? 63 29 = none ∧ ¬Exact 63 29 ∧
      (simplexFaces 62 28).card = 759510004936100355 ∧
      (simplex 62).subEntityCount? 28 = none ∧ ¬(simplex 62).Countable := by
  have hnone : binomial? 63 29 = none := binomial?_eq_none (Nat.le_refl _)
  refine ⟨choose_63_29, ?_, hnone, fun h => ?_, ?_, ?_, ?_⟩
  · rw [choose_63_29]
    decide
  · have hsome := binomial?_isSome_iff_exact.2 (show Exact 63 (min 29 (63 - 29)) from h)
    rw [hnone] at hsome
    cases hsome
  · rw [card_simplexFaces, choose_63_29]
  · rw [subEntityCount?_simplex]
    exact hnone
  · rw [countable_simplex_iff]
    decide

end Unknowns
