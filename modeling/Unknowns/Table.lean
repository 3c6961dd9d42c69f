import Unknowns.Ascending

/-!
# Tables

A `Table κ ν` is a finite map that lists its entries in ascending order of the
key.  Every reading of a table (its keys, its values, its written form) comes
in that order, and two tables with the same entries are equal.

* `get?_update`: changing one key leaves the other keys alone;
* `mem_entries_iff`: the entries are what looking up finds;
* `Table.ext_get?`: a table is determined by what looking up finds.
-/

namespace Unknowns

/-- A finite map whose entries stand in ascending order of their keys. -/
structure Table (κ : Type) (ν : Type) [Ord κ] where
  /-- Keys with their values. -/
  entries : List (κ × ν)
  /-- Keys ascend, so none occurs twice. -/
  sorted : entries.Pairwise fun a b => Before a.1 b.1

namespace Table

section
variable {κ ν μ : Type} [Ord κ]

/-- The table without entries. -/
def empty : Table κ ν := ⟨[], .nil⟩

instance : EmptyCollection (Table κ ν) := ⟨empty⟩
instance : Inhabited (Table κ ν) := ⟨empty⟩

instance [DecidableEq κ] [DecidableEq ν] : DecidableEq (Table κ ν) := fun a b =>
  if h : a.entries = b.entries then isTrue (by cases a; cases b; simp_all)
  else isFalse (fun e => h (e ▸ rfl))

/-- Keys, ascending. -/
def keys (t : Table κ ν) : List κ := t.entries.map (·.1)

/-- Values in the order of their keys. -/
def values (t : Table κ ν) : List ν := t.entries.map (·.2)

/-- Number of entries. -/
def size (t : Table κ ν) : Nat := t.entries.length

/-- Whether there is no entry. -/
def isEmpty (t : Table κ ν) : Bool := t.entries.isEmpty

/-- The value of a key in a list of entries. -/
def find (k : κ) : List (κ × ν) → Option ν
  | [] => none
  | (k', v) :: rest =>
    match compare k k' with
    | .eq => some v
    | _ => find k rest

/-- The value of `k`, if `k` has one. -/
def get? (t : Table κ ν) (k : κ) : Option ν := find k t.entries

/-- Whether `k` has a value. -/
def contains (t : Table κ ν) (k : κ) : Bool := (t.get? k).isSome

/-- The entries after the value of `k` became `f` of what it was. -/
def place (k : κ) (f : Option ν → ν) : List (κ × ν) → List (κ × ν)
  | [] => [(k, f none)]
  | (k', v) :: rest =>
    match compare k k' with
    | .lt => (k, f none) :: (k', v) :: rest
    | .eq => (k', f (some v)) :: rest
    | .gt => (k', v) :: place k f rest

/-- Another value for every key, which may depend on the key. -/
def map (f : κ → ν → μ) (t : Table κ ν) : Table κ μ :=
  ⟨t.entries.map fun e => (e.1, f e.1 e.2), by
    rw [List.pairwise_map]
    exact t.sorted⟩

/-- The entries that satisfy `p`. -/
def filter (p : κ → ν → Bool) (t : Table κ ν) : Table κ ν :=
  ⟨t.entries.filter fun e => p e.1 e.2, t.sorted.filter _⟩

@[simp] theorem get?_empty (k : κ) : (empty : Table κ ν).get? k = none := rfl

theorem key_of_mem_place {k : κ} {f : Option ν → ν} {es : List (κ × ν)} {e : κ × ν}
    (h : e ∈ place k f es) : e.1 = k ∨ ∃ e' ∈ es, e'.1 = e.1 := by
  induction es with
  | nil => simp [place] at h; exact .inl (by rw [h])
  | cons d es ih =>
    obtain ⟨k', v⟩ := d
    unfold place at h
    split at h
    · rcases List.mem_cons.1 h with rfl | h
      · exact .inl rfl
      · exact .inr ⟨e, h, rfl⟩
    · rcases List.mem_cons.1 h with rfl | h
      · exact .inr ⟨(k', v), by simp, rfl⟩
      · exact .inr ⟨e, List.mem_cons_of_mem _ h, rfl⟩
    · rcases List.mem_cons.1 h with rfl | h
      · exact .inr ⟨(k', v), by simp, rfl⟩
      · rcases ih h with h | ⟨e', he, hk⟩
        · exact .inl h
        · exact .inr ⟨e', List.mem_cons_of_mem _ he, hk⟩

end

section
variable {κ ν : Type} [Ord κ] [Std.TransOrd κ]

theorem sorted_place {k : κ} {f : Option ν → ν} {es : List (κ × ν)}
    (h : es.Pairwise fun a b => Before a.1 b.1) :
    (place k f es).Pairwise fun a b => Before a.1 b.1 := by
  induction es with
  | nil => simp [place]
  | cons d es ih =>
    obtain ⟨k', v⟩ := d
    have hd := List.pairwise_cons.1 h
    unfold place
    split
    · next hlt =>
      refine List.pairwise_cons.2 ⟨fun z hz => ?_, h⟩
      rcases List.mem_cons.1 hz with rfl | hz
      · exact hlt
      · exact Std.TransCmp.lt_trans hlt (hd.1 z hz)
    · exact List.pairwise_cons.2 ⟨fun z hz => hd.1 z hz, hd.2⟩
    · next hgt =>
      refine List.pairwise_cons.2 ⟨fun z hz => ?_, ih hd.2⟩
      rcases key_of_mem_place hz with hz | ⟨e, he, hk⟩
      · show Before k' z.1
        rw [hz]
        exact Std.OrientedCmp.lt_of_gt hgt
      · show Before k' z.1
        rw [← hk]
        exact hd.1 e he

/-- The table after the value of `k` became `f` of what it was (`none` if it had none). -/
def update (t : Table κ ν) (k : κ) (f : Option ν → ν) : Table κ ν :=
  ⟨place k f t.entries, sorted_place t.sorted⟩

/-- The table after `k` was given the value `v`. -/
def insert (t : Table κ ν) (k : κ) (v : ν) : Table κ ν := t.update k fun _ => v

/-- The table with the given entries; of two for one key the later stands. -/
def ofList (es : List (κ × ν)) : Table κ ν :=
  es.foldl (fun t e => t.insert e.1 e.2) empty

/-- The table of the values that `f` has at the given keys. -/
def tabulate (ks : List κ) (f : κ → ν) : Table κ ν := ofList (ks.map fun k => (k, f k))

/-- All entries of both tables; where both have a value, that of `u` stands. -/
def override (t u : Table κ ν) : Table κ ν :=
  u.entries.foldl (fun t e => t.insert e.1 e.2) t

/-- The items of a list under what `f` says of them, each group in list order. -/
def groupBy {α : Type} (f : α → κ) (xs : List α) : Table κ (List α) :=
  xs.foldl (fun t x => t.update (f x) fun g => g.getD [] ++ [x]) empty

end

section
variable {κ ν : Type} [Ord κ] [Std.TransOrd κ] [Std.LawfulEqOrd κ] [DecidableEq κ]

theorem find_place (k j : κ) (f : Option ν → ν) (es : List (κ × ν))
    (h : es.Pairwise fun a b => Before a.1 b.1) :
    find j (place k f es) = if j = k then some (f (find k es)) else find j es := by
  induction es with
  | nil =>
    by_cases hjk : j = k
    · subst hjk; simp [place, find, Std.ReflCmp.compare_self]
    · simp [place, find, hjk]
  | cons d es ih =>
    obtain ⟨k', v⟩ := d
    have hd := List.pairwise_cons.1 h
    have absent : ∀ {x : κ}, compare x k' = .lt → ∀ es' : List (κ × ν),
        (∀ e ∈ es', Before k' e.1) → find x es' = none := by
      intro x hx es' hall
      induction es' with
      | nil => rfl
      | cons e es' ih' =>
        obtain ⟨k2, v2⟩ := e
        have h2 := Std.TransCmp.lt_trans hx (hall (k2, v2) (by simp))
        simp only [find]
        rw [h2]
        exact ih' fun e he => hall e (List.mem_cons_of_mem _ he)
    by_cases hjk : j = k
    · subst hjk
      simp only [if_true]
      unfold place
      split
      · next hlt => simp [find, Std.ReflCmp.compare_self, hlt, absent hlt es hd.1]
      · next heq => simp [find, heq]
      · next hgt => simp [find, hgt, ih hd.2]
    · simp only [hjk, if_false]
      unfold place
      split
      · simp [find, hjk]
      · next heq =>
        obtain rfl := Std.LawfulEqOrd.eq_of_compare heq
        simp [find, hjk]
      · simp only [find, ih hd.2, hjk, if_false]

/-- **One key changes, the others do not.** -/
@[simp] theorem get?_update (t : Table κ ν) (k j : κ) (f : Option ν → ν) :
    (t.update k f).get? j = if j = k then some (f (t.get? k)) else t.get? j :=
  find_place k j f t.entries t.sorted

@[simp] theorem get?_insert (t : Table κ ν) (k j : κ) (v : ν) :
    (t.insert k v).get? j = if j = k then some v else t.get? j := by
  simp [insert]

theorem find_eq_some {k : κ} {v : ν} {es : List (κ × ν)}
    (h : es.Pairwise fun a b => Before a.1 b.1) : find k es = some v ↔ (k, v) ∈ es := by
  induction es with
  | nil => simp [find]
  | cons d es ih =>
    obtain ⟨k', v'⟩ := d
    have hd := List.pairwise_cons.1 h
    by_cases hk : k = k'
    · subst hk
      have : ∀ w, (k, w) ∉ es := fun w hw => not_before_self k (hd.1 (k, w) hw)
      simp [find, Std.ReflCmp.compare_self, this]
      exact eq_comm
    · simp [find, hk, ih hd.2]

/-- **The entries are what looking up finds.** -/
theorem mem_entries_iff {t : Table κ ν} {k : κ} {v : ν} :
    (k, v) ∈ t.entries ↔ t.get? k = some v :=
  (find_eq_some t.sorted).symm

theorem mem_keys_iff {t : Table κ ν} {k : κ} : k ∈ t.keys ↔ (t.get? k).isSome := by
  rw [keys, List.mem_map, Option.isSome_iff_exists]
  simp only [Prod.exists, exists_and_right, exists_eq_right, mem_entries_iff]

omit [Std.LawfulEqOrd κ] [DecidableEq κ] in
theorem nodup_keys (t : Table κ ν) : t.keys.Nodup :=
  nodup_of_pairwise (List.pairwise_map.2 t.sorted)

/-- **A table is determined by what looking up finds.** -/
theorem ext_get? {t u : Table κ ν} (h : ∀ k, t.get? k = u.get? k) : t = u := by
  have he : t.entries = u.entries :=
    eq_of_mem_iff_of_rel (fun e => not_before_self e.1)
      (fun {a b c} (h₁ : Before a.1 b.1) (h₂ : Before b.1 c.1) => Std.TransCmp.lt_trans h₁ h₂)
      t.sorted u.sorted fun e => by rw [mem_entries_iff (k := e.1), mem_entries_iff (k := e.1), h]
  cases t; cases u; simp_all

@[simp] theorem get?_map {μ : Type} (t : Table κ ν) (f : κ → ν → μ) (k : κ) :
    (t.map f).get? k = (t.get? k).map (f k) := by
  rw [Option.ext_iff]
  intro w
  rw [← mem_entries_iff, Option.map_eq_some_iff]
  simp only [map, List.mem_map, Prod.mk.injEq, Prod.exists, mem_entries_iff]
  exact ⟨fun ⟨_, v, hv, hk, hw⟩ => ⟨v, hk ▸ hv, hk ▸ hw⟩, fun ⟨v, hv, hw⟩ => ⟨k, v, hv, rfl, hw⟩⟩

theorem get?_foldl_insert (ks : List κ) (f : κ → ν) (t : Table κ ν) (k : κ) :
    (ks.foldl (fun t k => t.insert k (f k)) t).get? k = if k ∈ ks then some (f k) else t.get? k := by
  induction ks generalizing t with
  | nil => simp
  | cons j ks ih =>
    rw [List.foldl_cons, ih, get?_insert]
    by_cases hjk : k = j <;> by_cases hk : k ∈ ks <;> simp_all

/-- **A tabulated function is found at the given keys.** -/
@[simp] theorem get?_tabulate (ks : List κ) (f : κ → ν) (k : κ) :
    (tabulate ks f).get? k = if k ∈ ks then some (f k) else none := by
  have h := get?_foldl_insert ks f empty k
  rw [get?_empty] at h
  rw [tabulate, ofList, List.foldl_map]
  exact h

/-- Keys that ascend are the keys of the table, in the same order. -/
theorem entries_tabulate {ks : List κ} (f : κ → ν) (h : ks.Pairwise Before) :
    (tabulate ks f).entries = ks.map fun k => (k, f k) := by
  refine eq_of_mem_iff_of_rel (fun e => not_before_self e.1)
    (fun {a b c} (h₁ : Before a.1 b.1) (h₂ : Before b.1 c.1) => Std.TransCmp.lt_trans h₁ h₂)
    (tabulate ks f).sorted (List.pairwise_map.2 h) fun e => ?_
  rw [mem_entries_iff (k := e.1), get?_tabulate]
  constructor
  · intro he
    split at he
    · next hk => exact List.mem_map.2 ⟨e.1, hk, Prod.ext rfl (Option.some.inj he)⟩
    · cases he
  · intro he
    obtain ⟨k, hk, rfl⟩ := List.mem_map.1 he
    rw [if_pos hk]

theorem get?_foldl_update {α : Type} (f : α → κ) (xs : List α) (t : Table κ (List α)) (k : κ) :
    (xs.foldl (fun t x => t.update (f x) fun g => g.getD [] ++ [x]) t).get? k =
      if xs.any (fun x => f x = k) then
        some ((t.get? k).getD [] ++ xs.filter fun x => f x = k)
      else t.get? k := by
  induction xs generalizing t with
  | nil => simp
  | cons x xs ih =>
    simp only [List.foldl_cons, ih, get?_update]
    by_cases hx : f x = k
    · subst hx
      by_cases hxs : xs.any (fun y => f y = f x)
      · simp_all
      · have hnil : xs.filter (fun y => f y = f x) = [] := by simp_all
        simp_all
    · have hx' : ¬ k = f x := fun e => hx e.symm
      simp [hx, hx']

/-- **Grouping keeps each item once, in list order, under what `f` says of it.** -/
theorem get?_groupBy {α : Type} (f : α → κ) (xs : List α) (k : κ) :
    (groupBy f xs).get? k =
      if xs.any (fun x => f x = k) then some (xs.filter fun x => f x = k) else none := by
  simp [groupBy, get?_foldl_update]

end

end Table

end Unknowns
