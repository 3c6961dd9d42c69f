import Unknowns.Error

/-!
# Programs that may fail

A program that fails ends with the first error.  What a program with a state wrote
before it failed stays written, so its run answers an outcome and a state in either
case.
-/

namespace Unknowns

theorem bind_eq_ok_iff {α β : Type} {x : Except Error α} {f : α → Except Error β} {b : β} :
    (x >>= f) = .ok b ↔ ∃ a, x = .ok a ∧ f a = .ok b := by
  cases x <;> simp [bind, Except.bind]

theorem bind_eq_error_iff {α β : Type} {x : Except Error α} {f : α → Except Error β} {e : Error} :
    (x >>= f) = .error e ↔ x = .error e ∨ ∃ a, x = .ok a ∧ f a = .error e := by
  cases x <;> simp [bind, Except.bind]

/-- What cannot fail after a program does not make it fail. -/
theorem bind_ok_eq_error_iff {α β : Type} {x : Except Error α} {g : α → β} {e : Error} :
    (x >>= fun a => .ok (g a)) = .error e ↔ x = .error e := by
  cases x <;> simp [bind, Except.bind]

theorem map_eq_ok_iff {α β : Type} {x : Except Error α} {f : α → β} {b : β} :
    x.map f = .ok b ↔ ∃ a, x = .ok a ∧ f a = b := by
  cases x <;> simp [Except.map]

theorem map_eq_error_iff {α β : Type} {x : Except Error α} {f : α → β} {e : Error} :
    x.map f = .error e ↔ x = .error e := by
  cases x <;> simp [Except.map]

theorem mapError_eq_ok_iff {α : Type} {x : Except Error α} {f : Error → Error} {a : α} :
    x.mapError f = .ok a ↔ x = .ok a := by
  cases x with
  | ok _ => exact Iff.rfl
  | error _ => exact ⟨nofun, nofun⟩

theorem mapError_eq_error_iff {α : Type} {x : Except Error α} {f : Error → Error} {e : Error} :
    x.mapError f = .error e ↔ ∃ fault, x = .error fault ∧ f fault = e := by
  cases x with
  | ok _ => exact ⟨nofun, fun ⟨_, h, _⟩ => by cases h⟩
  | error fault =>
    refine ⟨fun h => ⟨fault, rfl, Except.error.inj h⟩, ?_⟩
    rintro ⟨_, ⟨⟩, rfl⟩
    rfl

/-- A step that succeeds for a list succeeds for each of its members, in order. -/
theorem getElem?_of_mapM {α β : Type} {f : α → Except Error β} {xs : List α} {ys : List β}
    (h : xs.mapM f = .ok ys) :
    ys.length = xs.length ∧ ∀ (i : Nat) (x : α), xs[i]? = some x → ∃ y, ys[i]? = some y ∧ f x = .ok y := by
  induction xs generalizing ys with
  | nil =>
    obtain rfl : [] = ys := Except.ok.inj h
    exact ⟨rfl, fun i x hx => by simp at hx⟩
  | cons a xs ih =>
    rw [List.mapM_cons, bind_eq_ok_iff] at h
    obtain ⟨b, hb, h⟩ := h
    obtain ⟨bs, hbs, h⟩ := bind_eq_ok_iff.1 h
    obtain rfl : b :: bs = ys := Except.ok.inj h
    obtain ⟨hlength, hget⟩ := ih hbs
    refine ⟨by rw [List.length_cons, List.length_cons, hlength], fun i x hx => ?_⟩
    cases i with
    | zero =>
      obtain rfl : a = x := Option.some.inj hx
      exact ⟨b, rfl, hb⟩
    | succ i => exact hget i x hx

/-- What a step makes of a list is what it makes of its members. -/
theorem mem_iff_of_mapM {α β : Type} {f : α → Except Error β} {xs : List α} {ys : List β}
    (h : xs.mapM f = .ok ys) {y : β} : y ∈ ys ↔ ∃ x ∈ xs, f x = .ok y := by
  obtain ⟨hlength, hget⟩ := getElem?_of_mapM h
  constructor
  · intro hy
    obtain ⟨i, hi, rfl⟩ := List.getElem_of_mem hy
    have hx : xs[i]? = some xs[i] := List.getElem?_eq_getElem (hlength ▸ hi)
    obtain ⟨y, hy, hstep⟩ := hget i _ hx
    rw [List.getElem?_eq_getElem hi] at hy
    exact ⟨_, List.mem_of_getElem? hx, (Option.some.inj hy) ▸ hstep⟩
  · rintro ⟨x, hx, hstep⟩
    obtain ⟨i, hi⟩ := List.mem_iff_getElem?.1 hx
    obtain ⟨y', hy', hstep'⟩ := hget i x hi
    obtain rfl := Except.ok.inj (hstep.symm.trans hstep')
    exact List.mem_of_getElem? hy'

/-- **A step that fails for a list fails for the first member that it fails for.** -/
theorem mapM_eq_error_iff {α β : Type} {f : α → Except Error β} {xs : List α} {e : Error} :
    xs.mapM f = .error e ↔ ∃ before x rest, xs = before ++ x :: rest ∧ f x = .error e ∧
      ∀ y ∈ before, ∃ z, f y = .ok z := by
  induction xs with
  | nil => simp [pure, Except.pure]
  | cons x xs ih =>
    rw [List.mapM_cons, bind_eq_error_iff]
    constructor
    · rintro (h | ⟨z, hz, h⟩)
      · exact ⟨[], x, xs, rfl, h, fun y hy => by cases hy⟩
      · obtain ⟨before, w, rest, rfl, hw, hbefore⟩ :=
          ih.1 (bind_ok_eq_error_iff.1 h)
        exact ⟨x :: before, w, rest, rfl, hw, List.forall_mem_cons.2 ⟨⟨z, hz⟩, hbefore⟩⟩
    · rintro ⟨before, w, rest, hsplit, hw, hbefore⟩
      cases before with
      | nil =>
        obtain ⟨rfl, rfl⟩ := List.cons.inj hsplit
        exact .inl hw
      | cons y before =>
        obtain ⟨rfl, rfl⟩ := List.cons.inj hsplit
        obtain ⟨⟨z, hz⟩, hbefore⟩ := List.forall_mem_cons.1 hbefore
        exact .inr ⟨z, hz, bind_eq_error_iff.2 (.inl (ih.2 ⟨before, w, rest, rfl, hw, hbefore⟩))⟩

theorem exists_of_mapM_eq_error {α β : Type} {f : α → Except Error β} {xs : List α} {e : Error}
    (h : xs.mapM f = .error e) : ∃ x ∈ xs, f x = .error e := by
  obtain ⟨before, x, rest, rfl, hx, -⟩ := mapM_eq_error_iff.1 h
  exact ⟨x, List.mem_append_right _ (List.mem_cons_self ..), hx⟩

/-- A check that every member of a list passes is passed by the list. -/
theorem forM_eq_ok {α : Type} {f : α → Except Error Unit} {xs : List α}
    (h : ∀ x ∈ xs, f x = .ok ()) : xs.forM f = .ok () := by
  induction xs with
  | nil => rfl
  | cons x xs ih =>
    show (f x >>= fun _ => xs.forM f) = .ok ()
    rw [h x (List.mem_cons_self ..)]
    exact ih fun y hy => h y (List.mem_cons_of_mem _ hy)

/-! ### Programs with a state -/

section
variable {σ α β : Type} {s s' : σ} {p : ExceptT Error (StateM σ) α}
  {f : α → ExceptT Error (StateM σ) β}

/-- A program goes on from the state in which its first part ended. -/
theorem run_bind {a : α} (h : p.run s = (.ok a, s')) : (p >>= f).run s = (f a).run s' := by
  show (match p.run s with | (x, s) => ExceptT.bindCont f x s) = _
  rw [h]
  rfl

/-- Where its first part fails, a program ends. -/
theorem run_bind_error {e : Error} (h : p.run s = (.error e, s')) :
    (p >>= f).run s = (.error e, s') := by
  show (match p.run s with | (x, s) => ExceptT.bindCont f x s) = _
  rw [h]
  rfl

/-- What is made of the answer of a program changes nothing else. -/
theorem run_map (g : α → β) :
    (p >>= fun a => pure (g a)).run s = ((p.run s).1.map g, (p.run s).2) := by
  match hrun : p.run s with
  | (.ok a, s') => exact run_bind hrun
  | (.error e, s') => exact run_bind_error hrun

theorem run_get : (get : ExceptT Error (StateM σ) σ).run s = (.ok s, s) := rfl

theorem run_modify (g : σ → σ) :
    (modify g : ExceptT Error (StateM σ) PUnit).run s = (.ok ⟨⟩, g s) := rfl

theorem run_ofExcept (x : Except Error α) :
    (MonadExcept.ofExcept x : ExceptT Error (StateM σ) α).run s = (x, s) := by
  cases x <;> rfl

end

end Unknowns
