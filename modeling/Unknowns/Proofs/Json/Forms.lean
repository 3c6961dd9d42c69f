import Mathlib.Data.List.Nodup
import Unknowns.Json.Form
import Unknowns.Proofs.Json.Written

/-!
# Forms read back

A form is written so that its text reads back, and what is read from it is the value
that it was written for (`LawfulForm`).  An object whose fields have different names is
taken apart into its fields (`record?_obj`).
-/

namespace Unknowns

open Json

/-- A type whose forms can be written as text, and are read as the values that they are forms of. -/
class LawfulForm (α : Type) [Form α] : Prop where
  written_write : ∀ x : α, Written (Form.write x)
  read_write : ∀ x : α, Form.read (Form.write x) = some x

theorem mapM_eq_some {α β γ : Type} {f : β → Option γ} {p : α → β} {q : α → γ} {xs : List α}
    (h : ∀ x ∈ xs, f (p x) = some (q x)) : (xs.map p).mapM f = some (xs.map q) := by
  induction xs with
  | nil => rfl
  | cons x xs ih =>
    rw [List.map_cons, List.mapM_cons, h x List.mem_cons_self,
      ih fun y hy => h y (List.mem_cons_of_mem _ hy)]
    rfl

theorem readBelow_nat {bound n : Nat} (h : n < bound) : Form.readBelow bound (nat n) = some n := by
  rw [nat, Form.readBelow, if_pos ⟨Int.natCast_nonneg n, Int.ofNat_lt.2 h⟩, Int.toNat_natCast]

instance : LawfulForm UInt64 where
  written_write _ := .int _
  read_write n := by
    show (Form.readBelow wordSize (nat n.toNat)).map _ = _
    have hlt : n.toNat < wordSize := n.toNat_lt
    rw [readBelow_nat hlt, Option.map_some, UInt64.ofNat_toNat]

instance {α : Type} [Form α] [LawfulForm α] : LawfulForm (List α) where
  written_write xs := .arr fun j hj => by
    obtain ⟨x, -, rfl⟩ := List.mem_map.1 hj
    exact LawfulForm.written_write x
  read_write xs := by
    show (xs.map Form.write).mapM Form.read = some xs
    rw [mapM_eq_some fun x _ => LawfulForm.read_write x, List.map_id']

theorem filter_eq_singleton {fields : List (String × Json)} (h : (fields.map (·.1)).Nodup)
    {f : String × Json} (hf : f ∈ fields) : fields.filter (·.1 = f.1) = [f] := by
  obtain ⟨before, after, rfl⟩ := List.append_of_mem hf
  rw [List.map_append, List.map_cons, List.nodup_middle, ← List.map_append] at h
  have hne : ∀ g ∈ before ++ after, ¬ decide (g.1 = f.1) = true := fun g hg he =>
    (List.nodup_cons.1 h).1 (List.mem_map.2 ⟨g, hg, of_decide_eq_true he⟩)
  have hbefore := List.filter_eq_nil_iff.2 fun g hg => hne g (List.mem_append_left after hg)
  have hafter := List.filter_eq_nil_iff.2 fun g hg => hne g (List.mem_append_right before hg)
  rw [List.filter_append, List.filter_cons, if_pos (decide_eq_true rfl), hbefore, hafter,
    List.nil_append]

/-- **An object is taken apart into its fields**, if their names differ. -/
theorem Json.record?_obj (fields : List (String × Json)) (h : (fields.map (·.1)).Nodup) :
    record? (fields.map (·.1)) (obj (fields.map fun f => (.ofText f.1, f.2))) =
      some (fields.map (·.2)) := by
  have hnamed : named? (fields.map fun f => (.ofText f.1, f.2)) = some fields := by
    rw [named?, mapM_eq_some fun f _ => by rw [Quotation.text?_ofText]; rfl, List.map_id']
  rw [record?, hnamed]
  exact mapM_eq_some fun f hf => by rw [filter_eq_singleton h hf]

end Unknowns
