import Unknowns.Error

/-!
# Room in memory

A list takes a fixed number of bytes for each entry.  The bytes of one list are
counted in signed 64-bit words, so a list that would need more than these can
count is not begun.  Sizes that come from outside are checked by `reserve`, and
numbers that are made up in words by `counted`.  What does not pass these checks
stops the rank (`Error.stops`).
-/

namespace Unknowns

/-- The least number of bytes that is too large for one list. -/
def memoryBound : Nat := wordSize / 2

/-- Whether a list of `count` entries of `width` bytes each has room in memory. -/
def fits (count width : Nat) : Bool := count * width < memoryBound

/-- Stops for a list of `count` entries of `width` bytes each that has no room in memory. -/
def reserve (count width : Nat) : Except Error Unit :=
  if fits count width then .ok () else .error .outOfMemory

/-- Stops where a number could not be made up in words. -/
def counted {α : Type} (count? : Option α) : Except Error α :=
  match count? with
  | some n => .ok n
  | none => .error .overflow

theorem reserve_eq_ok_iff (count width : Nat) :
    reserve count width = .ok () ↔ count * width < memoryBound := by
  unfold reserve fits
  split <;> simp_all

theorem counted_eq_ok_iff {α : Type} {count? : Option α} {n : α} :
    counted count? = .ok n ↔ count? = some n := by
  cases count? <;> simp [counted]

end Unknowns
