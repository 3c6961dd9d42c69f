/-!
# Numbers as bytes

A number of a fixed width is written with its lowest byte first.  Numbers that
do not fit lose their high bytes.

* `length_writeBytes`: the width is the number of bytes;
* `readBytes_writeBytes`: reading gives the number back, reduced to what the width can hold;
* `writeBytes_readBytes`: writing what was read gives the bytes back.
-/

namespace Unknowns

/-- What travels between ranks. -/
abbrev Payload := List UInt8

/-- The lowest `width` bytes of a number, lowest first. -/
def writeBytes : Nat → Nat → Payload
  | 0, _ => []
  | width + 1, n => UInt8.ofNat n :: writeBytes width (n / 256)

/-- The number with the given bytes, lowest first. -/
def readBytes : Payload → Nat
  | [] => 0
  | b :: bs => b.toNat + 256 * readBytes bs

/-- How many numbers have a given width. -/
def capacity : Nat → Nat
  | 0 => 1
  | width + 1 => 256 * capacity width

@[simp] theorem length_writeBytes (width n : Nat) : (writeBytes width n).length = width := by
  induction width generalizing n with
  | zero => rfl
  | succ w ih => simp [writeBytes, ih]

theorem readBytes_writeBytes (width n : Nat) :
    readBytes (writeBytes width n) = n % capacity width := by
  induction width generalizing n with
  | zero => simp [writeBytes, readBytes, capacity, Nat.mod_one]
  | succ w ih =>
    have h : (UInt8.ofNat n).toNat = n % 256 := UInt8.toNat_ofNat'
    rw [writeBytes, readBytes, ih, capacity, Nat.mod_mul, h]

theorem writeBytes_readBytes (bs : Payload) : writeBytes bs.length (readBytes bs) = bs := by
  induction bs with
  | nil => rfl
  | cons b bs ih =>
    have hb := b.toNat_lt
    have h₁ : (b.toNat + 256 * readBytes bs) / 256 = readBytes bs := by omega
    have h₂ : UInt8.ofNat (b.toNat + 256 * readBytes bs) = b := by
      apply UInt8.toNat_inj.1
      rw [UInt8.toNat_ofNat']
      omega
    simp [writeBytes, readBytes, h₁, h₂, ih]

end Unknowns
