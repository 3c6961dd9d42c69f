import Mathlib.Data.List.Basic
import Unknowns.Field.Registry

/-!
# Fingerprints of registrations

A fingerprint digests the bytes of the names one after the other.  No step of the
digest loses anything: with the byte given it is a bijection of words, since its
factor is odd, and with the word given it tells all bytes apart.  So two lists of
bytes that differ in a single place never have the same digest
(`fingerprint_ne_of_oneByteApart`).

The bytes in turn tell the names: the byte that ends a name occurs in no text
(`terminator_not_mem_toUTF8`), so equal bytes are those of the same names, in the same
order (`names_eq_of_bytes_eq`).
-/

namespace Unknowns

namespace Registry

/-- Two lists of one length differ in exactly one place. -/
def OneByteApart (xs ys : List UInt8) : Prop :=
  xs.length = ys.length ∧ ∃! i : Nat, xs[i]? ≠ ys[i]?

/-! ### The digest -/

/-- The inverse of the factor of the digest, modulo 2⁶⁴. -/
def unfactor : UInt64 := 0xce965057aff6957b

theorem factor_mul_unfactor : (0x100000001b3 : UInt64) * unfactor = 1 := by decide

/-- A step of the digest can be undone up to its byte. -/
theorem digestByte_mul_unfactor (h : UInt64) (b : UInt8) :
    digestByte h b * unfactor = h ^^^ b.toUInt64 := by
  rw [digestByte, UInt64.mul_assoc, factor_mul_unfactor, UInt64.mul_one]

/-- **A step tells all words apart**, whatever its byte. -/
theorem digestByte_left_inj {h h' : UInt64} {b : UInt8} :
    digestByte h b = digestByte h' b ↔ h = h' := by
  refine ⟨fun he => ?_, congrArg (digestByte · b)⟩
  have hxor := congrArg (· * unfactor) he
  simp only [digestByte_mul_unfactor] at hxor
  exact (UInt64.xor_left_inj _).1 hxor

/-- **A step tells all bytes apart**, whatever the word before it. -/
theorem digestByte_right_inj {h : UInt64} {b b' : UInt8} :
    digestByte h b = digestByte h b' ↔ b = b' := by
  refine ⟨fun he => ?_, congrArg (digestByte h)⟩
  have hxor := congrArg (· * unfactor) he
  simp only [digestByte_mul_unfactor] at hxor
  exact UInt8.toUInt64_inj.1 ((UInt64.xor_right_inj _).1 hxor)

/-- **Words that differ stay different** while the same bytes enter them. -/
theorem foldl_digestByte_inj {h h' : UInt64} (bs : List UInt8) :
    bs.foldl digestByte h = bs.foldl digestByte h' ↔ h = h' := by
  induction bs generalizing h h' with
  | nil => rfl
  | cons b bs ih => rw [List.foldl_cons, List.foldl_cons, ih, digestByte_left_inj]

/-- Lists that differ in one place have the same members before it and behind it. -/
theorem OneByteApart.split {xs ys : List UInt8} (h : OneByteApart xs ys) :
    ∃ before x y after, xs = before ++ x :: after ∧ ys = before ++ y :: after ∧ x ≠ y := by
  obtain ⟨hlength, i, hne, hunique⟩ := h
  have hsame : ∀ j, j ≠ i → xs[j]? = ys[j]? := fun j hj => by
    by_contra hc
    exact hj (hunique j hc)
  have hx : i < xs.length := by
    by_contra hout
    rw [Nat.not_lt] at hout
    exact hne (by rw [List.getElem?_eq_none hout, List.getElem?_eq_none (hlength ▸ hout)])
  have hy : i < ys.length := hlength ▸ hx
  have hbefore : xs.take i = ys.take i := List.ext_getElem? fun j => by
    rw [List.getElem?_take, List.getElem?_take]
    split
    · next hj => exact hsame j (Nat.ne_of_lt hj)
    · rfl
  have hafter : xs.drop (i + 1) = ys.drop (i + 1) := List.ext_getElem? fun j => by
    rw [List.getElem?_drop, List.getElem?_drop]
    exact hsame _ (by omega)
  refine ⟨xs.take i, xs[i], ys[i], xs.drop (i + 1), ?_, ?_, fun he => hne ?_⟩
  · rw [List.getElem_cons_drop, List.take_append_drop]
  · rw [hbefore, hafter, List.getElem_cons_drop, List.take_append_drop]
  · rw [List.getElem?_eq_getElem hx, List.getElem?_eq_getElem hy, he]

/-- **A difference in one byte is never missed.** -/
theorem fingerprint_ne_of_oneByteApart {r s : Registry} (h : OneByteApart r.bytes s.bytes) :
    r.fingerprint ≠ s.fingerprint := by
  obtain ⟨before, x, y, after, hr, hs, hne⟩ := h.split
  intro he
  rw [fingerprint, fingerprint, hr, hs, List.foldl_append, List.foldl_append, List.foldl_cons,
    List.foldl_cons, foldl_digestByte_inj, digestByte_right_inj] at he
  exact hne he

/-! ### The bytes of the names -/

theorem toList_loop (bs : ByteArray) (i : Nat) (before : List UInt8) :
    ByteArray.toList.loop bs i before = before.reverse ++ bs.data.toList.drop i := by
  fun_induction ByteArray.toList.loop bs i before with
  | case1 i before hi ih =>
    have hlt : i < bs.data.toList.length := hi
    have hget : bs.get! i = bs.data.toList[i] := getElem!_pos bs.data i hi
    rw [ih, List.reverse_cons, List.append_assoc, List.singleton_append, hget,
      List.getElem_cons_drop]
  | case2 i before hi =>
    have hle : bs.data.toList.length ≤ i := Nat.not_lt.1 hi
    rw [List.drop_eq_nil_of_le hle, List.append_nil]

/-- The bytes of a text are those of its characters. -/
theorem toList_toUTF8 (s : String) :
    s.toUTF8.toList = s.toList.flatMap String.utf8EncodeChar := by
  have hbytes : s.toUTF8 = s.toList.utf8Encode := by
    rw [String.toUTF8_eq_toByteArray, ← String.toByteArray_ofList, String.ofList_toList]
  rw [hbytes, ByteArray.toList, toList_loop, List.utf8Encode, List.toList_data_toByteArray]
  rfl

/-- No byte of a character is the terminator, which has ones only: the first byte of a character has
at most five of them in front, and the others have a zero behind the first. -/
theorem forall_ne_terminator (c : Char) : ∀ b ∈ String.utf8EncodeChar c, b ≠ terminator := by
  have hbyte : ∀ n < 255, UInt8.ofNat n ≠ terminator := fun n hn he => by
    have hval := congrArg UInt8.toNat he
    rw [UInt8.toNat_ofNat_of_lt' (Nat.lt_succ_of_lt hn)] at hval
    exact Nat.ne_of_lt hn hval
  unfold String.utf8EncodeChar
  dsimp only
  split_ifs
  · exact List.forall_mem_singleton.2 (hbyte _ (by omega))
  · simp only [List.forall_mem_cons]
    exact ⟨hbyte _ (by omega), hbyte _ (by omega), nofun⟩
  · simp only [List.forall_mem_cons]
    exact ⟨hbyte _ (by omega), hbyte _ (by omega), hbyte _ (by omega), nofun⟩
  · simp only [List.forall_mem_cons]
    exact ⟨hbyte _ (by omega), hbyte _ (by omega), hbyte _ (by omega), hbyte _ (by omega), nofun⟩

/-- **The terminator occurs in no text.** -/
theorem terminator_not_mem_toUTF8 (s : String) : terminator ∉ s.toUTF8.toList := by
  rw [toList_toUTF8, List.mem_flatMap]
  rintro ⟨c, -, hc⟩
  exact forall_ne_terminator c terminator hc rfl

theorem toUTF8_inj {s t : String} : s.toUTF8.toList = t.toUTF8.toList ↔ s = t := by
  refine ⟨fun h => ?_, fun h => by rw [h]⟩
  rw [ByteArray.toList, ByteArray.toList, toList_loop, toList_loop] at h
  exact String.toByteArray_inj.1 (ByteArray.ext (Array.toList_inj.1 h))

/-- What stands before the first terminator, and what behind it, are determined. -/
theorem append_terminator_inj {xs ys as bs : List UInt8} (hx : terminator ∉ xs)
    (hy : terminator ∉ ys) : xs ++ terminator :: as = ys ++ terminator :: bs ↔ xs = ys ∧ as = bs := by
  refine ⟨fun h => ?_, fun ⟨hxy, hab⟩ => by rw [hxy, hab]⟩
  rcases List.append_eq_append_iff.1 h with ⟨zs, rfl, hz⟩ | ⟨zs, rfl, hz⟩
  · cases zs with
    | nil => exact ⟨(List.append_nil _).symm, (List.cons.inj hz).2⟩
    | cons z zs =>
      obtain rfl : terminator = z := (List.cons.inj hz).1
      exact absurd (List.mem_append_right _ (List.mem_cons_self ..)) hy
  · cases zs with
    | nil => exact ⟨List.append_nil _, (List.cons.inj hz).2.symm⟩
    | cons z zs =>
      obtain rfl : terminator = z := (List.cons.inj hz).1
      exact absurd (List.mem_append_right _ (List.mem_cons_self ..)) hx

/-- **The bytes tell the names**, in their order. -/
theorem names_eq_of_bytes_eq {r s : Registry} (h : r.bytes = s.bytes) : r.names = s.names := by
  unfold bytes at h
  generalize r.names = names at h ⊢
  generalize s.names = names' at h ⊢
  induction names generalizing names' with
  | nil =>
    cases names' with
    | nil => rfl
    | cons name' names' => simp at h
  | cons name names ih =>
    cases names' with
    | nil => simp at h
    | cons name' names' =>
      simp only [List.flatMap_cons, List.append_assoc, List.singleton_append] at h
      obtain ⟨hname, hrest⟩ := (append_terminator_inj (terminator_not_mem_toUTF8 name)
        (terminator_not_mem_toUTF8 name')).1 h
      rw [toUTF8_inj.1 hname, ih names' hrest]

end Registry

end Unknowns
