import Unknowns.Wire.Record

/-!
# Records survive the journey

A record is read back from its bytes as it was written, and so is a list of
records: `decodeAll_encodeAll`.  Both follow for every kind of record from the
laws of `LawfulRecord`, and these from two laws of words: the first word is read
as it was written (`wordAt_first`), and later words are not touched by it
(`wordAt_behind`).
-/

namespace Unknowns

/-- A kind of record whose bytes are as many as its width says and read back as the record. -/
class LawfulRecord (ρ : Type) [Record ρ] : Prop where
  width_pos : 0 < Record.width ρ
  length_encode : ∀ r : ρ, (Record.encode r).length = Record.width ρ
  decode_encode : ∀ r : ρ, Record.decode (Record.encode r) = r

/-! ### Words -/

theorem wordAt_first {width n : Nat} {rest : Payload} (hn : n < capacity width) :
    wordAt (writeBytes width n ++ rest) 0 width = n := by
  rw [wordAt, List.drop_zero, List.take_left' (length_writeBytes width n), readBytes_writeBytes,
    Nat.mod_eq_of_lt hn]

theorem wordAt_only {width n : Nat} (hn : n < capacity width) :
    wordAt (writeBytes width n) 0 width = n := by
  have h : wordAt (writeBytes width n ++ []) 0 width = n := wordAt_first hn
  rwa [List.append_nil] at h

theorem wordAt_behind {width n start k : Nat} {rest : Payload} (h : width ≤ start) :
    wordAt (writeBytes width n ++ rest) start k = wordAt rest (start - width) k := by
  have hdrop : (writeBytes width n).drop start = [] :=
    List.drop_eq_nil_of_le (by rw [length_writeBytes]; exact h)
  rw [wordAt, wordAt, List.drop_append, hdrop, length_writeBytes, List.nil_append]

/-- The words of two, four and eight bytes of a record are within their capacity. -/
theorem toNat_lt_capacity (a : UInt16) (b : UInt32) (c : UInt64) :
    a.toNat < capacity 2 ∧ b.toNat < capacity 4 ∧ c.toNat < capacity 8 :=
  ⟨a.toNat_lt, b.toNat_lt, c.toNat_lt⟩

instance : LawfulRecord Count where
  width_pos := by decide
  length_encode _ := length_writeBytes 4 _
  decode_encode c := by
    have h := wordAt_only (toNat_lt_capacity 0 c.word 0).2.1
    simp only [Record.decode, Record.encode, h, UInt32.ofNat_toNat]

instance : LawfulRecord OwnerReply where
  width_pos := by decide
  length_encode _ := length_writeBytes 4 _
  decode_encode r := by
    have h := wordAt_only (toNat_lt_capacity 0 r.word 0).2.1
    simp only [Record.decode, Record.encode, h, UInt32.ofNat_toNat]

instance : LawfulRecord GidRecord where
  width_pos := by decide
  length_encode _ := length_writeBytes 8 _
  decode_encode r := by
    have h := wordAt_only (toNat_lt_capacity 0 0 r.word).2.2
    simp only [Record.decode, Record.encode, h, UInt64.ofNat_toNat]

instance : LawfulRecord Claim where
  width_pos := by decide
  length_encode c := by
    simp only [Record.encode, List.length_append, length_writeBytes]
    rfl
  decode_encode c := by
    have hg := (toNat_lt_capacity 0 0 c.gid).2.2
    have hd := (toNat_lt_capacity 0 c.dim 0).2.1
    have hf := (toNat_lt_capacity 0 c.field 0).2.1
    have hc := (toNat_lt_capacity 0 c.component 0).2.1
    have hh := (toNat_lt_capacity 0 c.hint 0).2.1
    simp only [Record.decode, Record.encode, List.append_assoc, wordAt_first, wordAt_only,
      wordAt_behind, hg, hd, hf, hc, hh, Nat.reduceLeDiff, Nat.reduceSub, UInt32.ofNat_toNat,
      UInt64.ofNat_toNat]

instance : LawfulRecord EdgeRecord where
  width_pos := by decide
  length_encode e := by
    simp only [Record.encode, List.length_append, length_writeBytes]
    rfl
  decode_encode e := by
    have hr := (toNat_lt_capacity 0 0 e.row).2.2
    have hc := (toNat_lt_capacity 0 0 e.col).2.2
    simp only [Record.decode, Record.encode, wordAt_first, wordAt_only, wordAt_behind, hr, hc,
      Nat.le_refl, Nat.sub_self, UInt64.ofNat_toNat]

instance : LawfulRecord Status where
  width_pos := by decide
  length_encode s := by
    simp only [Record.encode, List.length_append, length_writeBytes]
    rfl
  decode_encode s := by
    have hv := (toNat_lt_capacity s.version 0 0).1
    have hr := (toNat_lt_capacity s.ready 0 0).1
    have hz := (toNat_lt_capacity 0 s.reserved 0).2.1
    have hf := (toNat_lt_capacity 0 0 s.fingerprint).2.2
    simp only [Record.decode, Record.encode, List.append_assoc, wordAt_first, wordAt_only,
      wordAt_behind, hv, hr, hz, hf, Nat.reduceLeDiff, Nat.reduceSub, UInt16.ofNat_toNat,
      UInt32.ofNat_toNat, UInt64.ofNat_toNat]

/-! ### Lists of records -/

namespace Record

variable {ρ : Type} [Record ρ] [LawfulRecord ρ]

theorem length_encodeAll (records : List ρ) :
    (encodeAll records).length = records.length * width ρ := by
  induction records with
  | nil => rw [List.length_nil, Nat.zero_mul]; rfl
  | cons r rest ih =>
    have hr := LawfulRecord.length_encode r
    rw [encodeAll, List.flatMap_cons, List.length_append, ← encodeAll, ih, hr, List.length_cons,
      Nat.succ_mul, Nat.add_comm]

omit [LawfulRecord ρ] in
/-- Blocks of the width of a record are read one by one. -/
theorem decodeMany_flatMap {α : Type} {xs : List α} {block : α → Payload}
    (h : ∀ x ∈ xs, (block x).length = width ρ) :
    decodeMany xs.length (xs.flatMap block) = xs.map fun x => (decode (block x) : ρ) := by
  induction xs with
  | nil => rfl
  | cons x xs ih =>
    have hx := h x (List.mem_cons_self ..)
    rw [List.flatMap_cons, List.length_cons, decodeMany, List.take_left' hx, List.drop_left' hx,
      ih fun y hy => h y (List.mem_cons_of_mem _ hy), List.map_cons]

theorem decodeMany_encodeAll (records : List ρ) :
    decodeMany records.length (encodeAll records) = records := by
  rw [encodeAll, decodeMany_flatMap fun r _ => LawfulRecord.length_encode r]
  simp only [LawfulRecord.decode_encode, List.map_id']

/-- **A list of records is read back from its bytes.** -/
theorem decodeAll_encodeAll (records : List ρ) : decodeAll (encodeAll records) = .ok records := by
  have hw := LawfulRecord.width_pos (ρ := ρ)
  rw [decodeAll, length_encodeAll, if_pos (Nat.mul_mod_left ..), Nat.mul_div_cancel _ hw,
    decodeMany_encodeAll]

end Record

end Unknowns
