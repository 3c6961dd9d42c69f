import Unknowns.Proofs.Wire.RoundTrip
import Mathlib.Algebra.Group.Nat.Defs
import Mathlib.Data.Set.Function

/-!
# What the formats can carry

Records and bytes determine each other.  A record is read back from its bytes
(`Record.decodeAll_encodeAll`), and the other way round every byte string that
divides into whole records is what its records are written as
(`Record.encodeAll_decodeAll`), so no two byte strings are read as the same
records.  This follows for every kind of record from one law (`CanonicalRecord`),
and the law follows from one of words (`writeBytes_wordAt`).

What a record is made of may be larger than its words.  A key is carried as it is
up to the 32 bits of field and component, a rank or a number of records up to
32 bits; of hints and ids the largest is taken for none.  `formats_faithful` has
all of this with the exact bounds.
-/

namespace Unknowns

/-- A kind of record that is written as the bytes that it was read from. -/
class CanonicalRecord (ρ : Type) [Record ρ] : Prop extends LawfulRecord ρ where
  encode_decode : ∀ bytes : Payload, bytes.length = Record.width ρ →
    Record.encode (Record.decode bytes : ρ) = bytes

/-! ### Words -/

theorem readBytes_lt (bytes : Payload) : readBytes bytes < capacity bytes.length := by
  induction bytes with
  | nil => exact Nat.one_pos
  | cons b bytes ih =>
    have hb := b.toNat_lt
    rw [readBytes, List.length_cons, capacity]
    omega

section
variable {bytes : Payload} {start width : Nat}

theorem length_take_drop (h : start + width ≤ bytes.length) :
    ((bytes.drop start).take width).length = width := by
  rw [List.length_take, List.length_drop]
  omega

theorem wordAt_lt (h : start + width ≤ bytes.length) :
    wordAt bytes start width < capacity width := by
  have hlt := readBytes_lt ((bytes.drop start).take width)
  rwa [length_take_drop h] at hlt

/-- A word is written as the bytes that it was read from. -/
theorem writeBytes_wordAt (h : start + width ≤ bytes.length) :
    writeBytes width (wordAt bytes start width) = (bytes.drop start).take width := by
  have hwrite := writeBytes_readBytes ((bytes.drop start).take width)
  rwa [length_take_drop h] at hwrite

/-- The same for words that are kept in 16, 32 or 64 bits. -/
theorem writeBytes_wordAt_two (h : start + 2 ≤ bytes.length) :
    writeBytes 2 (UInt16.ofNat (wordAt bytes start 2)).toNat = (bytes.drop start).take 2 := by
  rw [UInt16.toNat_ofNat_of_lt' (wordAt_lt h), writeBytes_wordAt h]

theorem writeBytes_wordAt_four (h : start + 4 ≤ bytes.length) :
    writeBytes 4 (UInt32.ofNat (wordAt bytes start 4)).toNat = (bytes.drop start).take 4 := by
  rw [UInt32.toNat_ofNat_of_lt' (wordAt_lt h), writeBytes_wordAt h]

theorem writeBytes_wordAt_eight (h : start + 8 ≤ bytes.length) :
    writeBytes 8 (UInt64.ofNat (wordAt bytes start 8)).toNat = (bytes.drop start).take 8 := by
  rw [UInt64.toNat_ofNat_of_lt' (wordAt_lt h), writeBytes_wordAt h]

end

/-- Neighbouring words make up one part of the bytes. -/
theorem take_drop_append (bytes : Payload) (start k j : Nat) :
    (bytes.drop start).take k ++ (bytes.drop (start + k)).take j =
      (bytes.drop start).take (k + j) := by
  rw [List.take_add, List.drop_drop]

instance : CanonicalRecord Count where
  encode_decode bytes h := by
    have hlength : bytes.length = 4 := h
    simp only [Record.encode, Record.decode]
    rw [writeBytes_wordAt_four (by omega), List.drop_zero, List.take_of_length_le (by omega)]

instance : CanonicalRecord OwnerReply where
  encode_decode bytes h := by
    have hlength : bytes.length = 4 := h
    simp only [Record.encode, Record.decode]
    rw [writeBytes_wordAt_four (by omega), List.drop_zero, List.take_of_length_le (by omega)]

instance : CanonicalRecord GidRecord where
  encode_decode bytes h := by
    have hlength : bytes.length = 8 := h
    simp only [Record.encode, Record.decode]
    rw [writeBytes_wordAt_eight (by omega), List.drop_zero, List.take_of_length_le (by omega)]

instance : CanonicalRecord Claim where
  encode_decode bytes h := by
    have hlength : bytes.length = 24 := h
    simp only [Record.encode, Record.decode]
    rw [writeBytes_wordAt_eight (by omega), writeBytes_wordAt_four (by omega),
      writeBytes_wordAt_four (by omega), writeBytes_wordAt_four (by omega),
      writeBytes_wordAt_four (by omega), take_drop_append bytes 0 8, take_drop_append bytes 0 12,
      take_drop_append bytes 0 16, take_drop_append bytes 0 20, List.drop_zero,
      List.take_of_length_le (by omega)]

instance : CanonicalRecord EdgeRecord where
  encode_decode bytes h := by
    have hlength : bytes.length = 16 := h
    simp only [Record.encode, Record.decode]
    rw [writeBytes_wordAt_eight (by omega), writeBytes_wordAt_eight (by omega),
      take_drop_append bytes 0 8, List.drop_zero, List.take_of_length_le (by omega)]

instance : CanonicalRecord Status where
  encode_decode bytes h := by
    have hlength : bytes.length = 16 := h
    simp only [Record.encode, Record.decode]
    rw [writeBytes_wordAt_two (by omega), writeBytes_wordAt_two (by omega),
      writeBytes_wordAt_four (by omega), writeBytes_wordAt_eight (by omega),
      take_drop_append bytes 0 2, take_drop_append bytes 0 4, take_drop_append bytes 0 8,
      List.drop_zero, List.take_of_length_le (by omega)]

/-! ### Lists of records -/

namespace Record

variable {ρ : Type} [Record ρ]

theorem encodeAll_decodeMany [CanonicalRecord ρ] {count : Nat} {bytes : Payload}
    (h : bytes.length = count * width ρ) :
    encodeAll (decodeMany count bytes : List ρ) = bytes := by
  induction count generalizing bytes with
  | zero =>
    rw [Nat.zero_mul] at h
    rw [List.eq_nil_of_length_eq_zero h]
    rfl
  | succ count ih =>
    rw [Nat.succ_mul] at h
    have hfirst : (bytes.take (width ρ)).length = width ρ := by
      rw [List.length_take]
      omega
    have hrest : (bytes.drop (width ρ)).length = count * width ρ := by
      rw [List.length_drop]
      omega
    rw [decodeMany, encodeAll, List.flatMap_cons, ← encodeAll, ih hrest,
      CanonicalRecord.encode_decode _ hfirst, List.take_append_drop]

/-- **Whole records are written as the bytes that they were read from.** -/
theorem encodeAll_decodeAll [CanonicalRecord ρ] {bytes : Payload}
    (h : bytes.length % width ρ = 0) :
    ∃ records : List ρ, decodeAll bytes = .ok records ∧ encodeAll records = bytes := by
  refine ⟨_, if_pos h, encodeAll_decodeMany ?_⟩
  exact (Nat.div_mul_cancel (Nat.dvd_of_mod_eq_zero h)).symm

variable (ρ) in
/-- Lists of records of one kind and byte strings of any multiple of `bytesEach` bytes determine each
other, and other byte strings are refused. -/
structure Faithful (bytesEach : Nat) : Prop where
  length : ∀ records : List ρ, (encodeAll records).length = records.length * bytesEach
  read : ∀ records : List ρ, decodeAll (encodeAll records) = .ok records
  written : ∀ bytes : Payload, bytes.length % bytesEach = 0 →
    ∃ records : List ρ, decodeAll bytes = .ok records ∧ encodeAll records = bytes
  refused : ∀ bytes : Payload, bytes.length % bytesEach ≠ 0 →
    (decodeAll bytes : Except WireFault (List ρ)) = .error (.partialRecord bytes.length bytesEach)

/-- Every kind of record is faithful with its width. -/
theorem faithful [CanonicalRecord ρ] : Faithful ρ (width ρ) where
  length := length_encodeAll
  read := decodeAll_encodeAll
  written _ := encodeAll_decodeAll
  refused _ h := if_neg h

/-- What arrives of a record. -/
def delivered (r : ρ) : ρ := decode (encode r)

theorem delivered_eq [LawfulRecord ρ] (r : ρ) : delivered r = r := LawfulRecord.decode_encode r

end Record

/-! ### What is put into records -/

/-- A word of 32 bits holds just the numbers that fit. -/
theorem toNat_ofNat_eq_iff {n : Nat} : (UInt32.ofNat n).toNat = n ↔ n < 2 ^ 32 := by
  rw [UInt32.toNat_ofNat']
  exact Nat.mod_eq_iff_lt (by decide)

namespace Claim

variable {key : DofKey} {hint : Option Nat}

theorem key_ofKey_eq_iff :
    (ofKey key hint).key = key ↔ key.field < 2 ^ 32 ∧ key.component < 2 ^ 32 := by
  obtain ⟨entity, field, component⟩ := key
  have hdim : entity.dim.toUInt32.toUInt8 = entity.dim := UInt8.toUInt8_toUInt32 _
  simp only [Claim.key, ofKey, hdim, DofKey.mk.injEq, toNat_ofNat_eq_iff, true_and]

/-- A rank that is no longer a hint when it is cut to 32 bits, or another one, is not carried. -/
theorem hint?_ofKey_eq_iff : (ofKey key hint).hint? = hint ↔ ∀ r ∈ hint, r < 2 ^ 32 - 1 := by
  cases hint with
  | none => exact iff_of_true (if_pos rfl) fun _ h => absurd h (Option.not_mem_none _)
  | some r =>
    have hword : (ofKey key (some r)).hint = UInt32.ofNat r := rfl
    have hlargest : noHint.toNat = 2 ^ 32 - 1 := rfl
    rw [hint?, hword]
    simp only [Option.mem_some_iff, forall_eq']
    by_cases hr : UInt32.ofNat r = noHint
    · have hmod : r % 2 ^ 32 = 2 ^ 32 - 1 := by
        rw [← UInt32.toNat_ofNat', hr, hlargest]
      rw [if_pos hr]
      refine iff_of_false (Option.some_ne_none r ∘ Eq.symm) ?_
      omega
    · rw [if_neg hr, Option.some.injEq, toNat_ofNat_eq_iff]
      refine ⟨fun hlt => ?_, fun hlt => by omega⟩
      have hne : r ≠ 2 ^ 32 - 1 := fun he => hr (by rw [he]; rfl)
      omega

end Claim

theorem Count.toNat_ofNat_eq_iff {n : Nat} : (ofNat n).toNat = n ↔ n < 2 ^ 32 :=
  Unknowns.toNat_ofNat_eq_iff

theorem OwnerReply.rank_ofRank_eq_iff {r : Nat} : (ofRank r).rank = r ↔ r < 2 ^ 32 :=
  toNat_ofNat_eq_iff

theorem GidRecord.gid?_ofGid?_eq_iff {gid : Option UInt64} :
    (ofGid? gid).gid? = gid ↔ gid ≠ some noGid := by
  cases gid with
  | none => exact iff_of_true (if_pos rfl) (Option.some_ne_none _).symm
  | some g =>
    by_cases hg : g = noGid
    · subst hg
      exact iff_of_false (Option.some_ne_none _ ∘ Eq.symm) fun hne => hne rfl
    · exact iff_of_true (if_neg hg) fun he => hg (Option.some.inj he)

theorem Status.isReady_of (ready : Bool) (fingerprint : UInt64) :
    (of ready fingerprint).isReady = ready := by
  cases ready <;> rfl

/-- **The formats carry all that fits, and nothing else.**

* For each of the six kinds of record, lists of records and byte strings of a multiple of its width
  determine each other, and byte strings of other lengths are refused.
* The claim of a key arrives with the key just if field and component are below 2³², and with the
  hint just if that is below 2³² - 1 or there is none; so the claims of such keys and hints differ
  where these do.
* Of ids only the largest does not arrive; numbers of records and ranks arrive just if they are below
  2³²; couplings always arrive, and of a status the readiness, the fingerprint and the version. -/
theorem formats_faithful :
    (Record.Faithful Count 4 ∧ Record.Faithful Claim 24 ∧ Record.Faithful OwnerReply 4 ∧
      Record.Faithful GidRecord 8 ∧ Record.Faithful EdgeRecord 16 ∧ Record.Faithful Status 16) ∧
    (∀ key hint, (Record.delivered (Claim.ofKey key hint)).key = key ↔
      key.field < 2 ^ 32 ∧ key.component < 2 ^ 32) ∧
    (∀ key hint, (Record.delivered (Claim.ofKey key hint)).hint? = hint ↔
      ∀ r ∈ hint, r < 2 ^ 32 - 1) ∧
    Set.InjOn (fun c : DofKey × Option Nat => Record.encode (Claim.ofKey c.1 c.2))
      {c | c.1.field < 2 ^ 32 ∧ c.1.component < 2 ^ 32 ∧ ∀ r ∈ c.2, r < 2 ^ 32 - 1} ∧
    (∀ gid : Option UInt64, (Record.delivered (GidRecord.ofGid? gid)).gid? = gid ↔
      gid ≠ some (.ofNat (2 ^ 64 - 1))) ∧
    (∀ n, (Record.delivered (Count.ofNat n)).toNat = n ↔ n < 2 ^ 32) ∧
    (∀ r, (Record.delivered (OwnerReply.ofRank r)).rank = r ↔ r < 2 ^ 32) ∧
    (∀ row col, Record.delivered (EdgeRecord.mk row col) = ⟨row, col⟩) ∧
    ∀ ready fingerprint, (Record.delivered (Status.of ready fingerprint)).isReady = ready ∧
      (Record.delivered (Status.of ready fingerprint)).fingerprint = fingerprint ∧
      (Record.delivered (Status.of ready fingerprint)).version = wireVersion := by
  simp only [Record.delivered_eq]
  refine ⟨⟨Record.faithful, Record.faithful, Record.faithful, Record.faithful, Record.faithful,
    Record.faithful⟩, fun _ _ => Claim.key_ofKey_eq_iff, fun _ _ => Claim.hint?_ofKey_eq_iff, ?_,
    fun _ => GidRecord.gid?_ofGid?_eq_iff, fun _ => Count.toNat_ofNat_eq_iff,
    fun _ => OwnerReply.rank_ofRank_eq_iff, fun _ _ => trivial,
    fun ready fingerprint => ⟨Status.isReady_of ready fingerprint, rfl, rfl⟩⟩
  rintro ⟨key, hint⟩ ⟨hfield, hcomponent, hhint⟩ ⟨key', hint'⟩ ⟨hfield', hcomponent', hhint'⟩ he
  have hclaim : Claim.ofKey key hint = Claim.ofKey key' hint' := by
    rw [← Record.delivered_eq (Claim.ofKey key hint), ← Record.delivered_eq (Claim.ofKey key' hint')]
    exact congrArg Record.decode he
  have hkey := congrArg Claim.key hclaim
  have hhints := congrArg Claim.hint? hclaim
  rw [Claim.key_ofKey_eq_iff.2 ⟨hfield, hcomponent⟩,
    Claim.key_ofKey_eq_iff.2 ⟨hfield', hcomponent'⟩] at hkey
  rw [Claim.hint?_ofKey_eq_iff.2 hhint, Claim.hint?_ofKey_eq_iff.2 hhint'] at hhints
  exact Prod.ext hkey hhints

end Unknowns
