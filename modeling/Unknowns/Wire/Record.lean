import Unknowns.Wire.Bytes
import Unknowns.Error

/-!
# Records that travel between ranks

Messages are lists of records of one kind.  A record is a fixed number of words,
and every word is written with its lowest byte first:

| record | bytes | words |
| --- | ---: | --- |
| `Count` | 4 | number of records that follow (4) |
| `Claim` | 24 | id (8), dimension (4), field (4), component (4), hint (4) |
| `OwnerReply` | 4 | rank (4) |
| `GidRecord` | 8 | global id (8) |
| `EdgeRecord` | 16 | row (8), column (8) |
| `Status` | 16 | version (2), ready (2), reserved (4), fingerprint (8) |

The largest word stands for "no hint" and for "no global id".  Numbers that are
wider than their word lose their high bits.
-/

namespace Unknowns

/-- A kind of record: its width, its bytes, and the record read from that many bytes. -/
class Record (ρ : Type) where
  /-- Number of bytes. -/
  width : Nat
  encode : ρ → Payload
  decode : Payload → ρ

namespace Record

variable {ρ : Type} [Record ρ]

/-- The bytes of a list of records. -/
def encodeAll (records : List ρ) : Payload := records.flatMap encode

/-- The first `count` records of a byte string. -/
def decodeMany : Nat → Payload → List ρ
  | 0, _ => []
  | count + 1, bytes => decode (bytes.take (width ρ)) :: decodeMany count (bytes.drop (width ρ))

/-- The records of a byte string, which must divide into whole records. -/
def decodeAll (bytes : Payload) : Except WireFault (List ρ) :=
  if bytes.length % width ρ = 0 then .ok (decodeMany (bytes.length / width ρ) bytes)
  else .error (.partialRecord bytes.length (width ρ))

end Record

/-- Checks that as many bytes came as were announced. -/
def expectLength (actual expected : Nat) : Except WireFault Unit :=
  if actual = expected then .ok () else .error (.wrongLength expected actual)

/-- The word of `width` bytes that starts at byte `start`. -/
def wordAt (bytes : Payload) (start width : Nat) : Nat := readBytes ((bytes.drop start).take width)

/-- How many records follow. -/
structure Count where
  word : UInt32
deriving DecidableEq

namespace Count

instance : Record Count where
  width := 4
  encode c := writeBytes 4 c.word.toNat
  decode b := ⟨.ofNat (wordAt b 0 4)⟩

/-- The record of a number. -/
def ofNat (n : Nat) : Count := ⟨.ofNat n⟩

/-- The number in the record. -/
def toNat (c : Count) : Nat := c.word.toNat

end Count

/-- The hint word that means "no hint". -/
def noHint : UInt32 := 0xFFFFFFFF

/-- The id word that means "no global id". -/
def noGid : UInt64 := 0xFFFFFFFFFFFFFFFF

/-- The version of the formats. -/
def wireVersion : UInt16 := 1

/-- An unknown that the sender refers to, with the owner that its mesh designates. -/
structure Claim where
  gid : UInt64
  dim : UInt32
  field : UInt32
  component : UInt32
  hint : UInt32
deriving DecidableEq

namespace Claim

instance : Record Claim where
  width := 24
  encode c :=
    writeBytes 8 c.gid.toNat ++ writeBytes 4 c.dim.toNat ++ writeBytes 4 c.field.toNat ++
      writeBytes 4 c.component.toNat ++ writeBytes 4 c.hint.toNat
  decode b :=
    ⟨.ofNat (wordAt b 0 8), .ofNat (wordAt b 8 4), .ofNat (wordAt b 12 4), .ofNat (wordAt b 16 4),
      .ofNat (wordAt b 20 4)⟩

/-- The claim of a key. -/
def ofKey (key : DofKey) (hint : Option Nat) : Claim where
  gid := key.entity.gid
  dim := key.entity.dim.toUInt32
  field := .ofNat key.field
  component := .ofNat key.component
  hint := match hint with
    | some r => .ofNat r
    | none => noHint

/-- The key that is claimed. -/
def key (c : Claim) : DofKey := ⟨⟨c.dim.toUInt8, c.gid⟩, c.field.toNat, c.component.toNat⟩

/-- The designated owner. -/
def hint? (c : Claim) : Option Nat := if c.hint = noHint then none else some c.hint.toNat

end Claim

/-- The owner of a claimed key, in the place of the claim that it answers. -/
structure OwnerReply where
  word : UInt32
deriving DecidableEq

namespace OwnerReply

instance : Record OwnerReply where
  width := 4
  encode r := writeBytes 4 r.word.toNat
  decode b := ⟨.ofNat (wordAt b 0 4)⟩

/-- The reply that names a rank. -/
def ofRank (rank : Nat) : OwnerReply := ⟨.ofNat rank⟩

/-- The rank that is named. -/
def rank (r : OwnerReply) : Nat := r.word.toNat

end OwnerReply

/-- A global id, or none. -/
structure GidRecord where
  word : UInt64
deriving DecidableEq

namespace GidRecord

instance : Record GidRecord where
  width := 8
  encode r := writeBytes 8 r.word.toNat
  decode b := ⟨.ofNat (wordAt b 0 8)⟩

/-- The record of an id, if there is one. -/
def ofGid? (gid : Option UInt64) : GidRecord := ⟨gid.getD noGid⟩

/-- The id in the record, if there is one. -/
def gid? (r : GidRecord) : Option UInt64 := if r.word = noGid then none else some r.word

end GidRecord

/-- A coupling between two global ids. -/
structure EdgeRecord where
  row : UInt64
  col : UInt64
deriving DecidableEq

namespace EdgeRecord

instance : Record EdgeRecord where
  width := 16
  encode r := writeBytes 8 r.row.toNat ++ writeBytes 8 r.col.toNat
  decode b := ⟨.ofNat (wordAt b 0 8), .ofNat (wordAt b 8 8)⟩

end EdgeRecord

/-- Whether a rank is ready to negotiate, with the fingerprint of its fields. -/
structure Status where
  version : UInt16
  ready : UInt16
  reserved : UInt32
  fingerprint : UInt64
deriving DecidableEq

namespace Status

instance : Record Status where
  width := 16
  encode s :=
    writeBytes 2 s.version.toNat ++ writeBytes 2 s.ready.toNat ++ writeBytes 4 s.reserved.toNat ++
      writeBytes 8 s.fingerprint.toNat
  decode b :=
    ⟨.ofNat (wordAt b 0 2), .ofNat (wordAt b 2 2), .ofNat (wordAt b 4 4), .ofNat (wordAt b 8 8)⟩

/-- The status of a rank. -/
def of (ready : Bool) (fingerprint : UInt64) : Status :=
  ⟨wireVersion, if ready then 1 else 0, 0, fingerprint⟩

/-- Whether the rank is ready. -/
def isReady (s : Status) : Bool := s.ready = 1

end Status

end Unknowns
