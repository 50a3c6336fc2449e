import ObjectPack.Fault
import ObjectPack.Pointer

/-!
# Container records

The fixed parts of a container:

* a header of 32 bytes: magic, markers for byte order and pointer encoding, version, checksum of all
  that follows the header, total size, and number of data units;
* one record of 16 bytes for every data unit;
* the data units, each of which opens with a unit header of 16 bytes.

Every field wider than a byte has the byte order that the header names; reserved bytes are zero.
-/

namespace ObjectPack.Container

/-- The first four bytes of every container. -/
def magic : Bytes := [0x47, 0x44, 0x41, 0x54]

/-- The version of the format. -/
def version : UInt32 := 1

/-- Size of the header in bytes. -/
def headerSize : Nat := 32

/-- Size of a unit's record in bytes. -/
def recordSize : Nat := 16

/-- Size of a unit header in bytes. -/
def unitHeaderSize : Nat := 16

/-- The least alignment of a data unit in a container. -/
def unitAlignment : Nat := 16

/-- What a unit header gives for the first chained site when there is none. -/
def noPointers : UInt32 := 0xffffffff

/-- What a unit header gives for the root when there is none. -/
def noRoot : UInt32 := 0xffffffff

/-- Why a byte string is no container. -/
inductive OpenError where
  | truncated (needed actual : Nat)
  | badMagic
  | unsupportedVersion (version : UInt32)
  | invalidEndian (marker : UInt8)
  | invalidPointerEncoding (marker : UInt8)
  | sizeMismatch (expected : UInt32) (actual : Nat)
  | checksumMismatch (expected actual : UInt32)
  | unitOutOfBounds (unit : Nat)
  deriving DecidableEq, Repr

/-- A word as eight hexadecimal digits. -/
def hexWord (w : UInt32) : String := (Endian.big.bytes32 w).toHex

/-- The explanation of an error. -/
def OpenError.message : OpenError → String
  | .truncated needed actual =>
    "container truncated: need " ++ toString needed ++ " bytes, have " ++ toString actual
  | .badMagic => "invalid magic bytes"
  | .unsupportedVersion version => "unsupported container version " ++ toString version.toNat
  | .invalidEndian marker => "invalid endian marker " ++ toString marker.toNat
  | .invalidPointerEncoding marker => "invalid pointer mode " ++ toString marker.toNat
  | .sizeMismatch expected actual =>
    "size mismatch: header says " ++ toString expected.toNat ++ " bytes, got " ++ toString actual
  | .checksumMismatch expected actual =>
    "checksum mismatch: expected " ++ hexWord expected ++ ", computed " ++ hexWord actual
  | .unitOutOfBounds unit => "data unit " ++ toString unit ++ " lies outside the container"

/-! ### Header -/

/-- The header of a container. -/
structure Header where
  /-- The four bytes found where the magic belongs. -/
  magic : Vector UInt8 4
  endian : Endian
  pointers : PointerEncoding
  version : UInt32
  /-- CRC-32 of everything after the header. -/
  checksum : UInt32
  totalSize : UInt32
  unitCount : UInt32
  deriving DecidableEq, Repr

namespace Header

/-- The header of an empty little-endian container, checksum and size not yet filled in. -/
def blank : Header :=
  ⟨#v[0x47, 0x44, 0x41, 0x54], .little, .chained, Container.version, 0, 0, 0⟩

/-- Whether the magic is that of a container. -/
def hasMagic (h : Header) : Bool := h.magic.toList = Container.magic

/-- Whether the version is the supported one. -/
def hasVersion (h : Header) : Bool := h.version = Container.version

/-- Offset of the first byte after the unit records. -/
def recordsEnd (h : Header) : Nat := headerSize + h.unitCount.toNat * recordSize

/-- Reads the header from the first 32 bytes. -/
def ofBytes (b : Bytes) : Except OpenError Header :=
  match b with
  -- Bytes 6 and 7 are reserved, as are those from 24 on.
  | m0 :: m1 :: m2 :: m3 :: order :: mode :: _ =>
    if b.length < headerSize then .error (.truncated headerSize b.length)
    else
      match Endian.ofMarker? order with
      | none => .error (.invalidEndian order)
      | some e =>
        match PointerEncoding.ofMarker? mode with
        | none => .error (.invalidPointerEncoding mode)
        | some pointers =>
          .ok ⟨#v[m0, m1, m2, m3], e, pointers, e.word32 b 8, e.word32 b 12, e.word32 b 16,
            e.word32 b 20⟩
  | _ => .error (.truncated headerSize b.length)

/-- The 32 bytes of a header. -/
def toBytes (h : Header) : Bytes :=
  h.magic.toList ++ [h.endian.marker, h.pointers.marker, 0, 0] ++ h.endian.bytes32 h.version
    ++ h.endian.bytes32 h.checksum ++ h.endian.bytes32 h.totalSize ++ h.endian.bytes32 h.unitCount
    ++ Bytes.zeros 8

@[simp] theorem length_toBytes (h : Header) : h.toBytes.length = headerSize := by
  simp [toBytes, headerSize]

end Header

/-! ### Unit records -/

/-- The record of one data unit. -/
structure UnitRecord where
  /-- Zero when packed; a loader may keep a file handle here. -/
  fileHandle : UInt64
  /-- Offset of the unit from the start of the container. -/
  offset : UInt32
  size : UInt32
  deriving DecidableEq, Repr

namespace UnitRecord

/-- The record that sixteen bytes stand for; bytes beyond the end count as absent. -/
def ofBytes (e : Endian) (b : Bytes) : UnitRecord := ⟨e.word64 b 0, e.word32 b 8, e.word32 b 12⟩

/-- Reads a record from the first sixteen bytes. -/
def read (e : Endian) (b : Bytes) : Except Fault UnitRecord :=
  if b.length < recordSize then .error .outOfRange else .ok (ofBytes e b)

/-- The sixteen bytes of a record. -/
def toBytes (e : Endian) (r : UnitRecord) : Bytes :=
  e.bytes64 r.fileHandle ++ e.bytes32 r.offset ++ e.bytes32 r.size

@[simp] theorem length_toBytes (e : Endian) (r : UnitRecord) :
    (r.toBytes e).length = recordSize := by
  simp [toBytes, recordSize]

end UnitRecord

/-! ### Unit headers -/

/-- The header at the start of a data unit; offsets count from there. -/
structure UnitHeader where
  /-- The first chained site, or `noPointers`. -/
  firstPointer : UInt32
  pointerCount : UInt32
  /-- The root block, or `noRoot`. -/
  root : UInt32
  deriving DecidableEq, Repr

namespace UnitHeader

/-- The header of a unit without chained sites and without root. -/
def blank : UnitHeader := ⟨noPointers, 0, noRoot⟩

/-- The unit header that sixteen bytes stand for; bytes beyond the end count as absent. -/
def ofBytes (e : Endian) (b : Bytes) : UnitHeader := ⟨e.word32 b 0, e.word32 b 4, e.word32 b 8⟩

/-- Reads a unit header from the first twelve bytes; the four after them are reserved. -/
def read (e : Endian) (b : Bytes) : Except Fault UnitHeader :=
  if b.length < 12 then .error .outOfRange else .ok (ofBytes e b)

/-- The sixteen bytes of a unit header. -/
def toBytes (e : Endian) (h : UnitHeader) : Bytes :=
  e.bytes32 h.firstPointer ++ e.bytes32 h.pointerCount ++ e.bytes32 h.root ++ Bytes.zeros 4

@[simp] theorem length_toBytes (e : Endian) (h : UnitHeader) :
    (h.toBytes e).length = unitHeaderSize := by
  simp [toBytes, unitHeaderSize]

end UnitHeader

end ObjectPack.Container
