import ObjectPack.Checksum
import ObjectPack.Container
import ObjectPack.Pointer.Chain

/-!
# Reading containers

`Container.Reader.ofBytes` accepts a byte string only if its header, its size and its checksum
agree and every unit record names a range inside it; after that, looking up a unit cannot fail.
Reading values out of a unit is checked once more: a fixed-width read outside the unit is a fault,
a reference slot or a text outside it reads as absent.
-/

namespace ObjectPack.Container

/-- An accepted container. -/
structure Reader where
  bytes : Bytes
  header : Header
  deriving Repr

/-- One data unit of an accepted container. -/
structure UnitReader where
  bytes : Bytes
  record : UnitRecord
  header : UnitHeader
  endian : Endian
  pointers : PointerEncoding
  deriving Repr

namespace Reader

/-- The byte order of the container. -/
def endian (r : Reader) : Endian := r.header.endian

/-- How many data units the container has. -/
def unitCount (r : Reader) : Nat := r.header.unitCount.toNat

/-- The record of unit `i`. -/
def record (r : Reader) (i : Nat) : UnitRecord :=
  .ofBytes r.endian ((r.bytes.drop (headerSize + i * recordSize)).take recordSize)

/-- Whether the record of unit `i` names a range of the container that can hold a unit header. -/
def recordFits (r : Reader) (i : Nat) : Bool :=
  let record := r.record i
  record.offset.toNat + record.size.toNat ≤ r.bytes.length && unitHeaderSize ≤ record.size.toNat

/-- Checks a byte string: header, magic, version, size, checksum, record table, and then every
unit in turn.  The first check that fails is reported. -/
def ofBytes (b : Bytes) : Except OpenError Reader := do
  let header ← Header.ofBytes b
  if ¬ header.hasMagic then throw .badMagic
  if ¬ header.hasVersion then throw (.unsupportedVersion header.version)
  if header.totalSize.toNat ≠ b.length then throw (.sizeMismatch header.totalSize b.length)
  let actual := Checksum.crc32 (b.drop headerSize)
  if actual ≠ header.checksum then throw (.checksumMismatch header.checksum actual)
  if b.length < header.recordsEnd then throw (.truncated header.recordsEnd b.length)
  -- The record table lies inside, so every record can be looked at.
  let r : Reader := ⟨b, header⟩
  match (List.range r.unitCount).find? fun i => ! r.recordFits i with
  | some i => throw (.unitOutOfBounds i)
  | none => return r

/-- Unit `i`, or `none` beyond the last one. -/
def unit? (r : Reader) (i : Nat) : Option UnitReader :=
  if i < r.unitCount then
    let record := r.record i
    let bytes := (r.bytes.drop record.offset.toNat).take record.size.toNat
    some ⟨bytes, record, .ofBytes r.endian bytes, r.endian, r.header.pointers⟩
  else none

/-- All units in record order. -/
def units (r : Reader) : List UnitReader := (List.range r.unitCount).filterMap r.unit?

end Reader

namespace UnitReader

/-- Offset of the root block. -/
def root? (u : UnitReader) : Option UInt32 :=
  if u.header.root = noRoot then none else some u.header.root

/-- The walk along the chained sites of the unit. -/
def chain (u : UnitReader) : Chain :=
  ⟨u.bytes, u.endian,
    if u.header.firstPointer = noPointers then none else some u.header.firstPointer,
    u.header.pointerCount.toNat⟩

/-- The chained sites of the unit in link order. -/
def chainedSites (u : UnitReader) : List Pointer := u.chain.toList

/-- The target of the reference stored at `site`, or `none` for a null reference and for a slot
outside the unit.  An absolute slot is null when it holds zero, a relative one when its distance
is zero, a chained one when all eight bytes are zero.  The target is cut to 32 bits. -/
def resolve (u : UnitReader) (site : UInt32) : Except Fault (Option UInt32) :=
  match u.bytes.slice? site.toNat Pointer.slotSize with
  | none => .ok none
  | some slot =>
    match u.pointers with
    | .absolute =>
      let target := u.endian.word64 slot 0
      .ok (if target = 0 then none else some target.toUInt32)
    | .relative =>
      -- The sum is taken in 64 bits; sites are not negative, so it can only be too large.
      let distance := (u.endian.word64 slot 0).toInt64.toInt
      if distance = 0 then .ok none
      else if (site.toNat : Int) + distance < 0x8000000000000000 then
        .ok (some (UInt32.ofInt ((site.toNat : Int) + distance)))
      else .error .overflow
    | .chained =>
      if slot.all (· = 0) then .ok none
      else .ok (some (UInt32.ofInt ((site.toNat : Int) + u.endian.delta32 slot 4)))

/-- The scalar stored at `position`. -/
def read (u : UnitReader) (f : Scalar.Format) (position : UInt32) : Except Fault Scalar :=
  match Scalar.decode? u.endian f (u.bytes.drop position.toNat) with
  | some s => .ok s
  | none => .error (.outsideUnit f.width position.toNat u.bytes.length)

/-- The text from `position` up to the next zero byte of the unit; `none` when there is no such
byte or the text is no UTF-8. -/
def text? (u : UnitReader) (position : UInt32) : Option String :=
  let tail := u.bytes.drop position.toNat
  let text := tail.takeWhile (· ≠ 0)
  if text.length < tail.length then Bytes.toText? text else none

end UnitReader

end ObjectPack.Container
