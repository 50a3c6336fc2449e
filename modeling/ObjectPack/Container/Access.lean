import ObjectPack.Container.Reader

/-!
# Reading containers access by access

`Container.Reader` says what an accepted container holds.  This is how it is looked at: byte by byte and
range by range, with positions in machine words.  An index or a range that leaves the bytes is a fault here,
and so is a sum that leaves its word; opening has no other protection against them than its own checks.
-/

namespace ObjectPack

/-! ### Machine words and accesses -/

/-- The word of a position in memory ends here. -/
def sizeLimit : Nat := 0x10000000000000000

/-- A position in memory. -/
def sized (n : Nat) : Except Fault Nat := if n < sizeLimit then .ok n else .error .overflow

/-- A signed number of 64 bits. -/
def signedWord (n : Int) : Except Fault Int :=
  if -0x8000000000000000 ≤ n ∧ n < 0x8000000000000000 then .ok n else .error .overflow

/-- A counter stepped down. -/
def oneLess : Nat → Except Fault Nat
  | 0 => .error .overflow
  | n + 1 => .ok n

namespace Bytes

/-- The byte at an index. -/
def byteAt (b : Bytes) (i : Nat) : Except Fault UInt8 := indexed b[i]?

/-- The bytes from `start` up to `stop`. -/
def range (b : Bytes) (start stop : Nat) : Except Fault Bytes :=
  if start ≤ stop ∧ stop ≤ b.length then .ok ((b.drop start).take (stop - start)) else .error .outOfRange

end Bytes

/-- The 32-bit word in the first four bytes. -/
def Endian.load32 (e : Endian) (b : Bytes) : Except Fault UInt32 := do
  return e.word32 (← b.range 0 4) 0

/-- The signed 32-bit number in the first four bytes. -/
def Endian.loadDelta32 (e : Endian) (b : Bytes) : Except Fault Int := do
  return (← e.load32 b).toInt32.toInt

/-! ### Walking chains -/

namespace Chain

/-- One step of the walk. -/
def advance (c : Chain) : Except Fault (Option Pointer × Chain) := do
  if c.remaining = 0 then return (none, c)
  match c.next with
  | none => return (none, c)
  | some position =>
    let stop ← sized (position.toNat + Pointer.slotSize)
    if c.unit.length < stop then return (none, { c with next := none })
    let slot ← c.unit.range position.toNat stop
    let link ← c.endian.loadDelta32 (← slot.range 0 4)
    let delta ← c.endian.loadDelta32 (← slot.range 4 8)
    let remaining ← oneLess c.remaining
    let next ← if link = 0 then pure none else offset32? <$> signedWord (position.toNat + link)
    let target ← signedWord (position.toNat + delta)
    return ((offset32? target).map (⟨position, ·⟩), { c with next := next, remaining := remaining })

/-- The results of the next `n` steps. -/
def visits : Nat → Chain → Except Fault (List (Option Pointer))
  | 0, _ => .ok []
  | n + 1, c => do
    let (found, rest) ← c.advance
    return found :: (← visits n rest)

end Chain

namespace Container

/-! ### Opening -/

/-- What a marker stands for, or the error of a marker that stands for nothing. -/
def marked {α : Type} (found : Option α) (unknown : OpenError) : Except (Failure OpenError) α :=
  match found with
  | some a => .ok a
  | none => .error (.error unknown)

namespace Header

theorem size_magic (m0 m1 m2 m3 : UInt8) : #[m0, m1, m2, m3].size = 4 := rfl

/-- Reads the header from the first 32 bytes. -/
def load (b : Bytes) : Except (Failure OpenError) Header := do
  if b.length < headerSize then throw (.error (.truncated headerSize b.length))
  let order ← b.byteAt 4
  let e ← marked (Endian.ofMarker? order) (.invalidEndian order)
  let mode ← b.byteAt 5
  let pointers ← marked (PointerEncoding.ofMarker? mode) (.invalidPointerEncoding mode)
  let m0 ← b.byteAt 0
  let m1 ← b.byteAt 1
  let m2 ← b.byteAt 2
  let m3 ← b.byteAt 3
  return {
    magic := ⟨#[m0, m1, m2, m3], size_magic m0 m1 m2 m3⟩
    endian := e
    pointers := pointers
    version := ← e.load32 (← b.range 8 12)
    checksum := ← e.load32 (← b.range 12 16)
    totalSize := ← e.load32 (← b.range 16 20)
    unitCount := ← e.load32 (← b.range 20 24) }

/-- Offset of the first byte after the unit records. -/
def loadRecordsEnd (h : Header) : Except Fault Nat := do
  sized (headerSize + (← sized (h.unitCount.toNat * recordSize)))

end Header

namespace Reader

/-- The record of unit `i`. -/
def loadRecord (r : Reader) (i : Nat) : Except Fault UnitRecord := do
  let start ← sized (headerSize + (← sized (i * recordSize)))
  UnitRecord.read r.endian (← r.bytes.range start (← sized (start + recordSize)))

/-- Checks that the record of unit `i` names a range of the container that can hold a unit header. -/
def checkUnit (r : Reader) (i : Nat) : Except (Failure OpenError) Unit := do
  let record ← r.loadRecord i
  let stop ← sized (record.offset.toNat + record.size.toNat)
  if r.bytes.length < stop ∨ record.size.toNat < unitHeaderSize then
    throw (.error (.unitOutOfBounds i))

/-- Checks a byte string: header, magic, version, size, checksum, record table, and then every unit in
turn. -/
def load (b : Bytes) : Except (Failure OpenError) Reader := do
  let header ← Header.load b
  if ¬ header.hasMagic then throw (.error .badMagic)
  if ¬ header.hasVersion then throw (.error (.unsupportedVersion header.version))
  if header.totalSize.toNat ≠ b.length then
    throw (.error (.sizeMismatch header.totalSize b.length))
  let actual := Checksum.crc32 (← b.range headerSize b.length)
  if actual ≠ header.checksum then throw (.error (.checksumMismatch header.checksum actual))
  let recordsEnd ← header.loadRecordsEnd
  if b.length < recordsEnd then throw (.error (.truncated recordsEnd b.length))
  let r : Reader := ⟨b, header⟩
  (List.range r.unitCount).forM r.checkUnit
  return r

/-- Unit `i`, or `none` beyond the last one. -/
def loadUnit? (r : Reader) (i : Nat) : Except Fault (Option UnitReader) := do
  if r.unitCount ≤ i then return none
  let record ← r.loadRecord i
  let stop ← sized (record.offset.toNat + record.size.toNat)
  let bytes ← r.bytes.range record.offset.toNat stop
  let header ← UnitHeader.read r.endian bytes
  return some ⟨bytes, record, header, r.endian, r.header.pointers⟩

/-- All units in record order. -/
def loadUnits (r : Reader) : Except Fault (List UnitReader) := do
  return ((← (List.range r.unitCount).mapM r.loadUnit?).filterMap id)

end Reader

/-- The text from `position` up to the next zero byte of the unit; `none` when there is no such byte or the
text is no UTF-8. -/
def UnitReader.loadText? (u : UnitReader) (position : UInt32) : Except Fault (Option String) := do
  if u.bytes.length < position.toNat then return none
  let tail ← u.bytes.range position.toNat u.bytes.length
  match tail.findIdx? (· = 0) with
  | none => return none
  | some stop => return Bytes.toText? (← tail.range 0 stop)

end Container

end ObjectPack
