import ObjectPack.Align
import ObjectPack.Digest
import ObjectPack.Platform
import ObjectPack.Pointer

/-!
# Drafts

A draft is a container under construction.  Its content stands in blocks: a block is registered
first, which gives it a reference, and opened and filled once, later.  All contents share one
buffer that only grows; a block's body says which range of it is the block's.  Inside a block, a
site is a slot that refers to another block or to a marked position, and a mark gives a reference
a position.

At most one data unit and, in it, at most one block are open.  A block belongs to the data unit that
was open when the block was opened.
-/

namespace ObjectPack

/-- A reference site inside a block. -/
structure Site where
  /-- Offset of the slot from the start of the block. -/
  offset : Nat
  target : Reference
  encoding : PointerEncoding
  deriving DecidableEq, Repr

/-- A reference that resolves to a position inside a block. -/
structure Mark where
  reference : Reference
  /-- Offset of the position from the start of the block. -/
  offset : Nat
  deriving DecidableEq, Repr

/-- What has been written into an opened block. -/
structure Body where
  /-- The data unit that the block belongs to. -/
  unit : Nat
  /-- Start of the content in the buffer of the draft. -/
  start : Nat
  /-- Size of the content so far. -/
  size : Nat
  /-- The sites, in the order of their offsets. -/
  sites : List Site
  /-- The marks, in the order in which they were set. -/
  marks : List Mark
  deriving DecidableEq, Repr

/-- A registered block. -/
structure Block where
  reference : Reference
  alignment : Nat
  /-- The greatest size of the content, where it is known. -/
  limit : Option Nat
  /-- The content; a block that has not been opened has none. -/
  body : Option Body
  deriving DecidableEq, Repr

/-- A data unit of a draft. -/
structure DraftUnit where
  signature : Digest
  root : Option Reference
  deriving DecidableEq, Repr

/-- A container under construction. -/
structure Draft where
  platform : Platform
  /-- How references are written where nothing else is said. -/
  encoding : PointerEncoding
  buffer : Bytes
  /-- The blocks in the order of their registration. -/
  blocks : List Block
  /-- The data units in the order of their registration. -/
  units : List DraftUnit
  /-- Index of the open data unit. -/
  currentUnit : Option Nat
  /-- Index of the open block. -/
  currentBlock : Option Nat
  supply : Supply
  deriving Repr

namespace Draft

/-- A draft without data units and blocks. -/
def blank (platform : Platform) (encoding : PointerEncoding) (supply : Supply) : Draft :=
  ⟨platform, encoding, [], [], [], none, none, supply⟩

/-- The byte order of the draft. -/
def endian (d : Draft) : Endian := d.platform.endian

/-- The open block, if any: its index, the block, and what has been written into it. -/
def active? (d : Draft) : Option (Nat × Block × Body) := do
  let index ← d.currentBlock
  let block ← d.blocks[index]?
  let body ← block.body
  return (index, block, body)

/-- The open block, or a fault. -/
def active (d : Draft) : Except Fault (Nat × Block × Body) :=
  match d.active? with
  | some found => .ok found
  | none => .error .noOpenBlock

/-- A fault if a block is open. -/
def requireNoBlock (d : Draft) : Except Fault Unit :=
  match d.active? with
  | some (_, block, _) => .error (.blockStillOpen block.reference)
  | none => .ok ()

/-- The index of the open data unit, or a fault. -/
def requireUnit (d : Draft) : Except Fault Nat :=
  match d.currentUnit with
  | some unit => .ok unit
  | none => .error .noOpenUnit

/-- Whether a block is open. -/
def isBlockOpen (d : Draft) : Bool := d.active?.isSome

/-! ### Data units -/

/-- The index of the data unit with this signature, registered now unless it is known. -/
def unitIndex (d : Draft) (signature : Digest) : Nat × Draft :=
  match d.units.findIdx? (·.signature = signature) with
  | some index => (index, d)
  | none => (d.units.length, { d with units := d.units ++ [⟨signature, none⟩] })

/-- Opens a data unit; no other may be open. -/
def openUnit (d : Draft) (index : Nat) : Except Fault Draft := do
  if let some unit := d.currentUnit then throw (.unitStillOpen unit)
  if d.units.length ≤ index then throw (.unknownUnit index)
  return { d with currentUnit := some index }

/-- Closes the open data unit; its last block has to be closed already. -/
def closeUnit (d : Draft) : Except Fault Draft := do
  d.requireNoBlock
  let _ ← d.requireUnit
  return { d with currentUnit := none }

/-- Makes a reference the root of the open data unit. -/
def setRoot (d : Draft) (reference : Reference) : Except Fault Draft := do
  let unit ← d.requireUnit
  return { d with units := d.units.modify unit ({ · with root := some reference }) }

/-! ### Blocks -/

/-- Takes a fresh reference that names nothing yet. -/
def takeReference (d : Draft) : Reference × Draft :=
  let (reference, supply) := d.supply.take
  (reference, { d with supply := supply })

/-- The index of the block that a reference names. -/
def blockIndex? (d : Draft) (reference : Reference) : Option Nat :=
  d.blocks.findIdx? (·.reference = reference)

/-- Registers a block; its alignment has to be a power of two. -/
def newBlock (d : Draft) (alignment : Nat) (limit : Option Nat) :
    Except Fault (Reference × Draft) := do
  if ¬ isPowerOfTwo alignment then throw (.blockAlignment alignment)
  let (reference, d) := d.takeReference
  return (reference, { d with blocks := d.blocks ++ [⟨reference, alignment, limit, none⟩] })

/-- Opens a block in the open data unit.  Every block is opened once. -/
def openBlock (d : Draft) (reference : Reference) : Except Fault Draft := do
  d.requireNoBlock
  let unit ← d.requireUnit
  match d.blockIndex? reference with
  | none => throw (.notABlock reference)
  | some index =>
    let block ← indexed d.blocks[index]?
    if block.body.isSome then throw (.openedTwice reference)
    -- The content begins where the buffer ends now.
    let body : Body := ⟨unit, d.buffer.length, 0, [], []⟩
    return { d with
      blocks := d.blocks.set index { block with body := some body }
      currentBlock := some index }

/-- Closes the open block and pads the buffer to the block's alignment. -/
def closeBlock (d : Draft) : Except Fault Draft := do
  let (_, block, body) ← d.active
  let padded ← alignUp body.size block.alignment
  return { d with buffer := d.buffer.padTo (body.start + padded), currentBlock := none }

/-- Offset of the cursor from the start of the open block. -/
def position (d : Draft) : Except Fault Nat := do
  let (_, _, body) ← d.active
  return body.size

/-- The draft with the body of block `index` changed. -/
def setBody (d : Draft) (index : Nat) (body : Body) : Draft :=
  { d with blocks := d.blocks.modify index ({ · with body := some body }) }

/-! ### Content -/

/-- Appends bytes to the open block. -/
def append (d : Draft) (b : Bytes) : Except Fault Draft := do
  let (index, block, body) ← d.active
  let stop := body.size + b.length
  if let some limit := block.limit then
    if limit < stop then throw (.overrun b.length block.reference stop limit)
  let d := d.setBody index { body with size := stop }
  return { d with buffer := d.buffer ++ b }

/-- Pads the open block with zero bytes up to a multiple of an alignment. -/
def align (d : Draft) (alignment : Nat) : Except Fault Draft := do
  let position ← d.position
  let padded ← alignUp position alignment
  if position < padded then d.append (Bytes.zeros (padded - position)) else return d

/-- Writes a scalar; the cursor has to stand at a multiple of its width. -/
def write (d : Draft) (s : Scalar) : Except Fault Draft := do
  let (_, block, body) ← d.active
  let width := s.format.width
  if body.size % width ≠ 0 then throw (.misaligned width body.size block.reference)
  d.append (s.encode d.endian)

/-- Writes a scalar behind the padding that it needs. -/
def writeAligned (d : Draft) (s : Scalar) : Except Fault Draft := do
  (← d.align s.format.width).write s

/-! ### References -/

/-- Writes a reference site.  Until the draft is linked the slot holds the number of the
reference. -/
def writeReferenceAs (d : Draft) (reference : Reference) (encoding : PointerEncoding) :
    Except Fault Draft := do
  let d ← d.align Pointer.slotSize
  -- The cursor is read again: padding has moved it.
  let (index, _, body) ← d.active
  let site : Site := ⟨body.size, reference, encoding⟩
  (d.setBody index { body with sites := body.sites ++ [site] }).write
    (.i64 (Int64.ofNat reference.id))

/-- Writes a reference site in the encoding of the draft. -/
def writeReference (d : Draft) (reference : Reference) : Except Fault Draft :=
  d.writeReferenceAs reference d.encoding

/-- Writes a slot that refers to nothing. -/
def writeNull (d : Draft) : Except Fault Draft := do
  (← d.align Pointer.slotSize).write (.u64 0)

/-- Writes a text slot: the reference of the text, its length in bytes and in characters. -/
def writeText (d : Draft) (reference : Reference) (byteCount charCount : UInt32) :
    Except Fault Draft := do
  let d ← d.writeReference reference
  let d ← d.write (.u32 byteCount)
  d.write (.u32 charCount)

/-- Writes the location of a data unit: its container and its entry there. -/
def writeLocation (d : Draft) (container entry : UInt32) : Except Fault Draft := do
  let d ← d.writeAligned (.u32 container)
  d.write (.u32 entry)

/-- Whether a reference has been marked in a data unit. -/
def isMarked (d : Draft) (unit : Nat) (reference : Reference) : Bool :=
  d.blocks.any fun block =>
    match block.body with
    | some body => body.unit = unit && body.marks.any (·.reference = reference)
    | none => false

/-- Makes a reference resolve to the cursor.  A reference that names a block cannot be marked, any
other once in every data unit. -/
def mark (d : Draft) (reference : Reference) : Except Fault Draft := do
  let (index, _, body) ← d.active
  let unit ← d.requireUnit
  if (d.blockIndex? reference).isSome || d.isMarked unit reference then
    throw (.alreadyTargeted reference)
  return d.setBody index { body with marks := body.marks ++ [⟨reference, body.size⟩] }

end Draft

end ObjectPack
