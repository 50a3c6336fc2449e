import ObjectPack.Checksum
import ObjectPack.Container
import ObjectPack.Draft.Section

/-!
# Linking

Linking turns a finished draft into a container.  In every data unit equal blocks are merged, the
remaining ones are placed one after another at their alignments behind the unit header, and every
site is patched with the place of its target.  The units follow the container header and the unit
records.
-/

namespace ObjectPack

/-- Why a finished draft cannot be linked. -/
inductive LinkError where
  | unitTooLarge (unit : Nat)
  | containerTooLarge
  /-- A chained site cannot reach the next site or its target. -/
  | deltaOverflow (position target : UInt32)
  deriving DecidableEq, Repr

/-- The explanation of an error. -/
def LinkError.message : LinkError → String
  | .unitTooLarge unit => "data unit " ++ toString unit ++ " exceeds the 32-bit offset range"
  | .containerTooLarge => "container exceeds the 32-bit offset range"
  | .deltaOverflow position target =>
    "pointer site at " ++ toString position.toNat ++ " cannot reach target "
      ++ toString target.toNat ++ " with a 32-bit delta"

/-- Where a data unit came to stand, and what became of its blocks. -/
structure UnitSummary where
  signature : Digest
  /-- Offset of the unit from the start of the container. -/
  offset : Nat
  size : Nat
  /-- Blocks that remain after merging. -/
  blocks : Nat
  /-- Blocks that were merged into an earlier one. -/
  merged : Nat
  /-- Reference sites of the remaining blocks. -/
  pointers : Nat
  deriving DecidableEq, Repr

/-- A container and where its data units stand in it. -/
structure PackedContainer where
  bytes : Bytes
  units : List UnitSummary
  deriving DecidableEq, Repr

/-! ### Placing -/

/-- A section and its offset from the start of its data unit. -/
structure Placement where
  placed : Section
  start : Nat

/-- Places sections one after another from `position` on; the result also tells where they end. -/
def Placement.place (unit : Nat) :
    Nat → List Section → Except (Failure LinkError) (List Placement × Nat)
  | position, [] =>
    if position < wordLimit then .ok ([], position) else .error (.error (.unitTooLarge unit))
  | position, s :: rest => do
    if wordLimit ≤ position then throw (.error (.unitTooLarge unit))
    let start ← alignUp position s.alignment
    let (placements, stop) ← place unit (start + s.content.length) rest
    return (⟨s, start⟩ :: placements, stop)

/-- The places of a section and of its marks. -/
def Placement.targets (p : Placement) : List (Reference × Nat) :=
  (p.placed.reference, p.start) :: p.placed.marks.map fun m => (m.reference, p.start + m.offset)

/-- The contents at their places, zero bytes between them. -/
def Placement.fill (placements : List Placement) (b : Bytes) : Bytes :=
  placements.foldl (fun b p => b.padTo p.start ++ p.placed.content) b

/-- The place of a reference, or a fault when it has none in the data unit. -/
def findTarget (targets : List (Reference × Nat)) (reference : Reference) : Except Fault Nat :=
  match targets.lookup reference with
  | some place => .ok place
  | none => .error (.dangling reference)

/-- The sites of a placed section as pointers, each with its encoding. -/
def Placement.pointers (targets : List (Reference × Nat)) (aliases : Aliases) (p : Placement) :
    Except Fault (List (Pointer × PointerEncoding)) :=
  p.placed.sites.mapM fun site => do
    let target ← findTarget targets (aliases.resolve site.target)
    return (⟨UInt32.ofNat (p.start + site.offset), UInt32.ofNat target⟩, site.encoding)

/-! ### Patching -/

/-- The slot of a chained pointer; `next` is the position of the chained pointer behind it. -/
def chainedSlot (e : Endian) (p : Pointer) (next : Option UInt32) : Except LinkError Bytes :=
  match p.encodeChained? next e with
  | some slot => .ok slot
  | none =>
    match next with
    | some n =>
      if (delta32? (distance p.position n)).isNone then .error (.deltaOverflow p.position n)
      else .error (.deltaOverflow p.position p.target)
    | none => .error (.deltaOverflow p.position p.target)

/-- The slots of chained pointers in link order, each with its position. -/
def chainedSlots (e : Endian) : List Pointer → Except LinkError (List (Nat × Bytes))
  | [] => .ok []
  | p :: rest => do
    let slot ← chainedSlot e p (rest.head?.map (·.position))
    let slots ← chainedSlots e rest
    return (p.position.toNat, slot) :: slots

/-- The slot of a pointer whose encoding does not depend on other pointers. -/
def plainSlot? (e : Endian) : Pointer × PointerEncoding → Option (Nat × Bytes)
  | (_, .chained) => none
  | (p, .absolute) => some (p.position.toNat, p.encodeAbsolute e)
  | (p, .relative) => some (p.position.toNat, p.encodeRelative e)

/-- The pointers that are written as parts of the chain. -/
def chainedPointers (pointers : List (Pointer × PointerEncoding)) : List Pointer :=
  pointers.filterMap fun (p, encoding) => if encoding = .chained then some p else none

/-- Writes slots at their positions. -/
def patchAll (b : Bytes) (slots : List (Nat × Bytes)) : Bytes :=
  slots.foldl (fun b (position, slot) => b.overwrite position slot) b

/-! ### Data units -/

/-- A data unit as it will stand in the container. -/
structure LinkedUnit where
  bytes : Bytes
  alignment : Nat
  blocks : Nat
  merged : Nat
  pointers : Nat

/-- Merges, places and patches the sections of a data unit. -/
def LinkedUnit.ofSections (e : Endian) (unit : Nat) (root : Option Reference)
    (sections : List Section) : Except (Failure LinkError) LinkedUnit := do
  let (kept, aliases) := Section.merge e sections
  let (placements, _) ← Placement.place unit Container.unitHeaderSize kept
  -- Sites may refer to blocks and marks that come later, so all places are collected first.
  let targets := placements.flatMap Placement.targets
  let pointers ← placements.mapM (·.pointers targets aliases)
  let pointers := pointers.flatten
  let chained := chainedPointers pointers
  let slots ← (chainedSlots e chained).mapError .error
  let rootOffset ← match root with
    | none => pure Container.noRoot
    | some reference => do
      let place ← findTarget targets (aliases.resolve reference)
      pure (UInt32.ofNat place)
  -- A loader starts at the first chained pointer.
  let header : Container.UnitHeader :=
    ⟨(chained.head?.map (·.position)).getD Container.noPointers, UInt32.ofNat chained.length,
      rootOffset⟩
  let content := Placement.fill placements (header.toBytes e)
  return {
    bytes := patchAll content (pointers.filterMap (plainSlot? e) ++ slots)
    alignment := kept.foldl (fun a s => max a s.alignment) Container.unitAlignment
    blocks := kept.length
    merged := sections.length - kept.length
    pointers := pointers.length }

/-! ### Containers -/

/-- Sets data units behind `b`, each at its alignment; the result also holds their offsets. -/
def appendImages : Bytes → List LinkedUnit → Except (Failure LinkError) (Bytes × List Nat)
  | b, [] => .ok (b, [])
  | b, image :: rest => do
    if wordLimit ≤ b.length then throw (.error .containerTooLarge)
    let offset ← alignUp b.length image.alignment
    let (b, offsets) ← appendImages (b.padTo offset ++ image.bytes) rest
    return (b, offset :: offsets)

/-- What a container reports of a data unit. -/
def LinkedUnit.summary (image : LinkedUnit) (signature : Digest) (offset : Nat) : UnitSummary :=
  ⟨signature, offset, image.bytes.length, image.blocks, image.merged, image.pointers⟩

/-- The record of a data unit. -/
def UnitSummary.record (u : UnitSummary) : Container.UnitRecord :=
  ⟨0, UInt32.ofNat u.offset, UInt32.ofNat u.size⟩

namespace Draft

/-- Sets the data units behind the header and the unit records. -/
def joinUnits (d : Draft) (images : List LinkedUnit) :
    Except (Failure LinkError) PackedContainer := do
  let recordsEnd := Container.headerSize + images.length * Container.recordSize
  let (laid, offsets) ← appendImages (Bytes.zeros recordsEnd) images
  let units := ((d.units.zip images).zip offsets).map fun ((unit, image), offset) =>
    image.summary unit.signature offset
  if wordLimit ≤ laid.length then throw (.error .containerTooLarge)
  -- What the checksum covers: all that follows the header.
  let rest := units.flatMap (·.record.toBytes d.endian) ++ laid.drop recordsEnd
  let header : Container.Header :=
    { Container.Header.blank with
      endian := d.endian
      pointers := d.encoding
      checksum := Checksum.crc32 rest
      totalSize := UInt32.ofNat laid.length
      unitCount := UInt32.ofNat units.length }
  return ⟨header.toBytes ++ rest, units⟩

/-- A fault unless all is closed and every registered block has been written. -/
def requireFinished (d : Draft) : Except Fault Unit := do
  d.requireNoBlock
  if let some unit := d.currentUnit then throw (.unitStillOpen unit)
  if let some block := d.blocks.find? (·.body.isNone) then throw (.neverWritten block.reference)

/-- Turns a finished draft into a container. -/
def link (d : Draft) : Except (Failure LinkError) PackedContainer := do
  d.requireFinished
  let images ← (d.units.zipIdx).mapM fun (unit, index) =>
    LinkedUnit.ofSections d.endian index unit.root (d.sections index)
  d.joinUnits images

end Draft

end ObjectPack
