import ObjectPack.Draft.Link
import ObjectPack.Draft.Perform
import ObjectPack.Model.Layout
import ObjectPack.Registry

/-!
# Packing models

Packing writes a data unit of a solved model, and every data unit that it reaches, into a draft.
A data unit consists of a block of texts, registered first and filled last, and of one block for
every object and every collection with elements.  The root object's block comes first; when a row
that refers to a block is written, the block is registered and put off until its turn comes.
-/

namespace ObjectPack

/-- Why a model cannot be packed. -/
inductive PackError where
  /-- The row to start from is not that of a data unit. -/
  | invalidRoot (row : Nat)
  /-- A custom struct does not write as many bytes as it declares. -/
  | structSize (name : String) (declared written : Nat)
  | link (error : LinkError)
  deriving DecidableEq, Repr

/-- The explanation of an error. -/
def PackError.message : PackError → String
  | .invalidRoot row => "member " ++ toString row ++ " is not a data unit"
  | .structSize name declared written =>
    "struct \x60" ++ name ++ "\x60 wrote " ++ toString written ++ " bytes, declared "
      ++ toString declared
  | .link error => error.message

namespace Packing

/-- An error together with the references that are left at that point. -/
structure Stop where
  error : PackError
  supply : Supply
  deriving Repr

/-- What packing gives: a result, a broken contract, or an error. -/
abbrev Result (α : Type) := Except (Failure Stop) α

/-- The state of packing. -/
structure Packer where
  draft : Draft
  /-- The rows of data units that have been met and not written. -/
  units : List Nat
  /-- The signatures of all data units that have been met. -/
  met : List Digest
  /-- The blocks of the open unit that are registered and not written, with the rows they hold the
  data of. -/
  blocks : List (Reference × Nat)
  /-- The texts that the open unit uses. -/
  texts : List Nat

/-- Replaces the draft by the result of an operation on it. -/
def Packer.onDraft (p : Packer) (f : Draft → Except Fault Draft) : Except Fault Packer := do
  return { p with draft := ← f p.draft }

/-- Registers the block that holds what a row owns and puts it off. -/
def deferBlock (m : Model) (p : Packer) (row : Nat) : Except Fault (Reference × Packer) := do
  let alignment ← m.blockAlignment row
  let size ← m.blockSize row
  let (reference, draft) ← p.draft.newBlock alignment (some size)
  return (reference, { p with draft := draft, blocks := p.blocks ++ [(reference, row)] })

/-- Schedules the data unit of a row unless one of its signature has been met. -/
def meet (p : Packer) (row : Nat) (signature : Digest) : Packer :=
  if p.met.contains signature then p
  else { p with units := p.units ++ [row], met := signature :: p.met }

/-! ### Rows -/

/-- Writes a slot that refers to the block of a row. -/
def referToBlock (m : Model) (p : Packer) (row : Nat) : Except Fault Packer := do
  let (reference, p) ← deferBlock m p row
  p.onDraft (·.writeReference reference)

/-- Writes a row whose data stands elsewhere. -/
def writePresent (m : Model) (p : Packer) (i : Nat) : Except Fault Packer := do
  let row ← m.row i
  match row.kind with
  | .string =>
    let index ← m.requireStart i
    let text ← m.texts.entry index
    let p ← p.onDraft
      (·.writeText text.reference (UInt32.ofNat text.byteCount) (UInt32.ofNat text.charCount))
    return { p with texts := p.texts ++ [index] }
  | .object => referToBlock m p i
  | .array | .dictionary =>
    -- The slot is followed by the count of elements, twice.
    let count := UInt32.ofNat row.count
    let p ← if count = 0 then p.onDraft (·.writeNull) else referToBlock m p i
    p.onDraft (·.performAll [.scalar (.u32 count), .scalar (.u32 count)])
  | _ => throw (.unexpectedMember i row.name row.kind "a reference")

/-- Writes a row whose value is absent. -/
def writeAbsent (m : Model) (p : Packer) (i : Nat) : Except Fault Packer := do
  let row ← m.row i
  match row.kind with
  | .string => p.onDraft (·.performAll [.nullReference, .scalar (.u32 0), .scalar (.u32 0)])
  | .object => p.onDraft (·.writeNull)
  | .dataUnit =>
    p.onDraft (·.writeLocation Location.unknown.container Location.unknown.entry)
  | _ => throw (.unexpectedMember i row.name row.kind "null")

/-- Writes a custom value and checks how much it writes. -/
def writeStruct (p : Packer) (c : CustomStruct) : Result Packer := do
  let before ← p.draft.position
  let p ← p.onDraft (·.performAll c.writes)
  let after ← p.draft.position
  let written := after - before
  if written ≠ c.size then throw (.error ⟨.structSize c.name c.size written, p.draft.supply⟩)
  return p

/-- Writes one row inline at its alignment. -/
def writeRow (m : Model) (registry : Registry) (p : Packer) (i : Nat) : Result Packer := do
  let alignment ← m.alignment i
  let p ← p.onDraft (·.align alignment)
  let row ← m.row i
  match row.value with
  | .bool value => p.onDraft (·.perform (.bool value))
  | .bitSet word => p.onDraft (·.write (.u32 word))
  | .scalar value => p.onDraft (·.write value)
  | .enum enumeration value => p.onDraft (·.write (enumeration.pack value))
  | .struct value => writeStruct p value
  | .dataUnit signature =>
    let location := registry.locate signature
    let p ← p.onDraft (·.writeLocation location.container location.entry)
    return meet p i signature
  | .present => writePresent m p i
  | .null => writeAbsent m p i

/-! ### Blocks and data units -/

/-- Fills the block of a row with what the row owns. -/
def fillBlock (m : Model) (registry : Registry) (p : Packer) (block : Reference × Nat) :
    Result Packer := do
  let (reference, owner) := block
  let p ← p.onDraft (·.openBlock reference)
  let members ← m.members owner
  let p ← members.foldM (writeRow m registry) p
  p.onDraft (·.closeBlock)

/-- Fills the blocks put off so far, then those put off meanwhile, for at most `rounds` rounds.
Blocks that are nested more deeply than there are rows would contain themselves. -/
def fillBlocks (m : Model) (registry : Registry) : Nat → Packer → Result Packer
  | rounds, p =>
    match p.blocks with
    | [] => .ok p
    | blocks =>
      match rounds with
      | 0 => .error (.fault .outOfRange)
      | rounds + 1 => do
        let p ← blocks.foldlM (fillBlock m registry) { p with blocks := [] }
        fillBlocks m registry rounds p

/-- Writes the data unit of a row. -/
def packUnit (m : Model) (registry : Registry) (p : Packer) (i : Nat) : Result Packer := do
  let row ← m.row i
  match row.value.dataUnit? with
  | none => throw (.fault (.noDataUnit i))
  | some signature =>
    let root ← m.requireStart i
    let (unit, draft) := p.draft.unitIndex signature
    let draft ← draft.openUnit unit
    -- Which texts the unit uses is known only at its end.
    let (textBlock, draft) ← draft.newBlock 1 none
    let (rootBlock, p) ← deferBlock m { p with draft := draft } root
    let p ← p.onDraft (·.setRoot rootBlock)
    let p ← fillBlocks m registry (m.size + 1) p
    let p ← p.onDraft fun d => m.texts.fillBlock d textBlock p.texts
    let p ← p.onDraft (·.closeUnit)
    return { p with texts := [] }

/-- Writes the data units met so far, then those met meanwhile, for at most `rounds` rounds.
Units of one signature are met once, so there are no more rounds than rows. -/
def packUnits (m : Model) (registry : Registry) : Nat → Packer → Result Packer
  | 0, p => .ok p
  | rounds + 1, p =>
    match p.units with
    | [] => .ok p
    | units => do
      let p ← units.foldlM (packUnit m registry) { p with units := [] }
      packUnits m registry rounds p

/-- Writes the data unit of a row and every data unit that it reaches into a draft. -/
def packFrom (m : Model) (registry : Registry) (draft : Draft) (i : Nat) : Result Draft := do
  let row ← m.row i
  if row.kind ≠ .dataUnit ∨ row.value.isNull then
    throw (.error ⟨.invalidRoot i, draft.supply⟩)
  let p : Packer := ⟨draft, [], [], [], []⟩
  let p := match row.value.dataUnit? with
    | some signature => meet p i signature
    | none => p
  return (← packUnits m registry (m.size + 1) p).draft

end Packing

/-- Packs the data unit of a row and every data unit that it reaches.  The result also holds the
references that are left, after an error those left at that point. -/
def Model.pack (m : Model) (registry : Registry) (platform : Platform) (encoding : PointerEncoding)
    (i : Nat) : Except Fault (Except PackError PackedContainer × Supply) :=
  match Packing.packFrom m registry (.blank platform encoding m.supply) i with
  | .error (.fault f) => .error f
  | .error (.error stop) => .ok (.error stop.error, stop.supply)
  | .ok draft =>
    match draft.link with
    | .error (.fault f) => .error f
    | .error (.error e) => .ok (.error (.link e), draft.supply)
    | .ok container => .ok (.ok container, draft.supply)

end ObjectPack
