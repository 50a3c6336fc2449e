import ObjectPack.Align
import ObjectPack.Model

/-!
# Layout

Size and alignment of rows, inline in their owner and of the block that holds what they own.  The
rows of a block stand one after another, each at the next multiple of its alignment, and the block
is as aligned as its most aligned row.
-/

namespace ObjectPack

namespace Row

/-- Alignment inline in the owner.  A custom struct without a value has 1, an enumeration without a
value none. -/
def alignment? (r : Row) : Option Nat :=
  match r.kind with
  | .struct => some (r.value.struct?.elim 1 (·.alignment))
  | .enum => r.value.enum?.map fun (e, _) => e.underlying.alignment
  | kind => some kind.alignment

/-- Size inline in the owner.  A custom struct without a value has 0, an enumeration without a value
none. -/
def size? (r : Row) : Option Nat :=
  match r.kind with
  | .struct => some (r.value.struct?.elim 0 (·.size))
  | .enum => r.value.enum?.map fun (e, _) => e.underlying.byteSize
  | kind => some kind.byteSize

end Row

namespace Model

/-- Alignment of row `i` inline in its owner. -/
def alignment (m : Model) (i : Nat) : Except Fault Nat := do
  let row ← m.row i
  match row.alignment? with
  | some alignment => return alignment
  | none => throw (.enumWithoutValue i row.name)

/-- Size of row `i` inline in its owner. -/
def byteSize (m : Model) (i : Nat) : Except Fault Nat := do
  let row ← m.row i
  match row.size? with
  | some size => return size
  | none => throw (.enumWithoutValue i row.name)

/-- The greatest alignment of some rows. -/
def greatestAlignment (m : Model) (s : Span) : Except Fault Nat :=
  s.foldM (fun greatest i => (m.alignment i).map (max greatest)) 0

/-- Alignment of the block that holds what row `i` owns. -/
def blockAlignment (m : Model) (i : Nat) : Except Fault Nat := do
  let row ← m.row i
  match row.kind with
  | .struct => m.alignment i
  | .object =>
    let members ← row.members
    if members.length = 0 then return 1 else m.greatestAlignment members
  | .array | .dictionary =>
    match ← row.firstElements with
    | (some first, some second) => return max (← m.alignment first) (← m.alignment second)
    | (some first, none) => m.alignment first
    | _ => return 1
  | .string => return 1
  | kind => return max kind.alignment 1

/-- Where row `i` stands behind `offset` bytes, and where it ends. -/
def placeRow (m : Model) (offset i : Nat) : Except Fault (Nat × Nat) := do
  let start ← alignUp offset (← m.alignment i)
  let stop ← addWord start (← m.byteSize i)
  return (start, stop)

/-- How far the rows of a range reach when they are placed one after another. -/
def extent (m : Model) (s : Span) : Except Fault Nat :=
  s.foldM (fun offset i => (m.placeRow offset i).map (·.2)) 0

/-- Size of the block that holds what row `i` owns. -/
def blockSize (m : Model) (i : Nat) : Except Fault Nat := do
  let row ← m.row i
  match row.kind with
  | .object | .array | .dictionary =>
    let extent ← m.extent (← row.members)
    alignUp extent (← m.blockAlignment i)
  | .string => addWord (row.count % wordLimit) 1
  | _ => m.byteSize i

/-- The offsets of the rows that row `i` owns in their block. -/
def memberOffsets (m : Model) (i : Nat) : Except Fault (List Nat) := do
  let members ← m.members i
  let (offsets, _) ← members.foldM
    (fun (offsets, offset) j =>
      (m.placeRow offset j).map fun (start, stop) => (start :: offsets, stop))
    ([], 0)
  return offsets.reverse

end Model

end ObjectPack
