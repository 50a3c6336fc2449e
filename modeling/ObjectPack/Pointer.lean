import ObjectPack.Bytes.Scalar

/-!
# Pointers

A reference site is a slot of eight bytes.  A pointer records where the slot stands and what it
points at, both as offsets from the start of a data unit; the encoding says how that is written
into the slot.

A chained slot holds two 32-bit deltas from the slot itself: to the next chained slot (zero for
the last one) and to the target.  A loader follows the chain and patches every slot in place.
-/

namespace ObjectPack

/-- How a reference site is written. -/
inductive PointerEncoding where
  /-- Deltas to the next site and to the target. -/
  | chained
  /-- The 64-bit offset of the target from the start of the unit. -/
  | absolute
  /-- The 64-bit delta from the site to the target. -/
  | relative
  deriving DecidableEq, Repr, Inhabited

namespace PointerEncoding

/-- The byte that records this encoding in a container. -/
def marker : PointerEncoding → UInt8
  | .chained => 0
  | .absolute => 1
  | .relative => 2

/-- The encoding that a marker byte stands for. -/
def ofMarker? (b : UInt8) : Option PointerEncoding :=
  if b = 0 then some .chained
  else if b = 1 then some .absolute
  else if b = 2 then some .relative
  else none

theorem ofMarker?_marker (p : PointerEncoding) : ofMarker? p.marker = some p := by
  cases p <;> decide

end PointerEncoding

/-- A reference site and its target, as offsets from the start of a data unit. -/
structure Pointer where
  position : UInt32
  target : UInt32
  deriving DecidableEq, Repr

/-- The delta as a signed 32-bit number, if it is one. -/
def delta32? (d : Int) : Option Int32 :=
  if -0x80000000 ≤ d ∧ d < 0x80000000 then some (Int32.ofInt d) else none

/-- The offset as an unsigned 32-bit number, if it is one. -/
def offset32? (n : Int) : Option UInt32 :=
  if 0 ≤ n ∧ n < 0x100000000 then some (UInt32.ofNat n.toNat) else none

/-- The signed distance from one offset to another. -/
def distance (start stop : UInt32) : Int := (stop.toNat : Int) - (start.toNat : Int)

namespace Pointer

/-- Size of a slot in bytes. -/
def slotSize : Nat := 8

/-- The signed distance from the site to its target. -/
def delta (p : Pointer) : Int := distance p.position p.target

/-- The chained slot; `next` is the position of the following site.  There is none when the link
or the target is out of the reach of a 32-bit delta. -/
def encodeChained? (p : Pointer) (next : Option UInt32) (e : Endian) : Option Bytes := do
  let link ← match next with
    | none => some 0
    | some n => delta32? (distance p.position n)
  let target ← delta32? p.delta
  return (Scalar.i32 link).encode e ++ (Scalar.i32 target).encode e

/-- The slot that holds the offset of the target. -/
def encodeAbsolute (p : Pointer) (e : Endian) : Bytes :=
  (Scalar.u64 p.target.toUInt64).encode e

/-- The slot that holds the distance to the target. -/
def encodeRelative (p : Pointer) (e : Endian) : Bytes := (Scalar.i64 (Int64.ofInt p.delta)).encode e

end Pointer

/-- The signed 32-bit number stored at `start`; bytes beyond the end count as absent. -/
def Endian.delta32 (e : Endian) (b : Bytes) (start : Nat) : Int := (e.word32 b start).toInt32.toInt

end ObjectPack
