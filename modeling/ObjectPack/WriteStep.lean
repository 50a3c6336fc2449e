import ObjectPack.Bytes.Scalar

/-!
# Write steps

The elementary writes that make up the content of a block, as data.  A custom value type describes
its packed form by a list of them.
-/

namespace ObjectPack

/-- One elementary write at the cursor of a block. -/
inductive WriteStep where
  /-- A scalar; the cursor has to stand at a multiple of its width. -/
  | scalar (value : Scalar)
  /-- A scalar behind the padding that it needs. -/
  | aligned (value : Scalar)
  /-- Raw bytes. -/
  | bytes (value : Bytes)
  /-- A number of zero bytes. -/
  | zeros (count : Nat)
  /-- Zero bytes up to a multiple of an alignment. -/
  | align (alignment : Nat)
  /-- A null reference. -/
  | nullReference
  /-- The location of a data unit: container and entry. -/
  | location (container entry : UInt32)
  deriving DecidableEq, Repr

namespace WriteStep

/-- A boolean, as a byte that is 0 or 1. -/
def bool (value : Bool) : WriteStep := .scalar (.u8 (if value then 1 else 0))

end WriteStep

end ObjectPack
