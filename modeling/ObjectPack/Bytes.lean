/-!
# Byte strings

Everything that is packed, hashed or read back is a byte string.  `Bytes` is the list of its
bytes, first byte first, so that `++`, `take` and `drop` and their laws apply as they stand; this
module adds the few operations a binary format needs beside them: checked slices, overwriting a
range in place, the UTF-8 form of a text, and hexadecimal text.
-/

namespace ObjectPack

/-- A byte string, first byte first. -/
abbrev Bytes := List UInt8

namespace Bytes

/-- `n` zero bytes. -/
def zeros (n : Nat) : Bytes := List.replicate n 0

@[simp] theorem length_zeros (n : Nat) : (zeros n).length = n := List.length_replicate

/-- The `length` bytes from `start` on, or `none` when that range leaves the byte string. -/
def slice? (b : Bytes) (start length : Nat) : Option Bytes :=
  if start + length ≤ b.length then some ((b.drop start).take length) else none

/-- A slice is as long as it was asked to be. -/
theorem length_of_slice? {b s : Bytes} {start length : Nat} (h : b.slice? start length = some s) :
    s.length = length := by
  unfold slice? at h
  split at h
  · cases h
    rw [List.length_take, List.length_drop]
    omega
  · cases h

/-- `b` with the bytes from `start` on replaced by `patch`. -/
def overwrite (b : Bytes) (start : Nat) (patch : Bytes) : Bytes :=
  b.take start ++ (patch ++ b.drop (start + patch.length))

/-- Overwriting inside a byte string keeps its length. -/
theorem length_overwrite {b patch : Bytes} {start : Nat} (h : start + patch.length ≤ b.length) :
    (b.overwrite start patch).length = b.length := by
  simp only [overwrite, List.length_append, List.length_take, List.length_drop]
  omega

/-- `b` extended with zero bytes up to `length`; longer byte strings stay as they are. -/
def padTo (b : Bytes) (length : Nat) : Bytes := b ++ zeros (length - b.length)

theorem length_padTo (b : Bytes) (length : Nat) :
    (b.padTo length).length = max b.length length := by
  simp only [padTo, List.length_append, length_zeros]
  omega

/-- The UTF-8 bytes of a text. -/
def ofText (text : String) : Bytes := text.toByteArray.data.toList

/-- The text whose UTF-8 form is `b`, if `b` is well-formed UTF-8. -/
def toText? (b : Bytes) : Option String := String.fromUTF8? ⟨b.toArray⟩

/-- The two lower-case hexadecimal digits of a byte. -/
def hexDigits (b : UInt8) : List Char :=
  [Nat.digitChar (b.toNat / 16), Nat.digitChar (b.toNat % 16)]

/-- Lower-case hexadecimal text, two digits a byte. -/
def toHex (b : Bytes) : String := String.ofList (b.flatMap hexDigits)

end Bytes

end ObjectPack
