import ObjectPack.Bytes.Scalar

/-!
# Digests

A 160-bit content digest.  It is held as one 160-bit number whose big-endian bytes are the digest's
bytes, so the numeric order is the byte-wise order of the digests.
-/

namespace ObjectPack

/-- A 160-bit digest. -/
structure Digest where
  bits : BitVec 160
  deriving DecidableEq, Repr

namespace Digest

/-- The size of a digest in bytes. -/
def byteSize : Nat := 20

/-- The all-zero digest. -/
def empty : Digest := ⟨0⟩

/-- Whether this is the all-zero digest. -/
def isEmpty (d : Digest) : Bool := d = empty

/-- Digests are ordered as their bytes are, first byte first. -/
instance : Ord Digest where
  compare a b := compare a.bits.toNat b.bits.toNat

/-- The order of digests is that of numbers. -/
theorem compare_eq (a b : Digest) : compare a b = compare a.bits.toNat b.bits.toNat := rfl

instance : Std.TransOrd Digest where
  eq_swap {a b} := by
    rw [compare_eq, compare_eq]
    exact Std.OrientedCmp.eq_swap
  isLE_trans {a b c} hab hbc := by
    rw [compare_eq] at hab hbc ⊢
    exact Std.TransCmp.isLE_trans hab hbc

/-- Digests that compare equal are equal. -/
instance : Std.LawfulEqOrd Digest where
  eq_of_compare {a b} h := by
    rw [compare_eq] at h
    have hn : a.bits.toNat = b.bits.toNat := Std.LawfulEqOrd.eq_of_compare h
    cases a
    cases b
    exact congrArg Digest.mk (BitVec.eq_of_toNat_eq hn)

/-- The digest made of five 32-bit words, first word first. -/
def ofWords (a b c d e : UInt32) : Digest :=
  ⟨a.toBitVec ++ b.toBitVec ++ c.toBitVec ++ d.toBitVec ++ e.toBitVec⟩

/-- The twenty bytes of a digest. -/
def toBytes (d : Digest) : Bytes := Endian.big.encode byteSize d.bits.toNat

/-- The digest with the given bytes; `none` unless there are twenty of them. -/
def ofBytes? (b : Bytes) : Option Digest :=
  if b.length = byteSize then some ⟨BitVec.ofNat 160 (Endian.big.decode b)⟩ else none

@[simp] theorem length_toBytes (d : Digest) : d.toBytes.length = byteSize := Endian.length_encode ..

theorem ofBytes?_toBytes (d : Digest) : ofBytes? d.toBytes = some d := by
  have hlt : d.bits.toNat < Nat.pow 256 byteSize := d.bits.isLt
  rw [ofBytes?, if_pos d.length_toBytes, toBytes, Endian.decode_encode, Nat.mod_eq_of_lt hlt,
    BitVec.ofNat_toNat, BitVec.setWidth_eq]

/-- Forty lower-case hexadecimal digits. -/
def toHex (d : Digest) : String := d.toBytes.toHex

end Digest

end ObjectPack
