import ObjectPack.Bytes

/-!
# CRC-32

The cyclic redundancy check of containers and of pooled texts: polynomial `0xedb88320` in reflected
form, all ones before the first byte, and the complement of the remainder at the end.
-/

namespace ObjectPack.Checksum

/-- One bit of polynomial division. -/
def shiftBit (crc : UInt32) : UInt32 :=
  if crc &&& 1 = 1 then (crc >>> 1) ^^^ 0xedb88320 else crc >>> 1

/-- The remainder after one more byte. -/
def addByte (crc : UInt32) (b : UInt8) : UInt32 :=
  Nat.repeat shiftBit 8 (crc ^^^ b.toUInt32)

/-- The CRC-32 of a byte string. -/
def crc32 (b : Bytes) : UInt32 := ~~~ (b.foldl addByte 0xffffffff)

end ObjectPack.Checksum
