import ObjectPack.Bytes.Endian

/-!
# Scalars

The ten fixed-width numbers of the format: signed and unsigned integers of one to eight bytes and
two IEEE floats.  A float is held as its bit pattern, so NaN payloads and signed zeros survive and
equality is equality of bits.

A scalar is its format together with its bit pattern (`ofBits_toBits`, `toBits_ofBits`); byte
order enters only in `encode` and `decode?`, which are inverse to each other on byte strings of
the format's width.
-/

namespace ObjectPack

/-- A fixed-width number. -/
inductive Scalar where
  | i8 (value : Int8)
  | u8 (value : UInt8)
  | i16 (value : Int16)
  | u16 (value : UInt16)
  | i32 (value : Int32)
  | u32 (value : UInt32)
  | i64 (value : Int64)
  | u64 (value : UInt64)
  /-- A binary32 float, by its bits. -/
  | f32 (bits : UInt32)
  /-- A binary64 float, by its bits. -/
  | f64 (bits : UInt64)
  deriving DecidableEq, Repr

namespace Scalar

/-- The formats of fixed-width numbers. -/
inductive Format where
  | i8 | u8 | i16 | u16 | i32 | u32 | i64 | u64 | f32 | f64
  deriving DecidableEq, Repr

/-- Size in bytes, which is also the alignment a scalar is written at. -/
def Format.width : Format → Nat
  | .i8 | .u8 => 1
  | .i16 | .u16 => 2
  | .i32 | .u32 | .f32 => 4
  | .i64 | .u64 | .f64 => 8

/-- All formats, in the order of their kinds. -/
def Format.all : List Format := [.i8, .u8, .i16, .u16, .i32, .u32, .i64, .u64, .f32, .f64]

/-- The name of a format in messages. -/
def Format.name : Format → String
  | .i8 => "i8"
  | .u8 => "u8"
  | .i16 => "i16"
  | .u16 => "u16"
  | .i32 => "i32"
  | .u32 => "u32"
  | .i64 => "i64"
  | .u64 => "u64"
  | .f32 => "f32"
  | .f64 => "f64"

/-- Whether numbers of this format are integers. -/
def Format.isInteger (f : Format) : Bool := f ≠ .f32 && f ≠ .f64

theorem Format.width_pos (f : Format) : 0 < f.width := by cases f <;> decide

/-- The format of a scalar. -/
def format : Scalar → Format
  | .i8 _ => .i8
  | .u8 _ => .u8
  | .i16 _ => .i16
  | .u16 _ => .u16
  | .i32 _ => .i32
  | .u32 _ => .u32
  | .i64 _ => .i64
  | .u64 _ => .u64
  | .f32 _ => .f32
  | .f64 _ => .f64

/-- The bit pattern of a scalar as a number; two's complement for signed integers. -/
def toBits : Scalar → Nat
  | .i8 v => v.toUInt8.toNat
  | .u8 v => v.toNat
  | .i16 v => v.toUInt16.toNat
  | .u16 v => v.toNat
  | .i32 v => v.toUInt32.toNat
  | .u32 v => v.toNat
  | .i64 v => v.toUInt64.toNat
  | .u64 v => v.toNat
  | .f32 bits => bits.toNat
  | .f64 bits => bits.toNat

/-- The scalar of a format whose bit pattern is the low bits of `n`. -/
def ofBits (f : Format) (n : Nat) : Scalar :=
  match f with
  | .i8 => .i8 (UInt8.ofNat n).toInt8
  | .u8 => .u8 (UInt8.ofNat n)
  | .i16 => .i16 (UInt16.ofNat n).toInt16
  | .u16 => .u16 (UInt16.ofNat n)
  | .i32 => .i32 (UInt32.ofNat n).toInt32
  | .u32 => .u32 (UInt32.ofNat n)
  | .i64 => .i64 (UInt64.ofNat n).toInt64
  | .u64 => .u64 (UInt64.ofNat n)
  | .f32 => .f32 (UInt32.ofNat n)
  | .f64 => .f64 (UInt64.ofNat n)

/-- The zero of a format; positive zero for floats. -/
def zero (f : Format) : Scalar := ofBits f 0

@[simp] theorem format_ofBits (f : Format) (n : Nat) : (ofBits f n).format = f := by
  cases f <;> rfl

theorem ofBits_toBits (s : Scalar) : ofBits s.format s.toBits = s := by
  cases s <;> simp [format, toBits, ofBits]

theorem toBits_lt (s : Scalar) : s.toBits < Nat.pow 256 s.format.width := by
  cases s with
  | i8 v => exact v.toUInt8.toNat_lt
  | u8 v => exact v.toNat_lt
  | i16 v => exact v.toUInt16.toNat_lt
  | u16 v => exact v.toNat_lt
  | i32 v => exact v.toUInt32.toNat_lt
  | u32 v => exact v.toNat_lt
  | i64 v => exact v.toUInt64.toNat_lt
  | u64 v => exact v.toNat_lt
  | f32 v => exact v.toNat_lt
  | f64 v => exact v.toNat_lt

theorem toBits_ofBits (f : Format) (n : Nat) : (ofBits f n).toBits = n % Nat.pow 256 f.width := by
  cases f <;> simp [ofBits, toBits, Format.width]

/-- The bytes of a scalar in the given order. -/
def encode (e : Endian) (s : Scalar) : Bytes := e.encode s.format.width s.toBits

/-- The scalar stored in the first bytes of `b`, or `none` when `b` is too short. -/
def decode? (e : Endian) (f : Format) (b : Bytes) : Option Scalar :=
  if f.width ≤ b.length then some (ofBits f (e.decode (b.take f.width))) else none

@[simp] theorem length_encode (e : Endian) (s : Scalar) : (s.encode e).length = s.format.width :=
  Endian.length_encode ..

/-- Reading what was written gives the scalar back, whatever follows it. -/
theorem decode?_encode (e : Endian) (s : Scalar) (rest : Bytes) :
    decode? e s.format (s.encode e ++ rest) = some s := by
  have hlen : s.format.width ≤ (s.encode e ++ rest).length := by simp
  have htake : (s.encode e ++ rest).take s.format.width = s.encode e := by
    rw [List.take_append_of_le_length (by simp), List.take_of_length_le (by simp)]
  rw [decode?, if_pos hlen, htake, encode, Endian.decode_encode, Nat.mod_eq_of_lt s.toBits_lt,
    ofBits_toBits]

/-- Writing what was read gives the bytes back. -/
theorem encode_of_decode? {e : Endian} {f : Format} {b : Bytes} {s : Scalar}
    (h : decode? e f b = some s) : s.encode e = b.take f.width := by
  unfold decode? at h
  split at h
  · rename_i hlen
    cases h
    have htake : (b.take f.width).length = f.width := by
      rw [List.length_take]
      omega
    have hlt : e.decode (b.take f.width) < Nat.pow 256 f.width := by
      have := e.decode_lt (b.take f.width)
      rwa [htake] at this
    have hback := e.encode_decode (b.take f.width)
    rw [htake] at hback
    rw [encode, format_ofBits, toBits_ofBits, Nat.mod_eq_of_lt hlt, hback]
  · cases h

end Scalar

/-! ### Words -/

namespace Endian

/-- The four bytes of a 32-bit word. -/
def bytes32 (e : Endian) (v : UInt32) : Bytes := e.encode 4 v.toNat

/-- The eight bytes of a 64-bit word. -/
def bytes64 (e : Endian) (v : UInt64) : Bytes := e.encode 8 v.toNat

/-- The 32-bit word stored at `start`; bytes beyond the end count as absent. -/
def word32 (e : Endian) (b : Bytes) (start : Nat) : UInt32 :=
  UInt32.ofNat (e.decode ((b.drop start).take 4))

/-- The 64-bit word stored at `start`; bytes beyond the end count as absent. -/
def word64 (e : Endian) (b : Bytes) (start : Nat) : UInt64 :=
  UInt64.ofNat (e.decode ((b.drop start).take 8))

@[simp] theorem length_bytes32 (e : Endian) (v : UInt32) : (e.bytes32 v).length = 4 :=
  length_encode ..

@[simp] theorem length_bytes64 (e : Endian) (v : UInt64) : (e.bytes64 v).length = 8 :=
  length_encode ..

end Endian

end ObjectPack
