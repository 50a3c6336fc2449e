import ObjectPack.Bytes.Scalar

/-!
# Member kinds

Every packed value belongs to one of twenty kinds.  One table gives the size, the alignment, the
sign and the spelling of each kind; the index of a kind in that table is also the second sort key
of the layout, so the order of the kinds is part of the format.
-/

namespace ObjectPack

/-- The kind of a member. -/
inductive Kind where
  | unknown
  | bool
  /-- Up to 32 booleans folded into one word. -/
  | bitSet
  | int8
  | uint8
  | int16
  | uint16
  | int32
  | uint32
  | int64
  | uint64
  | float
  | double
  | string
  /-- A named integer enumeration; sized by its underlying kind. -/
  | enum
  /-- A custom value type; sized by its value. -/
  | struct
  /-- A reference to a separately written block of fields. -/
  | object
  | array
  | dictionary
  /-- A reference to another data unit by signature. -/
  | dataUnit
  deriving DecidableEq, Repr, Inhabited

namespace Kind

/-- All kinds in index order. -/
def all : List Kind :=
  [.unknown, .bool, .bitSet, .int8, .uint8, .int16, .uint16, .int32, .uint32, .int64, .uint64,
   .float, .double, .string, .enum, .struct, .object, .array, .dictionary, .dataUnit]

/-- The position of a kind in the table. -/
def index (k : Kind) : Nat := k.ctorIdx

/-- The kind at a position of the table. -/
def ofIndex? (i : Nat) : Option Kind := all[i]?

theorem ofIndex?_index (k : Kind) : ofIndex? k.index = some k := by cases k <;> rfl

/-- The name of a kind in messages. -/
def name : Kind → String
  | .unknown => "Unknown"
  | .bool => "Bool"
  | .bitSet => "BitSet"
  | .int8 => "Int8"
  | .uint8 => "UInt8"
  | .int16 => "Int16"
  | .uint16 => "UInt16"
  | .int32 => "Int32"
  | .uint32 => "UInt32"
  | .int64 => "Int64"
  | .uint64 => "UInt64"
  | .float => "Float"
  | .double => "Double"
  | .string => "String"
  | .enum => "Enum"
  | .struct => "Struct"
  | .object => "Class"
  | .array => "Array"
  | .dictionary => "Dictionary"
  | .dataUnit => "DataUnit"

/-- What the table says of a kind. -/
structure Traits where
  /-- Size in bits; zero for kinds whose values size themselves. -/
  bits : Nat
  /-- Required alignment in bytes; zero for kinds whose values align themselves. -/
  alignment : Nat
  signed : Bool
  /-- The spelling in a generated header. -/
  spelling : String

/-- The table of kinds. -/
def traits : Kind → Traits
  | .unknown => ⟨0, 1, false, "unknown"⟩
  | .bool => ⟨8, 1, false, "bool"⟩
  | .bitSet => ⟨32, 4, false, "u32"⟩
  | .int8 => ⟨8, 1, true, "s8"⟩
  | .uint8 => ⟨8, 1, false, "u8"⟩
  | .int16 => ⟨16, 2, true, "s16"⟩
  | .uint16 => ⟨16, 2, false, "u16"⟩
  | .int32 => ⟨32, 4, true, "s32"⟩
  | .uint32 => ⟨32, 4, false, "u32"⟩
  | .int64 => ⟨64, 8, true, "s64"⟩
  | .uint64 => ⟨64, 8, false, "u64"⟩
  | .float => ⟨32, 4, true, "f32"⟩
  | .double => ⟨64, 8, true, "f64"⟩
  | .string => ⟨128, 8, false, "string_t"⟩
  | .enum => ⟨0, 0, false, "enum_t"⟩
  | .struct => ⟨0, 0, false, "struct"⟩
  | .object => ⟨64, 8, false, "class"⟩
  | .array => ⟨128, 8, false, "array_t"⟩
  | .dictionary => ⟨128, 8, false, "dict_t"⟩
  -- A location is two words, not a slot.
  | .dataUnit => ⟨64, 4, false, "dataunit_t"⟩

/-- Size in bits; zero for kinds whose values size themselves. -/
def bits (k : Kind) : Nat := k.traits.bits

/-- Size in whole bytes. -/
def byteSize (k : Kind) : Nat := (k.bits + 7) / 8

/-- Required alignment in bytes; zero for kinds whose values align themselves. -/
def alignment (k : Kind) : Nat := k.traits.alignment

/-- Whether values of this kind carry a sign. -/
def isSigned (k : Kind) : Bool := k.traits.signed

/-- The spelling in a generated header. -/
def spelling (k : Kind) : String := k.traits.spelling

/-- The scalar format of the fixed-width number kinds. -/
def format? : Kind → Option Scalar.Format
  | .int8 => some .i8
  | .uint8 => some .u8
  | .int16 => some .i16
  | .uint16 => some .u16
  | .int32 => some .i32
  | .uint32 => some .u32
  | .int64 => some .i64
  | .uint64 => some .u64
  | .float => some .f32
  | .double => some .f64
  | _ => none

/-- The kind of a scalar format. -/
def ofFormat : Scalar.Format → Kind
  | .i8 => .int8
  | .u8 => .uint8
  | .i16 => .int16
  | .u16 => .uint16
  | .i32 => .int32
  | .u32 => .uint32
  | .i64 => .int64
  | .u64 => .uint64
  | .f32 => .float
  | .f64 => .double

theorem format?_ofFormat (f : Scalar.Format) : (ofFormat f).format? = some f := by cases f <;> rfl

theorem byteSize_ofFormat (f : Scalar.Format) : (ofFormat f).byteSize = f.width := by
  cases f <;> rfl

theorem alignment_ofFormat (f : Scalar.Format) : (ofFormat f).alignment = f.width := by
  cases f <;> rfl

/-- Whether values of this kind are fixed-width numbers. -/
def isPrimitive (k : Kind) : Bool := k.format?.isSome

/-- Whether this kind can underlie an enumeration. -/
def isInteger (k : Kind) : Bool := k.format?.any (·.isInteger)

/-- Whether the data of a member of this kind stands in a block of its own. -/
def isReferenced : Kind → Bool
  | .string | .object | .array | .dictionary => true
  | _ => false

/-- Whether a member of this kind owns a contiguous range of members. -/
def ownsRows : Kind → Bool
  | .object | .array | .dictionary | .dataUnit => true
  | _ => false

end Kind

end ObjectPack
