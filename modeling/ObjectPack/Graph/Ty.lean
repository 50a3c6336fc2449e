import ObjectPack.Fault

/-!
# Declared types

The types that fields and elements of collections are declared with, enumerations among them.  An
enumeration is a named list of named integers together with the integer format that their values are
packed in.  No value is checked against that format.
-/

/-! ### Enumerations -/

namespace ObjectPack

/-- An enumeration. -/
structure Enumeration where
  name : String
  /-- The format that values are packed in. -/
  format : Scalar.Format
  /-- The variants with their values, in the order of their declaration. -/
  variants : List (String × Int64)
  /-- Values are packed as integers. -/
  integral : format.isInteger = true
  deriving DecidableEq, Repr

namespace Enumeration

/-- The enumeration over the given kind; a fault unless that is an integer kind. -/
def ofKind (name : String) (kind : Kind) (variants : List (String × Int64)) :
    Except Fault Enumeration :=
  match kind.format? with
  | none => .error (.enumKind kind)
  | some format =>
    if integral : format.isInteger = true then .ok ⟨name, format, variants, integral⟩
    else .error (.enumKind kind)

/-- The kind that underlies the enumeration. -/
def underlying (e : Enumeration) : Kind := .ofFormat e.format

/-- The value of an absent field: that of the first variant. -/
def defaultValue (e : Enumeration) : Int64 :=
  match e.variants with
  | [] => 0
  | (_, value) :: _ => value

/-- A value in the format of the enumeration: the low bits of its two's complement. -/
def pack (e : Enumeration) (value : Int64) : Scalar := .ofBits e.format value.toUInt64.toNat

end Enumeration

end ObjectPack

/-! ### Types -/

namespace ObjectPack

/-- A declared type. -/
inductive Ty where
  | bool
  | scalar (format : Scalar.Format)
  | string
  | enum (enumeration : Enumeration)
  /-- An array of fixed size. -/
  | array (element : Ty)
  /-- A list that may grow. -/
  | list (element : Ty)
  | dictionary (key value : Ty)
  /-- A reference type with fields. -/
  | object (name : String)
  /-- A value type with fields. -/
  | struct (name : String)
  /-- A value type that packs itself. -/
  | custom (name : String)
  /-- A reference to a data unit whose root has the named type. -/
  | dataUnit (name : String)
  | nullable (inner : Ty)
  /-- A type that is not understood. -/
  | foreign (name : String)
  deriving DecidableEq, Repr

namespace Ty

/-- The type of elements in collections that declare none. -/
def unknown : Ty := .foreign ""

/-- The name of a type in messages, by which fields can also be ordered. -/
def text : Ty → String
  | .bool => "bool"
  | .scalar format => format.name
  | .string => "string"
  | .enum enumeration => enumeration.name
  | .array element => element.text ++ "[]"
  | .list element => "List<" ++ element.text ++ ">"
  | .dictionary key value => "Dictionary<" ++ key.text ++ ", " ++ value.text ++ ">"
  | .object name | .struct name | .custom name | .foreign name => name
  | .dataUnit name => "DataUnit<" ++ name ++ ">"
  | .nullable inner => inner.text ++ "?"

/-- The element type of arrays and lists. -/
def element? : Ty → Option Ty
  | .array element | .list element => some element
  | _ => none

/-- The key and the value type of dictionaries. -/
def entry? : Ty → Option (Ty × Ty)
  | .dictionary key value => some (key, value)
  | _ => none

/-- The type without outer nullability. -/
def strip : Ty → Ty
  | .nullable inner => inner.strip
  | ty => ty

/-- How deep type constructors are nested. -/
def depth : Ty → Nat
  | .array element | .list element => element.depth + 1
  | .dictionary key value => max key.depth value.depth + 1
  | .nullable inner => inner.depth + 1
  | _ => 0

end Ty

end ObjectPack
