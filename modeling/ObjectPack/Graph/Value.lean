import ObjectPack.Graph.CustomStruct
import ObjectPack.Graph.Ty

/-!
# Object graphs

The input of packing: data units whose root objects hold typed fields, whose values may be objects
and data units again.  A value knows its own type unless it is null or a collection; for those the
declared type decides.
-/

namespace ObjectPack

/-- A named field with its declared type. -/
structure FieldOf (α : Type) where
  name : String
  ty : Ty
  value : α
  deriving Repr

/-- A value of a class: the name of its type and its fields. -/
structure ObjectOf (α : Type) where
  typeName : String
  fields : List (FieldOf α)
  deriving Repr

/-- A separately loadable unit of data, identified by its signature. -/
structure DataUnitOf (α : Type) where
  signature : String
  root : ObjectOf α
  deriving Repr

/-- The value of a field or of an element. -/
inductive Value where
  | null
  | bool (value : Bool)
  | scalar (value : Scalar)
  | text (value : String)
  | enum (enumeration : Enumeration) (value : Int64)
  | sequence (items : List Value)
  | dictionary (entries : List (Value × Value))
  | object (value : ObjectOf Value)
  | custom (value : CustomStruct)
  | dataUnit (value : DataUnitOf Value)

/-- A field of an object. -/
abbrev Field := FieldOf Value

/-- An object of a graph. -/
abbrev Object := ObjectOf Value

/-- A data unit of a graph. -/
abbrev DataUnit := DataUnitOf Value

namespace Value

/-- The type that a value carries itself; null and collections carry none. -/
def ty? : Value → Option Ty
  | .null | .sequence _ | .dictionary _ => none
  | .bool _ => some .bool
  | .scalar s => some (.scalar s.format)
  | .text _ => some .string
  | .enum enumeration _ => some (.enum enumeration)
  | .object o => some (.object o.typeName)
  | .custom c => some (.custom c.name)
  | .dataUnit u => some (.dataUnit u.root.typeName)

/-- The value that stands for an absent one of a type. -/
def default : Ty → Value
  | .bool => .bool false
  | .scalar format => .scalar (.zero format)
  | .string => .text ""
  | .enum enumeration => .enum enumeration enumeration.defaultValue
  | .array _ | .list _ => .sequence []
  | .dictionary _ _ => .dictionary []
  | .nullable inner => default inner
  | .object _ | .struct _ | .custom _ | .dataUnit _ | .foreign _ => .null

/-- Whether this is the null value. -/
def isNull : Value → Bool
  | .null => true
  | _ => false

/-- What kind of value this is, in messages. -/
def describe : Value → String
  | .null => "null"
  | .bool _ => "bool"
  | .scalar s => s.format.name
  | .text _ => "string"
  | .enum _ _ => "enum"
  | .sequence _ => "sequence"
  | .dictionary _ => "dictionary"
  | .object _ => "object"
  | .custom _ => "opaque struct"
  | .dataUnit _ => "data unit"

/-! ### Depth

How many collections, objects and data units are nested, where an empty or absent value counts
with the collections that its declared type still describes. -/

mutual

/-- How deep a value is nested. -/
def depth : Value → Nat
  | .sequence items => itemsDepth items + 1
  | .dictionary entries => entriesDepth entries + 1
  | .object o => objectDepth o + 1
  | .dataUnit u => dataUnitDepth u + 1
  | _ => 0

/-- How deep the deepest item of a sequence is nested. -/
def itemsDepth : List Value → Nat
  | [] => 0
  | item :: rest => max item.depth (itemsDepth rest)

/-- How deep the deepest half of an entry is nested. -/
def entriesDepth : List (Value × Value) → Nat
  | [] => 0
  | entry :: rest => max (entryDepth entry) (entriesDepth rest)

/-- How deep the deeper half of an entry is nested. -/
def entryDepth : Value × Value → Nat
  | (key, value) => max key.depth value.depth

/-- How deep the deepest field of an object is nested. -/
def objectDepth : ObjectOf Value → Nat
  | ⟨_, fields⟩ => fieldsDepth fields

/-- How deep the deepest of some fields is nested. -/
def fieldsDepth : List (FieldOf Value) → Nat
  | [] => 0
  | field :: rest => max (fieldDepth field) (fieldsDepth rest)

/-- How deep a field is nested, by its type and its value. -/
def fieldDepth : FieldOf Value → Nat
  | ⟨_, ty, value⟩ => ty.depth + value.depth

/-- How deep the root of a data unit is nested. -/
def dataUnitDepth : DataUnitOf Value → Nat
  | ⟨_, root⟩ => objectDepth root + 1

end

end Value

end ObjectPack
