import ObjectPack.Digest
import ObjectPack.Graph.CustomStruct
import ObjectPack.Graph.Ty

/-!
# Payloads

What a row of a model holds beside its kind: the value itself where it is stored inline, and
otherwise whether there is one.
-/

namespace ObjectPack

/-- The value of a row. -/
inductive Payload where
  /-- A text, an object or a collection that is there; its data stands elsewhere. -/
  | present
  /-- An absent text, object or data unit. -/
  | null
  | bool (value : Bool)
  | bitSet (word : UInt32)
  | scalar (value : Scalar)
  | enum (enumeration : Enumeration) (value : Int64)
  | struct (value : CustomStruct)
  | dataUnit (signature : Digest)
  deriving DecidableEq, Repr

namespace Payload

/-- The zero of a kind that is stored as a number. -/
def zero? (kind : Kind) : Option Payload :=
  match kind with
  | .bool => some (.bool false)
  | .bitSet => some (.bitSet 0)
  | _ => kind.format?.map fun format => .scalar (.zero format)

/-- The kind of a payload that is stored as a number. -/
def scalarKind? : Payload → Option Kind
  | .bool _ => some .bool
  | .bitSet _ => some .bitSet
  | .scalar s => some (.ofFormat s.format)
  | _ => none

/-- Whether the payload says that there is no value. -/
def isNull : Payload → Bool
  | .null => true
  | _ => false

/-- The boolean, if it is one. -/
def bool? : Payload → Option Bool
  | .bool value => some value
  | _ => none

/-- The word of folded booleans, if it is one. -/
def bitSet? : Payload → Option UInt32
  | .bitSet word => some word
  | _ => none

/-- The custom value, if it is one. -/
def struct? : Payload → Option CustomStruct
  | .struct value => some value
  | _ => none

/-- The signature of the data unit, if it is one. -/
def dataUnit? : Payload → Option Digest
  | .dataUnit signature => some signature
  | _ => none

/-- The enumeration and the value, if it is one. -/
def enum? : Payload → Option (Enumeration × Int64)
  | .enum enumeration value => some (enumeration, value)
  | _ => none

end Payload

end ObjectPack
