import ObjectPack.Graph.Value

/-!
# Classification

A classifier tells for every type what to do with values of that type.  It is a set of predicates
that are asked in a fixed order; the first that holds decides, and a type for which none holds is
not supported.  The standard classifier goes by the form of the type.
-/

namespace ObjectPack

/-- What is done with a value. -/
inductive Treatment where
  | bool
  | scalar (format : Scalar.Format)
  | string
  | enum
  /-- The value packs itself. -/
  | custom
  /-- Fields in a block of their own. -/
  | object
  | array
  | dictionary
  | dataUnit
  deriving DecidableEq, Repr

/-- Predicates on types, each with the form of type that it holds for by default. -/
structure Classifier where
  isBool : Ty → Bool := fun ty => ty = .bool
  isScalar : Scalar.Format → Ty → Bool := fun format ty => ty = .scalar format
  isString : Ty → Bool := fun ty => ty = .string
  isEnum : Ty → Bool := fun ty => ty matches .enum _
  isArray : Ty → Bool := fun ty => ty matches .array _
  isList : Ty → Bool := fun ty => ty matches .list _
  isDictionary : Ty → Bool := fun ty => ty matches .dictionary _ _
  isClass : Ty → Bool := fun ty => ty matches .object _
  isStruct : Ty → Bool := fun ty => ty matches .struct _
  isCustom : Ty → Bool := fun ty => ty matches .custom _
  isDataUnit : Ty → Bool := fun ty => ty matches .dataUnit _

namespace Classifier

/-- The classifier that goes by the form of the type. -/
def standard : Classifier := {}

/-- The treatment of values of a type, or `none` for a type that is not supported. -/
def treatment? (c : Classifier) (ty : Ty) : Option Treatment :=
  if c.isDataUnit ty then some .dataUnit
  else if c.isCustom ty then some .custom
  else if c.isDictionary ty then some .dictionary
  else if c.isArray ty || c.isList ty then some .array
  else if c.isStruct ty || c.isClass ty then some .object
  else if c.isString ty then some .string
  else if c.isBool ty then some .bool
  else
    match Scalar.Format.all.find? fun format => c.isScalar format ty with
    | some format => some (.scalar format)
    | none => if c.isEnum ty then some .enum else none

end Classifier

end ObjectPack
