/-!
# Errors of a walk

Why an object graph cannot be flattened into a model.  A field is named by its label: the type and
the name of the field, followed by the indices of the elements on the way to the value.
-/

namespace ObjectPack

/-- Why an object graph cannot be flattened. -/
inductive WalkError where
  | unsupportedType (label type : String)
  | typeMismatch (label expected found : String)
  | heterogeneous (label first other : String)
  | missingStruct (label : String)
  | untypedCollection (label : String)
  deriving DecidableEq, Repr

/-- The explanation of an error. -/
def WalkError.message : WalkError → String
  | .unsupportedType label type =>
    "field \x60" ++ label ++ "\x60 has unsupported type \x60" ++ type ++ "\x60"
  | .typeMismatch label expected found =>
    "field \x60" ++ label ++ "\x60: expected \x60" ++ expected ++ "\x60, found " ++ found
  | .heterogeneous label first other =>
    "collection \x60" ++ label ++ "\x60 mixes \x60" ++ first ++ "\x60 and \x60" ++ other
      ++ "\x60 elements"
  | .missingStruct label => "struct field \x60" ++ label ++ "\x60 has no value"
  | .untypedCollection label => "empty collection \x60" ++ label ++ "\x60 has no element type"

end ObjectPack
