import ObjectPack.Graph.Ty
import ObjectPack.Model
import ObjectPack.Naming
import ObjectPack.Walk.Error

/-!
# Homogeneous collections

The elements of a collection have one kind, and those that are present have one type.  Objects are
held by reference, so objects of different types may stand in one collection where its declared
element type is a class; the collection then bears the name of that class.
-/

namespace ObjectPack.Walk

/-- How a message names the type of an element. -/
def describeRow (r : Row) : String := r.typeName.getD r.kind.name

/-- The name of the declared class, where the elements are objects of one. -/
def baseName? (first : Row) (declared : Option Ty) : Option String :=
  match declared.map Ty.strip with
  | some (.object name) => if first.kind = .object then some (Naming.typeName name) else none
  | _ => none

/-- Compares an element with the first one by kind and with `reference` by type.  The answer tells
whether the element differs in type only and may. -/
def compareElement (label : String) (first reference : Row) (base : Option String) (r : Row) :
    Except WalkError Bool :=
  let sameKind := r.kind = first.kind
  let sameType := r.value.isNull ∨ r.typeName = reference.typeName
  if sameKind ∧ ¬ sameType ∧ base.isSome then .ok true
  else if ¬ sameKind ∨ ¬ sameType then
    .error
      (.heterogeneous label (describeRow (if sameKind then reference else first)) (describeRow r))
  else .ok false

/-- Checks that the rows of a collection agree.  Types are compared with that of the first element
that is present.  The result is the name of the declared class where the elements differ in type. -/
def checkHomogeneous (label : String) (rows : List Row) (declared : Option Ty) :
    Except WalkError (Option String) :=
  match rows with
  | [] => .ok none
  | first :: rest => do
    let base := baseName? first declared
    let reference := (rows.find? fun r => ! r.value.isNull).getD first
    let differ ← rest.mapM (compareElement label first reference base)
    return if differ.any id then base else none

end ObjectPack.Walk
