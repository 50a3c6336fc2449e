import ObjectPack.Graph.Classifier
import ObjectPack.Walk.Error

/-!
# Supported values

Which values yield a row.  The treatment of a value is that of its own type where it carries one,
and else that of its declared type; where both have a treatment, the two have to agree.  A value
without a treatment is not supported.  A collection yields a row only if one of its elements does,
or, when there are none, if an element that is only declared would.
-/

namespace ObjectPack.Walk

/-- What to do with a value that is not supported. -/
inductive UnknownPolicy where
  /-- Leave it out. -/
  | skip
  /-- Give up. -/
  | fail
  deriving DecidableEq, Repr, Inhabited

/-- In which order the fields of an object become rows. -/
inductive MemberOrder where
  | declaration
  /-- By the names of the declared types; fields of one type stay in the order of their
  declaration. -/
  | typeName
  deriving DecidableEq, Repr, Inhabited

/-- How object graphs are walked. -/
structure Rules where
  classifier : Classifier
  unknown : UnknownPolicy
  order : MemberOrder
  /-- What is taken off the front of field names. -/
  memberLead : String

/-- The label of an element. -/
def elementLabel (label : String) (index : Nat) : String := label ++ "[" ++ toString index ++ "]"

/-- The error of a value that does not fit its declared type; `none` stands for an element that is
only declared. -/
def typeError (label : String) (declared : Ty) (value : Option Value) : WalkError :=
  .typeMismatch label declared.text (value.elim "nothing" Value.describe)

namespace Rules

/-- The treatment of a value, `none` where it is not supported. -/
def treatment? (r : Rules) (label : String) (declared : Ty) (value : Option Value) :
    Except WalkError (Option Treatment) :=
  match r.classifier.treatment? declared, value.bind (·.ty?) |>.bind r.classifier.treatment? with
  | some expected, some found =>
    if expected = found then .ok (some found) else .error (typeError label declared value)
  | some expected, none => .ok (some expected)
  | none, found => .ok found

/-- Whether both of two checks succeed; the second is made only if the first does. -/
def both (first : Except WalkError Bool) (second : Unit → Except WalkError Bool) :
    Except WalkError Bool :=
  match first with
  | .ok true => second ()
  | answer => answer

/-- Whether one of two checks succeeds; the second is made only if the first does not. -/
def either (first : Except WalkError Bool) (second : Unit → Except WalkError Bool) :
    Except WalkError Bool :=
  match first with
  | .ok false => second ()
  | answer => answer

/-- Whether an element that is only declared would yield a row. -/
def supportsType (r : Rules) (label : String) (declared : Ty) : Except WalkError Bool :=
  match declared with
  | .nullable inner => supportsType r label inner
  | ty =>
    match r.treatment? label ty none with
    | .error e => .error e
    | .ok none => .ok false
    | .ok (some .array) =>
      match ty with
      | .array element | .list element => supportsType r label element
      | _ => .ok true
    | .ok (some .dictionary) =>
      match ty with
      | .dictionary key value => both (supportsType r label key) fun _ => supportsType r label value
      | _ => .ok true
    | .ok (some _) => .ok true

/-- Whether the element of an array that is only declared would yield a row; an element without a
type counts as supported here and is refused later. -/
def supportsElement (r : Rules) (label : String) (declared : Ty) : Except WalkError Bool :=
  match declared.element? with
  | some element => r.supportsType label element
  | none => .ok true

/-- Whether the entry of a dictionary that is only declared would yield rows; an entry without types
counts as supported here and is refused later. -/
def supportsEntry (r : Rules) (label : String) (declared : Ty) : Except WalkError Bool :=
  match declared.entry? with
  | some (key, value) => both (r.supportsType label key) fun _ => r.supportsType label value
  | none => .ok true

mutual

/-- Whether a value yields a row. -/
def supportsValue (r : Rules) (label : String) (declared : Ty) (value : Value) :
    Except WalkError Bool :=
  let ty := declared.strip
  match r.treatment? label ty (some value) with
  | .error e => .error e
  | .ok none => .ok false
  | .ok (some .array) =>
    match value with
    | .sequence [] => r.supportsElement label ty
    | .sequence items => supportsSome r label (ty.element?.getD .unknown) 0 items
    | _ => r.supportsElement label ty
  | .ok (some .dictionary) =>
    match value with
    | .dictionary [] => r.supportsEntry label ty
    | .dictionary entries =>
      supportsSomeEntry r label ((ty.entry?.map (·.1)).getD .unknown)
        ((ty.entry?.map (·.2)).getD .unknown) 0 entries
    | _ => r.supportsEntry label ty
  | .ok (some _) => .ok true

/-- Whether one of the items from `index` on yields a row. -/
def supportsSome (r : Rules) (label : String) (element : Ty) (index : Nat) :
    List Value → Except WalkError Bool
  | [] => .ok false
  | item :: rest =>
    either (supportsValue r (elementLabel label index) element item)
      fun _ => supportsSome r label element (index + 1) rest

/-- Whether both halves of one of the entries from `index` on yield rows. -/
def supportsSomeEntry (r : Rules) (label : String) (key value : Ty) (index : Nat) :
    List (Value × Value) → Except WalkError Bool
  | [] => .ok false
  | entry :: rest =>
    either (supportsHalves r (elementLabel label index) key value entry)
      fun _ => supportsSomeEntry r label key value (index + 1) rest

/-- Whether both halves of an entry yield rows. -/
def supportsHalves (r : Rules) (label : String) (key value : Ty) :
    Value × Value → Except WalkError Bool
  | (k, v) => both (supportsValue r label key k) fun _ => supportsValue r label value v

end

/-- What becomes of a value that is not supported: nothing, or an error. -/
def refuse (r : Rules) (label : String) (ty : Ty) : Except WalkError Unit :=
  match r.unknown with
  | .skip => .ok ()
  | .fail => .error (.unsupportedType label ty.text)

end Rules

end ObjectPack.Walk
