import ObjectPack.Digest.Sha1
import ObjectPack.Sorting
import ObjectPack.Walk.Homogeneous
import ObjectPack.Walk.Support

/-!
# Walking object graphs

A walk flattens a data unit and everything that it reaches into a model.  When a value gets its
row, its own parts get none yet: a composite value is put off, and its parts are added together
when its turn comes, first put off first taken up.  So the parts of one owner stand next to each
other, and an owner stands before its parts.  Data units of one signature share the row of the
root object.

What is put off by one value is nested less deeply than the value, so a walk that takes up
everything put off so far in one round needs no more rounds than the graph is deep.
-/

namespace ObjectPack.Walk

/-- A composite value whose row exists and whose parts have yet to be added. -/
inductive Deferred where
  | object (row : Nat) (object : Object)
  | sequence (row : Nat) (label : String) (items : List Value) (element : Option Ty)
  | dictionary (row : Nat) (label : String) (entries : List (Value × Value)) (key value : Option Ty)
  | dataUnit (row : Nat) (unit : DataUnit)

/-- The state of a walk. -/
structure Progress where
  model : Model
  /-- The data units met so far with the rows of their root objects. -/
  units : List (Digest × Nat)
  /-- What has been put off, in order. -/
  deferred : List Deferred

namespace Progress

/-- Puts a composite value off. -/
def putOff (p : Progress) (item : Deferred) : Progress :=
  { p with deferred := p.deferred ++ [item] }

/-- Adds a row that needs no more work. -/
def addRow (p : Progress) (add : Model → Nat × Model) : Nat × Progress :=
  let (row, model) := add p.model
  (row, { p with model := model })

/-- Adds a row and puts its value off. -/
def addDeferred (p : Progress) (add : Model → Nat × Model) (item : Nat → Deferred) :
    Nat × Progress :=
  let (row, p) := p.addRow add
  (row, p.putOff (item row))

/-- How many rows there are. -/
def size (p : Progress) : Nat := p.model.size

/-- Makes a row own a range. -/
def setRange (p : Progress) (row start count : Nat) : Progress :=
  { p with model := p.model.setRange row start count }

/-- Gives a row a type name. -/
def setTypeName (p : Progress) (row : Nat) (typeName : String) : Progress :=
  { p with model := p.model.setTypeName row typeName }

/-- The `count` rows from `start` on. -/
def rowsFrom (p : Progress) (start count : Nat) : List Row :=
  (p.model.rows.extract start (start + count)).toList

end Progress

/-! ### Single values -/

/-- The type name of a row whose value is absent. -/
def absentTypeName : Ty → String
  | .object name | .struct name | .dataUnit name => Naming.typeName name
  | .custom name => name
  | ty => ty.text

/-- Whether a value is absent: null, or only declared. -/
def isAbsent : Option Value → Bool
  | none => true
  | some value => value.isNull

/-- The payload of a boolean. -/
def boolPayload? : Option Value → Option Payload
  | some (.bool b) => some (.bool b)
  | value => if isAbsent value then some (.bool false) else none

/-- The payload of a number of a format. -/
def scalarPayload? (format : Scalar.Format) : Option Value → Option Payload
  | some (.scalar s) => if s.format = format then some (.scalar s) else none
  | value => if isAbsent value then some (.scalar (.zero format)) else none

/-- The row of a data unit. -/
def addDataUnitRow (name : String) (unit : DataUnit) (m : Model) : Nat × Model :=
  m.addDataUnit name (Naming.typeName unit.root.typeName) (some (.ofText unit.signature))

/-- Adds the row of a value of a known treatment.  The declared type has no outer nullability. -/
def addTreated (p : Progress) (name label : String) (declared : Ty) (value : Option Value)
    (treatment : Treatment) : Except WalkError (Nat × Progress) :=
  let refused : Except WalkError (Nat × Progress) := .error (typeError label declared value)
  match treatment with
  | .bool =>
    match boolPayload? value with
    | some payload => .ok (p.addRow (·.addScalar .bool name payload))
    | none => refused
  | .scalar format =>
    match scalarPayload? format value with
    | some payload => .ok (p.addRow (·.addScalar (.ofFormat format) name payload))
    | none => refused
  | .string =>
    match value with
    | some (.text text) => .ok (p.addRow (·.addString name (some text)))
    | _ => if isAbsent value then .ok (p.addRow (·.addString name none)) else refused
  | .enum =>
    match value with
    | some (.enum e v) => .ok (p.addRow (·.addEnum name e v))
    | _ =>
      match declared with
      | .enum e =>
        if isAbsent value then .ok (p.addRow (·.addEnum name e e.defaultValue)) else refused
      | _ => refused
  | .custom =>
    match value with
    | some (.custom c) => .ok (p.addRow (·.addStruct name c.name (some c)))
    | some .null => .error (.missingStruct label)
    | none => .ok (p.addRow (·.addStruct name (absentTypeName declared) none))
    | _ => refused
  | .object =>
    match value with
    | some (.object o) =>
      .ok (p.addDeferred (·.addObject name (Naming.typeName o.typeName) true) (.object · o))
    | _ =>
      if isAbsent value then .ok (p.addRow (·.addObject name (absentTypeName declared) false))
      else refused
  | .array =>
    match value with
    | some (.sequence items) =>
      .ok (p.addDeferred (·.addArray name) (.sequence · label items declared.element?))
    | _ =>
      if isAbsent value then
        .ok (p.addDeferred (·.addArray name) (.sequence · label [] declared.element?))
      else refused
  | .dictionary =>
    let key := declared.entry?.map (·.1)
    let entry := declared.entry?.map (·.2)
    match value with
    | some (.dictionary entries) =>
      .ok (p.addDeferred (·.addDictionary name) (.dictionary · label entries key entry))
    | _ =>
      if isAbsent value then
        .ok (p.addDeferred (·.addDictionary name) (.dictionary · label [] key entry))
      else refused
  | .dataUnit =>
    match value with
    | some (.dataUnit unit) => .ok (p.addDeferred (addDataUnitRow name unit) (.dataUnit · unit))
    | _ =>
      if isAbsent value then
        .ok (p.addRow (·.addDataUnit name (absentTypeName declared) none))
      else refused

namespace Rules

/-- Whether a value, or an element that is only declared, yields a row. -/
def supports (r : Rules) (label : String) (declared : Ty) : Option Value → Except WalkError Bool
  | some value => r.supportsValue label declared value
  | none => r.supportsType label declared

/-- Adds the row of one field or element; `value` is absent where an element is only declared.  No
row is added for a value that is not supported and skipped.  A collection is looked into first
unless an element that is not supported reports itself. -/
def addRowFor (r : Rules) (p : Progress) (name label : String) (declared : Ty)
    (value : Option Value) : Except WalkError (Option Nat × Progress) := do
  let declared := declared.strip
  match ← r.treatment? label declared value with
  | none =>
    r.refuse label declared
    return (none, p)
  | some treatment =>
    -- A collection without a usable element would own no rows.
    let composite := treatment = .array ∨ treatment = .dictionary
    if composite ∧ r.unknown = .skip then
      if ¬ (← r.supports label declared value) then
        r.refuse label declared
        return (none, p)
    let (row, p) ← addTreated p name label declared value treatment
    return (some row, p)

/-- Adds the rows of several values, each with its label; also counts the rows. -/
def addElements (r : Rules) (declared : Ty) (p : Progress) :
    List (String × Value) → Except WalkError (Nat × Progress)
  | [] => .ok (0, p)
  | (label, value) :: rest => do
    let (row, p) ← r.addRowFor p "" label declared (some value)
    let (count, p) ← addElements r declared p rest
    return ((if row.isSome then 1 else 0) + count, p)

/-- Values with the labels of elements. -/
def labelled {α : Type} (label : String) (items : List α) : List (String × α) :=
  items.zipIdx.map fun (item, index) => (elementLabel label index, item)

/-! ### Composite values -/

/-- The fields of an object in the order in which they become rows. -/
def orderFields (r : Rules) (fields : List Field) : List Field :=
  match r.order with
  | .declaration => fields
  | .typeName => Sorting.sortBy (fun a b => a.ty.text ≤ b.ty.text) fields

/-- Adds the rows of fields; also counts them. -/
def addFields (r : Rules) (typeName : String) (p : Progress) :
    List Field → Except WalkError (Nat × Progress)
  | [] => .ok (0, p)
  | field :: rest => do
    let name := Naming.stripMember field.name r.memberLead
    let (row, p) ← r.addRowFor p name (typeName ++ "." ++ name) field.ty (some field.value)
    let (count, p) ← addFields r typeName p rest
    return ((if row.isSome then 1 else 0) + count, p)

/-- Adds the fields of an object. -/
def addObjectFields (r : Rules) (p : Progress) (row : Nat) (object : Object) :
    Except WalkError Progress := do
  let start := p.size
  let (count, p) ← r.addFields object.typeName p (r.orderFields object.fields)
  return p.setRange row start count

/-- Adds the elements of an array; an empty array gets one that is only declared. -/
def addSequence (r : Rules) (p : Progress) (row : Nat) (label : String) (items : List Value)
    (element : Option Ty) : Except WalkError Progress := do
  let start := p.size
  if items.isEmpty then
    match element with
    | none => throw (.untypedCollection label)
    | some element =>
      let (added, p) ← r.addRowFor p "" label element none
      return if added.isSome then p.setRange row start 0 else p
  else
    let (count, p) ← r.addElements (element.getD .unknown) p (labelled label items)
    -- Elements of different classes are known by the class that the array declares.
    let p := match ← checkHomogeneous label (p.rowsFrom start count) element with
      | some base => p.setTypeName row base
      | none => p
    return if count = 0 then p else p.setRange row start count

/-- The entries whose halves are both supported. -/
def keepEntries (r : Rules) (key value : Ty) :
    List (String × Value × Value) → Except WalkError (List (String × Value × Value))
  | [] => .ok []
  | (label, k, v) :: rest => do
    if ¬ (← r.supportsValue label key k) then
      r.refuse label key
      keepEntries r key value rest
    else if ¬ (← r.supportsValue label value v) then
      r.refuse label value
      keepEntries r key value rest
    else return (label, k, v) :: (← keepEntries r key value rest)

/-- Adds the keys and then the values of a dictionary; an empty one gets one of each that is only
declared. -/
def addEntries (r : Rules) (p : Progress) (row : Nat) (label : String)
    (entries : List (Value × Value)) (key value : Option Ty) : Except WalkError Progress := do
  let start := p.size
  if entries.isEmpty then
    match key, value with
    | some key, some value =>
      let (k, p) ← r.addRowFor p "" label key none
      let (v, p) ← r.addRowFor p "" label value none
      return if k.isSome ∧ v.isSome then p.setRange row start 0 else p
    | _, _ => throw (.untypedCollection label)
  else
    let keyType := key.getD .unknown
    let valueType := value.getD .unknown
    -- Both halves are looked at before any row is added, so keys and values stay in step.
    let kept ← r.keepEntries keyType valueType (labelled label entries)
    let (_, p) ← r.addElements keyType p (kept.map fun (label, k, _) => (label, k))
    let (_, p) ← r.addElements valueType p (kept.map fun (label, _, v) => (label, v))
    let count := kept.length
    let _ ← checkHomogeneous label (p.rowsFrom start count) none
    let p := match ← checkHomogeneous label (p.rowsFrom (start + count) count) value with
      | some base => p.setTypeName row base
      | none => p
    return if count = 0 then p else p.setRange row start count

/-- Gives a data unit the row of its root object, which is added unless the unit has been met. -/
def addRoot (p : Progress) (row : Nat) (unit : DataUnit) : Progress :=
  let signature := Digest.ofText unit.signature
  match p.units.lookup signature with
  | some root => p.setRange row root 1
  | none =>
    let (root, p) := p.addDeferred (·.addObject "" (Naming.typeName unit.root.typeName) true)
      (.object · unit.root)
    { p with units := (signature, root) :: p.units }.setRange row root 1

/-- Adds the parts of a composite value. -/
def addParts (r : Rules) (p : Progress) : Deferred → Except WalkError Progress
  | .object row object => r.addObjectFields p row object
  | .sequence row label items element => r.addSequence p row label items element
  | .dictionary row label entries key value => r.addEntries p row label entries key value
  | .dataUnit row unit => .ok (addRoot p row unit)

/-! ### Whole graphs -/

/-- Takes up what has been put off, round after round, for at most `rounds` rounds. -/
def addRounds (r : Rules) : Nat → Progress → Except WalkError Progress
  | 0, p => .ok p
  | rounds + 1, p =>
    match p.deferred with
    | [] => .ok p
    | deferred => do addRounds r rounds (← deferred.foldlM r.addParts { p with deferred := [] })

/-- Flattens a data unit and everything that it reaches; the result also tells the row of the data
unit. -/
def walk (r : Rules) (m : Model) (unit : DataUnit) : Except WalkError (Nat × Model) := do
  let start : Progress := ⟨m, [], []⟩
  let (row, p) := start.addDeferred (addDataUnitRow "" unit) (.dataUnit · unit)
  let p ← r.addRounds ((Value.dataUnit unit).depth + 1) p
  return (row, p.model)

end Rules

end ObjectPack.Walk
