import ObjectPack.Interface.FieldType

/-!
# Declarations

What a generated interface declares, before it is put into words: enumerations, names of structs
that are defined later or nowhere, and structs with private fields and a getter for each.  A word
of folded booleans has one getter for each of its booleans.
-/

namespace ObjectPack.Interface

/-- A getter of a struct. -/
inductive Getter where
  /-- A bit of a word of booleans. -/
  | bit (name word : String) (bit : Nat)
  | enum (name enumName : String)
  | pointer (name className : String)
  /-- A field that is given by reference. -/
  | reference (name : String) (type : FieldType)
  /-- A field that is given by value. -/
  | value (name : String) (type : FieldType)
  deriving DecidableEq, Repr

/-- A struct for objects of one class. -/
structure StructDeclaration where
  name : String
  getters : List Getter
  /-- The fields, each with its type. -/
  fields : List (String × FieldType)
  deriving DecidableEq, Repr

end Interface

open Interface

namespace Model

/-- The getters of row `i`. -/
def getters (m : Model) (i : Nat) : Except Fault (List Getter) := do
  let row ← m.row i
  match row.kind with
  | .bitSet =>
    let bools ← (← row.members).mapM m.row
    return bools.zipIdx.map fun (b, bit) => .bit b.name row.name bit
  | .enum => return [.enum row.name (← m.requireTypeName i)]
  | .object => return [.pointer row.name (← m.requireTypeName i)]
  | .string | .struct | .array | .dictionary | .dataUnit =>
    return [.reference row.name (← m.fieldType i)]
  | _ => return [.value row.name (← m.fieldType i)]

/-- The struct for the object of row `i`: its getters and then its fields, both in the order of its
rows. -/
def structDeclaration (m : Model) (name : String) (i : Nat) : Except Fault StructDeclaration := do
  let members ← m.members i
  let getters ← members.mapM m.getters
  let fields ← members.mapM fun j => do
    let type ← m.fieldType j
    let row ← m.row j
    return (row.name, type)
  return ⟨name, getters.flatten, fields⟩

/-- The enumerations of a model, one for each name, in the order of their first rows. -/
def enumerations (m : Model) : List Enumeration :=
  m.rows.toList.foldl
    (fun found row =>
      match row.value.enum? with
      | some (e, _) => if found.any (·.name = e.name) then found else found ++ [e]
      | none => found)
    []

end Model

namespace Interface

/-- What a name is defined as. -/
inductive Definition where
  /-- By the lines that a custom struct brings along. -/
  | custom (value : CustomStruct)
  /-- By the rows that this row owns. -/
  | object (row : Nat)
  deriving DecidableEq, Repr

/-- Definitions with their names, in the order in which they were first seen. -/
abbrev Definitions := List (String × Definition)

/-- Adds a definition unless the name has one. -/
def Definitions.add (ds : Definitions) (name : String) (d : Definition) : Definitions :=
  if ds.any (·.1 = name) then ds else ds ++ [(name, d)]

/-- Whether a name is defined. -/
def Definitions.defines (ds : Definitions) (name : String) : Bool := ds.any (·.1 = name)

end Interface

namespace Model

/-- Adds the definition that row `i` calls for: that of its custom value or that of its object. -/
def addDefinition (m : Model) (ds : Definitions) (i : Nat) : Except Fault Definitions := do
  let row ← m.row i
  match row.kind with
  | .struct =>
    match row.value.struct? with
    | some c => return ds.add c.name (.custom c)
    | none => return ds
  | .object =>
    if row.value.isNull then return ds
    else return ds.add (← m.requireTypeName i) (.object i)
  | _ => return ds

/-- The definitions that a model calls for: custom structs by their own names, objects by the
names of their classes. -/
def definitions (m : Model) : Except Fault Definitions :=
  (List.range m.size).foldlM m.addDefinition []

/-- Adds a name unless it is there. -/
def addNew (names : List String) (name : String) : List String :=
  if names.contains name then names else names ++ [name]

/-- Adds the name that row `i` needs declared before any definition. -/
def addForward (m : Model) (all : Bool) (ds : Definitions) (names : List String) (i : Nat) :
    Except Fault (List String) := do
  let row ← m.row i
  match row.kind with
  | .object | .dataUnit => if all then return addNew names (← m.requireTypeName i) else return names
  | .array | .dictionary =>
    match row.typeName with
    | some base => return if all ∨ ¬ ds.defines base then addNew names base else names
    | none => return names
  | _ => return names

/-- The names declared before all definitions: with `all` those of every class and data unit, and
in any case the base classes of collections that nothing defines. -/
def forwardNames (m : Model) (all : Bool) (ds : Definitions) : Except Fault (List String) :=
  (List.range m.size).foldlM (m.addForward all ds) []

end Model

end ObjectPack
