import ObjectPack.Model

/-!
# Types of declared fields

The type that a generated struct gives to a field, as a tree and as text.  Objects are held by
pointer; collections spell out the type of their elements, which is that of their first row unless
the collection bears the name of a class.
-/

namespace ObjectPack

/-- The type of a field in a generated struct. -/
inductive FieldType where
  /-- A number, a text or a struct held by value. -/
  | named (spelling : String)
  | pointer (className : String)
  | array (element : FieldType)
  | dictionary (key value : FieldType)
  /-- A handle of a data unit. -/
  | dataUnit (className : String)
  deriving DecidableEq, Repr

/-- The text of a type. -/
def FieldType.text : FieldType → String
  | .named spelling => spelling
  | .pointer className => className ++ "*"
  | .array element => "array_t<" ++ element.text ++ ">"
  | .dictionary key value => "dict_t<" ++ key.text ++ ", " ++ value.text ++ ">"
  | .dataUnit className => "dataunit_t<" ++ className ++ ">"

namespace Model

/-- The kind that underlies the enumeration of row `i`, or a fault. -/
def requireEnum (m : Model) (i : Nat) : Except Fault Kind := do
  let row ← m.row i
  match row.value.enum? with
  | some (e, _) => return e.underlying
  | none => throw (.enumWithoutValue i row.name)

/-- The type of row `i`, looking at most `depth` collections deep. -/
def fieldTypeWithin (m : Model) : Nat → Nat → Except Fault FieldType
  | 0, _ => .error .outOfRange
  | depth + 1, i => do
    let row ← m.row i
    match row.kind with
    | .unknown => throw (.unexpectedMember i row.name row.kind "a C++ field")
    | .enum => return .named (← m.requireEnum i).spelling
    | .struct => return .named (← m.requireTypeName i)
    | .object => return .pointer (← m.requireTypeName i)
    | .array =>
      match row.typeName with
      | some base => return .array (.pointer base)
      | none => return .array (← fieldTypeWithin m depth (← m.requireStart i))
    | .dictionary =>
      -- Keys come first; an empty dictionary keeps one row of each.
      let start ← m.requireStart i
      let value ← match row.typeName with
        | some base => pure (.pointer base)
        | none => do fieldTypeWithin m depth (← spanFrom start (max row.count 1)).stop
      let key ← fieldTypeWithin m depth start
      return .dictionary key value
    | .dataUnit => return .dataUnit (← m.requireTypeName i)
    | kind => return .named kind.spelling

/-- The type of row `i` as a field.  A collection nested more deeply than there are rows would
contain itself. -/
def fieldType (m : Model) (i : Nat) : Except Fault FieldType := m.fieldTypeWithin (m.size + 1) i

end Model

end ObjectPack
