/-!
# Names in generated code

The spelling rules that turn field and class names into identifiers: snake case, the `_t` suffix
of type names, and the removal of a member prefix.  All three look at ASCII letters only; other
characters pass through.
-/

namespace ObjectPack.Naming

/-- Lower-cases ASCII capitals, setting an underscore before each unless it stands first or after an
underscore.  `last` is the character written last. -/
def snakeChars : Option Char → List Char → List Char
  | _, [] => []
  | last, c :: rest =>
    if 'A' ≤ c ∧ c ≤ 'Z' then
      let lower := c.toLower
      if last = none ∨ last = some '_' then lower :: snakeChars (some lower) rest
      else '_' :: lower :: snakeChars (some lower) rest
    else c :: snakeChars (some c) rest

/-- The snake-case form of a PascalCase or camelCase name. -/
def snakeCase (name : String) : String := String.ofList (snakeChars none name.toList)

/-- What stands behind the last namespace separator, `.` or `:`. -/
def unqualified (name : String) : String :=
  String.ofList (name.toList.reverse.takeWhile fun c => c ≠ '.' ∧ c ≠ ':').reverse

/-- The type name of a class: its unqualified name in snake case with a `_t` suffix. -/
def typeName (name : String) : String := snakeCase (unqualified name) ++ "_t"

/-- The name without its member prefix; a name that is nothing but the prefix keeps it. -/
def stripMember (name lead : String) : String :=
  let rest := name.toList.drop lead.length
  if lead.toList.isPrefixOf name.toList ∧ ¬ lead.isEmpty ∧ ¬ rest.isEmpty then String.ofList rest
  else name

end ObjectPack.Naming
