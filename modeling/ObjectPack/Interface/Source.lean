import ObjectPack.Interface.Dependency

/-!
# Text of an interface

The C++ header that reads a packed model: enumerations, names declared in advance, and one
definition for every struct, in the order of the rows of the solved model.  Blank characters at its
end are removed.
-/

/-! ### Blank characters -/

namespace ObjectPack.Text

/-- Whether a character has the property White_Space. -/
def isBlank (c : Char) : Bool :=
  let n := c.toNat
  (9 ≤ n && n ≤ 13) || n = 0x20 || n = 0x85 || n = 0xa0 || n = 0x1680 || (0x2000 ≤ n && n ≤ 0x200a)
    || n = 0x2028 || n = 0x2029 || n = 0x202f || n = 0x205f || n = 0x3000

theorem isBlank_of_isWhitespace {c : Char} (h : c.isWhitespace = true) : isBlank c = true := by
  simp only [Char.isWhitespace, Bool.or_eq_true, decide_eq_true_eq] at h
  rcases h with ((h | h) | h) | h <;> subst h <;> decide

/-- The text without the blank characters at its end. -/
def trimEnd (text : String) : String :=
  String.ofList (text.toList.reverse.dropWhile isBlank).reverse

end ObjectPack.Text

/-! ### Declarations as text -/

namespace ObjectPack.Interface

/-- How an interface is written. -/
structure Style where
  /-- Whether the header guards itself against being included twice. -/
  pragmaOnce : Bool
  /-- The namespace around all declarations. -/
  scope : Option String
  /-- Whether the names of all classes are declared in advance. -/
  forward : Bool
  deriving DecidableEq, Repr

/-- A guarded header without namespace that declares all classes in advance. -/
def Style.standard : Style := ⟨true, none, true⟩

/-- The line of a getter. -/
def Getter.text : Getter → String
  | .bit name word k =>
    "    inline bool get" ++ name ++ "() const \x7b return (m_" ++ word ++ " & (1u << "
      ++ toString k ++ ")) != 0; \x7d\n"
  | .enum name enumName =>
    "    inline enums::" ++ enumName ++ " get" ++ name ++ "() const \x7b return (enums::"
      ++ enumName ++ ")m_" ++ name ++ "; \x7d\n"
  | .pointer name className =>
    "    inline " ++ className ++ " const* get" ++ name ++ "() const \x7b return m_" ++ name
      ++ "; \x7d\n"
  | .reference name type =>
    "    inline " ++ type.text ++ " const& get" ++ name ++ "() const \x7b return m_" ++ name
      ++ "; \x7d\n"
  | .value name type =>
    "    inline " ++ type.text ++ " get" ++ name ++ "() const \x7b return m_" ++ name ++ "; \x7d\n"

/-- The line of a field. -/
def fieldText (field : String × FieldType) : String :=
  "    " ++ field.2.text ++ " m_" ++ field.1 ++ ";\n"

/-- The definition of a struct. -/
def StructDeclaration.text (s : StructDeclaration) : String :=
  "struct " ++ s.name ++ "\n\x7b\n"
    ++ (if s.fields.isEmpty then ""
        else String.join (s.getters.map Getter.text) ++ "\nprivate:\n"
          ++ String.join (s.fields.map fieldText))
    ++ "\x7d;\n\n"

/-- The definition of a custom struct; one without lines has none. -/
def customText (c : CustomStruct) : String :=
  if c.code.isEmpty then "" else String.join (c.code.map (· ++ "\n")) ++ "\n"

/-- The declaration of an enumeration. -/
def enumText (e : Enumeration) : String :=
  "namespace enums\n\x7b\n    enum " ++ e.name ++ "\n    \x7b\n"
    ++ String.join (e.variants.map fun (name, value) =>
        "        " ++ name ++ " = " ++ toString value.toInt ++ ",\n")
    ++ "    \x7d;\n\x7d\n\n"

/-- The names declared in advance. -/
def forwardText (names : List String) : String :=
  if names.isEmpty then ""
  else
    "// Forward declarations\n" ++ String.join (names.map fun name => "struct " ++ name ++ ";\n")
      ++ "\n"

/-- The declarations inside their frame; the text ends in exactly one line break. -/
def Style.frame (style : Style) (body : String) : String :=
  let guard := if style.pragmaOnce then "#pragma once\n\n" else ""
  let text := match style.scope with
    | none => guard ++ body
    | some scope =>
      Text.trimEnd (guard ++ "namespace " ++ scope ++ "\n\x7b\n\n" ++ body)
        ++ "\n\n\x7d // namespace " ++ scope ++ "\n"
  Text.trimEnd text ++ "\n"

/-- The text of a definition. -/
def definitionText (m : Model) (ds : Definitions) (name : String) : Except Fault String := do
  match ← indexed (ds.lookup name) with
  | .custom c => return customText c
  | .object row => return (← m.structDeclaration name row).text

end Interface

open Interface

/-- The interface of a solved model. -/
def Model.interface (m : Model) (style : Style) : Except (Failure OrderError) String := do
  let ds ← m.definitions
  let order ← m.orderedDefinitions style.forward ds
  let forward ← m.forwardNames style.forward ds
  let definitions ← (order.mapM (definitionText m ds) : Except Fault (List String))
  return style.frame
    (String.join (m.enumerations.map enumText) ++ forwardText forward ++ String.join definitions)

end ObjectPack
