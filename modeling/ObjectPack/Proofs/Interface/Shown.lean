import ObjectPack.Interface.FieldType
import ObjectPack.Proofs.Walk.Picture

/-!
# Types of values

The type that a generated struct gives to a field is a matter of the declared type and of the value
(`Walk.Rules.typeOf`): objects are known by their own classes, and a collection shows the type of its first
usable element, unless there are objects of different classes among its elements.
-/

namespace ObjectPack.Walk

/-- The type of an object that is there. -/
def objectName? : Value → Option String
  | .object o => some (Naming.typeName o.typeName)
  | _ => none

theorem mem_objectNames {values : List Value} {name : String} :
    name ∈ values.filterMap objectName? ↔ ∃ o, .object o ∈ values ∧ Naming.typeName o.typeName = name := by
  rw [List.mem_filterMap]
  constructor
  · rintro ⟨v, hv, hname⟩
    cases v with
    | object o => exact ⟨o, hv, Option.some.inj hname⟩
    | _ => cases hname
  · rintro ⟨o, ho, rfl⟩
    exact ⟨_, ho, rfl⟩

theorem mixed_iff (values : List Value) : Mixed values ↔
    ∃ a ∈ values.filterMap objectName?, ∃ b ∈ values.filterMap objectName?, a ≠ b := by
  constructor
  · rintro ⟨o, o', ho, ho', hne⟩
    exact ⟨_, mem_objectNames.mpr ⟨o, ho, rfl⟩, _, mem_objectNames.mpr ⟨o', ho', rfl⟩, hne⟩
  · rintro ⟨a, ha, b, hb, hne⟩
    obtain ⟨o, ho, rfl⟩ := mem_objectNames.mp ha
    obtain ⟨o', ho', rfl⟩ := mem_objectNames.mp hb
    exact ⟨o, o', ho, ho', hne⟩

instance (values : List Value) : Decidable (Mixed values) := decidable_of_iff' _ (mixed_iff values)

/-- The type of the elements of a collection that holds some values, of which the first one has a type. -/
def commonType (element : Ty) (values : List Value) (first : FieldType) : FieldType :=
  match element.strip with
  | .object name => if Mixed values then .pointer (Naming.typeName name) else first
  | _ => first

/-- The type of a value that is no collection. -/
def plainType (t : Treatment) (declared : Ty) (value : Option Value) : Option FieldType :=
  match t with
  | .bool => some (.named Kind.bool.spelling)
  | .scalar format => some (.named (Kind.ofFormat format).spelling)
  | .string => some (.named Kind.string.spelling)
  | .enum =>
    match value, declared.strip with
    | some (.enum e _), _ | _, .enum e => some (.named e.underlying.spelling)
    | _, _ => none
  | .custom =>
    match value with
    | some (.custom c) => some (.named c.name)
    | _ => some (.named (absentTypeName declared.strip))
  | .object =>
    match value with
    | some (.object o) => some (.pointer (Naming.typeName o.typeName))
    | _ => some (.pointer (absentTypeName declared.strip))
  | .dataUnit =>
    match value with
    | some (.dataUnit u) => some (.dataUnit (Naming.typeName u.root.typeName))
    | _ => some (.dataUnit (absentTypeName declared.strip))
  | .array | .dictionary => none

namespace Rules

/-- The type of an element that is only declared. -/
def declaredType (r : Rules) : Ty → Option FieldType
  | .nullable inner => declaredType r inner
  | ty =>
    match r.treatmentOf ty none with
    | none => none
    | some .array =>
      match ty with
      | .array element | .list element => (declaredType r element).map .array
      | _ => none
    | some .dictionary =>
      match ty with
      | .dictionary key val => do return .dictionary (← declaredType r key) (← declaredType r val)
      | _ => none
    | some t => plainType t ty none

/-- The type of an array without elements. -/
def emptyArrayType (r : Rules) (declared : Ty) : Option FieldType :=
  declared.strip.element?.bind fun element => (r.declaredType element).map .array

/-- The type of a dictionary without entries. -/
def emptyDictionaryType (r : Rules) (declared : Ty) : Option FieldType :=
  declared.strip.entry?.bind fun (key, val) => do
    return .dictionary (← r.declaredType key) (← r.declaredType val)

mutual

/-- The type of a value. -/
def valueType (r : Rules) (declared : Ty) (value : Value) : Option FieldType :=
  match r.treatmentOf declared (some value) with
  | none => none
  | some .array =>
    match value with
    | .sequence (item :: rest) =>
      let element := elementType declared
      let kept := (item :: rest).filter fun item => r.usable element (some item)
      (firstType r element (item :: rest)).map fun first => .array (commonType element kept first)
    | _ => r.emptyArrayType declared
  | some .dictionary =>
    match value with
    | .dictionary (entry :: rest) =>
      let (key, val) := entryTypes declared
      let kept := (entry :: rest).filter fun entry => r.usable key (some entry.1) && r.usable val (some entry.2)
      (firstTypes r key val (entry :: rest)).map fun (first, second) =>
        .dictionary first (commonType val (kept.map (·.2)) second)
    | _ => r.emptyDictionaryType declared
  | some t => plainType t declared (some value)

/-- The type of the first usable item. -/
def firstType (r : Rules) (element : Ty) : List Value → Option FieldType
  | [] => none
  | item :: rest =>
    if r.usable element (some item) then valueType r element item else firstType r element rest

/-- The types of both halves of the first usable entry. -/
def firstTypes (r : Rules) (key val : Ty) : List (Value × Value) → Option (FieldType × FieldType)
  | [] => none
  | entry :: rest =>
    if r.usable key (some entry.1) && r.usable val (some entry.2) then halfTypes r key val entry
    else firstTypes r key val rest

/-- The types of both halves of an entry. -/
def halfTypes (r : Rules) (key val : Ty) : Value × Value → Option (FieldType × FieldType)
  | (k, v) => do return (← valueType r key k, ← valueType r val v)

end

/-- The type of a value, or of an element that is only declared. -/
def typeOf (r : Rules) (declared : Ty) : Option Value → Option FieldType
  | some value => r.valueType declared value
  | none => r.declaredType declared

variable {r : Rules} {declared element key val : Ty} {value : Option Value} {items kept : List Value}
  {entries keptEntries : List (Value × Value)}

theorem declaredType_eq (r : Rules) (declared : Ty) : r.declaredType declared =
    match r.treatmentOf declared none with
    | none => none
    | some .array => r.emptyArrayType declared
    | some .dictionary => r.emptyDictionaryType declared
    | some t => plainType t declared none := by
  induction declared with
  | nullable inner ih =>
    rw [declaredType, ih]
    rfl
  | array element ih | list element ih =>
    unfold declaredType
    cases r.treatmentOf _ none with
    | none => rfl
    | some t => cases t <;> rfl
  | dictionary key val ihkey ihval =>
    unfold declaredType
    cases r.treatmentOf _ none with
    | none => rfl
    | some t => cases t <;> rfl
  | _ =>
    unfold declaredType
    cases r.treatmentOf _ none with
    | none => rfl
    | some t => cases t <;> rfl

/-- The type of a value that is no collection, whatever the declared type. -/
theorem typeOf_plain {t : Treatment} (treated : r.treatmentOf declared value = some t)
    (array : t ≠ .array) (dictionary : t ≠ .dictionary) :
    r.typeOf declared value = plainType t declared value := by
  cases value with
  | none => simp only [typeOf, declaredType_eq, treated]
  | some value =>
    rw [typeOf]
    unfold valueType
    rw [treated]
    cases t with
    | array => exact absurd rfl array
    | dictionary => exact absurd rfl dictionary
    | _ => rfl

theorem typeOf_empty_array (treated : r.treatmentOf declared value = some .array)
    (empty : value = some (.sequence []) ∨ isAbsent value = true) :
    r.typeOf declared value = r.emptyArrayType declared := by
  cases value with
  | none => simp only [typeOf, declaredType_eq, treated]
  | some value =>
    rw [typeOf]
    unfold valueType
    rw [treated]
    rcases empty with hempty | habsent
    · cases hempty
      rfl
    · cases value with
      | null => rfl
      | _ => cases habsent

theorem typeOf_empty_dictionary (treated : r.treatmentOf declared value = some .dictionary)
    (empty : value = some (.dictionary []) ∨ isAbsent value = true) :
    r.typeOf declared value = r.emptyDictionaryType declared := by
  cases value with
  | none => simp only [typeOf, declaredType_eq, treated]
  | some value =>
    rw [typeOf]
    unfold valueType
    rw [treated]
    rcases empty with hempty | habsent
    · cases hempty
      rfl
    · cases value with
      | null => rfl
      | _ => cases habsent

theorem firstType_eq {first : Value} {rest : List Value}
    (used : first :: rest = items.filter fun item => r.usable element (some item)) :
    r.firstType element items = r.valueType element first := by
  induction items with
  | nil => cases used
  | cons item items ih =>
    rw [firstType]
    rw [List.filter_cons] at used
    split at used
    · rename_i husable
      cases used
      exact if_pos husable
    · rename_i husable
      rw [if_neg husable]
      exact ih used

theorem firstTypes_eq {first : Value × Value} {rest : List (Value × Value)}
    (used : first :: rest =
      entries.filter fun entry => r.usable key (some entry.1) && r.usable val (some entry.2)) :
    r.firstTypes key val entries = do return (← r.valueType key first.1, ← r.valueType val first.2) := by
  induction entries with
  | nil => cases used
  | cons entry entries ih =>
    rw [firstTypes]
    rw [List.filter_cons] at used
    split at used
    · rename_i husable
      cases used
      rw [if_pos husable, halfTypes]
    · rename_i husable
      rw [if_neg husable]
      exact ih used

/-- An array shows the type of its first element that is usable. -/
theorem typeOf_sequence {first : Value} {rest : List Value} {T : FieldType}
    (treated : r.treatmentOf declared (some (.sequence items)) = some .array)
    (used : first :: rest = items.filter fun item => r.usable (elementType declared) (some item))
    (type : r.valueType (elementType declared) first = some T) :
    r.typeOf declared (some (.sequence items)) =
      some (.array (commonType (elementType declared) (first :: rest) T)) := by
  have hfirst := firstType_eq used
  rw [typeOf]
  unfold valueType
  rw [treated]
  cases items with
  | nil => cases used
  | cons item items =>
    dsimp only
    rw [hfirst, type, used]
    rfl

/-- A dictionary shows the types of both halves of its first entry that is usable. -/
theorem typeOf_dictionary {first : Value × Value} {rest : List (Value × Value)} {T T' : FieldType}
    (treated : r.treatmentOf declared (some (.dictionary entries)) = some .dictionary)
    (types : entryTypes declared = (key, val))
    (used : first :: rest =
      entries.filter fun entry => r.usable key (some entry.1) && r.usable val (some entry.2))
    (type : r.valueType key first.1 = some T) (type' : r.valueType val first.2 = some T') :
    r.typeOf declared (some (.dictionary entries)) =
      some (.dictionary T (commonType val ((first :: rest).map (·.2)) T')) := by
  have hfirst := firstTypes_eq used
  rw [typeOf]
  unfold valueType
  rw [treated, types]
  cases entries with
  | nil => cases used
  | cons entry entries =>
    dsimp only
    rw [hfirst, type, type', used]
    rfl

end Rules

end ObjectPack.Walk
