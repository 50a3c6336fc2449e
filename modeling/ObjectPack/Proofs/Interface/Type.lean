import ObjectPack.Proofs.Interface.Shown
import ObjectPack.Proofs.Model.Schedule
import ObjectPack.Proofs.Walk.Solved

/-!
# Types of rows

The type of a row is a matter of what the row holds (`Model.rowType`).  In the solved model of an object
graph every row has the type of what it stands for (`Walk.Pictures.rowType`): rows of elements have not
moved, so a collection still finds its first element.
-/

namespace ObjectPack

open Outcome

namespace Model

variable {m m' : Model} {i n : Nat} {r : Row} {T : FieldType}

/-- The type that a row has as a field, looking at most `depth` collections deep behind it. -/
def rowType (m : Model) (depth : Nat) (r : Row) : Option FieldType :=
  match r.kind with
  | .unknown => none
  | .enum => r.value.enum?.map fun (e, _) => .named e.underlying.spelling
  | .struct => r.typeName.map .named
  | .object => r.typeName.map .pointer
  | .array =>
    match r.typeName with
    | some base => some (.array (.pointer base))
    | none => r.start.bind fun start => (m.fieldTypeWithin depth start).toOption.map .array
  | .dictionary => r.start.bind fun start => do
    let val ← match r.typeName with
      | some base => pure (.pointer base)
      | none => do
        let keys ← (spanFrom start (max r.count 1)).toOption
        (m.fieldTypeWithin depth keys.stop).toOption
    let key ← (m.fieldTypeWithin depth start).toOption
    return .dictionary key val
  | .dataUnit => r.typeName.map .dataUnit
  | kind => some (.named kind.spelling)

theorem fieldTypeWithin_eq (hrow : m.row i = .ok r) :
    (m.fieldTypeWithin (n + 1) i).toOption = m.rowType n r := by
  unfold fieldTypeWithin rowType requireTypeName requireStart requireEnum
  rw [hrow]
  obtain ⟨kind, name, typeName, start, count, value⟩ := r
  cases kind with
  | enum => cases value <;> rfl
  | struct | object | dataUnit => cases typeName <;> rfl
  | array =>
    cases typeName with
    | some base => rfl
    | none =>
      cases start with
      | none => rfl
      | some start =>
        dsimp only [bind, Except.bind, pure, Except.pure, Option.bind]
        cases m.fieldTypeWithin n start <;> rfl
  | dictionary =>
    cases start with
    | none => rfl
    | some start =>
      cases typeName with
      | some base =>
        dsimp only [bind, Except.bind, pure, Except.pure, Option.bind]
        cases m.fieldTypeWithin n start <;> rfl
      | none =>
        dsimp only [bind, Except.bind, pure, Except.pure, Option.bind]
        cases spanFrom start (max count 1) with
        | error e => rfl
        | ok keys =>
          dsimp only [Except.toOption]
          cases m.fieldTypeWithin n keys.stop with
          | error e => rfl
          | ok val =>
            dsimp only
            cases m.fieldTypeWithin n start <;> rfl
  | _ => rfl

theorem rowType_array {name : String} {typeName : Option String} {start count : Nat} {value : Payload}
    (element : (m.fieldTypeWithin n start).toOption = some T) :
    m.rowType n ⟨.array, name, typeName, some start, count, value⟩ =
      some (.array (typeName.elim T .pointer)) := by
  cases typeName with
  | some base => rfl
  | none =>
    show (m.fieldTypeWithin n start).toOption.map _ = _
    rw [element]
    rfl

theorem rowType_dictionary {name : String} {typeName : Option String} {start count : Nat} {value : Payload}
    {T' : FieldType} (small : start + max count 1 < indexLimit)
    (key : (m.fieldTypeWithin n start).toOption = some T)
    (val : (m.fieldTypeWithin n (start + max count 1)).toOption = some T') :
    m.rowType n ⟨.dictionary, name, typeName, some start, count, value⟩ =
      some (.dictionary T (typeName.elim T' .pointer)) := by
  unfold rowType
  cases typeName with
  | some base =>
    simp only [Option.bind_some, key]
    rfl
  | none =>
    have hkeys : (spanFrom start (max count 1)).toOption = some ⟨start, max count 1⟩ := by
      rw [spanFrom_of_lt small]
      rfl
    simp only [Option.bind_some, hkeys, Option.bind_eq_bind, Span.stop, key, val]
    rfl

/-- A row that has a type is there. -/
theorem exists_row_of_type (type : (m.fieldTypeWithin (n + 1) i).toOption = some T) :
    ∃ r, m.row i = .ok r ∧ m.rowType n r = some T := by
  have hok := toOption_eq_some.mp type
  unfold fieldTypeWithin at hok
  obtain ⟨r, hrow, -⟩ := bind_eq_ok.mp hok
  exact ⟨r, hrow, (fieldTypeWithin_eq hrow).symm.trans type⟩

/-- An array has the name of a class, or the type of its first element. -/
theorem rowType_array_cases (kind : r.kind = .array) (type : m.rowType n r = some T) :
    (∃ base, r.typeName = some base ∧ T = .array (.pointer base)) ∨
      ∃ start E, r.typeName = none ∧ r.start = some start ∧
        (m.fieldTypeWithin n start).toOption = some E ∧ T = .array E := by
  unfold rowType at type
  rw [kind] at type
  dsimp only at type
  split at type
  · rename_i base hbase
    exact Or.inl ⟨base, hbase, (Option.some.inj type).symm⟩
  · rename_i hbase
    obtain ⟨start, hstart, type⟩ := Option.bind_eq_some_iff.mp type
    obtain ⟨E, helement, rfl⟩ := Option.map_eq_some_iff.mp type
    exact Or.inr ⟨start, E, hbase, hstart, helement, rfl⟩

/-- The keys of a dictionary have the type of the first one; its values have the name of a class or the type of
the first one. -/
theorem rowType_dictionary_cases (kind : r.kind = .dictionary) (type : m.rowType n r = some T) :
    ∃ start K V, r.start = some start ∧ (m.fieldTypeWithin n start).toOption = some K ∧ T = .dictionary K V ∧
      ((∃ base, r.typeName = some base ∧ V = .pointer base) ∨
        r.typeName = none ∧ (m.fieldTypeWithin n (start + max r.count 1)).toOption = some V) := by
  unfold rowType at type
  rw [kind] at type
  dsimp only at type
  obtain ⟨start, hstart, type⟩ := Option.bind_eq_some_iff.mp type
  split at type
  · rename_i base hbase
    simp only [Option.bind_eq_bind, Option.bind_eq_some_iff, Option.pure_def, Option.some.injEq] at type
    obtain ⟨_, rfl, K, hkey, rfl⟩ := type
    exact ⟨start, K, _, hstart, hkey, rfl, Or.inl ⟨base, hbase, rfl⟩⟩
  · rename_i hbase
    simp only [Option.bind_eq_bind, Option.bind_eq_some_iff, Option.pure_def, Option.some.injEq] at type
    obtain ⟨keys, hkeys, V, hval, K, hkey, rfl⟩ := type
    have hspan := toOption_eq_some.mp hkeys
    obtain ⟨-, rfl⟩ := spanFrom_eq_ok.mp hspan
    exact ⟨start, K, V, hstart, hkey, rfl, Or.inr ⟨hbase, hval⟩⟩

/-- The count of an object does not matter to its type. -/
@[simp] theorem rowType_face (m : Model) (n : Nat) (r : Row) : m.rowType n r.face = m.rowType n r := by
  unfold Row.face
  split
  · rename_i hkind
    rw [rowType, rowType, hkind]
  · rfl

/-- Where the layout has been solved, what a collection holds is still where it was. -/
theorem Solved.held_still {passes j : Nat} {place : Nat → Nat} (h : m.Solved m' passes place)
    (reserved : m.Reserved) (hrow : m.row i = .ok r) (holds : r.Holds j) :
    i < j ∧ place j = j ∧ ∃ s, m.row j = .ok s := by
  obtain ⟨hlt, hinside, hnone⟩ := reserved i r j hrow holds
  exact ⟨hlt, h.still j fun k o ho => hnone k o ho.1 ho.2, exists_row_of_lt hinside⟩

/-- Where the layout has been solved, what a collection holds has the type that it had. -/
theorem Solved.fieldTypeWithin_held {passes : Nat} {place : Nat → Nat} (h : m.Solved m' passes place)
    (reserved : m.Reserved) {c : Row} {j : Nat} (hrow : m.row i = .ok c) (holds : c.Holds j) :
    i < j ∧ ∃ s, m.row j = .ok s ∧ (m'.fieldTypeWithin (n + 1) j).toOption = m'.rowType n s := by
  obtain ⟨hlt, hplace, s, hs⟩ := h.held_still reserved hrow holds
  have hmoved := h.row j s hs
  rw [hplace] at hmoved
  refine ⟨hlt, s, hs, ?_⟩
  rw [fieldTypeWithin_eq hmoved, ← rowType_face, foldedRow_face, rowType_face]

end Model

namespace Walk

open Model

variable {r : Rules} {m m' : Model} {origins : List Origin} {place : Nat → Nat} {passes i n : Nat}
  {row : Row} {name : String} {declared : Ty} {value : Option Value} {texts : TextPool}

theorem eq_of_isAbsent (absent : isAbsent value = true) : value = none ∨ value = some .null := by
  cases value with
  | none => exact Or.inl rfl
  | some v =>
    cases v with
    | null => exact Or.inr rfl
    | _ => cases absent

theorem rowType_number (m : Model) (n : Nat) (format : Scalar.Format) (name : String) (s : Scalar) :
    m.rowType n ⟨.ofFormat format, name, none, none, 1, .scalar s⟩ =
      some (.named (Kind.ofFormat format).spelling) := by
  cases format <;> rfl

/-- A row without parts has the type of what it shows. -/
theorem Plain.rowType (h : Plain r texts (.part name declared value) row) (m : Model) (n : Nat) :
    ∃ T, r.typeOf declared value = some T ∧ m.rowType n row = some T := by
  cases h with
  | bool treated | noBool treated _ | text treated _ | noText treated _ | enum treated | custom treated
  | noCustom treated =>
    rw [Rules.typeOf_plain treated Treatment.noConfusion Treatment.noConfusion]
    exact ⟨_, rfl, rfl⟩
  | scalar treated | noScalar treated _ =>
    rw [Rules.typeOf_plain treated Treatment.noConfusion Treatment.noConfusion]
    exact ⟨_, rfl, rowType_number m n _ _ _⟩
  | noEnum treated absent declares =>
    rw [Rules.typeOf_plain treated Treatment.noConfusion Treatment.noConfusion]
    rcases eq_of_isAbsent absent with rfl | rfl <;> simp only [plainType, declares] <;> exact ⟨_, rfl, rfl⟩
  | noObject treated absent | noUnit treated absent =>
    rw [Rules.typeOf_plain treated Treatment.noConfusion Treatment.noConfusion]
    rcases eq_of_isAbsent absent with rfl | rfl <;> exact ⟨_, rfl, rfl⟩

theorem commonType_of_bears {element : Ty} {values : List Value} {typeName : Option String} {T : FieldType}
    (h : Bears element values typeName) :
    commonType element values T = typeName.elim T .pointer := by
  unfold commonType
  rcases h with ⟨hmixed, rfl⟩ | ⟨hmixed, name, hstrip, rfl⟩
  · split
    · exact if_neg hmixed
    · rfl
  · rw [hstrip]
    exact if_pos hmixed

/-- In the solved model of an object graph, every row of a value has the type of the value. -/
theorem Pictures.rowType (h : Pictures r m origins) (solved : m.Solved m' passes place)
    (reserved : m.Reserved) (small : m.size < indexLimit) (hrow : m.row i = .ok row)
    (ho : origins[i]? = some (.part name declared value)) (deep : m.size ≤ n + i) :
    ∃ T, r.typeOf declared value = some T ∧ m'.rowType n row = some T := by
  induction n generalizing i row name declared value with
  | zero =>
    have hlt := lt_size_of_row hrow
    omega
  | succ n ih =>
    -- What a collection holds stands behind it.
    have helement : ∀ {j declared' value'}, row.Holds j →
        origins[j]? = some (.element declared' value') → ∃ T, r.typeOf declared' value' = some T ∧
          (m'.fieldTypeWithin (n + 1) j).toOption = some T := by
      intro j declared' value' hholds hj
      obtain ⟨hlt, s, hs, htype⟩ := solved.fieldTypeWithin_held (n := n) reserved hrow hholds
      obtain ⟨T, hT, hT'⟩ := ih hs hj (by omega)
      exact ⟨T, hT, htype.trans hT'⟩
    have hinside : ∀ {j}, row.Holds j → j < m.size := fun hholds => (reserved i row _ hrow hholds).2.1
    cases h.shows i row _ hrow ho with
    | plain hplain => exact hplain.rowType m' (n + 1)
    | object treated hvalue _ _ _ =>
      obtain rfl : value = _ := hvalue
      refine ⟨_, ?_, rfl⟩
      exact Rules.typeOf_plain treated Treatment.noConfusion Treatment.noConfusion
    | dataUnit treated hvalue _ _ =>
      obtain rfl : value = _ := hvalue
      refine ⟨_, ?_, rfl⟩
      exact Rules.typeOf_plain treated Treatment.noConfusion Treatment.noConfusion
    | @sequence _ _ items kept typeName start treated used nonempty bears rows =>
      obtain ⟨first, rest, rfl⟩ := List.exists_cons_of_ne_nil nonempty
      have hholds : Row.Holds ⟨.array, name, typeName, some start, (first :: rest).length, .present⟩ start :=
        ⟨start, rfl, Nat.le_refl _, Nat.lt_add_of_pos_right (by simp [Row.heldCount])⟩
      obtain ⟨T, hT, hT'⟩ := helement hholds (getElem?_of_prefix_drop rows (x := 0) rfl)
      refine ⟨_, Rules.typeOf_sequence treated used hT, ?_⟩
      rw [commonType_of_bears bears]
      exact rowType_array hT'
    | @noElements _ _ element _ start treated empty declares rows =>
      have hholds : Row.Holds ⟨.array, name, none, some start, 0, .present⟩ start :=
        ⟨start, rfl, Nat.le_refl _, Nat.lt_add_of_pos_right (by simp [Row.heldCount])⟩
      obtain ⟨T, hT, hT'⟩ := helement hholds (getElem?_of_prefix_drop rows (x := 0) rfl)
      have hdeclared : r.declaredType element = some T := hT
      refine ⟨.array T, ?_, rowType_array hT'⟩
      rw [Rules.typeOf_empty_array treated empty, Rules.emptyArrayType, declares, Option.bind_some, hdeclared]
      rfl
    | @dictionary _ _ key val entries kept typeName start treated types used nonempty bears rows =>
      obtain ⟨first, rest, rfl⟩ := List.exists_cons_of_ne_nil nonempty
      have hholds : ∀ x < 2 * max (first :: rest).length 1, Row.Holds ⟨.dictionary, name, typeName, some start,
          (first :: rest).length, .present⟩ (start + x) :=
        fun x hx => ⟨start, rfl, Nat.le_add_right _ _, Nat.add_lt_add_left hx _⟩
      have hlength : max (first :: rest).length 1 = (first :: rest).length := by simp
      obtain ⟨T, hT, hT'⟩ := helement (hholds 0 (by omega)) (getElem?_of_prefix_drop rows (x := 0) rfl)
      have hsecond := hholds (max (first :: rest).length 1) (by omega)
      obtain ⟨T', hT₂, hT₂'⟩ := helement hsecond (getElem?_of_prefix_drop rows (by
        rw [hlength, List.getElem?_append_right (by rw [List.length_map]), List.length_map, Nat.sub_self]
        rfl))
      refine ⟨_, Rules.typeOf_dictionary treated types used hT hT₂, ?_⟩
      rw [commonType_of_bears bears]
      exact rowType_dictionary (Nat.lt_trans (hinside hsecond) small) hT' hT₂'
    | @noEntries _ _ key val _ start treated empty declares rows =>
      have hholds : ∀ x < 2, Row.Holds ⟨.dictionary, name, none, some start, 0, .present⟩ (start + x) :=
        fun x hx => ⟨start, rfl, Nat.le_add_right _ _, Nat.add_lt_add_left hx _⟩
      obtain ⟨T, hT, hT'⟩ := helement (hholds 0 (by omega)) (getElem?_of_prefix_drop rows (x := 0) rfl)
      obtain ⟨T', hT₂, hT₂'⟩ := helement (hholds 1 (by omega)) (getElem?_of_prefix_drop rows (x := 1) rfl)
      have hkey : r.declaredType key = some T := hT
      have hval : r.declaredType val = some T' := hT₂
      refine ⟨.dictionary T T', ?_, rowType_dictionary (Nat.lt_trans (hinside (hholds 1 (by omega))) small) hT' hT₂'⟩
      rw [Rules.typeOf_empty_dictionary treated empty, Rules.emptyDictionaryType, declares, Option.bind_some]
      simp only [hkey, hval]
      rfl

/-- In the solved model of an object graph, every row of a value has a type as a field. -/
theorem Pictures.fieldType (h : Pictures r m origins) (solved : m.Solved m' passes place)
    (reserved : m.Reserved) (small : m.size < indexLimit) (hrow : m.row i = .ok row)
    (ho : origins[i]? = some (.part name declared value)) :
    ∃ T, r.typeOf declared value = some T ∧ m'.fieldType (place i) = .ok T := by
  have hgrows := solved.size_le
  obtain ⟨T, hT, htype⟩ := h.rowType solved reserved small hrow ho (n := m'.size) (by omega)
  refine ⟨T, hT, toOption_eq_some.mp ?_⟩
  rw [Model.fieldType, fieldTypeWithin_eq (solved.row i row hrow), ← rowType_face, foldedRow_face, rowType_face,
    htype]

end Walk

end ObjectPack
