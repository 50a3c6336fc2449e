import ObjectPack.Proofs.Interface.Order
import ObjectPack.Proofs.Interface.Total

/-!
# Names are introduced before they are used

The structs of an interface name classes and data units.  A name in the type of a field is that of a row that
decides on the type (`Model.exposes_of_fieldType`); such a row is needed by the struct
(`Model.Exposes.mem_dependencies`) unless classes are declared in advance.  So a name stands behind its
introduction iff it has one at all: all classes are declared in advance, or a definition has the name, or it is the
class of a collection (`Model.interface_introduces`).  Without declarations in advance a class of which there is no
object has none (`Options.exists_stranger`).
-/

namespace ObjectPack

open Outcome Interface

/-- The names of classes and data units in a type. -/
def FieldType.classNames : FieldType → List String
  | .named _ => []
  | .pointer className => [className]
  | .array element => element.classNames
  | .dictionary key value => key.classNames ++ value.classNames
  | .dataUnit className => [className]

namespace Interface

/-- The names of classes and data units in a getter. -/
def Getter.classNames : Getter → List String
  | .bit _ _ _ | .enum _ _ => []
  | .pointer _ className => [className]
  | .reference _ type | .value _ type => type.classNames

/-- The names of classes and data units in a struct. -/
def StructDeclaration.classNames (s : StructDeclaration) : List String :=
  s.getters.flatMap Getter.classNames ++ s.fields.flatMap (·.2.classNames)

/-- Whether a definition has lines: a custom struct brings its own, and may bring none. -/
def Definition.HasLines : Definition → Prop
  | .custom c => c.code ≠ []
  | .object _ => True

/-- Whether a name has a definition with lines. -/
def Definitions.Introduce (ds : Definitions) (name : String) : Prop := ∃ d, (name, d) ∈ ds ∧ d.HasLines

theorem Definitions.Introduce.defines {ds : Definitions} {name : String} (h : ds.Introduce name) :
    ds.defines name = true := by
  obtain ⟨d, hd, -⟩ := h
  exact List.any_eq_true.mpr ⟨_, hd, decide_eq_true rfl⟩

end Interface

namespace Model

variable {m : Model} {i n : Nat} {c name : String} {row : Row} {T : FieldType} {forward : Bool} {ds : Definitions}

/-! ### Names in types -/

/-- Whether a row has the name of a class or a data unit. -/
def Bearer (c : String) (row : Row) : Prop :=
  row.typeName = some c ∧ (row.kind = .object ∨ row.kind = .dataUnit ∨ row.kind = .array ∨ row.kind = .dictionary)

/-- A class or data unit in the type of a row is that of a row which decides on the type. -/
theorem exposes_of_fieldType (h : m.fieldTypeWithin n i = .ok T) (mem : c ∈ T.classNames) :
    m.Exposes (Bearer c) i := by
  -- The type of a collection is that of its elements, so the depth of the search falls with each step.
  induction n generalizing i T with
  | zero => cases h
  | succ n ih =>
    obtain ⟨row, hrow, htype⟩ := exists_row_of_type (toOption_eq_some.mpr h)
    have hall := htype
    unfold rowType at htype
    split at htype
    · cases htype
    · obtain ⟨e, -, rfl⟩ := Option.map_eq_some_iff.mp htype
      cases mem
    · obtain ⟨name, -, rfl⟩ := Option.map_eq_some_iff.mp htype
      cases mem
    · rename_i hkind
      obtain ⟨name, hname, rfl⟩ := Option.map_eq_some_iff.mp htype
      obtain rfl := List.mem_singleton.mp mem
      exact .self hrow ⟨hname, Or.inl hkind⟩
    · rename_i hkind
      rcases rowType_array_cases hkind hall with ⟨base, hbase, rfl⟩ | ⟨start, E, -, hstart, helement, rfl⟩
      · obtain rfl := List.mem_singleton.mp mem
        exact .self hrow ⟨hbase, Or.inr (Or.inr (Or.inl hkind))⟩
      · exact .element hrow ⟨start, hstart, Or.inl ⟨hkind, rfl⟩⟩ (ih (toOption_eq_some.mp helement) mem)
    · rename_i hkind
      obtain ⟨start, K, V, hstart, hkey, rfl, hval⟩ := rowType_dictionary_cases hkind hall
      have hfirst : ∀ {j T}, (m.fieldTypeWithin n j).toOption = some T → c ∈ T.classNames →
          j = start ∨ j = start + max row.count 1 → m.Exposes (Bearer c) i :=
        fun hT hmem hj => .element hrow ⟨start, hstart, Or.inr ⟨hkind, hj⟩⟩ (ih (toOption_eq_some.mp hT) hmem)
      rcases List.mem_append.mp mem with hmem | hmem
      · exact hfirst hkey hmem (Or.inl rfl)
      · rcases hval with ⟨base, hbase, rfl⟩ | ⟨-, hval⟩
        · obtain rfl := List.mem_singleton.mp hmem
          exact .self hrow ⟨hbase, Or.inr (Or.inr (Or.inr hkind))⟩
        · exact hfirst hval hmem (Or.inr rfl)
    · rename_i hkind
      obtain ⟨name, hname, rfl⟩ := Option.map_eq_some_iff.mp htype
      obtain rfl := List.mem_singleton.mp mem
      exact .self hrow ⟨hname, Or.inr (Or.inl hkind)⟩
    · cases htype
      cases mem

/-- A getter names what the type of its field names. -/
theorem mem_classNames_of_getters {found : List Getter} {g : Getter} (h : m.getters i = .ok found)
    (type : m.fieldType i = .ok T) (mem : g ∈ found) (named : c ∈ g.classNames) : c ∈ T.classNames := by
  unfold getters at h
  obtain ⟨row, hrow, h⟩ := bind_eq_ok.mp h
  split at h
  · obtain ⟨span, -, h⟩ := bind_eq_ok.mp h
    obtain ⟨bools, -, h⟩ := bind_eq_ok.mp h
    obtain rfl := pure_eq_ok.mp h
    obtain ⟨b, -, rfl⟩ := List.mem_map.mp mem
    cases named
  · obtain ⟨enumName, -, h⟩ := bind_eq_ok.mp h
    obtain rfl := pure_eq_ok.mp h
    obtain rfl := List.mem_singleton.mp mem
    cases named
  · rename_i hkind
    obtain ⟨className, hname, h⟩ := bind_eq_ok.mp h
    obtain rfl := pure_eq_ok.mp h
    obtain rfl := List.mem_singleton.mp mem
    obtain rfl := List.mem_singleton.mp named
    have htype : m.rowType m.size row = some T := (fieldTypeWithin_eq hrow).symm.trans (toOption_eq_some.mpr type)
    rw [rowType, hkind, (requireTypeName_eq_ok hrow).mp hname] at htype
    cases htype
    exact List.mem_singleton_self _
  all_goals
    obtain ⟨type', htype', h⟩ := bind_eq_ok.mp h
    obtain rfl := pure_eq_ok.mp h
    obtain rfl := List.mem_singleton.mp mem
    obtain rfl := Except.ok.inj (type.symm.trans htype')
    exact named

/-- What a struct names is named by the type of one of its fields. -/
theorem exists_field_of_classNames {s : StructDeclaration} (h : m.structDeclaration name i = .ok s)
    (mem : c ∈ s.classNames) : ∃ span, m.members i = .ok span ∧ ∃ k < span.length, ∃ T,
      m.fieldType (span.start + k) = .ok T ∧ c ∈ T.classNames := by
  obtain ⟨span, getters, hspan, hgetters, hflatten, -, hcount, hfield⟩ := structDeclaration_eq_ok h
  obtain ⟨hgetterCount, hgetter⟩ := Span.mapM_eq_ok hgetters
  refine ⟨span, hspan, ?_⟩
  have htype : ∀ k (hk : k < s.fields.length), m.fieldType (span.start + k) = .ok s.fields[k].2 :=
    fun k hk => (hfield k _ (List.getElem?_eq_getElem hk)).1
  rcases List.mem_append.mp mem with hgetterNames | hfieldNames
  · obtain ⟨g, hg, hnamed⟩ := List.mem_flatMap.mp hgetterNames
    obtain ⟨gs, hgs, hg⟩ := List.mem_flatten.mp (hflatten ▸ hg)
    obtain ⟨k, hk, rfl⟩ := List.mem_iff_getElem.mp hgs
    exact ⟨k, by omega, _, htype k (by omega), mem_classNames_of_getters
      (hgetter k _ (List.getElem?_eq_getElem hk)) (htype k (by omega)) hg hnamed⟩
  · obtain ⟨field, hf, hnamed⟩ := List.mem_flatMap.mp hfieldNames
    obtain ⟨k, hk, rfl⟩ := List.mem_iff_getElem.mp hf
    exact ⟨k, hcount ▸ hk, _, htype k hk, hnamed⟩

/-- A condition that decides on the type of a row is met by a row. -/
theorem Exposes.exists_row {P : Row → Prop} (h : m.Exposes P i) : ∃ j row, m.row j = .ok row ∧ P row := by
  induction h with
  | self hrow hP => exact ⟨_, _, hrow, hP⟩
  | element _ _ _ ih => exact ih

/-! ### Names that are declared in advance -/

/-- Whether a collection bears the name of a class. -/
def IsBase (m : Model) (c : String) : Prop :=
  ∃ i row, m.row i = .ok row ∧ row.typeName = some c ∧ (row.kind = .array ∨ row.kind = .dictionary)

/-- Whether a row has its name declared in advance. -/
def Declares (all : Bool) (ds : Definitions) (c : String) (row : Row) : Prop :=
  row.typeName = some c ∧ ((all = true ∧ (row.kind = .object ∨ row.kind = .dataUnit)) ∨
    ((all = true ∨ ds.defines c = false) ∧ (row.kind = .array ∨ row.kind = .dictionary)))

theorem mem_addNew {names : List String} : c ∈ addNew names name ↔ c ∈ names ∨ c = name := by
  unfold addNew
  split
  · rename_i hmem
    refine ⟨Or.inl, fun h => h.elim id fun heq => ?_⟩
    exact heq ▸ List.contains_iff_mem.mp hmem
  · rw [List.mem_append, List.mem_singleton]

/-- A class or a data unit is declared in advance iff all are. -/
theorem mem_addForward_class {all : Bool} {names names' : List String} (hrow : m.row i = .ok row)
    (kind : row.kind = .object ∨ row.kind = .dataUnit)
    (h : (if all then return addNew names (← m.requireTypeName i) else return names : Except Fault _) =
      .ok names') : c ∈ names' ↔ c ∈ names ∨ Declares all ds c row := by
  have hother : ¬ (row.kind = .array ∨ row.kind = .dictionary) := by
    rcases kind with hkind | hkind <;> rw [hkind] <;> decide
  cases all with
  | false =>
    obtain rfl := pure_eq_ok.mp h
    refine ⟨Or.inl, ?_⟩
    rintro (hc | ⟨_, hdeclares⟩)
    · exact hc
    · simp [hother] at hdeclares
  | true =>
    obtain ⟨name, hname, h⟩ := bind_eq_ok.mp h
    obtain rfl := pure_eq_ok.mp h
    have htypeName := (requireTypeName_eq_ok hrow).mp hname
    rw [mem_addNew]
    refine or_congr_right ⟨?_, ?_⟩
    · rintro rfl
      exact ⟨htypeName, Or.inl ⟨rfl, kind⟩⟩
    · rintro ⟨hc, -⟩
      exact Option.some.inj (hc.symm.trans htypeName)

/-- The name that a collection bears is declared in advance if all are, or if nothing defines it. -/
theorem mem_addForward_collection {all : Bool} {names names' : List String}
    (kind : row.kind = .array ∨ row.kind = .dictionary)
    (h : (match row.typeName with
      | some base => return if all ∨ ¬ ds.defines base then addNew names base else names
      | none => return names : Except Fault (List String)) = .ok names') :
    c ∈ names' ↔ c ∈ names ∨ Declares all ds c row := by
  -- A collection declares the class that it names, unless that class has been defined already.
  have hother : ¬ (row.kind = .object ∨ row.kind = .dataUnit) := by
    rcases kind with hkind | hkind <;> rw [hkind] <;> decide
  split at h
  · rename_i base hbase
    obtain rfl := pure_eq_ok.mp h
    by_cases hgiven : all = true ∨ ¬ ds.defines base = true
    · rw [if_pos hgiven, mem_addNew]
      refine or_congr_right ⟨?_, ?_⟩
      · rintro rfl
        exact ⟨hbase, Or.inr ⟨hgiven.imp_right Bool.eq_false_iff.mpr, kind⟩⟩
      · rintro ⟨hc, -⟩
        exact Option.some.inj (hc.symm.trans hbase)
    · rw [if_neg hgiven]
      refine ⟨Or.inl, ?_⟩
      rintro (hc | ⟨hc, ⟨-, hclass⟩ | ⟨hgiven', -⟩⟩)
      · exact hc
      · exact absurd hclass hother
      · obtain rfl := Option.some.inj (hc.symm.trans hbase)
        exact absurd (hgiven'.imp_right Bool.eq_false_iff.mp) hgiven
  · rename_i hnone
    obtain rfl := pure_eq_ok.mp h
    refine ⟨Or.inl, ?_⟩
    rintro (hc | ⟨hc, -⟩)
    · exact hc
    · rw [hnone] at hc
      cases hc

/-- A row adds its name to those declared in advance, or none. -/
theorem mem_addForward {all : Bool} {names names' : List String} (hrow : m.row i = .ok row)
    (h : m.addForward all ds names i = .ok names') : c ∈ names' ↔ c ∈ names ∨ Declares all ds c row := by
  unfold addForward at h
  simp only [hrow, bind_eq_ok, Except.ok.injEq, exists_eq_left'] at h
  split at h
  · rename_i hkind
    exact mem_addForward_class hrow (Or.inl hkind) h
  · rename_i hkind
    exact mem_addForward_class hrow (Or.inr hkind) h
  · rename_i hkind
    exact mem_addForward_collection (Or.inl hkind) h
  · rename_i hkind
    exact mem_addForward_collection (Or.inr hkind) h
  · obtain rfl := pure_eq_ok.mp h
    refine ⟨Or.inl, fun h => h.elim id ?_⟩
    rintro ⟨-, ⟨-, hkind | hkind⟩ | ⟨-, hkind | hkind⟩⟩ <;> exact absurd hkind (by assumption)

/-- The names declared in advance are those of rows. -/
theorem mem_forwardNames {all : Bool} {names : List String} (h : m.forwardNames all ds = .ok names) :
    c ∈ names ↔ ∃ i row, m.row i = .ok row ∧ Declares all ds c row := by
  have hfold : ∀ (l : List Nat) (found names : List String), l.foldlM (m.addForward all ds) found = .ok names →
      (c ∈ names ↔ c ∈ found ∨ ∃ i ∈ l, ∃ row, m.row i = .ok row ∧ Declares all ds c row) := by
    intro l
    induction l with
    | nil =>
      intro found names h
      obtain rfl := pure_eq_ok.mp h
      simp
    | cons i l ih =>
      intro found names h
      obtain ⟨found', hfirst, hrest⟩ := bind_eq_ok.mp (List.foldlM_cons.symm.trans h)
      obtain ⟨row, hrow, -⟩ := bind_eq_ok.mp hfirst
      rw [ih found' names hrest, mem_addForward hrow hfirst, or_assoc]
      simp [hrow]
  rw [hfold _ _ _ h]
  refine ⟨fun hmem => ?_, fun ⟨i, row, hrow, hdeclares⟩ =>
    Or.inr ⟨i, List.mem_range.mpr (lt_size_of_row hrow), row, hrow, hdeclares⟩⟩
  obtain hnil | ⟨i, -, row, hrow, hdeclares⟩ := hmem
  · cases hnil
  · exact ⟨i, row, hrow, hdeclares⟩

/-- A struct needs the classes and data units that it names, unless they are declared in advance. -/
theorem Exposes.mem_dependencies (h : m.Exposes (Bearer c) i) {names : List String}
    (told : m.rowDependencies false n i = .ok names) : c ∈ names := by
  refine h.mem_rowDependencies told ?_
  rintro n i row names hrow ⟨hname, hkind⟩ htold
  have hclass : row.kind = .object ∨ row.kind = .dataUnit → c ∈ names := by
    intro hkind
    have hrequired : ∃ name, m.requireTypeName i = .ok name ∧ [name] = names := by
      rcases hkind with hkind | hkind <;>
        simpa only [rowDependencies, hrow, hkind, bind_eq_ok, Except.ok.injEq, exists_eq_left', pure_eq_ok,
          Bool.false_eq_true, if_false] using htold
    obtain ⟨name, hname', rfl⟩ := hrequired
    have hsame := (requireTypeName_eq_ok hrow).mp hname'
    rw [hname] at hsame
    cases hsame
    exact List.mem_singleton_self _
  have hcollection : row.kind = .array ∨ row.kind = .dictionary → c ∈ names := by
    intro hkind
    exact (rowDependencies_collection hrow hkind htold).1 rfl (by rw [hname]; exact List.mem_singleton_self _)
  rcases hkind with hkind | hkind | hkind
  · exact hclass (Or.inl hkind)
  · exact hclass (Or.inr hkind)
  · exact hcollection hkind

/-! ### Names in the text -/

/-- The definitions of an interface are those of the custom structs and the structs of the objects that define one. -/
theorem interface_defines {style : Style} {text : String} (written : m.interface style = .ok text)
    (defined : m.definitions = .ok ds) : ∃ front definitions, text = style.frame (front ++ String.join definitions) ∧
      (∀ name i, (name, .object i) ∈ ds → ∃ s, m.structDeclaration name i = .ok s ∧ s.text ∈ definitions) ∧
      ∀ definition ∈ definitions, (∃ name c, (name, .custom c) ∈ ds ∧ definition = customText c) ∨
        ∃ name i s, (name, .object i) ∈ ds ∧ m.structDeclaration name i = .ok s ∧ definition = s.text := by
  unfold interface at written
  simp only [bind_eq_ok, lift_eq_ok, pure_eq_ok] at written
  obtain ⟨ds', hds, order, horder, forward, -, definitions, hdefinitions, rfl⟩ := written
  obtain rfl := Except.ok.inj (defined.symm.trans hds)
  obtain ⟨-, -, hperm, -⟩ := orderedDefinitions_behind hds horder
  have hdistinct := definitions_distinct hds
  refine ⟨_, definitions, rfl, fun name i hmem => ?_, fun definition hdefinition => ?_⟩
  · have hname : name ∈ order := hperm.mem_iff.mpr (List.mem_map_of_mem hmem)
    obtain ⟨text, htext⟩ := exists_ok_of_mapM hdefinitions hname
    have htold := (mem_of_mapM hdefinitions).mpr ⟨name, hname, htext⟩
    unfold definitionText at htext
    simp only [lookup_of_mem hdistinct hmem, indexed, bind_eq_ok, Except.ok.injEq, exists_eq_left',
      pure_eq_ok] at htext
    obtain ⟨s, hstruct, rfl⟩ := htext
    exact ⟨s, hstruct, htold⟩
  · obtain ⟨name, hname, htext⟩ := (mem_of_mapM hdefinitions).mp hdefinition
    obtain ⟨⟨_, d⟩, hmem, rfl⟩ := List.mem_map.mp (hperm.mem_iff.mp hname)
    unfold definitionText at htext
    simp only [lookup_of_mem hdistinct hmem, indexed, bind_eq_ok, Except.ok.injEq, exists_eq_left'] at htext
    cases d with
    | custom c => exact Or.inl ⟨_, c, hmem, (pure_eq_ok.mp htext).symm⟩
    | object i =>
      obtain ⟨s, hstruct, hsame⟩ := bind_eq_ok.mp htext
      exact Or.inr ⟨_, i, s, hmem, hstruct, (pure_eq_ok.mp hsame).symm⟩

/-- The struct of every object that defines one stands in the interface. -/
theorem exists_struct_of_interface {style : Style} {text : String} (written : m.interface style = .ok text)
    (defined : m.definitions = .ok ds) (mem : (name, .object i) ∈ ds) : ∃ s, m.structDeclaration name i = .ok s ∧
      ∃ front definitions, text = style.frame (front ++ String.join definitions) ∧ s.text ∈ definitions := by
  obtain ⟨front, definitions, htext, hstructs, -⟩ := interface_defines written defined
  obtain ⟨s, hstruct, hmem⟩ := hstructs name i mem
  exact ⟨s, hstruct, front, definitions, htext, hmem⟩

/-- Every class and data unit that a struct of an interface names is introduced before the struct, by a declaration
in advance or by a definition, or it is the struct, just where it is introduced at all: all classes are declared in
advance, or a definition has the name, or a collection bears it and no definition has it. -/
theorem interface_introduces {style : Style} {text : String} (written : m.interface style = .ok text) :
    ∃ ds order forward definitions, m.definitions = .ok ds ∧
      m.orderedDefinitions style.forward ds = .ok order ∧ m.forwardNames style.forward ds = .ok forward ∧
      List.Forall₂ (fun name definition => definitionText m ds name = .ok definition) order definitions ∧
      text = style.frame (String.join (m.enumerations.map enumText) ++ forwardText forward
        ++ String.join definitions) ∧
      ∀ front name rest i, order = front ++ name :: rest → (name, .object i) ∈ ds →
        ∃ s, m.structDeclaration name i = .ok s ∧ definitions[front.length]? = some s.text ∧
          ∀ c ∈ s.classNames, (c ∈ forward ∨ c = name ∨ (c ∈ front ∧ ds.Introduce c)) ↔
            (style.forward = true ∨ ds.Introduce c ∨ (ds.defines c = false ∧ m.IsBase c)) := by
  unfold interface at written
  simp only [bind_eq_ok, lift_eq_ok, pure_eq_ok] at written
  obtain ⟨ds, hds, order, horder, forward, hforward, definitions, hdefinitions, rfl⟩ := written
  have hdistinct := definitions_distinct hds
  have htexts := mapM_eq_ok hdefinitions
  refine ⟨ds, order, forward, definitions, hds, horder, hforward, htexts, rfl, ?_⟩
  intro front name rest i hsplit hmem
  -- The text at the place of the name is that of its struct.
  obtain ⟨hcount, htext⟩ := List.forall₂_iff_get.mp htexts
  have hplace : front.length < order.length := by rw [hsplit]; simp
  have hname : order[front.length] = name := by simp [hsplit]
  have hown := htext front.length hplace (hcount ▸ hplace)
  rw [List.get_eq_getElem, hname] at hown
  unfold definitionText at hown
  simp only [lookup_of_mem hdistinct hmem, indexed, bind_eq_ok, Except.ok.injEq, exists_eq_left', pure_eq_ok] at hown
  obtain ⟨s, hstruct, hs⟩ := hown
  refine ⟨s, hstruct, by rw [List.getElem?_eq_getElem (hcount ▸ hplace), hs]; rfl, fun c hc => ?_⟩
  obtain ⟨span, hspan, k, hk, T, htype, hnamed⟩ := exists_field_of_classNames hstruct hc
  have hexposes := exposes_of_fieldType htype hnamed
  have hdeclared : style.forward = true → c ∈ forward := by
    intro hall
    obtain ⟨j, row, hrow, hname, hkind⟩ := hexposes.exists_row
    refine (mem_forwardNames hforward).mpr ⟨j, row, hrow, hname, ?_⟩
    rw [or_assoc.symm] at hkind
    exact hkind.imp (fun h => ⟨hall, h⟩) fun h => ⟨Or.inl hall, h⟩
  constructor
  · rintro (hdeclares | rfl | ⟨-, hintroduced⟩)
    · obtain ⟨j, row, hrow, hname, ⟨hall, -⟩ | ⟨hall | hnone, hkind⟩⟩ := (mem_forwardNames hforward).mp hdeclares
      · exact Or.inl hall
      · exact Or.inl hall
      · exact Or.inr (Or.inr ⟨hnone, j, row, hrow, hname, hkind⟩)
    · exact Or.inr (Or.inl ⟨.object i, hmem, trivial⟩)
    · exact Or.inr (Or.inl hintroduced)
  · rintro (hall | hintroduced | ⟨hnone, j, row, hrow, hname, hkind⟩)
    · exact Or.inl (hdeclared hall)
    · -- Without declarations in advance the struct needs the name.
      cases hall : style.forward with
      | true => exact Or.inl (hdeclared hall)
      | false =>
        rw [hall] at horder
        obtain ⟨htells, hbehind, -, -⟩ := orderedDefinitions_behind hds horder
        obtain ⟨names, htold⟩ := htells (name, .object i) hmem
        obtain ⟨fieldNames, hfield, hsub⟩ := exists_fieldNames htold hspan hk
        by_cases hself : c = name
        · exact Or.inr (Or.inl hself)
        · refine Or.inr (Or.inr ⟨hbehind front name rest hsplit c ⟨.object i, names, hmem, htold, ?_, hself,
            hintroduced.defines⟩, hintroduced⟩)
          exact hsub (hexposes.mem_dependencies hfield)
    · exact Or.inl ((mem_forwardNames hforward).mpr ⟨j, row, hrow, hname, Or.inr ⟨Or.inr hnone, hkind⟩⟩)

end Model

namespace Options

/-- A zoo with animals of two classes, and with a cat that is lost. -/
def zoo : DataUnit :=
  ⟨"zoo", ⟨"Zoo", [⟨"m_animals", .list (.object "Animal"), .sequence [.object ⟨"Cat", []⟩, .object ⟨"Dog", []⟩]⟩,
    ⟨"m_lost", .object "Cat", .null⟩]⟩⟩

/-- Without declarations in advance, the class of the animals is declared all the same, and that of the cat is defined
before the zoo. -/
theorem interface_introduces_zoo : ∃ root m text ds order forward,
    solvedModel {} .standard zoo = .ok (root, m) ∧ m.interface ⟨true, none, false⟩ = .ok text ∧
    m.definitions = .ok ds ∧ m.orderedDefinitions false ds = .ok order ∧ order = ["cat_t", "dog_t", "zoo_t"] ∧
    m.forwardNames false ds = .ok forward ∧ ∃ s, m.structDeclaration "zoo_t" 1 = .ok s ∧
      s.classNames = ["cat_t", "animal_t", "cat_t", "animal_t"] ∧
      ∀ c ∈ s.classNames, c ∈ forward ∨ c = "zoo_t" ∨ (c ∈ ["cat_t", "dog_t"] ∧ ds.Introduce c) := by
  have hcheck : ((solvedModel {} .standard zoo).toOption.any fun x =>
      (x.2.interface ⟨true, none, false⟩).toOption.isSome &&
      (x.2.definitions.toOption.any fun ds =>
        ds = [("zoo_t", .object 1), ("cat_t", .object 4), ("dog_t", .object 5)] &&
        (x.2.orderedDefinitions false ds).toOption = some ["cat_t", "dog_t", "zoo_t"]) &&
      (x.2.row 3).toOption.any (fun row => row.kind = .array && row.typeName = some "animal_t") &&
      (x.2.structDeclaration "zoo_t" 1).toOption.any
        fun s => s.classNames = ["cat_t", "animal_t", "cat_t", "animal_t"]) = true := by
    decide +kernel
  simp only [Option.any_eq_true, Option.isSome_iff_exists, Bool.and_eq_true, decide_eq_true_eq,
    toOption_eq_some, Prod.exists] at hcheck
  obtain ⟨root, m, hsolved, ⟨⟨⟨text, htext⟩, ds, hds, hdefined, horder⟩, row, hrow, hkind, hbase⟩, s, hstruct,
    hnames⟩ := hcheck
  obtain ⟨ds', order, forward, definitions, hds', horder', hforward, -, -, hintroduces⟩ :=
    Model.interface_introduces htext
  obtain rfl := Except.ok.inj (hds.symm.trans hds')
  obtain rfl := Except.ok.inj (horder.symm.trans horder')
  obtain ⟨s', hstruct', -, hall⟩ := hintroduces ["cat_t", "dog_t"] "zoo_t" [] 1 rfl (by simp [hdefined])
  obtain rfl := Except.ok.inj (hstruct.symm.trans hstruct')
  refine ⟨root, m, text, ds, _, forward, hsolved, htext, hds, horder, rfl, hforward, s, hstruct, hnames,
    fun c hc => (hall c hc).mpr ?_⟩
  have hcat : Definitions.Introduce ds "cat_t" := ⟨.object 4, by simp [hdefined], trivial⟩
  have hanimal : Definitions.defines ds "animal_t" = false ∧ m.IsBase "animal_t" :=
    ⟨by rw [hdefined]; decide, 3, row, hrow, hbase, Or.inl hkind⟩
  rw [hnames] at hc
  simp only [List.mem_cons, List.not_mem_nil, or_false] at hc
  rcases hc with rfl | rfl | rfl | rfl
  · exact Or.inr (Or.inl hcat)
  · exact Or.inr (Or.inr hanimal)
  · exact Or.inr (Or.inl hcat)
  · exact Or.inr (Or.inr hanimal)

/-- An object with a null field, of a class of which there is no object. -/
def stranger : DataUnit := ⟨"stranger", ⟨"Root", [⟨"m_foo", .object "Foo", .null⟩]⟩⟩

/-- Its interface without declarations in advance. -/
def strangerText : String :=
  "#pragma once\n\nstruct root_t\n\x7b\n    inline foo_t const* getfoo() const \x7b return m_foo; \x7d\n\n"
    ++ "private:\n    foo_t* m_foo;\n\x7d;\n"

/-- Without declarations in advance the class of the field is used but neither declared nor defined. -/
theorem exists_stranger : ∃ root m text ds s, solvedModel {} .standard stranger = .ok (root, m) ∧
    m.interface ⟨true, none, false⟩ = .ok text ∧
    text = strangerText ∧
    m.definitions = .ok ds ∧ m.forwardNames false ds = .ok [] ∧ m.orderedDefinitions false ds = .ok ["root_t"] ∧
    m.structDeclaration "root_t" 1 = .ok s ∧ "foo_t" ∈ s.classNames ∧ ¬ ds.Introduce "foo_t" := by
  have hcheck : ((solvedModel {} .standard stranger).toOption.any fun x =>
      (x.2.interface ⟨true, none, false⟩).toOption = some strangerText &&
      (x.2.definitions.toOption.any fun ds => ds = [("root_t", .object 1)] &&
        (x.2.forwardNames false ds).toOption = some [] &&
        (x.2.orderedDefinitions false ds).toOption = some ["root_t"]) &&
      (x.2.structDeclaration "root_t" 1).toOption.any fun s => s.classNames.contains "foo_t") = true := by
    decide +kernel
  simp only [Option.any_eq_true, Bool.and_eq_true, decide_eq_true_eq, toOption_eq_some, Prod.exists,
    List.contains_iff_mem] at hcheck
  obtain ⟨root, m, hsolved, ⟨htext, ds, hds, ⟨hdefined, hforward⟩, horder⟩, s, hstruct,
    hfoo⟩ := hcheck
  refine ⟨root, m, _, ds, s, hsolved, htext, rfl, hds, hforward, horder, hstruct, hfoo, fun h => ?_⟩
  have hnone := h.defines
  rw [hdefined] at hnone
  cases hnone

end Options

end ObjectPack
