import ObjectPack.Proofs.Interface.Fit
import ObjectPack.Proofs.Walk.Match

/-!
# Elements have one type

A struct gives one type to all elements of a collection, that of the first one.  In the solved model of an object
graph the elements of one series match (`Model.Solved.matched`), so those that are no collections have one type,
unless they are objects and the series bears the name of a class.  Elements that are collections have one type if
what decides on their types agrees too: their first elements, the first elements of these, and so on
(`Model.type_eq_of_agree`, `Options.solvedModel_homogeneous`).  A walk does not compare those: two arrays match,
whatever they hold (`Options.exists_uneven`).
-/

namespace ObjectPack

open Outcome

namespace Model

variable {m m' m₁ m₂ : Model} {top t i j k n passes : Nat} {r x y : Row} {place p q : Nat → Nat}
  {T T' : FieldType} {base : Option String}

/-! ### Collections of solved models -/

/-- Whether all collections of a model are among the rows of another one. -/
def CollectionsOf (m m' : Model) : Prop :=
  ∀ j r, m'.row j = .ok r → r.kind = .array ∨ r.kind = .dictionary → ∃ k, m.row k = .ok r

theorem CollectionsOf.trans (h : m.CollectionsOf m₁) (h' : m₁.CollectionsOf m₂) : m.CollectionsOf m₂ := by
  intro j r hrow kind
  obtain ⟨k, hk⟩ := h' j r hrow kind
  exact h k r hk kind

/-- Folding booleans adds no collections and changes none. -/
theorem foldTurn_collections (keeps : m.Whole top ∧ m.Ordered) (h : m.foldTurn t = .ok m') :
    m.CollectionsOf m' := by
  unfold foldTurn at h
  split at h
  · rename_i hobject
    obtain ⟨owner, howner⟩ := isObject_eq_true.mp hobject
    rcases foldBooleans_folds keeps.1.toWellFormed howner.1 howner.2 h with ⟨rfl, -⟩ | ⟨_, _, _, hfolds⟩
    · exact fun j r hrow _ => ⟨j, hrow⟩
    · intro j r hrow kind
      cases Rearranges.origin hfolds keeps.1.toWellFormed hrow with
      | same _ _ hsame => exact ⟨j, hsame⟩
      | kept k _ hkept _ => exact ⟨k, hkept⟩
      | owner _ hshrunk =>
        have hkind : r.kind = .object := by rw [hshrunk]; exact howner.2
        rcases kind with kind | kind <;> cases hkind.symm.trans kind
      | word _ hmem =>
        have hkind : r.kind = .bitSet := (hfolds.fits r hmem).1
        rcases kind with kind | kind <;> cases hkind.symm.trans kind
      | spare hkind _ => rcases kind with kind | kind <;> cases hkind.symm.trans kind
  · obtain rfl := pure_eq_ok.mp h
    exact fun j r hrow _ => ⟨j, hrow⟩

/-- Sorting fields exchanges rows. -/
theorem sortTurn_collections (keeps : m.Whole top ∧ m.Ordered) (h : m.sortTurn t = .ok m') :
    m.CollectionsOf m' := by
  unfold sortTurn at h
  split at h
  · rename_i hobject
    obtain ⟨owner, howner⟩ := isObject_eq_true.mp hobject
    obtain ⟨result, hsort, rfl⟩ := map_eq_ok.mp h
    obtain ⟨-, -, σ, hrows, -⟩ := sortFields_permutes keeps.1 keeps.2 howner hsort
    intro j r hrow _
    refine ⟨σ.symm j, ?_⟩
    rw [← hrows, Equiv.apply_symm_apply, hrow]
  · obtain rfl := pure_eq_ok.mp h
    exact fun j r hrow _ => ⟨j, hrow⟩

/-- A tour adds no collections and changes none if its turns do not. -/
theorem Tour.collections {turn : Model → Nat → Except Fault Model} {done : Nat → Nat → Prop}
    {states : Nat → Model} {places : Nat → Nat → Nat} (h : Tour m n turn done states places)
    (start : (states 0).Whole top ∧ (states 0).Ordered)
    (turns : ∀ m t m', m.Whole top ∧ m.Ordered → turn m t = .ok m' →
      (m'.Whole top ∧ m'.Ordered) ∧ m.CollectionsOf m') :
    ((states n).Whole top ∧ (states n).Ordered) ∧ (states 0).CollectionsOf (states n) := by
  refine h.keeps (P := fun m' => (m'.Whole top ∧ m'.Ordered) ∧ (states 0).CollectionsOf m')
    ⟨start, fun j r hrow _ => ⟨j, hrow⟩⟩ ?_ n (Nat.le_refl n)
  rintro m₁ t m₂ ⟨hkeeps, hcollections⟩ hturn
  obtain ⟨hkeeps', hcollections'⟩ := turns m₁ t m₂ hkeeps hturn
  exact ⟨hkeeps', hcollections.trans hcollections'⟩

theorem SortedInPasses.collections (h : m.SortedInPasses n m₁ p m₂ q) (keeps : m₁.Whole top ∧ m₁.Ordered) :
    m₁.CollectionsOf m₂ := by
  induction h with
  | none => exact fun j r hrow _ => ⟨j, hrow⟩
  | pass _ once _ ih =>
    obtain ⟨states, places, htour, rfl, rfl, -⟩ := once
    obtain ⟨hkeeps, hcollections⟩ := htour.collections keeps fun _ _ _ hkeeps hturn =>
      ⟨sortTurn_keeps hkeeps hturn, sortTurn_collections hkeeps hturn⟩
    exact hcollections.trans (ih hkeeps)

/-- The collections of a solved model are those of the model. -/
theorem Solved.collections (h : m.Solved m' passes place) (whole : m.Whole top) (ordered : m.Ordered) :
    m.CollectionsOf m' := by
  obtain ⟨m₁, p, -, ⟨states, places, htour, hfirst, rfl, -⟩, hsorted⟩ := h.visits
  have hstart : (states 0).Whole top ∧ (states 0).Ordered := hfirst ▸ ⟨whole, ordered⟩
  obtain ⟨hkeeps, hcollections⟩ := htour.collections hstart fun _ _ _ hkeeps hturn =>
    ⟨foldTurn_keeps hkeeps hturn, foldTurn_collections hkeeps hturn⟩
  rw [hfirst] at hcollections
  exact hcollections.trans (hsorted.collections hkeeps)

theorem keeps_foldedRow (m : Model) (r : Row) : r.Keeps (m.foldedRow r) := by
  unfold foldedRow
  split
  · exact ⟨rfl, rfl, fun _ _ => rfl⟩
  · exact .refl r

/-- Where the elements of all collections match, they do in the solved model. -/
theorem Solved.matched (h : m.Solved m' passes place) (whole : m.Whole top) (ordered : m.Ordered)
    (matched : m.Matched) : m'.Matched := by
  intro i c first base hc hseries
  obtain ⟨l, hl⟩ := h.collections whole ordered i c hc hseries.collection
  refine (matched l c first base hl hseries).keep h.size_le fun j x' low high hx' => ?_
  have howns := hseries.owns low high
  obtain ⟨x, hx⟩ := exists_row_of_lt (whole.inside l c hl j howns)
  have hmoved := h.row j x hx
  rw [h.element l c j hl hseries.collection howns] at hmoved
  obtain rfl := Except.ok.inj (hx'.symm.trans hmoved)
  exact ⟨x, hx, m.keeps_foldedRow x⟩

/-! ### Types of elements -/

/-- Whether two rows are elements of one series of a collection, which may bear the name of a class. -/
def Together (m : Model) (base : Option String) (j k : Nat) : Prop :=
  ∃ i c first, m.row i = .ok c ∧ c.Series first base ∧ (first ≤ j ∧ j < first + c.count) ∧
    first ≤ k ∧ k < first + c.count

/-- Whether two rows decide alike on a type, looking at most `depth` collections deep: they are of one kind and
have one type name, and the first elements of collections do so, unless the name of a class stands for them. -/
def agreeWithin (m : Model) : Nat → Nat → Nat → Bool
  | 0, _, _ => true
  | depth + 1, j, k =>
    match m.row j, m.row k with
    | .ok x, .ok y =>
      x.kind = y.kind && x.typeName = y.typeName &&
        match x.kind, x.start, y.start with
        | .array, some s, some t => x.typeName.isSome || agreeWithin m depth s t
        | .dictionary, some s, some t =>
          agreeWithin m depth s t &&
            (x.typeName.isSome || agreeWithin m depth (s + max x.count 1) (t + max y.count 1))
        | _, _, _ => true
    | _, _ => true

/-- Whether elements of one series that are collections themselves decide alike on their types. -/
def CollectionsAgree (m : Model) : Prop :=
  ∀ base j k x, m.Together base j k → m.row j = .ok x → x.kind = .array ∨ x.kind = .dictionary →
    m.agreeWithin (m.size + 1) j k = true

instance : Decidable m.CollectionsAgree :=
  decidable_of_iff (∀ c ∈ m.rows.toList, ∀ s ∈ c.series, ∀ j < m.size, ∀ k < m.size,
      s.1 ≤ j ∧ j < s.1 + c.count → s.1 ≤ k ∧ k < s.1 + c.count →
      (m.rows[j]?.any fun x => x.kind = .array ∨ x.kind = .dictionary) = true →
      m.agreeWithin (m.size + 1) j k = true) <| by
    constructor
    · rintro h base j k x ⟨i, c, first, hc, hseries, hj, hk⟩ hx hkind
      have hc' := List.mem_of_getElem? (row_eq_ok.mp hc)
      by_cases hinside : k < m.size
      · refine h c hc' (first, base) (Row.mem_series.mpr hseries) j (lt_size_of_row hx) k hinside hj hk ?_
        rw [getElem?_of_row hx]
        exact decide_eq_true hkind
      · rw [agreeWithin, hx]
        cases hy : m.row k with
        | error e => rfl
        | ok y => exact absurd (lt_size_of_row hy) hinside
    · rintro h c hc ⟨first, base⟩ hs j hj k - hlow hlow' hkind
      obtain ⟨i, hi⟩ := List.mem_iff_getElem?.mp hc
      obtain ⟨x, hx⟩ := exists_row_of_lt hj
      rw [getElem?_of_row hx] at hkind
      exact h base j k x ⟨i, c, first, row_eq_ok.mpr hi, Row.mem_series.mp hs, hlow, hlow'⟩ hx
        (of_decide_eq_true hkind)

/-- Whether the values of enumerations of one name are packed alike. -/
def EnumsAgree (m : Model) : Prop :=
  ∀ j k x y e v e' v', m.row j = .ok x → m.row k = .ok y → x.value = .enum e v → y.value = .enum e' v' →
    x.typeName = y.typeName → e.underlying = e'.underlying

instance : Decidable m.EnumsAgree :=
  decidable_of_iff (∀ x ∈ m.rows.toList, ∀ y ∈ m.rows.toList, x.typeName = y.typeName →
      ∀ a ∈ x.value.enum?, ∀ b ∈ y.value.enum?, a.1.underlying = b.1.underlying) <| by
    constructor
    · intro h j k x y e v e' v' hx hy hvalue hvalue' hname
      exact h x (List.mem_of_getElem? (row_eq_ok.mp hx)) y (List.mem_of_getElem? (row_eq_ok.mp hy)) hname (e, v)
        (by rw [hvalue]; rfl) (e', v') (by rw [hvalue']; rfl)
    · intro h x hx y hy hname a ha b hb
      obtain ⟨j, hj⟩ := List.mem_iff_getElem?.mp hx
      obtain ⟨k, hk⟩ := List.mem_iff_getElem?.mp hy
      exact h j k x y a.1 a.2 b.1 b.2 (row_eq_ok.mpr hj) (row_eq_ok.mpr hk) (Payload.eq_of_enum? ha)
        (Payload.eq_of_enum? hb) hname

/-- Rows of one kind and one type name that are no collections have one type. -/
theorem rowType_unique (enums : m.EnumsAgree) (hx : m.row j = .ok x) (hy : m.row k = .ok y)
    (kind : x.kind = y.kind) (typeName : x.typeName = y.typeName) (array : x.kind ≠ .array)
    (dictionary : x.kind ≠ .dictionary) (type : m.rowType n x = some T) (type' : m.rowType n y = some T') :
    T = T' := by
  by_cases henum : x.kind = .enum
  · obtain ⟨e, v, hvalue, rfl⟩ := Walk.exists_enum henum type
    obtain ⟨e', v', hvalue', rfl⟩ := Walk.exists_enum (kind ▸ henum) type'
    rw [enums j k x y e v e' v' hx hy hvalue hvalue' typeName]
  · have hsame : m.rowType n x = m.rowType n y := by
      unfold rowType
      rw [← kind, ← typeName]
      split <;> first | rfl | contradiction
    exact Option.some.inj (type.symm.trans (hsame.trans type'))

/-- Rows that decide alike on a type have one type. -/
theorem type_eq_of_agree (enums : m.EnumsAgree) (agree : m.agreeWithin n j k = true)
    (type : (m.fieldTypeWithin n j).toOption = some T) (type' : (m.fieldTypeWithin n k).toOption = some T') :
    T = T' := by
  induction n generalizing j k T T' with
  | zero => cases type
  | succ n ih =>
    obtain ⟨x, hx, htype⟩ := exists_row_of_type type
    obtain ⟨y, hy, htype'⟩ := exists_row_of_type type'
    simp only [agreeWithin, hx, hy, Bool.and_eq_true, decide_eq_true_eq] at agree
    obtain ⟨⟨hkind, hname⟩, hfirst⟩ := agree
    -- Collections agree if their first elements do; other rows have their type by kind and name.
    by_cases harray : x.kind = .array
    · have harray' : y.kind = .array := hkind ▸ harray
      rcases rowType_array_cases harray htype with ⟨base, hbase, rfl⟩ | ⟨s, E, hnone, hs, helement, rfl⟩ <;>
      rcases rowType_array_cases harray' htype' with ⟨base', hbase', rfl⟩ | ⟨t, E', hnone', ht, helement', rfl⟩
      · rw [Option.some.inj (hbase.symm.trans (hname.trans hbase'))]
      · cases hbase.symm.trans (hname.trans hnone')
      · cases hnone.symm.trans (hname.trans hbase')
      · simp only [harray, hs, ht, hnone, Option.isSome_none, Bool.false_or] at hfirst
        rw [ih hfirst helement helement']
    · by_cases hdictionary : x.kind = .dictionary
      · have hdictionary' : y.kind = .dictionary := hkind ▸ hdictionary
        obtain ⟨s, K, V, hs, hkey, rfl, hval⟩ := rowType_dictionary_cases hdictionary htype
        obtain ⟨t, K', V', ht, hkey', rfl, hval'⟩ := rowType_dictionary_cases hdictionary' htype'
        simp only [hdictionary, hs, ht, Bool.and_eq_true, Bool.or_eq_true] at hfirst
        obtain ⟨hkeys, hvals⟩ := hfirst
        obtain rfl := ih hkeys hkey hkey'
        rcases hval with ⟨base, hbase, rfl⟩ | ⟨hnone, hval⟩ <;>
        rcases hval' with ⟨base', hbase', rfl⟩ | ⟨hnone', hval'⟩
        · rw [Option.some.inj (hbase.symm.trans (hname.trans hbase'))]
        · cases hbase.symm.trans (hname.trans hnone')
        · cases hnone.symm.trans (hname.trans hbase')
        · rw [hnone] at hvals
          rw [ih (hvals.resolve_left Bool.false_ne_true) hval hval']
      · exact rowType_unique enums hx hy hkind hname harray hdictionary htype htype'

/-- Elements of one series that are there have one type, unless they are objects and the series bears the name of
a class. -/
theorem Together.type_eq (matched : m.Matched) (agree : m.CollectionsAgree) (enums : m.EnumsAgree)
    (h : m.Together base j k) (hx : m.row j = .ok x) (hy : m.row k = .ok y) (present : x.value.isNull = false)
    (present' : y.value.isNull = false) (type : m.fieldType j = .ok T) (type' : m.fieldType k = .ok T') :
    T = T' ∨ (base.isSome = true ∧ x.kind = .object ∧ y.kind = .object) := by
  have htogether := h
  obtain ⟨i, c, first, hc, hseries, ⟨hlow, hhigh⟩, hlow', hhigh'⟩ := htogether
  have hmatch := (matched i c first base hc hseries).pair j k x y hlow hhigh hlow' hhigh' hx hy
  have htype := toOption_eq_some.mpr type
  have htype' := toOption_eq_some.mpr type'
  by_cases hcollection : x.kind = .array ∨ x.kind = .dictionary
  · exact Or.inl (type_eq_of_agree enums (agree base j k x h hx hcollection) htype htype')
  · obtain ⟨harray, hdictionary⟩ := not_or.mp hcollection
    rcases hmatch.typeName present present' harray hdictionary with hname | ⟨hobject, hbase⟩
    · obtain ⟨_, hx', hrow⟩ := exists_row_of_type htype
      obtain ⟨_, hy', hrow'⟩ := exists_row_of_type htype'
      obtain rfl := Except.ok.inj (hx.symm.trans hx')
      obtain rfl := Except.ok.inj (hy.symm.trans hy')
      exact Or.inl (rowType_unique enums hx hy hmatch.kind hname harray hdictionary hrow hrow')
    · exact Or.inr ⟨hbase, hobject, hmatch.kind.symm.trans hobject⟩

end Model

namespace Walk

open Model

variable {r : Rules} {m m' : Model} {origins : List Origin} {place : Nat → Nat} {passes i j top : Nat}
  {c : Row} {base : Option String}

/-- Whatever a collection owns stands for one of its elements. -/
theorem Pictures.exists_element (h : Pictures r m origins) (hrow : m.row i = .ok c)
    (kind : c.kind = .array ∨ c.kind = .dictionary) (owns : c.Owns j) :
    ∃ declared value, origins[j]? = some (.element declared value) := by
  obtain ⟨o, -, hshows⟩ := h.shown hrow
  obtain ⟨part, v, hpart, -, ⟨hother, -⟩ | ⟨-, declared, rfl⟩ | hother⟩ := hshows.owned owns
  · rcases kind with kind | kind <;> cases kind.symm.trans hother
  · exact ⟨declared, some v, hpart⟩
  · rcases kind with kind | kind <;> cases kind.symm.trans hother

/-- In the solved model of an object graph, every element of a collection has a type. -/
theorem Pictures.exists_type_of_element (h : Pictures r m origins) (solved : m.Solved m' passes place)
    (whole : m.Whole top) (ordered : m.Ordered) (reserved : m.Reserved) (small : m.size < indexLimit)
    (hrow : m'.row i = .ok c) (kind : c.kind = .array ∨ c.kind = .dictionary) (owns : c.Owns j) :
    ∃ T, m'.fieldType j = .ok T := by
  obtain ⟨k, hk⟩ := solved.collections whole ordered i c hrow kind
  obtain ⟨row, hj⟩ := exists_row_of_lt (whole.inside k c hk j owns)
  obtain ⟨declared, value, horigin⟩ := h.exists_element hk kind owns
  obtain ⟨T, -, htype⟩ := h.fieldType solved reserved small hj horigin
  rw [solved.element k c j hk kind owns] at htype
  exact ⟨T, htype⟩

end Walk

namespace Options

open Model

variable {o : Options} {classifier : Classifier} {unit : DataUnit} {root : Nat} {m : Model}

/-- The elements of an array that are there have one type, and so have the keys of a dictionary and its values,
unless they are objects of a collection that bears the name of a class.  Where elements are collections
themselves, what decides on their types has to agree in kind and name; enumerations of one name have to be packed
alike. -/
theorem solvedModel_homogeneous (solved : o.solvedModel classifier unit = .ok (root, m))
    (small : m.size < indexLimit) (agree : m.CollectionsAgree) (enums : m.EnumsAgree) :
    ∀ base j k x y, m.Together base j k → m.row j = .ok x → m.row k = .ok y → x.value.isNull = false →
      y.value.isNull = false → ∃ T T', m.fieldType j = .ok T ∧ m.fieldType k = .ok T' ∧
        (T = T' ∨ (base.isSome = true ∧ x.kind = .object ∧ y.kind = .object)) := by
  unfold solvedModel walk at solved
  simp only [bind_eq_ok, mapError_eq_ok, lift_eq_ok, pure_eq_ok, Prod.exists, Prod.mk.injEq] at solved
  obtain ⟨root', m₀, hwalk, m₁, passes, hsolve, rfl, rfl⟩ := solved
  have hwhole := Walk.Rules.walk_whole hwalk
  have hordered := Walk.Rules.walk_ordered hwalk
  obtain ⟨origins, hpictures, -⟩ := Walk.Rules.walk_pictures_objects hwalk
  obtain ⟨place, hsolved⟩ := Model.solve_solved hwhole hordered hsolve
  have hmatched := hsolved.matched hwhole hordered (Walk.Rules.walk_matched hwalk)
  intro base j k x y htogether hx hy hpresent hpresent'
  obtain ⟨i, c, first, hc, hseries, ⟨hlow, hhigh⟩, hlow', hhigh'⟩ := id htogether
  have htype : ∀ {l}, first ≤ l → l < first + c.count → ∃ T, m₁.fieldType l = .ok T := fun hlow hhigh =>
    hpictures.exists_type_of_element hsolved hwhole hordered (Walk.Rules.walk_reserved hwalk)
      (Nat.lt_of_le_of_lt hsolved.size_le small) hc hseries.collection (hseries.owns hlow hhigh)
  obtain ⟨T, hT⟩ := htype hlow hhigh
  obtain ⟨T', hT'⟩ := htype hlow' hhigh'
  exact ⟨T, T', hT, hT', htogether.type_eq hmatched agree enums hx hy hpresent hpresent' hT hT'⟩

/-- A data unit with lists that are nested three deep, some of them empty, and with animals of two classes. -/
def evenRows : DataUnit :=
  let pet (name : String) : Value := .object ⟨name, [⟨"m_age", .scalar .u8, .scalar (.u8 3)⟩]⟩
  let numbers (items : List UInt8) : Value := .sequence (items.map fun n => .scalar (.u8 n))
  ⟨"even", ⟨"Root", [
    ⟨"m_rows", .list (.list (.list (.scalar .u8))),
      .sequence [.sequence [numbers [1], numbers [2, 3]], .sequence [numbers []], .sequence []]⟩,
    ⟨"m_pets", .dictionary .string (.object "Animal"),
      .dictionary [(.text "a", pet "Cat"), (.text "b", pet "Dog")]⟩]⟩⟩

/-- All lists have the type of the first one; the animals have types of their own, but their dictionary bears the
name of their class. -/
theorem solvedModel_homogeneous_evenRows : ∃ root m, ({} : Options).solvedModel .standard evenRows = .ok (root, m) ∧
    m.size < indexLimit ∧ m.CollectionsAgree ∧ m.EnumsAgree ∧
    (m.rows.toList.map (fun r => (r.kind, r.typeName, r.start, r.count))).take 7 =
      [(.dataUnit, some "root_t", some 1, 1), (.object, some "root_t", some 2, 2), (.array, none, some 4, 3),
        (.dictionary, some "animal_t", some 7, 2), (.array, none, some 11, 2), (.array, none, some 13, 1),
        (.array, none, some 14, 0)] ∧
    m.fieldType 2 = .ok (.array (.array (.array (.named "u8")))) ∧
    m.fieldType 3 = .ok (.dictionary (.named "string_t") (.pointer "animal_t")) ∧
    m.fieldType 9 = .ok (.pointer "cat_t") ∧ m.fieldType 10 = .ok (.pointer "dog_t") ∧
    ∀ base j k x y, m.Together base j k → m.row j = .ok x → m.row k = .ok y → x.value.isNull = false →
      y.value.isNull = false → ∃ T T', m.fieldType j = .ok T ∧ m.fieldType k = .ok T' ∧
        (T = T' ∨ (base.isSome = true ∧ x.kind = .object ∧ y.kind = .object)) := by
  have hcheck : (({} : Options).solvedModel .standard evenRows).toOption.any (fun x =>
      decide (x.2.size < 64) && decide x.2.CollectionsAgree && decide x.2.EnumsAgree &&
        (x.2.rows.toList.map (fun r => (r.kind, r.typeName, r.start, r.count))).take 7 =
          [(.dataUnit, some "root_t", some 1, 1), (.object, some "root_t", some 2, 2),
            (.array, none, some 4, 3), (.dictionary, some "animal_t", some 7, 2), (.array, none, some 11, 2),
            (.array, none, some 13, 1), (.array, none, some 14, 0)] &&
        (x.2.fieldType 2).toOption = some (.array (.array (.array (.named "u8")))) &&
        (x.2.fieldType 3).toOption = some (.dictionary (.named "string_t") (.pointer "animal_t")) &&
        (x.2.fieldType 9).toOption = some (.pointer "cat_t") &&
        (x.2.fieldType 10).toOption = some (.pointer "dog_t")) = true := by
    decide +kernel
  simp only [Option.any_eq_true, Bool.and_eq_true, decide_eq_true_eq, toOption_eq_some, Prod.exists] at hcheck
  obtain ⟨root, m, hsolved, ⟨⟨⟨⟨⟨⟨hsize, hagree⟩, henums⟩, hrows⟩, hlists⟩, hpets⟩, hcat⟩, hdog⟩ := hcheck
  have hsmall : m.size < indexLimit := Nat.lt_trans hsize (by decide)
  exact ⟨root, m, hsolved, hsmall, hagree, henums, hrows, hlists, hpets, hcat, hdog,
    solvedModel_homogeneous hsolved hsmall hagree henums⟩

/-- Two lists of numbers, of one byte and of four, in a list whose declared element type is not supported. -/
def unevenRows : DataUnit :=
  ⟨"uneven", ⟨"Root", [⟨"m_rows", .list (.list (.foreign "Cell")),
    .sequence [.sequence [.scalar (.u8 1)], .sequence [.scalar (.u32 7)]]⟩]⟩⟩

/-- The same numbers in one list. -/
def unevenRow : DataUnit :=
  ⟨"uneven", ⟨"Root", [⟨"m_rows", .list (.foreign "Cell"),
    .sequence [.scalar (.u8 1), .scalar (.u32 7)]⟩]⟩⟩

/-- The list of both lists passes, though their types differ and the field has the type of the first one; one
list of both numbers is refused. -/
theorem exists_uneven : ∃ root m x y, ({} : Options).solvedModel .standard unevenRows = .ok (root, m) ∧
    m.Together none 3 4 ∧ m.row 3 = .ok x ∧ m.row 4 = .ok y ∧ x.value.isNull = false ∧ y.value.isNull = false ∧
    x.kind = .array ∧ y.kind = .array ∧ m.fieldType 2 = .ok (.array (.array (.named "u8"))) ∧
    m.fieldType 3 = .ok (.array (.named "u8")) ∧ m.fieldType 4 = .ok (.array (.named "u32")) ∧
    ({} : Options).solvedModel .standard unevenRow =
      .error (.error (.walk (.heterogeneous "Root.rows" "UInt8" "UInt32"))) := by
  have hcheck : ((({} : Options).solvedModel .standard unevenRows).toOption.any fun x =>
      ((x.2.row 2).toOption.any fun c => c.kind = .array && c.typeName = none && c.start = some 3 && c.count = 2) &&
      ((x.2.row 3).toOption.any fun a => a.value.isNull = false && a.kind = .array) &&
      ((x.2.row 4).toOption.any fun b => b.value.isNull = false && b.kind = .array) &&
      (x.2.fieldType 2).toOption = some (.array (.array (.named "u8"))) &&
      (x.2.fieldType 3).toOption = some (.array (.named "u8")) &&
      (x.2.fieldType 4).toOption = some (.array (.named "u32"))) = true := by
    decide +kernel
  simp only [Option.any_eq_true, Bool.and_eq_true, decide_eq_true_eq, toOption_eq_some, Prod.exists] at hcheck
  obtain ⟨root, m, hsolved, ⟨⟨⟨⟨⟨c, hc, ⟨⟨hkind, hname⟩, hstart⟩, hcount⟩, x, hx, hxpresent, hxkind⟩, y, hy,
    hypresent, hykind⟩, hlists⟩, hfirst⟩, hsecond⟩ := hcheck
  have htogether : m.Together none 3 4 :=
    ⟨2, c, 3, hc, hname ▸ .elements hkind hstart, by omega, by omega⟩
  exact ⟨root, m, x, y, hsolved, htogether, hx, hy, hxpresent, hypresent, hxkind, hykind, hlists, hfirst, hsecond,
    rfl⟩

end Options

end ObjectPack
