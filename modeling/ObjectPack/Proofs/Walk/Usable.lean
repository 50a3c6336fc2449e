import ObjectPack.Proofs.Outcome
import ObjectPack.Walk

/-!
# Usable values

A value is usable if it yields a row where unsupported values are left out (`Walk.Rules.usable`).  Labels
only name values in errors, so whether a value is usable does not depend on its label
(`Walk.Rules.usable_of_supports`).

A collection is usable as long as its first part is (`Walk.Rules.usable_sequence`), and one that is usable
has a part that is (`Walk.Rules.exists_usable_item`); an absent or empty one has the part that it declares.

Fields and elements get their rows in the same way, one after another; what is true of both is shown of
`Walk.Rules.addAll`.
-/

namespace ObjectPack

open Outcome

theorem Ty.strip_strip (ty : Ty) : ty.strip.strip = ty.strip := by
  fun_induction Ty.strip ty with
  | case1 inner ih => exact ih
  | case2 ty hnot =>
    cases ty with
    | nullable inner => exact absurd rfl (hnot inner)
    | _ => rfl

namespace Walk.Rules

variable {r : Rules} {label : String} {declared element : Ty} {value : Option Value} {b : Bool}

/-! ### Labels -/

/-- A treatment does not depend on the label. -/
theorem treatment?_label (label label' : String) (declared : Ty) (value : Option Value) :
    (∃ e e', r.treatment? label declared value = .error e ∧
        r.treatment? label' declared value = .error e') ∨
      ∃ t, r.treatment? label declared value = .ok t ∧ r.treatment? label' declared value = .ok t := by
  unfold treatment?
  split
  · split
    · exact Or.inr ⟨_, rfl, rfl⟩
    · exact Or.inl ⟨_, _, rfl, rfl⟩
  · exact Or.inr ⟨_, rfl, rfl⟩
  · exact Or.inr ⟨_, rfl, rfl⟩

theorem both_eq_ok {first : Except WalkError Bool} {second : Unit → Except WalkError Bool} :
    both first second = .ok b ↔ (first = .ok false ∧ b = false) ∨
      (first = .ok true ∧ second () = .ok b) := by
  unfold both
  cases first with
  | error e => simp
  | ok a => cases a <;> simp [eq_comm]

theorem either_eq_ok {first : Except WalkError Bool} {second : Unit → Except WalkError Bool} :
    either first second = .ok b ↔ (first = .ok true ∧ b = true) ∨
      (first = .ok false ∧ second () = .ok b) := by
  unfold either
  cases first with
  | error e => simp
  | ok a => cases a <;> simp [eq_comm]

/-- Of two checks that give the same answers, if any, both do so together. -/
theorem both_congr {first first' : Except WalkError Bool} {second second' : Unit → Except WalkError Bool}
    (hfirst : first.toOption = first'.toOption) (hsecond : (second ()).toOption = (second' ()).toOption) :
    (both first second).toOption = (both first' second').toOption := by
  ext b
  rw [toOption_eq_some, toOption_eq_some, both_eq_ok, both_eq_ok]
  simp only [← toOption_eq_some, hfirst, hsecond]

theorem either_congr {first first' : Except WalkError Bool}
    {second second' : Unit → Except WalkError Bool} (hfirst : first.toOption = first'.toOption)
    (hsecond : (second ()).toOption = (second' ()).toOption) :
    (either first second).toOption = (either first' second').toOption := by
  ext b
  rw [toOption_eq_some, toOption_eq_some, either_eq_ok, either_eq_ok]
  simp only [← toOption_eq_some, hfirst, hsecond]

/-- Whether a type is supported does not depend on the label. -/
theorem supportsType_label (label label' : String) (declared : Ty) :
    (r.supportsType label declared).toOption = (r.supportsType label' declared).toOption := by
  -- The label only appears in errors; collections look into the types that they are declared of.
  induction declared with
  | nullable inner ih =>
    unfold supportsType
    exact ih
  | array element ih | list element ih =>
    unfold supportsType
    rcases treatment?_label (r := r) label label' _ none with ⟨e, e', h, h'⟩ | ⟨t, h, h'⟩
    · rw [h, h']
      rfl
    · rw [h, h']
      rcases t with - | t
      · rfl
      · cases t with
        | array => exact ih
        | _ => rfl
  | dictionary key value ihkey ihvalue =>
    unfold supportsType
    rcases treatment?_label (r := r) label label' _ none with ⟨e, e', h, h'⟩ | ⟨t, h, h'⟩
    · rw [h, h']
      rfl
    · rw [h, h']
      rcases t with - | t
      · rfl
      · cases t with
        | dictionary => exact both_congr ihkey ihvalue
        | _ => rfl
  | _ =>
    unfold supportsType
    rcases treatment?_label (r := r) label label' _ none with ⟨e, e', h, h'⟩ | ⟨t, h, h'⟩
    · rw [h, h']
      rfl
    · rw [h, h']

theorem supportsElement_label (label label' : String) (declared : Ty) :
    (r.supportsElement label declared).toOption = (r.supportsElement label' declared).toOption := by
  unfold supportsElement
  cases declared.element? with
  | none => rfl
  | some element => exact supportsType_label label label' element

theorem supportsEntry_label (label label' : String) (declared : Ty) :
    (r.supportsEntry label declared).toOption = (r.supportsEntry label' declared).toOption := by
  unfold supportsEntry
  cases declared.entry? with
  | none => rfl
  | some entry =>
    exact both_congr (supportsType_label label label' entry.1) (supportsType_label label label' entry.2)

mutual

/-- Whether a value is supported does not depend on the label. -/
theorem supportsValue_label (label label' : String) (declared : Ty) (value : Value) :
    (r.supportsValue label declared value).toOption =
      (r.supportsValue label' declared value).toOption := by
  unfold supportsValue
  rcases treatment?_label (r := r) label label' declared.strip (some value) with ⟨e, e', h, h'⟩ | ⟨t, h, h'⟩
  · simp only [h, h']
    rfl
  · simp only [h, h']
    rcases t with - | t
    · rfl
    cases t with
    | array =>
      cases value with
      | sequence items =>
        cases items with
        | nil => exact supportsElement_label label label' _
        | cons item rest => exact supportsSome_label label label' _ 0 0 (item :: rest)
      | _ => exact supportsElement_label label label' _
    | dictionary =>
      cases value with
      | dictionary entries =>
        cases entries with
        | nil => exact supportsEntry_label label label' _
        | cons entry rest => exact supportsSomeEntry_label label label' _ _ 0 0 (entry :: rest)
      | _ => exact supportsEntry_label label label' _
    | _ => rfl

theorem supportsSome_label (label label' : String) (element : Ty) (index index' : Nat)
    (items : List Value) : (supportsSome r label element index items).toOption =
      (supportsSome r label' element index' items).toOption := by
  match items with
  | [] => rfl
  | item :: rest =>
    unfold supportsSome
    exact either_congr (supportsValue_label _ _ element item)
      (supportsSome_label label label' element (index + 1) (index' + 1) rest)

theorem supportsSomeEntry_label (label label' : String) (key value : Ty) (index index' : Nat)
    (entries : List (Value × Value)) : (supportsSomeEntry r label key value index entries).toOption =
      (supportsSomeEntry r label' key value index' entries).toOption := by
  match entries with
  | [] => rfl
  | entry :: rest =>
    unfold supportsSomeEntry
    exact either_congr (supportsHalves_label _ _ key value entry)
      (supportsSomeEntry_label label label' key value (index + 1) (index' + 1) rest)

theorem supportsHalves_label (label label' : String) (key value : Ty) (entry : Value × Value) :
    (supportsHalves r label key value entry).toOption =
      (supportsHalves r label' key value entry).toOption := by
  match entry with
  | (k, v) =>
    unfold supportsHalves
    exact both_congr (supportsValue_label label label' key k) (supportsValue_label label label' value v)

end

theorem supports_label (label label' : String) (declared : Ty) (value : Option Value) :
    (r.supports label declared value).toOption = (r.supports label' declared value).toOption := by
  cases value with
  | none => exact supportsType_label label label' declared
  | some value => exact supportsValue_label label label' declared value

/-! ### Usable values -/

/-- The treatment of a value; `none` also where the value does not fit its declared type. -/
def treatmentOf (r : Rules) (declared : Ty) (value : Option Value) : Option Treatment :=
  (r.treatment? "" declared.strip value).toOption.join

/-- Whether a value, or an element that is only declared, yields a row where unsupported values are left
out. -/
def usable (r : Rules) (declared : Ty) (value : Option Value) : Bool :=
  (r.supports "" declared value).toOption.getD false

/-- Whether a value gets a row: all of them do where unsupported values are errors. -/
def keeps (r : Rules) (declared : Ty) (value : Option Value) : Bool :=
  match r.unknown with
  | .skip => r.usable declared value
  | .fail => true

/-- The type of the elements of a collection. -/
def elementType (declared : Ty) : Ty := declared.strip.element?.getD .unknown

/-- The types of the halves of the entries of a dictionary. -/
def entryTypes (declared : Ty) : Ty × Ty :=
  ((declared.strip.entry?.map (·.1)).getD .unknown, (declared.strip.entry?.map (·.2)).getD .unknown)

theorem treatmentOf_eq {t : Option Treatment} (h : r.treatment? label declared.strip value = .ok t) :
    r.treatmentOf declared value = t := by
  rcases treatment?_label (r := r) label "" declared.strip value with ⟨e, e', h', -⟩ | ⟨t', h', h''⟩
  · rw [h] at h'
    cases h'
  · rw [h] at h'
    cases h'
    rw [treatmentOf, h'']
    rfl

theorem treatment?_of_treatmentOf (label : String) {t : Treatment}
    (h : r.treatmentOf declared value = some t) :
    r.treatment? label declared.strip value = .ok (some t) := by
  rcases treatment?_label (r := r) label "" declared.strip value with ⟨e, e', -, h'⟩ | ⟨t', h', h''⟩
  · rw [treatmentOf, h'] at h
    cases h
  · rw [treatmentOf, h''] at h
    obtain rfl : t' = some t := h
    exact h'

/-- Whether a value is usable can be found out under any label. -/
theorem usable_of_supports (h : r.supports label declared value = .ok b) :
    r.usable declared value = b := by
  rw [usable, supports_label "" label, h]
  rfl

theorem usable_eq_true (label : String) :
    r.usable declared value = true ↔ r.supports label declared value = .ok true := by
  refine ⟨fun h => ?_, usable_of_supports⟩
  rw [usable, supports_label "" label] at h
  cases hs : r.supports label declared value with
  | error e =>
    rw [hs] at h
    cases h
  | ok b =>
    rw [hs] at h
    exact congrArg Except.ok h

/-- The outer nullability of a declared type does not matter. -/
theorem supportsType_strip (label : String) (declared : Ty) :
    r.supportsType label declared.strip = r.supportsType label declared := by
  induction declared with
  | nullable inner ih =>
    show r.supportsType label inner.strip = _
    rw [ih, supportsType]
  | _ => rfl

theorem supportsType_eq (label : String) (declared : Ty) :
    r.supportsType label declared =
      match r.treatment? label declared.strip none with
      | .error e => .error e
      | .ok none => .ok false
      | .ok (some .array) => r.supportsElement label declared.strip
      | .ok (some .dictionary) => r.supportsEntry label declared.strip
      | .ok (some _) => .ok true := by
  rw [← supportsType_strip]
  induction declared with
  | nullable inner ih => exact ih
  | _ =>
    simp only [Ty.strip]
    unfold supportsType
    rfl

theorem supportsValue_eq (label : String) (declared : Ty) (value : Value) :
    r.supportsValue label declared value =
      match r.treatment? label declared.strip (some value) with
      | .error e => .error e
      | .ok none => .ok false
      | .ok (some .array) =>
        match value with
        | .sequence (item :: rest) => supportsSome r label (elementType declared) 0 (item :: rest)
        | _ => r.supportsElement label declared.strip
      | .ok (some .dictionary) =>
        match value with
        | .dictionary (entry :: rest) =>
          supportsSomeEntry r label (entryTypes declared).1 (entryTypes declared).2 0 (entry :: rest)
        | _ => r.supportsEntry label declared.strip
      | .ok (some _) => .ok true := by
  unfold supportsValue
  cases value with
  | sequence items => cases items <;> rfl
  | dictionary entries => cases entries <;> rfl
  | _ => rfl

/-- A value with a treatment is usable unless it is a collection. -/
theorem usable_of_treatmentOf {t : Treatment} (treated : r.treatmentOf declared value = some t)
    (array : t ≠ .array) (dictionary : t ≠ .dictionary) : r.usable declared value = true := by
  rw [usable_eq_true ""]
  have htreatment := treatment?_of_treatmentOf "" treated
  cases value with
  | none =>
    show r.supportsType "" declared = _
    simp only [supportsType_eq, htreatment]
  | some value =>
    show r.supportsValue "" declared value = _
    simp only [supportsValue_eq, htreatment]

/-- A value without a treatment is not usable. -/
theorem supports_of_none (h : r.treatment? label declared.strip value = .ok none) :
    r.supports label declared value = .ok false := by
  cases value with
  | none => rw [supports, supportsType_eq, h]
  | some value => rw [supports, supportsValue_eq, h]

theorem supports_strip (label : String) (declared : Ty) (value : Option Value) :
    r.supports label declared.strip value = r.supports label declared value := by
  cases value with
  | none => exact supportsType_strip label declared
  | some value =>
    show r.supportsValue label declared.strip value = r.supportsValue label declared value
    rw [supportsValue_eq, supportsValue_eq, elementType, elementType, entryTypes, entryTypes,
      declared.strip_strip]

/-! ### Classifiers -/

variable {r' : Rules}

/-- How values are treated is up to the classifier alone. -/
theorem treatment?_congr (same : r'.classifier = r.classifier) : r'.treatment? = r.treatment? := by
  unfold treatment?
  rw [same]

theorem supportsType_congr (same : r'.classifier = r.classifier) (label : String) (declared : Ty) :
    r'.supportsType label declared = r.supportsType label declared := by
  induction declared with
  | nullable inner ih =>
    unfold supportsType
    exact ih
  | array element ih | list element ih =>
    unfold supportsType
    simp only [treatment?_congr same, ih]
  | dictionary key value ihkey ihvalue =>
    unfold supportsType
    simp only [treatment?_congr same, ihkey, ihvalue]
  | _ =>
    unfold supportsType
    simp only [treatment?_congr same]

theorem supportsElement_congr (same : r'.classifier = r.classifier) (label : String) (declared : Ty) :
    r'.supportsElement label declared = r.supportsElement label declared := by
  unfold supportsElement
  simp only [supportsType_congr same]

theorem supportsEntry_congr (same : r'.classifier = r.classifier) (label : String) (declared : Ty) :
    r'.supportsEntry label declared = r.supportsEntry label declared := by
  unfold supportsEntry
  simp only [supportsType_congr same]

mutual

theorem supportsValue_congr (same : r'.classifier = r.classifier) (label : String) (declared : Ty) (value : Value) :
    r'.supportsValue label declared value = r.supportsValue label declared value := by
  rw [supportsValue_eq, supportsValue_eq, treatment?_congr same, supportsElement_congr same,
    supportsEntry_congr same]
  cases value with
  | sequence items =>
    cases items with
    | nil => rfl
    | cons item rest => simp only [supportsSome_congr same label _ 0 (item :: rest)]
  | dictionary entries =>
    cases entries with
    | nil => rfl
    | cons entry rest => simp only [supportsSomeEntry_congr same label _ _ 0 (entry :: rest)]
  | _ => rfl

theorem supportsSome_congr (same : r'.classifier = r.classifier) (label : String) (element : Ty)
    (index : Nat) (items : List Value) :
    supportsSome r' label element index items = supportsSome r label element index items := by
  match items with
  | [] => rfl
  | item :: rest =>
    unfold supportsSome
    rw [supportsValue_congr same _ element item, supportsSome_congr same label element (index + 1) rest]

theorem supportsSomeEntry_congr (same : r'.classifier = r.classifier) (label : String)
    (key value : Ty) (index : Nat) (entries : List (Value × Value)) :
    supportsSomeEntry r' label key value index entries =
      supportsSomeEntry r label key value index entries := by
  match entries with
  | [] => rfl
  | entry :: rest =>
    unfold supportsSomeEntry
    rw [supportsHalves_congr same _ key value entry,
      supportsSomeEntry_congr same label key value (index + 1) rest]

theorem supportsHalves_congr (same : r'.classifier = r.classifier) (label : String)
    (key value : Ty) (entry : Value × Value) :
    supportsHalves r' label key value entry = supportsHalves r label key value entry := by
  match entry with
  | (k, v) =>
    unfold supportsHalves
    rw [supportsValue_congr same label key k, supportsValue_congr same label value v]

end

/-- Whether values are supported is up to the classifier alone. -/
theorem supports_congr (same : r'.classifier = r.classifier) : r'.supports = r.supports := by
  funext label declared value
  cases value with
  | none => exact supportsType_congr same label declared
  | some value => exact supportsValue_congr same label declared value

theorem treatmentOf_congr (same : r'.classifier = r.classifier) : r'.treatmentOf = r.treatmentOf := by
  unfold treatmentOf
  rw [treatment?_congr same]

theorem usable_congr (same : r'.classifier = r.classifier) : r'.usable = r.usable := by
  unfold usable
  rw [supports_congr same]

/-! ### Usable collections -/

variable {items : List Value} {entries : List (Value × Value)} {key val : Ty}

theorem supports_empty_sequence (treated : r.treatmentOf declared value = some .array)
    (empty : value = some (.sequence []) ∨ isAbsent value = true) :
    r.supports "" declared value = r.supportsElement "" declared.strip := by
  have htreatment := treatment?_of_treatmentOf "" treated
  cases value with
  | none => rw [supports, supportsType_eq, htreatment]
  | some value =>
    rw [supports, supportsValue_eq, htreatment]
    rcases empty with hempty | habsent
    · cases hempty
      rfl
    · cases value with
      | null => rfl
      | _ => cases habsent

/-- An absent or empty sequence is usable iff the element that it declares is. -/
theorem usable_empty_sequence (treated : r.treatmentOf declared value = some .array)
    (empty : value = some (.sequence []) ∨ isAbsent value = true)
    (declares : declared.strip.element? = some element) :
    r.usable declared value = r.usable element none := by
  rw [usable, usable, supports_empty_sequence treated empty, supportsElement, declares]
  rfl

/-- One that declares no element is left to its turn, which refuses it. -/
theorem usable_untyped_sequence (treated : r.treatmentOf declared value = some .array)
    (empty : value = some (.sequence []) ∨ isAbsent value = true)
    (declares : declared.strip.element? = none) : r.usable declared value = true := by
  rw [usable, supports_empty_sequence treated empty, supportsElement, declares]
  rfl

theorem usable_both {first second : Except WalkError Bool} :
    (both first fun _ => second).toOption.getD false =
      (first.toOption.getD false && second.toOption.getD false) := by
  cases first with
  | error e => rfl
  | ok b => cases b <;> rfl

theorem supports_empty_dictionary (treated : r.treatmentOf declared value = some .dictionary)
    (empty : value = some (.dictionary []) ∨ isAbsent value = true) :
    r.supports "" declared value = r.supportsEntry "" declared.strip := by
  have htreatment := treatment?_of_treatmentOf "" treated
  cases value with
  | none => rw [supports, supportsType_eq, htreatment]
  | some value =>
    rw [supports, supportsValue_eq, htreatment]
    rcases empty with hempty | habsent
    · cases hempty
      rfl
    · cases value with
      | null => rfl
      | _ => cases habsent

/-- An absent or empty dictionary is usable iff the key and the value that it declares are. -/
theorem usable_empty_dictionary (treated : r.treatmentOf declared value = some .dictionary)
    (empty : value = some (.dictionary []) ∨ isAbsent value = true)
    (declares : declared.strip.entry? = some (key, val)) :
    r.usable declared value = (r.usable key none && r.usable val none) := by
  rw [usable, usable, usable, supports_empty_dictionary treated empty, supportsEntry, declares]
  exact usable_both

theorem usable_untyped_dictionary (treated : r.treatmentOf declared value = some .dictionary)
    (empty : value = some (.dictionary []) ∨ isAbsent value = true)
    (declares : declared.strip.entry? = none) : r.usable declared value = true := by
  rw [usable, supports_empty_dictionary treated empty, supportsEntry, declares]
  rfl

theorem exists_of_supportsSome {index : Nat} (h : supportsSome r label element index items = .ok true) :
    ∃ item ∈ items, r.usable element (some item) = true := by
  induction items generalizing index with
  | nil => cases h
  | cons item rest ih =>
    rw [supportsSome, either_eq_ok] at h
    rcases h with ⟨hfirst, -⟩ | ⟨-, hrest⟩
    · exact ⟨item, List.mem_cons_self, usable_of_supports hfirst⟩
    · obtain ⟨other, hother, husable⟩ := ih hrest
      exact ⟨other, List.mem_cons_of_mem _ hother, husable⟩

/-- A sequence that is usable has a usable item. -/
theorem exists_usable_item (treated : r.treatmentOf declared (some (.sequence items)) = some .array)
    (nonempty : items ≠ []) (h : r.usable declared (some (.sequence items)) = true) :
    ∃ item ∈ items, r.usable (elementType declared) (some item) = true := by
  rw [usable_eq_true "", supports, supportsValue_eq,
    treatment?_of_treatmentOf "" treated] at h
  cases items with
  | nil => exact absurd rfl nonempty
  | cons item rest => exact exists_of_supportsSome h

/-- A sequence is usable if its first item is. -/
theorem usable_sequence {item : Value} (treated :
      r.treatmentOf declared (some (.sequence (item :: items))) = some .array)
    (h : r.usable (elementType declared) (some item) = true) :
    r.usable declared (some (.sequence (item :: items))) = true := by
  rw [usable_eq_true "", supports, supportsValue_eq,
    treatment?_of_treatmentOf "" treated]
  show supportsSome r "" (elementType declared) 0 (item :: items) = .ok true
  rw [supportsSome, either_eq_ok]
  exact Or.inl ⟨(usable_eq_true _).mp h, rfl⟩

/-- Whether both halves of an entry are usable. -/
def usableEntry (r : Rules) (types : Ty × Ty) (entry : Value × Value) : Bool :=
  r.usable types.1 (some entry.1) && r.usable types.2 (some entry.2)

theorem usableEntry_of_supportsHalves {types : Ty × Ty} {entry : Value × Value} :
    r.usableEntry types entry = true ↔ supportsHalves r label types.1 types.2 entry = .ok true := by
  obtain ⟨k, v⟩ := entry
  rw [usableEntry, Bool.and_eq_true, supportsHalves, both_eq_ok, usable_eq_true label,
    usable_eq_true label]
  simp [supports]

theorem exists_of_supportsSomeEntry {types : Ty × Ty} {index : Nat}
    (h : supportsSomeEntry r label types.1 types.2 index entries = .ok true) :
    ∃ entry ∈ entries, r.usableEntry types entry = true := by
  induction entries generalizing index with
  | nil => cases h
  | cons entry rest ih =>
    rw [supportsSomeEntry, either_eq_ok] at h
    rcases h with ⟨hfirst, -⟩ | ⟨-, hrest⟩
    · exact ⟨entry, List.mem_cons_self, usableEntry_of_supportsHalves.mpr hfirst⟩
    · obtain ⟨other, hother, husable⟩ := ih hrest
      exact ⟨other, List.mem_cons_of_mem _ hother, husable⟩

/-- A dictionary that is usable has an entry with two usable halves. -/
theorem exists_usable_entry
    (treated : r.treatmentOf declared (some (.dictionary entries)) = some .dictionary)
    (nonempty : entries ≠ []) (h : r.usable declared (some (.dictionary entries)) = true) :
    ∃ entry ∈ entries, r.usableEntry (entryTypes declared) entry = true := by
  rw [usable_eq_true "", supports, supportsValue_eq,
    treatment?_of_treatmentOf "" treated] at h
  cases entries with
  | nil => exact absurd rfl nonempty
  | cons entry rest => exact exists_of_supportsSomeEntry h

/-- A dictionary is usable if both halves of its first entry are. -/
theorem usable_dictionary {entry : Value × Value} (treated :
      r.treatmentOf declared (some (.dictionary (entry :: entries))) = some .dictionary)
    (h : r.usableEntry (entryTypes declared) entry = true) :
    r.usable declared (some (.dictionary (entry :: entries))) = true := by
  rw [usable_eq_true "", supports, supportsValue_eq,
    treatment?_of_treatmentOf "" treated]
  show supportsSomeEntry r "" (entryTypes declared).1 (entryTypes declared).2 0 (entry :: entries) =
    .ok true
  rw [supportsSomeEntry, either_eq_ok]
  exact Or.inl ⟨usableEntry_of_supportsHalves.mp h, rfl⟩

/-! ### Values that get rows -/

theorem keeps_of_usable (h : r.usable declared value = true) : r.keeps declared value = true := by
  unfold keeps
  split
  · exact h
  · rfl

/-- A value that is not usable is left out unless it is an error. -/
theorem keeps_eq_false {ty : Ty} (refused : r.refuse label ty = .ok ())
    (unusable : r.usable declared value = false) : r.keeps declared value = false := by
  unfold refuse at refused
  split at refused
  · rename_i hskip
    rw [keeps, hskip]
    exact unusable
  · cases refused

/-- An entry is kept if both halves are supported, and left out if one of them would be. -/
theorem keepEntries_cons {k v : Value} {rest kept : List (String × Value × Value)}
    (h : r.keepEntries key val ((label, k, v) :: rest) = .ok kept) :
    (∃ others, r.supportsValue label key k = .ok true ∧ r.supportsValue label val v = .ok true ∧
      r.keepEntries key val rest = .ok others ∧ kept = (label, k, v) :: others) ∨
    (r.keeps key (some k) && r.keeps val (some v)) = false ∧ r.keepEntries key val rest = .ok kept := by
  unfold keepEntries at h
  obtain ⟨first, hfirst, h⟩ := bind_eq_ok.mp h
  -- A key that is not supported decides at once: the value is not looked at.
  cases first with
  | false =>
    rw [if_pos Bool.false_ne_true] at h
    obtain ⟨_, hrefuse, hrest⟩ := bind_eq_ok.mp h
    have hkeeps : r.keeps key (some k) = false := keeps_eq_false hrefuse (usable_of_supports hfirst)
    exact Or.inr ⟨by rw [hkeeps, Bool.false_and], hrest⟩
  | true =>
    rw [if_neg (not_not.mpr rfl)] at h
    obtain ⟨second, hsecond, h⟩ := bind_eq_ok.mp h
    cases second with
    | false =>
      rw [if_pos Bool.false_ne_true] at h
      obtain ⟨_, hrefuse, hrest⟩ := bind_eq_ok.mp h
      have hkeeps : r.keeps val (some v) = false := keeps_eq_false hrefuse (usable_of_supports hsecond)
      exact Or.inr ⟨by rw [hkeeps, Bool.and_false], hrest⟩
    | true =>
      rw [if_neg (not_not.mpr rfl)] at h
      obtain ⟨others, hothers, h⟩ := bind_eq_ok.mp h
      exact Or.inl ⟨others, hfirst, hsecond, hothers, (pure_eq_ok.mp h).symm⟩

theorem keeps_empty_sequence (treated : r.treatmentOf declared value = some .array)
    (empty : value = some (.sequence []) ∨ isAbsent value = true)
    (declares : declared.strip.element? = some element) :
    r.keeps declared value = r.keeps element none := by
  unfold keeps
  split
  · exact usable_empty_sequence treated empty declares
  · rfl

theorem keeps_empty_dictionary (treated : r.treatmentOf declared value = some .dictionary)
    (empty : value = some (.dictionary []) ∨ isAbsent value = true)
    (declares : declared.strip.entry? = some (key, val)) :
    r.keeps declared value = (r.keeps key none && r.keeps val none) := by
  unfold keeps
  split
  · exact usable_empty_dictionary treated empty declares
  · rfl

/-- A sequence that gets a row has an item that does. -/
theorem exists_kept_item (treated : r.treatmentOf declared (some (.sequence items)) = some .array)
    (nonempty : items ≠ []) (h : r.keeps declared (some (.sequence items)) = true) :
    ∃ item ∈ items, r.keeps (elementType declared) (some item) = true := by
  unfold keeps at h ⊢
  split at h
  · exact exists_usable_item treated nonempty h
  · obtain ⟨item, hitem⟩ := List.exists_mem_of_ne_nil items nonempty
    exact ⟨item, hitem, rfl⟩

/-- A dictionary that gets a row has an entry both of whose halves do. -/
theorem exists_kept_entry
    (treated : r.treatmentOf declared (some (.dictionary entries)) = some .dictionary)
    (nonempty : entries ≠ []) (h : r.keeps declared (some (.dictionary entries)) = true) :
    ∃ entry ∈ entries, r.keeps (entryTypes declared).1 (some entry.1) = true ∧
      r.keeps (entryTypes declared).2 (some entry.2) = true := by
  unfold keeps at h ⊢
  split at h
  · obtain ⟨entry, hentry, husable⟩ := exists_usable_entry treated nonempty h
    exact ⟨entry, hentry, Bool.and_eq_true_iff.mp husable⟩
  · obtain ⟨entry, hentry⟩ := List.exists_mem_of_ne_nil entries nonempty
    exact ⟨entry, hentry, rfl, rfl⟩

end Walk.Rules

/-! ### Several values -/

namespace Walk

/-- A value that is to get a row. -/
structure Candidate where
  name : String
  label : String
  declared : Ty
  value : Value

namespace Candidate

/-- Elements have labels, but no names. -/
def element (declared : Ty) (item : String × Value) : Candidate := ⟨"", item.1, declared, item.2⟩

/-- Fields are named without the lead of members. -/
def field (r : Rules) (typeName : String) (f : Field) : Candidate :=
  let name := Naming.stripMember f.name r.memberLead
  ⟨name, typeName ++ "." ++ name, f.ty, f.value⟩

end Candidate

namespace Rules

variable {r : Rules} {p : Progress}

/-- Adds the rows of some candidates, and counts them. -/
def addAll (r : Rules) (p : Progress) : List Candidate → Except WalkError (Nat × Progress)
  | [] => .ok (0, p)
  | c :: rest => do
    let first ← r.addRowFor p c.name c.label c.declared (some c.value)
    let others ← addAll r first.2 rest
    return ((if first.1.isSome then 1 else 0) + others.1, others.2)

theorem addElements_eq (declared : Ty) (items : List (String × Value)) :
    r.addElements declared p items = r.addAll p (items.map (.element declared)) := by
  induction items generalizing p with
  | nil => rfl
  | cons item items ih =>
    unfold addElements
    simp only [ih]
    rfl

theorem addFields_eq (typeName : String) (fields : List Field) :
    r.addFields typeName p fields = r.addAll p (fields.map (.field r typeName)) := by
  induction fields generalizing p with
  | nil => rfl
  | cons field fields ih =>
    unfold addFields
    simp only [ih]
    rfl

end Rules

end Walk

end ObjectPack
