import ObjectPack.Proofs.Walk.Faithful

/-!
# Occurrences

A value occurs in another one if it is that value or occurs in one of its parts (`Value.In`).  Whatever the rows of a
walked model stand for occurs in the data unit that has been walked (`Walk.Rules.walk_pictures_inUnit`).

The objects of a data unit are its root object and whatever objects are nested in it, those of further
data units among them (`Value.objects`).  The rows of objects in a model stand for such objects
(`Walk.Rules.walk_pictures_objects`).
-/

namespace ObjectPack

/-- Whether a value occurs in another one: it is that value, or it occurs in one of its parts. -/
inductive Value.In (part : Value) : Value → Prop
  | self : In part part
  | item {items : List Value} {item : Value} (mem : item ∈ items) (h : In part item) : In part (.sequence items)
  | key {entries : List (Value × Value)} {entry : Value × Value} (mem : entry ∈ entries)
      (h : In part entry.1) : In part (.dictionary entries)
  | val {entries : List (Value × Value)} {entry : Value × Value} (mem : entry ∈ entries)
      (h : In part entry.2) : In part (.dictionary entries)
  | field {object : Object} {field : Field} (mem : field ∈ object.fields) (h : In part field.value) :
    In part (.object object)
  | root {unit : DataUnit} (h : In part (.object unit.root)) : In part (.dataUnit unit)

/-- Parts of parts are parts. -/
theorem Value.In.trans {part v whole : Value} (h : part.In v) (h' : v.In whole) : part.In whole := by
  induction h' with
  | self => exact h
  | item mem _ ih => exact .item mem ih
  | key mem _ ih => exact .key mem ih
  | val mem _ ih => exact .val mem ih
  | field mem _ ih => exact .field mem ih
  | root _ ih => exact .root ih

namespace Value

variable {part : Value}

/-- Whether a value has no parts. -/
def isLeaf : Value → Bool
  | .sequence _ | .dictionary _ | .object _ | .dataUnit _ => false
  | _ => true

theorem in_of_isLeaf {v : Value} (leaf : v.isLeaf = true) : part.In v ↔ part = v := by
  constructor
  · intro h
    cases h with
    | self => rfl
    | _ => cases leaf
  · rintro rfl
    exact .self

@[simp] theorem in_sequence {items : List Value} :
    part.In (.sequence items) ↔ part = .sequence items ∨ ∃ item ∈ items, part.In item := by
  constructor
  · intro h
    cases h with
    | self => exact .inl rfl
    | item mem h => exact .inr ⟨_, mem, h⟩
  · rintro (rfl | ⟨item, mem, h⟩)
    · exact .self
    · exact .item mem h

@[simp] theorem in_dictionary {entries : List (Value × Value)} :
    part.In (.dictionary entries) ↔
      part = .dictionary entries ∨ ∃ entry ∈ entries, part.In entry.1 ∨ part.In entry.2 := by
  constructor
  · intro h
    cases h with
    | self => exact .inl rfl
    | key mem h => exact .inr ⟨_, mem, .inl h⟩
    | val mem h => exact .inr ⟨_, mem, .inr h⟩
  · rintro (rfl | ⟨entry, mem, h | h⟩)
    · exact .self
    · exact .key mem h
    · exact .val mem h

@[simp] theorem in_object {object : Object} :
    part.In (.object object) ↔ part = .object object ∨ ∃ field ∈ object.fields, part.In field.value := by
  constructor
  · intro h
    cases h with
    | self => exact .inl rfl
    | field mem h => exact .inr ⟨_, mem, h⟩
  · rintro (rfl | ⟨field, mem, h⟩)
    · exact .self
    · exact .field mem h

@[simp] theorem in_dataUnit {unit : DataUnit} :
    part.In (.dataUnit unit) ↔ part = .dataUnit unit ∨ part.In (.object unit.root) := by
  constructor
  · intro h
    cases h with
    | self => exact .inl rfl
    | root h => exact .inr h
  · rintro (rfl | h)
    · exact .self
    · exact .root h

end Value

namespace Walk

variable {unit : DataUnit}

/-- Whether the values that something stands for occur in a data unit. -/
def Origin.InUnit (unit : DataUnit) (o : Origin) : Prop := ∀ v, o.value = some v → v.In (.dataUnit unit)

theorem Origin.InUnit.part {o part : Origin} (h : o.InUnit unit) (hpart : o.Part part) : part.InUnit unit := by
  intro v hv
  cases hpart with
  | field value mem =>
    cases hv
    exact .trans (.field mem .self) (h _ value)
  | item mem =>
    cases hv
    exact .trans (.item mem .self) (h _ rfl)
  | key mem =>
    cases hv
    exact .trans (.key mem .self) (h _ rfl)
  | val mem =>
    cases hv
    exact .trans (.val mem .self) (h _ rfl)
  | noItem _ | noKey _ | noVal _ => cases hv
  | root value =>
    cases hv
    exact .trans (.root .self) (h _ value)

/-- A walk gives a picture of the object graph, and whatever its rows stand for occurs in the graph. -/
theorem Rules.walk_pictures_inUnit {r : Rules} {row : Nat} {m : Model} (h : r.walk .empty unit = .ok (row, m)) :
    ∃ origins, Pictures r m origins ∧ origins[row]? = some (.unit unit) ∧ ∀ o ∈ origins, o.InUnit unit := by
  have hstart : (Origin.unit unit).InUnit unit := fun _ hv => Option.some.inj hv ▸ .self
  exact walk_pictures_within (Origin.InUnit unit) hstart (fun _ _ => Origin.InUnit.part) h

end Walk

/-! ### Objects -/

namespace Value

mutual

/-- The objects of a value, itself among them if it is one. -/
def objects : Value → List Object
  | .sequence items => itemsObjects items
  | .dictionary entries => entriesObjects entries
  | .object o => o :: fieldsObjects o
  | .dataUnit u => unitObjects u
  | _ => []

/-- The objects of the items of a sequence. -/
def itemsObjects : List Value → List Object
  | [] => []
  | item :: rest => item.objects ++ itemsObjects rest

/-- The objects of the entries of a dictionary. -/
def entriesObjects : List (Value × Value) → List Object
  | [] => []
  | entry :: rest => entryObjects entry ++ entriesObjects rest

/-- The objects of both halves of an entry. -/
def entryObjects : Value × Value → List Object
  | (key, value) => key.objects ++ value.objects

/-- The objects that are nested in the fields of an object. -/
def fieldsObjects : ObjectOf Value → List Object
  | ⟨_, fields⟩ => listObjects fields

/-- The objects of some fields. -/
def listObjects : List (FieldOf Value) → List Object
  | [] => []
  | field :: rest => fieldObjects field ++ listObjects rest

/-- The objects of a field. -/
def fieldObjects : FieldOf Value → List Object
  | ⟨_, _, value⟩ => value.objects

/-- The objects of a data unit. -/
def unitObjects : DataUnitOf Value → List Object
  | ⟨_, root⟩ => root :: fieldsObjects root

end

variable {v : Value}

theorem subset_of_mem {α : Type} {f : α → List Object} {g : List α → List Object} {a : α} {l : List α}
    (cons : ∀ a l, g (a :: l) = f a ++ g l) (mem : a ∈ l) : f a ⊆ g l := by
  induction l with
  | nil => cases mem
  | cons b rest ih =>
    rw [cons]
    rcases List.mem_cons.mp mem with rfl | mem
    · exact List.subset_append_left _ _
    · exact List.Subset.trans (ih mem) (List.subset_append_right _ _)

theorem objects_item {items : List Value} (mem : v ∈ items) : v.objects ⊆ (sequence items).objects := by
  rw [objects]
  exact subset_of_mem (fun _ _ => by rw [itemsObjects]) mem

theorem objects_entry {entries : List (Value × Value)} {entry : Value × Value} (mem : entry ∈ entries) :
    entry.1.objects ⊆ (dictionary entries).objects ∧ entry.2.objects ⊆ (dictionary entries).objects := by
  have hentry : entryObjects entry ⊆ entriesObjects entries :=
    subset_of_mem (fun _ _ => by rw [entriesObjects]) mem
  rw [entryObjects] at hentry
  rw [objects]
  exact ⟨List.Subset.trans (List.subset_append_left _ _) hentry,
    List.Subset.trans (List.subset_append_right _ _) hentry⟩

theorem objects_field {o : Object} {field : Field} (mem : field ∈ o.fields) :
    field.value.objects ⊆ (object o).objects := by
  have hfield : fieldObjects field ⊆ listObjects o.fields :=
    subset_of_mem (fun _ _ => by rw [listObjects]) mem
  rw [fieldObjects] at hfield
  rw [objects, fieldsObjects]
  exact List.Subset.trans hfield (List.subset_cons_self _ _)

theorem objects_root (u : DataUnit) : (object u.root).objects = (dataUnit u).objects := by
  obtain ⟨signature, root⟩ := u
  rw [objects, objects, unitObjects]

theorem mem_objects_self (o : Object) : o ∈ (object o).objects := by
  rw [objects]
  exact List.mem_cons_self

/-- The objects of what occurs in a value are objects of the value. -/
theorem In.objects_subset {part whole : Value} (h : part.In whole) : part.objects ⊆ whole.objects := by
  induction h with
  | self => exact List.Subset.refl _
  | item mem _ ih => exact List.Subset.trans ih (objects_item mem)
  | key mem _ ih => exact List.Subset.trans ih (objects_entry mem).1
  | val mem _ ih => exact List.Subset.trans ih (objects_entry mem).2
  | field mem _ ih => exact List.Subset.trans ih (objects_field mem)
  | @root unit _ ih =>
    rw [← objects_root]
    exact ih

end Value

namespace Walk

variable {r : Rules}

/-- A walk gives a picture of the object graph, and all objects of the picture belong to the graph. -/
theorem Rules.walk_pictures_objects {unit : DataUnit} {row : Nat} {m : Model}
    (h : r.walk .empty unit = .ok (row, m)) : ∃ origins, Pictures r m origins ∧
      ∀ o ∈ origins, ∀ object, o.value = some (.object object) →
        object ∈ (Value.dataUnit unit).objects := by
  obtain ⟨origins, hpictures, -, hinside⟩ := walk_pictures_inUnit h
  refine ⟨origins, hpictures, fun o ho object hobject => ?_⟩
  exact (hinside o ho _ hobject).objects_subset (Value.mem_objects_self object)

end Walk

end ObjectPack
