import ObjectPack.Proofs.Model.Sturdy
import ObjectPack.Proofs.Walk.Occurrence
import ObjectPack.Proofs.Walk.Whole

/-!
# Walks give solvable models

What is looked up behind the rows of a walked model is there (`Walk.Rules.walk_solvable`): every row shows
what it stands for, so collections and data units have ranges, texts are pooled, and rows that need a type name
have one.  An object without fields owns an empty range, about which a picture says nothing; that it begins
inside the table is kept by every turn of a walk (`Walk.Progress.Begun`).
-/

namespace ObjectPack

open Outcome

/-- Whether a custom value occurs in a value. -/
inductive Value.HasCustom (c : CustomStruct) : Value → Prop
  | self : HasCustom c (.custom c)
  | item {items : List Value} {item : Value} (mem : item ∈ items) (h : HasCustom c item) :
    HasCustom c (.sequence items)
  | key {entries : List (Value × Value)} {entry : Value × Value} (mem : entry ∈ entries)
      (h : HasCustom c entry.1) : HasCustom c (.dictionary entries)
  | val {entries : List (Value × Value)} {entry : Value × Value} (mem : entry ∈ entries)
      (h : HasCustom c entry.2) : HasCustom c (.dictionary entries)
  | field {object : Object} {field : Field} (mem : field ∈ object.fields) (h : HasCustom c field.value) :
    HasCustom c (.object object)
  | root {unit : DataUnit} (h : HasCustom c (.object unit.root)) : HasCustom c (.dataUnit unit)

/-- The custom values of what occurs in a value are custom values of the value. -/
theorem Value.In.hasCustom {part whole : Value} {c : CustomStruct} (h : part.In whole) (custom : part.HasCustom c) :
    whole.HasCustom c := by
  induction h with
  | self => exact custom
  | item mem _ ih => exact .item mem ih
  | key mem _ ih => exact .key mem ih
  | val mem _ ih => exact .val mem ih
  | field mem _ ih => exact .field mem ih
  | root _ ih => exact .root ih

/-- The custom values of a value are those that occur in it. -/
theorem Value.hasCustom_iff {c : CustomStruct} {whole : Value} : whole.HasCustom c ↔ (Value.custom c).In whole := by
  refine ⟨fun h => ?_, fun h => h.hasCustom .self⟩
  induction h with
  | self => exact .self
  | item mem _ ih => exact .item mem ih
  | key mem _ ih => exact .key mem ih
  | val mem _ ih => exact .val mem ih
  | field mem _ ih => exact .field mem ih
  | root _ ih => exact .root ih

theorem Model.row_modify {m : Model} {i j : Nat} {f : Row → Row} {r : Row}
    (h : (m.modify i f).row j = .ok r) : ∃ r₀, m.row j = .ok r₀ ∧ (r = r₀ ∨ r = f r₀) := by
  have hr : (m.rows.modify i f)[j]? = some r := indexed_eq_ok.mp h
  rw [Array.getElem?_modify] at hr
  split at hr
  · obtain ⟨r₀, hr₀, rfl⟩ := Option.map_eq_some_iff.mp hr
    exact ⟨r₀, indexed_eq_ok.mpr hr₀, Or.inr rfl⟩
  · exact ⟨r, indexed_eq_ok.mpr hr, Or.inl rfl⟩

theorem Model.size_modify (m : Model) (i : Nat) (f : Row → Row) : (m.modify i f).size = m.size :=
  Array.size_modify

namespace Walk

/-! ### Where ranges begin -/

namespace Progress

variable {p p' : Progress} {rows : List Row} {later : List Deferred} {i start count : Nat}

/-- Whether ranges begin inside the table or at its end, and texts have references from the first one on. -/
structure Begun (p : Progress) : Prop where
  begins : ∀ i r start, p.model.row i = .ok r → r.kind ≠ .string → r.start = some start → start ≤ p.size
  units : ∀ s root, p.units.lookup s = some root → root ≤ p.size
  texts : p.model.TextsFrom 1

/-- Rows that are added have no ranges yet. -/
theorem Begun.grow (h : p.Begun) (grows : p.Grows p' rows later) : p'.Begun := by
  have hsize := grows.size_eq
  refine ⟨fun i r start hrow kind hstart => ?_, fun s root hs => ?_, grows.pool 1 h.texts⟩
  · rcases grows.row_cases hrow with hold | ⟨k, hk, -⟩
    · exact Nat.le_trans (h.begins i r start hold kind hstart) (by omega)
    · rw [grows.start_eq_none (List.mem_of_getElem? hk) kind] at hstart
      cases hstart
  · rw [grows.units] at hs
    exact Nat.le_trans (h.units s root hs) (by omega)

/-- A row gets a range that begins inside the table or at its end. -/
theorem Begun.setRange (h : p.Begun) (hle : start ≤ p.size) : (p.setRange i start count).Begun := by
  have hsize : (p.setRange i start count).size = p.size := Model.size_modify _ _ _
  refine ⟨fun j r s hrow kind hs => ?_, fun s root hs => hsize.symm ▸ h.units s root hs,
    h.texts.keep rfl rfl⟩
  rw [hsize]
  obtain ⟨r₀, hrow₀, rfl | rfl⟩ := Model.row_modify hrow
  · exact h.begins j _ s hrow₀ kind hs
  · cases hs
    exact hle

theorem Begun.setTypeName (h : p.Begun) (typeName : String) : (p.setTypeName i typeName).Begun := by
  have hsize : (p.setTypeName i typeName).size = p.size := Model.size_modify _ _ _
  refine ⟨fun j r s hrow kind hs => ?_, fun s root hs => hsize.symm ▸ h.units s root hs,
    h.texts.keep rfl rfl⟩
  rw [hsize]
  obtain ⟨r₀, hrow₀, hr⟩ := Model.row_modify hrow
  rcases hr with rfl | rfl <;> exact h.begins j _ s hrow₀ kind hs

theorem Begun.named (h : p.Begun) (base : Option String) : (p.named i base).Begun := by
  cases base with
  | none => exact h
  | some base => exact h.setTypeName base

theorem named_size (p : Progress) (i : Nat) (base : Option String) : (p.named i base).size = p.size := by
  cases base with
  | none => rfl
  | some base => exact Model.size_modify _ _ _

end Progress

open Progress

variable {r : Rules} {p p' : Progress} {row : Nat} {label : String} {item : Deferred}

namespace Rules

/-- Every turn lets ranges begin inside the table. -/
theorem advance_begun (h : p.Begun) (step : p.Advance item p') : p'.Begun := by
  cases step with
  | fields grows | declared grows _ _ => exact (h.grow grows).setRange grows.size_le
  | unowned base grows _ _ => exact (h.grow grows).named base
  | elements grows _ _ _ | entries grows _ _ _ _ _ =>
    refine ((h.grow grows).named _).setRange ?_
    rw [named_size]
    exact grows.size_le
  | met known => exact h.setRange (h.units _ _ known)
  | root _ grows _ _ =>
    have hbegun := h.grow grows
    refine Begun.setRange ⟨hbegun.begins, fun s root hs => ?_, hbegun.texts⟩ grows.size_le
    rcases eq_or_lookup_of_met_cons hs with ⟨-, rfl⟩ | hs
    · exact grows.size_le
    · exact hbegun.units s root (grows.units.symm ▸ hs)

/-- The ranges of a walked model begin inside of it. -/
theorem walk_begun {unit : DataUnit} {result : Nat × Model} (h : r.walk .empty unit = .ok result) :
    (∀ i row start, result.2.row i = .ok row → row.kind ≠ .string → row.start = some start →
      start ≤ result.2.size) ∧ result.2.TextsFrom 1 := by
  obtain ⟨first, rounds, p, p', -, hgrows, hrounds, rfl⟩ := walk_rounds h
  have hempty : Begun ⟨.empty, [], []⟩ :=
    { begins := fun i r start hrow => absurd (Model.lt_size_of_row hrow) (Nat.not_lt_zero i)
      units := fun s root hs => by cases hs
      texts := ⟨rfl, fun _ _ ht => absurd ht (by simp [Model.empty, TextPool.empty]), List.nodup_nil⟩ }
  have hbegun : p'.Begun := addRounds_keeps (P := fun _ p => p.Begun)
    (fun _ _ _ _ h step => step.deferred.imp fun _ hlater => ⟨hlater, advance_begun h step⟩)
    (fun _ h => ⟨h.begins, h.units, h.texts⟩) (hempty.grow hgrows) hrounds
  exact ⟨hbegun.begins, hbegun.texts⟩

end Rules

/-! ### What rows show -/

variable {m : Model} {origins : List Origin} {o : Origin} {i : Nat} {x : Row} {texts : TextPool}
  {use : Ty → Option Value → Bool}

/-- The row of a custom value stands for it. -/
theorem Shows.custom (h : Shows r use texts origins o x) {c : CustomStruct} (value : x.value = .struct c) :
    o.value = some (.custom c) := by
  cases h with
  | plain hplain =>
    cases hplain <;> cases value
    rfl
  | _ => cases value

/-- A row that is there and stands for a text has it in the pool. -/
theorem Shows.text (h : Shows r use texts origins o x) (kind : x.kind = .string) (value : x.value = .present) :
    ∃ index t, x.start = some index ∧ texts.entries[index]? = some t ∧ o.value = some (.text t.text) := by
  cases h with
  | plain hplain =>
    cases hplain with
    | text treated pooled => exact ⟨_, _, rfl, pooled, rfl⟩
    | _ => cases value
  | _ => cases kind

/-- Collections have ranges. -/
theorem Shows.start_of_collection (h : Shows r use texts origins o x)
    (kind : x.kind = .array ∨ x.kind = .dictionary) : ∃ start, x.start = some start := by
  cases h with
  | plain hplain =>
    cases hplain with
    | scalar _ | noScalar _ _ =>
      rcases kind with kind | kind <;> exact absurd kind.symm (Row.ofFormat_ne rfl)
    | _ => rcases kind with kind | kind <;> cases kind
  | _ => exact ⟨_, rfl⟩

/-- Only solving the layout makes words of booleans. -/
theorem Shows.kind_ne_bitSet (h : Shows r use texts origins o x) : x.kind ≠ .bitSet := by
  cases h with
  | plain hplain =>
    cases hplain with
    | scalar _ | noScalar _ _ => exact (Row.ofFormat_ne rfl).symm
    | _ => exact Kind.noConfusion
  | _ => exact Kind.noConfusion

/-- Enumeration values, objects, custom values and data units have type names. -/
theorem Shows.typed (h : Shows r use texts origins o x)
    (kind : x.kind = .enum ∨ x.kind = .struct ∨ x.kind = .object ∨ x.kind = .dataUnit) :
    ∃ name, x.typeName = some name := by
  cases h with
  | plain hplain =>
    cases hplain with
    | scalar _ | noScalar _ _ =>
      rcases kind with kind | kind | kind | kind <;> exact absurd kind.symm (Row.ofFormat_ne rfl)
    | bool _ | noBool _ _ | text _ _ | noText _ _ =>
      rcases kind with kind | kind | kind | kind <;> cases kind
    | _ => exact ⟨_, rfl⟩
  | object _ _ _ _ _ => exact ⟨_, rfl⟩
  | dataUnit _ _ _ _ => exact ⟨_, rfl⟩
  | _ => rcases kind with kind | kind | kind | kind <;> cases kind

/-- Only collections, objects and data units own rows. -/
theorem Plain.not_owns {j : Nat} (h : Plain r texts o x) : ¬ x.Owns j := by
  cases h with
  | scalar _ | noScalar _ _ | noObject _ _ | noUnit _ _ => exact Row.not_owns_of_start rfl j
  | _ => exact Row.not_owns_of_ownedCount rfl j

/-- Whatever a row owns has a value: it is a field of an object, an element of a collection or the root of a data
unit. -/
theorem Shows.owned {j : Nat} (h : Shows r use texts origins o x) (owns : x.Owns j) :
    ∃ part v, origins[j]? = some part ∧ part.value = some v ∧ ((x.kind = .object ∧ ∃ f, part = .field r f) ∨
      ((x.kind = .array ∨ x.kind = .dictionary) ∧ ∃ declared, part = .element declared (some v)) ∨
      x.kind = .dataUnit) := by
  have hrange : ∀ {parts : List Origin} {start count : Nat}, parts <+: origins.drop start →
      parts.length = count → start ≤ j → j < start + count → ∃ part ∈ parts, origins[j]? = some part := by
    rintro parts start _ rows rfl hle hlt
    obtain ⟨k, rfl⟩ := Nat.exists_eq_add_of_le hle
    have hk : k < parts.length := Nat.lt_of_add_lt_add_left hlt
    exact ⟨parts[k], List.getElem_mem hk, getElem?_of_prefix_drop rows (List.getElem?_eq_getElem hk)⟩
  obtain ⟨start, hstart, hle, hlt⟩ := owns
  -- Every way to own rows lists the origins of these rows, and declared elements are not owned.
  cases h with
  | plain hplain => exact absurd ⟨start, hstart, hle, hlt⟩ hplain.not_owns
  | object _ _ _ _ rows =>
    cases hstart
    obtain ⟨part, hmem, hpart⟩ := hrange rows (List.length_map _) hle hlt
    obtain ⟨field, -, rfl⟩ := List.mem_map.mp hmem
    exact ⟨_, field.value, hpart, rfl, Or.inl ⟨rfl, field, rfl⟩⟩
  | sequence _ _ _ _ rows =>
    cases hstart
    obtain ⟨part, hmem, hpart⟩ := hrange rows (List.length_map _) hle hlt
    obtain ⟨item, -, rfl⟩ := List.mem_map.mp hmem
    exact ⟨_, item, hpart, rfl, Or.inr (Or.inl ⟨Or.inl rfl, _, rfl⟩)⟩
  | dictionary _ _ _ _ _ rows =>
    cases hstart
    obtain ⟨part, hmem, hpart⟩ := hrange rows (by
      rw [List.length_append, List.length_map, List.length_map]
      exact (Nat.two_mul _).symm) hle hlt
    rcases List.mem_append.mp hmem with hmem | hmem <;> obtain ⟨entry, -, rfl⟩ := List.mem_map.mp hmem
    · exact ⟨_, entry.1, hpart, rfl, Or.inr (Or.inl ⟨Or.inr rfl, _, rfl⟩)⟩
    · exact ⟨_, entry.2, hpart, rfl, Or.inr (Or.inl ⟨Or.inr rfl, _, rfl⟩)⟩
  | dataUnit _ _ _ shared =>
    cases hstart
    obtain rfl : j = start := Nat.le_antisymm (Nat.le_of_lt_succ hlt) hle
    exact ⟨_, _, shared, rfl, Or.inr (Or.inr rfl)⟩
  | noElements _ _ _ _ | noEntries _ _ _ _ =>
    exact absurd ⟨start, hstart, hle, hlt⟩ (Row.not_owns_of_ownedCount rfl j)

/-- The row of a custom value that is there has its value. -/
theorem Shows.struct_ne_null {v : Value} (h : Shows r use texts origins o x) (value : o.value = some v)
    (kind : x.kind = .struct) : x.value ≠ .null := by
  cases h with
  | plain hplain =>
    cases hplain with
    | scalar _ | noScalar _ _ => exact Payload.noConfusion
    | noCustom _ => cases value
    | noText _ _ | noObject _ _ | noUnit _ _ => cases kind
    | _ => exact Payload.noConfusion
  | _ => exact Payload.noConfusion

/-- Custom values are missing only where nothing owns their rows. -/
theorem Pictures.filled (h : Pictures r m origins) : m.Filled := by
  intro i j owner row howner owns hrow kind
  obtain ⟨o, -, hshows⟩ := h.shown howner
  obtain ⟨part, v, hpart, hvalue, -⟩ := hshows.owned owns
  exact (h.shows j row part hrow hpart).struct_ne_null hvalue kind

/-- A collection holds rows that are there. -/
theorem held_le_size (reserved : m.Reserved) (hrow : m.row i = .ok x)
    (kind : x.kind = .array ∨ x.kind = .dictionary) {start : Nat} (hstart : x.start = some start) :
    start + x.heldCount ≤ m.size := by
  have hpos : 0 < x.heldCount := by
    rcases kind with kind | kind
    · rw [Model.heldCount_of_array kind]
      omega
    · rw [Model.heldCount_of_dictionary kind]
      omega
  obtain ⟨-, hlt, -⟩ := reserved i x (start + x.heldCount - 1) hrow ⟨start, hstart, by omega, by omega⟩
  omega

/-- An object owns rows that are there. -/
theorem owned_le_size {top : Nat} (wellFormed : m.WellFormed top) (hrow : m.row i = .ok x)
    (kind : x.kind = .object) {start : Nat} (hstart : x.start = some start) (begins : start ≤ m.size) :
    start + x.count ≤ m.size := by
  by_cases hempty : x.count = 0
  · omega
  · have howns := wellFormed.inside i x hrow (start + x.count - 1) ⟨start, hstart, by omega, by
      rw [Row.ownedCount_of_object kind]
      omega⟩
    omega

/-- A walk gives a model whose layout can be solved, with the custom values of the graph. -/
theorem Rules.walk_solvable {unit : DataUnit} {row : Nat} {m : Model}
    (h : r.walk .empty unit = .ok (row, m)) :
    m.Solvable (fun c => (Value.dataUnit unit).HasCustom c) m.size row ∧ m.Filled ∧
      ∃ object, m.row row = .ok object ∧ object.value = .dataUnit (.ofText unit.signature) := by
  obtain ⟨origins, hpictures, hrow, hinside⟩ := walk_pictures_inUnit h
  obtain ⟨hbegins, htexts⟩ := walk_begun h
  have hwhole : m.Whole row := walk_whole h
  have hreserved : m.Reserved := walk_reserved h
  -- All that solving needs of a row can be read off what the row shows.
  have hshows : ∀ i x, m.row i = .ok x → ∃ o ∈ origins, Shows r r.usable m.texts origins o x := by
    intro i x hx
    obtain ⟨o, ho, hshow⟩ := hpictures.shown hx
    exact ⟨o, List.mem_of_getElem? ho, hshow⟩
  refine ⟨⟨hwhole, walk_ordered h, fun i x hx => ?_, Nat.le_refl _, htexts.nodup⟩, hpictures.filled, ?_⟩
  · obtain ⟨o, ho, hshow⟩ := hshows i x hx
    exact
      { custom := fun c hc => (hinside o ho _ (hshow.custom hc)).hasCustom .self
        object := fun kind start hs =>
          owned_le_size hwhole.toWellFormed hx kind hs (hbegins i x start hx (by rw [kind]; decide) hs)
        collection := fun kind => by
          obtain ⟨start, hs⟩ := hshow.start_of_collection kind
          exact ⟨start, hs, held_le_size hreserved hx kind hs⟩
        word := fun kind => absurd kind hshow.kind_ne_bitSet
        text := fun kind value => by
          obtain ⟨index, t, hstart, ht, -⟩ := hshow.text kind value
          exact ⟨index, t, hstart, indexed_eq_ok.mpr ht⟩
        root := fun s hs => hshow.start_of_dataUnit hs
        typed := hshow.typed }
  · obtain ⟨x, hx⟩ := Model.exists_row_of_lt hwhole.bounded
    refine ⟨x, hx, ?_⟩
    cases hpictures.shows row x _ hx hrow with
    | plain hplain => cases hplain
    | object _ value _ _ _ => cases value
    | dataUnit _ value _ _ =>
      cases value
      rfl

end Walk

end ObjectPack
