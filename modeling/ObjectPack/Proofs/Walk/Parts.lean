import ObjectPack.Proofs.Walk.Advance
import ObjectPack.Proofs.Walk.Homogeneous

/-!
# Turns

The rows that the turn of a value adds stand for the parts of the value that get rows, in their order
(`Walk.Progress.Draws`); after its turn the row of the value shows it (`Walk.Rules.addParts_turned`).
-/

namespace ObjectPack.Walk

open Outcome Progress

namespace Progress

variable {r : Rules} {o : Origin} {row : Row} {origins new new' : List Origin}
  {p p₁ p' p'' : Progress} {item : Deferred} {waiting later later' : List Deferred}

/-- Whether a walk has added the rows of some values, whatever waits. -/
structure Draws (r : Rules) (p p' : Progress) (new : List Origin) (later : List Deferred) : Prop where
  rowOld : ∀ j s, p.model.row j = .ok s → p'.model.row j = .ok s
  deferred : p'.deferred = p.deferred ++ later
  units : p'.units = p.units
  fresh : ∀ item ∈ later, p.size ≤ item.row
  grows : p.size ≤ p'.size
  labels : ∀ origins waiting, Labelled r p origins waiting →
    Labelled r p' (origins ++ new) (waiting ++ later)

theorem Draws.refl (r : Rules) (p : Progress) : Draws r p p [] [] where
  rowOld _ _ := id
  deferred := (List.append_nil _).symm
  units := rfl
  fresh _ hitem := absurd hitem List.not_mem_nil
  grows := Nat.le_refl _
  labels origins waiting h := by
    rw [List.append_nil, List.append_nil]
    exact h

theorem Draws.trans (h : Draws r p p' new later) (h' : Draws r p' p'' new' later') :
    Draws r p p'' (new ++ new') (later ++ later') where
  rowOld j s hrow := h'.rowOld j s (h.rowOld j s hrow)
  deferred := by rw [h'.deferred, h.deferred, List.append_assoc]
  units := h'.units.trans h.units
  fresh item hitem := by
    rcases List.mem_append.mp hitem with hitem | hitem
    · exact h.fresh item hitem
    · exact h.grows.trans (h'.fresh item hitem)
  grows := h.grows.trans h'.grows
  labels origins waiting hlabelled := by
    rw [← List.append_assoc, ← List.append_assoc]
    exact h'.labels _ _ (h.labels _ _ hlabelled)

theorem Gains.draws (h : Gains r p p' o row later) (admits : r.Admits o) : Draws r p p' [o] later where
  rowOld _ _ hrow := h.row_old hrow
  deferred := h.deferred
  units := h.units
  fresh _ hitem := Nat.le_of_eq (h.later_row hitem).symm
  grows := by
    rw [h.size_eq]
    exact Nat.le_succ _
  labels _ _ hlabelled := hlabelled.add h admits

end Progress

variable {r : Rules} {p p' : Progress} {name label : String} {declared : Ty} {value : Option Value}

/-! ### Several values -/

namespace Rules

/-- A value has one row where it gets one. -/
theorem addRowFor_draws {result : Option Nat × Progress}
    (h : r.addRowFor p name label declared value = .ok result) : ∃ later,
      Draws r p result.2 (if r.keeps declared value then [.part name declared value] else []) later ∧
      result.1.isSome = r.keeps declared value := by
  rcases addRowFor_cases h with ⟨hkeeps, rfl⟩ | ⟨hkeeps, treatment, added, htreated, hadd, rfl⟩
  · rw [hkeeps]
    exact ⟨[], .refl r p, rfl⟩
  · obtain ⟨-, row, later, hgains⟩ := addTreated_gains htreated hadd
    rw [hkeeps]
    exact ⟨later, hgains.draws ⟨⟨treatment, htreated⟩, hkeeps⟩, rfl⟩

/-- Values have rows in their order, but for those that get none. -/
theorem addAll_draws {all : List Candidate} {result : Nat × Progress} (h : r.addAll p all = .ok result) :
    ∃ kept later, kept = all.filter (fun c => r.keeps c.declared (some c.value)) ∧
      Draws r p result.2 (kept.map fun c => .part c.name c.declared (some c.value)) later ∧
      result.1 = kept.length := by
  induction all generalizing p result with
  | nil =>
    cases h
    exact ⟨[], [], rfl, .refl r p, rfl⟩
  | cons c rest ih =>
    unfold addAll at h
    simp only [bind_eq_ok, pure_eq_ok] at h
    obtain ⟨first, hfirst, others, hothers, rfl⟩ := h
    obtain ⟨later, hdraws, hsome⟩ := addRowFor_draws hfirst
    obtain ⟨kept, later', rfl, hdraws', hcount⟩ := ih hothers
    refine ⟨_, later ++ later', rfl, ?_⟩
    cases hkeeps : r.keeps c.declared (some c.value) with
    | false =>
      rw [hkeeps] at hdraws hsome
      rw [List.filter_cons_of_neg (by simp [hkeeps]), hsome, hcount]
      exact ⟨hdraws.trans hdraws', Nat.zero_add _⟩
    | true =>
      rw [hkeeps] at hdraws hsome
      rw [List.filter_cons_of_pos (by simp [hkeeps]), hsome, hcount]
      exact ⟨hdraws.trans hdraws', Nat.add_comm _ _⟩

theorem addElements_draws {items : List (String × Value)} {result : Nat × Progress}
    (h : r.addElements declared p items = .ok result) : ∃ kept later,
      kept = (items.map (·.2)).filter (fun item => r.keeps declared (some item)) ∧
      Draws r p result.2 (kept.map fun item => .element declared (some item)) later ∧
      result.1 = kept.length := by
  rw [addElements_eq] at h
  obtain ⟨_, later, rfl, hdraws, hcount⟩ := addAll_draws h
  rw [List.filter_map, List.map_map] at hdraws
  rw [List.filter_map] at hcount
  refine ⟨_, later, rfl, ?_, ?_⟩
  · rw [List.filter_map, List.map_map]
    exact hdraws
  · rw [List.filter_map, List.length_map, hcount, List.length_map]
    rfl

theorem addFields_draws {typeName : String} {fields : List Field} {result : Nat × Progress}
    (h : r.addFields typeName p fields = .ok result) : ∃ kept later,
      kept = fields.filter (fun field => r.keeps field.ty (some field.value)) ∧
      Draws r p result.2 (kept.map (.field r)) later ∧ result.1 = kept.length := by
  rw [addFields_eq] at h
  obtain ⟨_, later, rfl, hdraws, hcount⟩ := addAll_draws h
  rw [List.filter_map, List.map_map] at hdraws
  refine ⟨_, later, rfl, hdraws, ?_⟩
  rw [hcount, List.filter_map, List.length_map]
  rfl

theorem map_labelled {α : Type} (label : String) (items : List α) :
    (labelled label items).map (·.2) = items := by
  rw [labelled, List.map_map]
  exact List.zipIdx_map_fst 0 items

/-- Fields become rows in the order that is asked for. -/
theorem orderFields_inOrder (r : Rules) (fields : List Field) :
    InOrder r.order fields (r.orderFields fields) := by
  unfold InOrder orderFields
  cases r.order with
  | declaration => rfl
  | typeName =>
    refine ⟨Sorting.sortBy_perm _ _, ?_, fun text => Sorting.filter_sortBy ?_ fields⟩
    · refine (Sorting.sortBy_pairwise ?_ ?_ fields).imp of_decide_eq_true
      · intro a b
        simpa using String.le_total a.ty.text b.ty.text
      · intro a b c hab hbc
        exact decide_eq_true (String.le_trans (of_decide_eq_true hab) (of_decide_eq_true hbc))
    · intro a b ha hb
      rw [of_decide_eq_true ha, of_decide_eq_true hb]
      exact decide_eq_true (String.le_refl text)

/-- An entry is left out where one of its halves would be. -/
theorem keepEntries_filter {key val : Ty} {entries kept : List (String × Value × Value)}
    (h : r.keepEntries key val entries = .ok kept) : kept.map (·.2) =
      (entries.map (·.2)).filter (fun entry => r.keeps key (some entry.1) && r.keeps val (some entry.2)) := by
  induction entries generalizing kept with
  | nil =>
    cases h
    rfl
  | cons entry entries ih =>
    rw [List.map_cons, List.filter_cons]
    rcases keepEntries_cons h with ⟨others, hkey, hval, hothers, rfl⟩ | ⟨hkeeps, hrest⟩
    · have husable : r.usable key (some entry.2.1) = true := usable_of_supports hkey
      have husable' : r.usable val (some entry.2.2) = true := usable_of_supports hval
      have hkept : (r.keeps key (some entry.2.1) && r.keeps val (some entry.2.2)) = true := by
        rw [keeps_of_usable husable, keeps_of_usable husable', Bool.and_self]
      rw [if_pos hkept, List.map_cons, ih hothers]
    · rw [if_neg (Bool.eq_false_iff.mp hkeeps), ih hrest]

end Rules

/-! ### Depth

The parts of a value are nested less deeply than the value. -/

namespace Origin

/-- How deep what a row stands for is nested, by its declared type and its value. -/
def weight : Origin → Nat
  | .unit u => (Value.dataUnit u).depth
  | .root u => (Value.object u.root).depth
  | .part _ declared value => declared.depth + value.elim 0 Value.depth

theorem depth_le_weight {o : Origin} {v : Value} (value : o.value = some v) : v.depth ≤ o.weight := by
  cases o with
  | unit u =>
    cases value
    exact Nat.le_refl _
  | root u =>
    cases value
    exact Nat.le_refl _
  | part name declared value' =>
    obtain rfl : value' = some v := value
    exact Nat.le_add_left _ _

theorem field_lighter {o : Origin} {object : Object} {field : Field}
    (value : o.value = some (.object object)) (hfield : field ∈ object.fields) :
    (Origin.field r field).weight < o.weight := by
  have hdepth : ∀ fields : List Field, field ∈ fields →
      field.ty.depth + field.value.depth ≤ Value.fieldsDepth fields := by
    intro fields hmem
    induction fields with
    | nil => cases hmem
    | cons first rest ih =>
      rw [Value.fieldsDepth]
      rcases List.mem_cons.mp hmem with rfl | hmem
      · cases field
        exact Nat.le_max_left _ _
      · exact (ih hmem).trans (Nat.le_max_right _ _)
  have hlt : field.ty.depth + field.value.depth < (Value.object object).depth := by
    cases object
    exact Nat.lt_succ_of_le (hdepth _ hfield)
  exact Nat.lt_of_lt_of_le hlt (depth_le_weight value)

theorem depth_strip_le (ty : Ty) : ty.strip.depth ≤ ty.depth := by
  induction ty with
  | nullable inner ih => exact ih.trans (Nat.le_succ _)
  | _ => exact Nat.le_refl _

theorem depth_element?_lt {ty element : Ty} (h : ty.strip.element? = some element) :
    element.depth < ty.depth := by
  refine Nat.lt_of_lt_of_le ?_ (depth_strip_le ty)
  cases hstrip : ty.strip <;> rw [hstrip] at h <;> cases h <;> exact Nat.lt_succ_self _

theorem depth_entry?_lt {ty key val : Ty} (h : ty.strip.entry? = some (key, val)) :
    key.depth < ty.depth ∧ val.depth < ty.depth := by
  have hstrip := depth_strip_le ty
  cases hform : ty.strip <;> rw [hform] at h hstrip <;> cases h
  have hkey := Nat.le_max_left key.depth val.depth
  have hval := Nat.le_max_right key.depth val.depth
  rw [Ty.depth] at hstrip
  omega

theorem depth_elementType_le (ty : Ty) : (Rules.elementType ty).depth ≤ ty.depth := by
  unfold Rules.elementType
  cases h : ty.strip.element? with
  | none => exact Nat.zero_le _
  | some element => exact Nat.le_of_lt (depth_element?_lt h)

theorem depth_entryTypes_le (ty : Ty) : (Rules.entryTypes ty).1.depth ≤ ty.depth ∧
    (Rules.entryTypes ty).2.depth ≤ ty.depth := by
  unfold Rules.entryTypes
  cases h : ty.strip.entry? with
  | none => exact ⟨Nat.zero_le _, Nat.zero_le _⟩
  | some entry =>
    obtain ⟨key, val⟩ := entry
    obtain ⟨hkey, hval⟩ := depth_entry?_lt h
    exact ⟨Nat.le_of_lt hkey, Nat.le_of_lt hval⟩

theorem depth_item_le {items : List Value} {item : Value} (h : item ∈ items) :
    item.depth ≤ Value.itemsDepth items := by
  induction items with
  | nil => cases h
  | cons first rest ih =>
    rw [Value.itemsDepth]
    rcases List.mem_cons.mp h with rfl | h
    · exact Nat.le_max_left _ _
    · exact (ih h).trans (Nat.le_max_right _ _)

theorem depth_entry_le {entries : List (Value × Value)} {entry : Value × Value} (h : entry ∈ entries) :
    entry.1.depth ≤ Value.entriesDepth entries ∧ entry.2.depth ≤ Value.entriesDepth entries := by
  induction entries with
  | nil => cases h
  | cons first rest ih =>
    rw [Value.entriesDepth]
    rcases List.mem_cons.mp h with rfl | h
    · have hle := Nat.le_max_left (Value.entryDepth entry) (Value.entriesDepth rest)
      rw [Value.entryDepth] at hle ⊢
      omega
    · have hle := ih h
      omega

theorem item_lighter {name : String} {declared : Ty} {items : List Value} {item : Value}
    (h : item ∈ items) : (Origin.element (Rules.elementType declared) (some item)).weight <
      (Origin.part name declared (some (.sequence items))).weight := by
  have htype := depth_elementType_le declared
  have hitem := depth_item_le h
  show (Rules.elementType declared).depth + item.depth < declared.depth + (Value.itemsDepth items + 1)
  omega

theorem entry_lighter {name : String} {declared : Ty} {entries : List (Value × Value)}
    {entry : Value × Value} (h : entry ∈ entries) :
    (Origin.element (Rules.entryTypes declared).1 (some entry.1)).weight <
        (Origin.part name declared (some (.dictionary entries))).weight ∧
      (Origin.element (Rules.entryTypes declared).2 (some entry.2)).weight <
        (Origin.part name declared (some (.dictionary entries))).weight := by
  obtain ⟨hkey, hval⟩ := depth_entryTypes_le declared
  obtain ⟨hfirst, hsecond⟩ := depth_entry_le h
  constructor
  · show (Rules.entryTypes declared).1.depth + entry.1.depth <
      declared.depth + (Value.entriesDepth entries + 1)
    omega
  · show (Rules.entryTypes declared).2.depth + entry.2.depth <
      declared.depth + (Value.entriesDepth entries + 1)
    omega

/-- An element that is only declared. -/
theorem declared_lighter {name : String} {declared element : Ty} {value : Option Value}
    (h : element.depth < declared.depth) :
    (Origin.element element none).weight < (Origin.part name declared value).weight := by
  show element.depth + 0 < declared.depth + value.elim 0 Value.depth
  omega

theorem root_lighter {o : Origin} {unit : DataUnit} (value : o.value = some (.dataUnit unit)) :
    (Origin.root unit).weight < o.weight := by
  refine Nat.lt_of_lt_of_le ?_ (depth_le_weight value)
  cases unit
  exact Nat.lt_succ_self _

/-- Whether something is a part of what a row stands for. -/
inductive Part : Origin → Origin → Prop
  | field {o : Origin} {name : String} {object : Object} {field : Field}
      (value : o.value = some (.object object)) (mem : field ∈ object.fields) :
    Part o (.part name field.ty (some field.value))
  | item {name name' : String} {declared : Ty} {items : List Value} {item : Value} (mem : item ∈ items) :
    Part (.part name declared (some (.sequence items)))
      (.part name' (Rules.elementType declared) (some item))
  | noItem {name name' : String} {declared element : Ty} {value : Option Value}
      (declares : declared.strip.element? = some element) :
    Part (.part name declared value) (.part name' element none)
  | key {name name' : String} {declared : Ty} {entries : List (Value × Value)} {entry : Value × Value}
      (mem : entry ∈ entries) :
    Part (.part name declared (some (.dictionary entries)))
      (.part name' (Rules.entryTypes declared).1 (some entry.1))
  | val {name name' : String} {declared : Ty} {entries : List (Value × Value)} {entry : Value × Value}
      (mem : entry ∈ entries) :
    Part (.part name declared (some (.dictionary entries)))
      (.part name' (Rules.entryTypes declared).2 (some entry.2))
  | noKey {name name' : String} {declared key val : Ty} {value : Option Value}
      (declares : declared.strip.entry? = some (key, val)) :
    Part (.part name declared value) (.part name' key none)
  | noVal {name name' : String} {declared key val : Ty} {value : Option Value}
      (declares : declared.strip.entry? = some (key, val)) :
    Part (.part name declared value) (.part name' val none)
  | root {o : Origin} {unit : DataUnit} (value : o.value = some (.dataUnit unit)) : Part o (.root unit)

/-- Parts are nested less deeply. -/
theorem Part.lighter {o part : Origin} (h : o.Part part) : part.weight < o.weight := by
  cases h with
  | field value mem => exact field_lighter (r := ⟨.standard, .skip, .declaration, ""⟩) value mem
  | item mem => exact item_lighter mem
  | noItem declares => exact declared_lighter (depth_element?_lt declares)
  | key mem => exact (entry_lighter mem).1
  | val mem => exact (entry_lighter mem).2
  | noKey declares => exact declared_lighter (depth_entry?_lt declares).1
  | noVal declares => exact declared_lighter (depth_entry?_lt declares).2
  | root value => exact root_lighter value

end Origin

/-! ### Turns -/

namespace Progress

variable {o : Origin} {row row' : Row} {origins new : List Origin} {p₁ : Progress} {item : Deferred}
  {waiting later : List Deferred} {i : Nat}

/-- Whether the turn of a value has come: its parts have got rows, and its row shows it. -/
def Turned (r : Rules) (p p' : Progress) (origins : List Origin) (item : Deferred)
    (waiting : List Deferred) : Prop :=
  ∃ new later, p'.deferred = p.deferred ++ later ∧
    Labelled r p' (origins ++ new) (waiting ++ later) ∧ (∀ other ∈ later, p.size ≤ other.row) ∧
    ∀ o, origins[item.row]? = some o → ∀ part ∈ new, o.Part part

theorem Labelled.prefix_drop (h : Labelled r p origins waiting) (new : List Origin) :
    new <+: (origins ++ new).drop p.size :=
  (List.drop_left' h.length).symm ▸ List.prefix_refl new

theorem named_changes (hrow : p.model.row i = .ok row) (typeName : row.typeName = none)
    (base : Option String) :
    p.model.Changes (p.named i base).model i { row with typeName := base } := by
  cases base with
  | none =>
    obtain ⟨kind, name, typeName', start, count, value⟩ := row
    obtain rfl : typeName' = none := typeName
    exact Model.changes_self hrow
  | some base => exact Model.setTypeName_changes hrow base

theorem named_changes_setRange (hrow : p.model.row i = .ok row) (typeName : row.typeName = none)
    (base : Option String) (start count : Nat) :
    p.model.Changes ((p.named i base).setRange i start count).model i
      { row with typeName := base, start := some start, count := count } := by
  have hchanges := named_changes hrow typeName base
  refine hchanges.trans ?_
  exact Model.modify_changes (hchanges.row_self (Model.lt_size_of_row hrow))
    ({ · with start := some start, count := count })

/-- The rows of the parts of a value are there, and its row is made to show it. -/
theorem Draws.turned (draws : Draws r p p₁ new later) (h : Labelled r p origins (item :: waiting))
    (kind : item.kind ≠ .dataUnit) (ho : origins[item.row]? = some o)
    (changes : p₁.model.Changes p'.model item.row row') (value : row'.value = .present)
    (shows : Shows r r.keeps p₁.model.texts (origins ++ new) o row')
    (others : p'.deferred = p₁.deferred ∧ p'.units = p₁.units)
    (parts : ∀ part ∈ new, o.Part part) : Turned r p p' origins item waiting := by
  have hlabels := draws.labels _ _ h
  refine ⟨new, later, others.1.trans draws.deferred, ?_, draws.fresh, fun o' ho' => ?_⟩
  · refine hlabels.settle_plain changes kind value (fun o' ho' => ?_) others.2
    rw [List.getElem?_append_left (List.getElem?_eq_some_iff.mp ho).1, ho] at ho'
    exact Option.some.inj ho' ▸ shows
  · rw [ho] at ho'
    exact Option.some.inj ho' ▸ parts

end Progress

namespace Rules

variable {origins : List Origin} {waiting : List Deferred} {i : Nat}

/-- The turn of an object. -/
theorem addObjectFields_turned {object : Object} (h : Labelled r p origins (.object i object :: waiting))
    (step : r.addObjectFields p i object = .ok p') : Turned r p p' origins (.object i object) waiting := by
  obtain ⟨o, row, ho, hrow, hfor⟩ := h.waits _ List.mem_cons_self
  unfold addObjectFields at step
  simp only [bind_eq_ok, pure_eq_ok] at step
  obtain ⟨⟨count, p₁⟩, hfields, rfl⟩ := step
  obtain ⟨kept, later, hkept, hdraws, rfl⟩ := addFields_draws hfields
  cases hfor with
  | object treated value =>
    refine hdraws.turned h Kind.noConfusion ho
      (Model.modify_changes (hdraws.rowOld _ _ hrow) ({ · with start := some p.size, count := kept.length }))
      rfl (.object treated value (r.orderFields_inOrder object.fields) hkept (h.prefix_drop _)) ⟨rfl, rfl⟩ ?_
    intro part hpart
    obtain ⟨field, hfield, rfl⟩ := List.mem_map.mp hpart
    refine .field value ?_
    rw [hkept] at hfield
    exact (r.orderFields_inOrder object.fields).mem_iff.mp (List.mem_filter.mp hfield).1

/-- The turn of a sequence. -/
theorem addSequence_turned {items : List Value} {element : Option Ty}
    (h : Labelled r p origins (.sequence i label items element :: waiting))
    (step : r.addSequence p i label items element = .ok p') :
    Turned r p p' origins (.sequence i label items element) waiting := by
  obtain ⟨o, row, ho, hrow, hfor⟩ := h.waits _ List.mem_cons_self
  have hadmits := h.admits o (List.mem_of_getElem? ho)
  cases hfor with
  | @sequence name _ declared value _ _ treated is =>
    unfold addSequence at step
    dsimp only at step
    split at step
    · rename_i hempty
      obtain rfl := List.isEmpty_iff.mp hempty
      have hempty' : value = some (.sequence []) ∨ isAbsent value = true := is.imp id And.right
      split at step
      · exact absurd step throw_ne_ok
      · rename_i element hdeclares
        simp only [bind_eq_ok, pure_eq_ok] at step
        obtain ⟨⟨added, p₁⟩, hadd, rfl⟩ := step
        obtain ⟨later, hdraws, hsome⟩ := addRowFor_draws hadd
        -- What the sequence declares is usable since the sequence is.
        rw [← keeps_empty_sequence treated hempty' hdeclares, hadmits.2] at hdraws hsome
        rw [if_pos hsome]
        refine hdraws.turned h Kind.noConfusion ho
          (Model.modify_changes (hdraws.rowOld _ _ hrow) ({ · with start := some p.size, count := 0 })) rfl
          (.noElements treated hempty' hdeclares (h.prefix_drop _)) ⟨rfl, rfl⟩ ?_
        intro part hpart
        rw [List.mem_singleton.mp hpart]
        exact .noItem hdeclares
    · rename_i hitems
      obtain rfl : value = some (.sequence items) := is.resolve_right fun hnone => hitems (by
        rw [hnone.1]
        rfl)
      simp only [bind_eq_ok, pure_eq_ok] at step
      obtain ⟨⟨count, p₁⟩, hadd, base, hbase, rfl⟩ := step
      obtain ⟨kept, later, hkept, hdraws, rfl⟩ := addElements_draws hadd
      rw [map_labelled] at hkept
      have hsome : kept ≠ [] := by
        obtain ⟨item, hitem, hkeeps⟩ := exists_kept_item treated (fun hnil => hitems (by rw [hnil]; rfl))
          hadmits.2
        refine List.ne_nil_of_mem (a := item) ?_
        rw [hkept]
        exact List.mem_filter.mpr ⟨hitem, hkeeps⟩
      have hrows := (hdraws.labels _ _ h).rowsFrom_tell (h.prefix_drop _)
      have hself := hdraws.rowOld _ _ hrow
      rw [if_neg fun hzero => hsome (List.length_eq_zero_iff.mp hzero)]
      refine hdraws.turned h Kind.noConfusion ho (named_changes_setRange hself rfl base p.size kept.length)
        rfl (.sequence treated hkept hsome (checkHomogeneous_bears hrows hbase) (h.prefix_drop _))
        (named_others base) ?_
      intro part hpart
      obtain ⟨item, hitem, rfl⟩ := List.mem_map.mp hpart
      rw [hkept] at hitem
      exact .item (List.mem_filter.mp hitem).1

/-- The rows of the entries of a dictionary: the keys, then the values. -/
theorem addElements_entries {p₁ p₂ : Progress} {n n' : Nat} {key val : Ty}
    {kept : List (String × Value × Value)}
    (keeps : ∀ entry ∈ kept.map (·.2), r.keeps key (some entry.1) = true ∧
      r.keeps val (some entry.2) = true)
    (keys : r.addElements key p (kept.map fun (label, k, _) => (label, k)) = .ok (n, p₁))
    (values : r.addElements val p₁ (kept.map fun (label, _, v) => (label, v)) = .ok (n', p₂)) :
    ∃ later, Draws r p p₂ ((kept.map (·.2)).map (fun entry => .element key (some entry.1)) ++
        (kept.map (·.2)).map (fun entry => .element val (some entry.2))) later ∧
      ∀ origins waiting, Labelled r p origins waiting →
        List.Forall₂ Tells (p₂.rowsFrom (p.size + (kept.map (·.2)).length) (kept.map (·.2)).length)
          ((kept.map (·.2)).map (·.2)) := by
  obtain ⟨keptKeys, later, hkeys, hdraws, -⟩ := addElements_draws keys
  obtain ⟨keptValues, later', hvalues, hdraws', -⟩ := addElements_draws values
  have hkeys' : keptKeys = (kept.map (·.2)).map (·.1) := by
    rw [hkeys, List.map_map, List.map_map]
    refine List.filter_eq_self.mpr fun k hk => ?_
    obtain ⟨entry, hentry, rfl⟩ := List.mem_map.mp hk
    exact (keeps _ (List.mem_map_of_mem hentry)).1
  have hvalues' : keptValues = (kept.map (·.2)).map (·.2) := by
    rw [hvalues, List.map_map, List.map_map]
    refine List.filter_eq_self.mpr fun v hv => ?_
    obtain ⟨entry, hentry, rfl⟩ := List.mem_map.mp hv
    exact (keeps _ (List.mem_map_of_mem hentry)).2
  generalize kept.map (·.2) = pairs at hkeys' hvalues'
  rw [hkeys', List.map_map] at hdraws
  rw [hvalues'] at hdraws'
  refine ⟨later ++ later', ?_, fun origins waiting h => ?_⟩
  · have hboth := hdraws.trans hdraws'
    rw [List.map_map] at hboth
    exact hboth
  · have hlabels := hdraws.labels _ _ h
    have hsize : p.size + pairs.length = p₁.size := by
      have hlength := hlabels.length
      rw [List.length_append, List.length_map, h.length] at hlength
      exact hlength
    have htell := (hdraws'.labels _ _ hlabels).rowsFrom_tell (hlabels.prefix_drop _)
    rw [List.length_map, ← hsize] at htell
    exact htell

/-- The turn of a dictionary. -/
theorem addEntries_turned {entries : List (Value × Value)} {key val : Option Ty}
    (h : Labelled r p origins (.dictionary i label entries key val :: waiting))
    (step : r.addEntries p i label entries key val = .ok p') :
    Turned r p p' origins (.dictionary i label entries key val) waiting := by
  obtain ⟨o, row, ho, hrow, hfor⟩ := h.waits _ List.mem_cons_self
  have hadmits := h.admits o (List.mem_of_getElem? ho)
  cases hfor with
  | @dictionary name _ declared value _ _ treated is =>
    unfold addEntries at step
    dsimp only at step
    split at step
    · rename_i hempty
      obtain rfl := List.isEmpty_iff.mp hempty
      have hempty' : value = some (.dictionary []) ∨ isAbsent value = true := is.imp id And.right
      cases hdeclares : declared.strip.entry? with
      | none =>
        rw [hdeclares] at step
        exact absurd step throw_ne_ok
      | some types =>
        obtain ⟨key, val⟩ := types
        rw [hdeclares] at step h
        simp only [Option.map_some, bind_eq_ok, pure_eq_ok] at step
        obtain ⟨⟨k, p₁⟩, hkey, ⟨v, p₂⟩, hval, rfl⟩ := step
        obtain ⟨later, hdraws, hsome⟩ := addRowFor_draws hkey
        obtain ⟨later', hdraws', hsome'⟩ := addRowFor_draws hval
        -- What the dictionary declares is usable since the dictionary is.
        have hkeeps := hadmits.2
        rw [keeps_empty_dictionary treated hempty' hdeclares, Bool.and_eq_true] at hkeeps
        rw [hkeeps.1] at hdraws hsome
        rw [hkeeps.2] at hdraws' hsome'
        have hboth := hdraws.trans hdraws'
        rw [if_pos ⟨hsome, hsome'⟩]
        refine hboth.turned h Kind.noConfusion ho
          (Model.modify_changes (hboth.rowOld _ _ hrow) ({ · with start := some p.size, count := 0 })) rfl
          (.noEntries treated hempty' hdeclares (h.prefix_drop _)) ⟨rfl, rfl⟩ ?_
        intro part hpart
        rcases List.mem_cons.mp hpart with rfl | hpart
        · exact .noKey hdeclares
        · rw [List.mem_singleton.mp hpart]
          exact .noVal hdeclares
    · rename_i hentries
      obtain rfl : value = some (.dictionary entries) := is.resolve_right fun hnone => hentries (by
        rw [hnone.1]
        rfl)
      simp only [bind_eq_ok, pure_eq_ok] at step
      obtain ⟨entries', hentries', ⟨keys, p₁⟩, hkeys, ⟨values, p₂⟩, hvalues, -, -, base, hbase, rfl⟩ := step
      have hkept := keepEntries_filter hentries'
      rw [map_labelled] at hkept
      have hkeeps : ∀ entry ∈ entries'.map (·.2), r.keeps (entryTypes declared).1 (some entry.1) = true ∧
          r.keeps (entryTypes declared).2 (some entry.2) = true := by
        intro entry hentry
        rw [hkept] at hentry
        exact Bool.and_eq_true_iff.mp (List.mem_filter.mp hentry).2
      obtain ⟨later, hdraws, htell⟩ := addElements_entries hkeeps hkeys hvalues
      have hlength : entries'.length = (entries'.map (·.2)).length := (List.length_map _).symm
      rw [hlength] at hbase ⊢
      generalize entries'.map (·.2) = kept at hkept hbase hdraws htell hkeeps
      have hsome : kept ≠ [] := by
        obtain ⟨entry, hentry, hboth⟩ := exists_kept_entry treated
          (fun hnil => hentries (by rw [hnil]; rfl)) hadmits.2
        refine List.ne_nil_of_mem (a := entry) ?_
        rw [hkept]
        exact List.mem_filter.mpr ⟨hentry, Bool.and_eq_true_iff.mpr hboth⟩
      have hself := hdraws.rowOld _ _ hrow
      rw [if_neg fun hzero => hsome (List.length_eq_zero_iff.mp hzero)]
      refine hdraws.turned h Kind.noConfusion ho (named_changes_setRange hself rfl base p.size kept.length)
        rfl (.dictionary treated rfl hkept hsome (checkHomogeneous_bears (htell _ _ h) hbase)
          (h.prefix_drop _)) (named_others base) ?_
      have hmem : ∀ entry ∈ kept, entry ∈ entries := by
        intro entry hentry
        rw [hkept] at hentry
        exact (List.mem_filter.mp hentry).1
      intro part hpart
      rcases List.mem_append.mp hpart with hpart | hpart
      · obtain ⟨entry, hentry, rfl⟩ := List.mem_map.mp hpart
        exact .key (hmem entry hentry)
      · obtain ⟨entry, hentry, rfl⟩ := List.mem_map.mp hpart
        exact .val (hmem entry hentry)

end Rules

end ObjectPack.Walk
