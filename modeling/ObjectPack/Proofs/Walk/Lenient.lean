import ObjectPack.Proofs.Walk.Faithful
import ObjectPack.Proofs.Walk.Shift

/-!
# Strict and lenient walks

Where unsupported values are left out, a walk looks into every collection before it adds its row, since a
collection without a usable part would own no rows; where they are errors it does not.  A graph that a strict
walk gets through a lenient one gets through as well, with the same model (`Walk.Rules.walk_lenient`).

A lenient walk does what a strict one does as long as it meets usable values only
(`Walk.Rules.addParts_lenient`).  That they are usable a strict walk knows last of all: it puts a collection
off, and finds out in a later turn whether its parts get rows.  What has been put off by a turn tells whether
the parts that the turn has dealt with are usable (`Walk.Progress.PutsOff`), so all of them are usable in the
end, when nothing waits any more.
-/

namespace ObjectPack.Walk

open Outcome Progress

variable {r : Rules} {o : Origin} {row : Row} {item : Deferred} {declared : Ty} {value : Option Value}

/-! ### Parts -/

/-- Whether something yields a row where unsupported values are left out; what has no declared type does. -/
def Origin.Usable (r : Rules) : Origin → Prop
  | .part _ declared value => r.usable declared value = true
  | _ => True

/-- The parts of a value that waits; an empty collection has those that it declares. -/
def Deferred.parts (r : Rules) : Deferred → List Origin
  | .object _ o => o.fields.map (.field r)
  | .sequence _ _ [] element => element.toList.map (.element · none)
  | .sequence _ _ items element => items.map fun item => .element (element.getD .unknown) (some item)
  | .dictionary _ _ [] (some key) (some val) => [.element key none, .element val none]
  | .dictionary _ _ entries key val =>
    entries.map (fun entry => .element (key.getD .unknown) (some entry.1)) ++
      entries.map fun entry => .element (val.getD .unknown) (some entry.2)
  | .dataUnit _ unit => [.root unit]

namespace Deferred

/-- The parts of a value that waits are those of what its row stands for. -/
theorem IsFor.part {part : Origin} (h : item.IsFor r o row) (hpart : part ∈ item.parts r) : o.Part part := by
  cases h with
  | object _ value =>
    obtain ⟨field, hfield, rfl⟩ := List.mem_map.mp hpart
    exact .field value hfield
  | @sequence _ _ declared value items _ _ is =>
    cases items with
    | nil =>
      obtain ⟨element, helement, rfl⟩ := List.mem_map.mp hpart
      exact .noItem (Option.mem_toList.mp helement)
    | cons first rest =>
      obtain rfl := is.resolve_right fun hnone => List.cons_ne_nil _ _ hnone.1
      obtain ⟨item, hitem, rfl⟩ := List.mem_map.mp hpart
      exact .item hitem
  | @dictionary _ _ declared value entries _ _ is =>
    cases entries with
    | nil =>
      cases hdeclares : declared.strip.entry? with
      | none =>
        rw [hdeclares] at hpart
        cases hpart
      | some types =>
        rw [hdeclares] at hpart
        rcases List.mem_cons.mp hpart with rfl | hpart
        · exact .noKey hdeclares
        · rw [List.mem_singleton.mp hpart]
          exact .noVal hdeclares
    | cons first rest =>
      obtain rfl := is.resolve_right fun hnone => List.cons_ne_nil _ _ hnone.1
      rcases List.mem_append.mp hpart with hpart | hpart
      · obtain ⟨entry, hentry, rfl⟩ := List.mem_map.mp hpart
        exact .key hentry
      · obtain ⟨entry, hentry, rfl⟩ := List.mem_map.mp hpart
        exact .val hentry
  | dataUnit _ value =>
    rw [List.mem_singleton.mp hpart]
    exact .root value

/-- A value is usable if all parts are that its turn gives rows. -/
theorem IsFor.usable (h : item.IsFor r o row) (parts : ∀ part ∈ item.parts r, part.Usable r) : o.Usable r := by
  cases h with
  | object treated _ | dataUnit treated _ =>
    cases o with
    | part name declared value =>
      exact Rules.usable_of_treatmentOf treated Treatment.noConfusion Treatment.noConfusion
    | _ => trivial
  | @sequence _ _ declared value items _ treated is =>
    cases items with
    | nil =>
      have hempty := is.imp id And.right
      cases hdeclares : declared.strip.element? with
      | none => exact Rules.usable_untyped_sequence treated hempty hdeclares
      | some element =>
        refine (Rules.usable_empty_sequence treated hempty hdeclares).trans ?_
        refine parts (.element element none) ?_
        rw [hdeclares]
        exact List.mem_singleton_self _
    | cons first rest =>
      obtain rfl := is.resolve_right fun hnone => List.cons_ne_nil _ _ hnone.1
      exact Rules.usable_sequence treated (parts _ List.mem_cons_self)
  | @dictionary _ _ declared value entries _ treated is =>
    cases entries with
    | nil =>
      have hempty := is.imp id And.right
      cases hdeclares : declared.strip.entry? with
      | none => exact Rules.usable_untyped_dictionary treated hempty hdeclares
      | some types =>
        obtain ⟨key, val⟩ := types
        rw [hdeclares] at parts
        refine (Rules.usable_empty_dictionary treated hempty hdeclares).trans (Bool.and_eq_true_iff.mpr ?_)
        exact ⟨parts (.element key none) List.mem_cons_self,
          parts (.element val none) (List.mem_cons_of_mem _ List.mem_cons_self)⟩
    | cons first rest =>
      obtain rfl := is.resolve_right fun hnone => List.cons_ne_nil _ _ hnone.1
      refine Rules.usable_dictionary treated (Bool.and_eq_true_iff.mpr ⟨?_, ?_⟩)
      · exact parts _ (List.mem_append_left _ List.mem_cons_self)
      · exact parts _ (List.mem_append_right _ List.mem_cons_self)

end Deferred

/-! ### What is put off -/

namespace Progress

variable {p p' p'' : Progress} {new new' : List Origin} {later later' : List Deferred}

/-- What a walk has put off while it has dealt with some values: it is nested less deeply than they are, and if
all of its parts are usable, so are the values. -/
structure PutsOff (r : Rules) (p p' : Progress) (new : List Origin) (later : List Deferred) : Prop where
  deferred : p'.deferred = p.deferred ++ later
  lighter : ∀ item ∈ later, ∃ o ∈ new, ∀ part ∈ item.parts r, part.weight < o.weight
  usable : (∀ item ∈ later, ∀ part ∈ item.parts r, part.Usable r) → ∀ o ∈ new, o.Usable r

theorem PutsOff.refl (r : Rules) (p : Progress) : PutsOff r p p [] [] where
  deferred := (List.append_nil _).symm
  lighter _ hitem := absurd hitem List.not_mem_nil
  usable _ _ ho := absurd ho List.not_mem_nil

theorem PutsOff.trans (h : PutsOff r p p' new later) (h' : PutsOff r p' p'' new' later') :
    PutsOff r p p'' (new ++ new') (later ++ later') where
  deferred := by rw [h'.deferred, h.deferred, List.append_assoc]
  lighter item hitem := by
    rcases List.mem_append.mp hitem with hitem | hitem
    · obtain ⟨o, ho, hparts⟩ := h.lighter item hitem
      exact ⟨o, List.mem_append_left _ ho, hparts⟩
    · obtain ⟨o, ho, hparts⟩ := h'.lighter item hitem
      exact ⟨o, List.mem_append_right _ ho, hparts⟩
  usable parts o ho := by
    rcases List.mem_append.mp ho with ho | ho
    · exact h.usable (fun item hitem => parts item (List.mem_append_left _ hitem)) o ho
    · exact h'.usable (fun item hitem => parts item (List.mem_append_right _ hitem)) o ho

/-- Settling a row puts nothing off. -/
theorem PutsOff.of_eq (h : PutsOff r p p' new later) (deferred : p''.deferred = p'.deferred) :
    PutsOff r p p'' new later :=
  ⟨deferred.trans h.deferred, h.lighter, h.usable⟩

/-- The order of the values makes no difference. -/
theorem PutsOff.of_mem_iff (h : PutsOff r p p' new later) (same : ∀ o, o ∈ new ↔ o ∈ new') :
    PutsOff r p p' new' later where
  deferred := h.deferred
  lighter item hitem := by
    obtain ⟨o, ho, hparts⟩ := h.lighter item hitem
    exact ⟨o, (same o).mp ho, hparts⟩
  usable parts o ho := h.usable parts o ((same o).mpr ho)

/-- A value that gets its row says itself whether it is usable, unless it is put off. -/
theorem Gains.putsOff (h : Gains r p p' o row later) : PutsOff r p p' [o] later := by
  rcases h.drawn with ⟨rfl, hplain⟩ | ⟨item, rfl, -, hfor⟩
  · refine ⟨h.deferred, fun _ hitem => absurd hitem List.not_mem_nil, fun _ o' ho' => ?_⟩
    rw [List.mem_singleton.mp ho']
    cases o with
    | part name declared value =>
      obtain ⟨t, treated, harray, hdictionary⟩ := hplain.treated
      exact Rules.usable_of_treatmentOf treated harray hdictionary
    | _ => trivial
  · refine ⟨h.deferred, fun item' hitem' => ?_, fun parts o' ho' => ?_⟩
    · rw [List.mem_singleton.mp hitem']
      exact ⟨o, List.mem_singleton_self o, fun part hpart => (hfor.part hpart).lighter⟩
    · rw [List.mem_singleton.mp ho']
      exact hfor.usable (parts item (List.mem_singleton_self item))

end Progress

namespace Rules

variable {p p' : Progress} {name label : String}

theorem keeps_of_fail (fail : r.unknown = .fail) (declared : Ty) (value : Option Value) :
    r.keeps declared value = true := by
  rw [keeps, fail]

theorem addRowFor_putsOff {result : Option Nat × Progress} (fail : r.unknown = .fail)
    (h : r.addRowFor p name label declared value = .ok result) :
    ∃ later, PutsOff r p result.2 [.part name declared value] later := by
  rcases addRowFor_cases h with ⟨hkeeps, -⟩ | ⟨-, treatment, added, htreated, hadd, rfl⟩
  · exact absurd ((keeps_of_fail fail declared value).symm.trans hkeeps) Bool.noConfusion
  · obtain ⟨-, row, later, hgains⟩ := addTreated_gains htreated hadd
    exact ⟨later, hgains.putsOff⟩

theorem addAll_putsOff {all : List Candidate} {result : Nat × Progress} (fail : r.unknown = .fail)
    (h : r.addAll p all = .ok result) :
    ∃ later, PutsOff r p result.2 (all.map fun c => .part c.name c.declared (some c.value)) later := by
  induction all generalizing p result with
  | nil =>
    cases h
    exact ⟨[], .refl r p⟩
  | cons c rest ih =>
    unfold addAll at h
    simp only [bind_eq_ok, pure_eq_ok] at h
    obtain ⟨first, hfirst, others, hothers, rfl⟩ := h
    obtain ⟨later, hputs⟩ := addRowFor_putsOff fail hfirst
    obtain ⟨later', hputs'⟩ := ih hothers
    exact ⟨later ++ later', hputs.trans hputs'⟩

theorem addElements_putsOff {items : List (String × Value)} {result : Nat × Progress}
    (fail : r.unknown = .fail) (h : r.addElements declared p items = .ok result) :
    ∃ later, PutsOff r p result.2 ((items.map (·.2)).map fun item => .element declared (some item)) later := by
  rw [addElements_eq] at h
  obtain ⟨later, hputs⟩ := addAll_putsOff fail h
  rw [List.map_map] at hputs ⊢
  exact ⟨later, hputs⟩

theorem addFields_putsOff {typeName : String} {fields : List Field} {result : Nat × Progress}
    (fail : r.unknown = .fail) (h : r.addFields typeName p fields = .ok result) :
    ∃ later, PutsOff r p result.2 (fields.map (.field r)) later := by
  rw [addFields_eq] at h
  obtain ⟨later, hputs⟩ := addAll_putsOff fail h
  rw [List.map_map] at hputs
  exact ⟨later, hputs⟩

theorem addSequence_putsOff {i : Nat} {items : List Value} {element : Option Ty} (fail : r.unknown = .fail)
    (h : r.addSequence p i label items element = .ok p') :
    ∃ later, PutsOff r p p' (Deferred.parts r (.sequence i label items element)) later := by
  unfold addSequence at h
  dsimp only at h
  cases items with
  | nil =>
    cases element with
    | none => exact absurd h throw_ne_ok
    | some element =>
      simp only [List.isEmpty_nil, ↓reduceIte, bind_eq_ok, pure_eq_ok] at h
      obtain ⟨⟨added, p₁⟩, hadd, rfl⟩ := h
      obtain ⟨later, hputs⟩ := addRowFor_putsOff fail hadd
      refine ⟨later, hputs.of_eq ?_⟩
      dsimp only
      split <;> rfl
  | cons first rest =>
    simp only [List.isEmpty_cons, Bool.false_eq_true, ↓reduceIte, bind_eq_ok, pure_eq_ok] at h
    obtain ⟨⟨count, p₁⟩, hadd, base, -, rfl⟩ := h
    obtain ⟨later, hputs⟩ := addElements_putsOff fail hadd
    rw [map_labelled] at hputs
    refine ⟨later, hputs.of_eq ?_⟩
    split <;> split <;> rfl

/-- Where unsupported values are errors, every entry is kept. -/
theorem keepEntries_of_fail {key val : Ty} {entries kept : List (String × Value × Value)}
    (fail : r.unknown = .fail) (h : r.keepEntries key val entries = .ok kept) :
    kept.map (·.2) = entries.map (·.2) := by
  rw [keepEntries_filter h]
  refine List.filter_eq_self.mpr fun entry _ => ?_
  rw [keeps_of_fail fail, keeps_of_fail fail]
  rfl

theorem addEntries_putsOff {i : Nat} {entries : List (Value × Value)} {key val : Option Ty}
    (fail : r.unknown = .fail) (h : r.addEntries p i label entries key val = .ok p') :
    ∃ later, PutsOff r p p' (Deferred.parts r (.dictionary i label entries key val)) later := by
  unfold addEntries at h
  dsimp only at h
  cases entries with
  | nil =>
    cases key with
    | none => exact absurd h throw_ne_ok
    | some key =>
      cases val with
      | none => exact absurd h throw_ne_ok
      | some val =>
        simp only [List.isEmpty_nil, ↓reduceIte, bind_eq_ok, pure_eq_ok] at h
        obtain ⟨⟨k, p₁⟩, hkey, ⟨v, p₂⟩, hval, rfl⟩ := h
        obtain ⟨later, hputs⟩ := addRowFor_putsOff fail hkey
        obtain ⟨later', hputs'⟩ := addRowFor_putsOff fail hval
        refine ⟨later ++ later', (hputs.trans hputs').of_eq ?_⟩
        dsimp only
        split <;> rfl
  | cons first rest =>
    simp only [List.isEmpty_cons, Bool.false_eq_true, ↓reduceIte, bind_eq_ok, pure_eq_ok] at h
    obtain ⟨kept, hkept, ⟨keys, p₁⟩, hkeys, ⟨values, p₂⟩, hvalues, -, -, base, -, rfl⟩ := h
    have hall := keepEntries_of_fail fail hkept
    rw [map_labelled] at hall
    obtain ⟨later, hputs⟩ := addElements_putsOff fail hkeys
    obtain ⟨later', hputs'⟩ := addElements_putsOff fail hvalues
    have hboth := hputs.trans hputs'
    simp only [List.map_map] at hboth
    -- No entry is left out, so what is put off is what all the entries put off: keys first.
    have hparts : Deferred.parts r (.dictionary i label (first :: rest) key val) =
        (kept.map (·.2)).map (fun entry => .element (key.getD .unknown) (some entry.1)) ++
          (kept.map (·.2)).map fun entry => .element (val.getD .unknown) (some entry.2) := by
      rw [hall]
      rfl
    rw [hparts, List.map_map, List.map_map]
    refine ⟨later ++ later', hboth.of_eq ?_⟩
    split <;> split <;> rfl

/-- What the turn of a value puts off tells whether the parts of the value are usable. -/
theorem addParts_putsOff (fail : r.unknown = .fail) (h : r.addParts p item = .ok p') :
    ∃ later, PutsOff r p p' (item.parts r) later := by
  cases item with
  | object row object =>
    unfold addParts addObjectFields at h
    simp only [bind_eq_ok, pure_eq_ok] at h
    obtain ⟨⟨count, p₁⟩, hfields, rfl⟩ := h
    obtain ⟨later, hputs⟩ := addFields_putsOff fail hfields
    refine ⟨later, PutsOff.of_eq (hputs.of_mem_iff fun o => ?_) rfl⟩
    simp only [Deferred.parts, List.mem_map, (r.orderFields_inOrder object.fields).mem_iff]
  | sequence row label items element => exact addSequence_putsOff fail h
  | dictionary row label entries key val => exact addEntries_putsOff fail h
  | dataUnit row unit =>
    cases h
    unfold addRoot
    dsimp only
    split
    · exact ⟨[], (List.append_nil _).symm, fun _ hitem => absurd hitem List.not_mem_nil,
        fun _ o ho => List.mem_singleton.mp ho ▸ trivial⟩
    · refine ⟨[.object _ unit.root], rfl, fun other hother => ?_, fun _ o ho => List.mem_singleton.mp ho ▸ trivial⟩
      rw [List.mem_singleton.mp hother]
      refine ⟨.root unit, List.mem_singleton_self _, fun part hpart => ?_⟩
      obtain ⟨field, hfield, rfl⟩ := List.mem_map.mp hpart
      exact (Origin.Part.field rfl hfield).lighter

theorem foldlM_putsOff {items : List Deferred} (fail : r.unknown = .fail)
    (h : items.foldlM r.addParts p = .ok p') : ∃ later, PutsOff r p p' (items.flatMap (·.parts r)) later := by
  induction items generalizing p with
  | nil =>
    cases h
    exact ⟨[], .refl r p'⟩
  | cons item items ih =>
    rw [List.foldlM_cons, bind_eq_ok] at h
    obtain ⟨p₁, hfirst, hrest⟩ := h
    obtain ⟨later, hputs⟩ := addParts_putsOff fail hfirst
    obtain ⟨later', hputs'⟩ := ih hrest
    exact ⟨later ++ later', hputs.trans hputs'⟩

/-! ### Lenient turns -/

/-- The same rules, but values that are not supported are errors. -/
def strict (r : Rules) : Rules := { r with unknown := .fail }

/-- The same rules, but values that are not supported are left out. -/
def lenient (r : Rules) : Rules := { r with unknown := .skip }

@[simp] theorem treatmentOf_lenient (r : Rules) : r.lenient.treatmentOf = r.treatmentOf := treatmentOf_congr rfl

@[simp] theorem usable_lenient (r : Rules) : r.lenient.usable = r.usable := usable_congr rfl

theorem supportsValue_lenient (r : Rules) (label : String) (declared : Ty) (value : Value) :
    r.lenient.supportsValue label declared value = r.supportsValue label declared value :=
  supportsValue_congr (show r.lenient.classifier = r.classifier from rfl) label declared value

/-- A value that is usable gets its row, whatever becomes of others. -/
theorem addRowFor_of_usable {treatment : Treatment} {added : Nat × Progress}
    (treated : r.treatmentOf declared value = some treatment) (usable : r.usable declared value = true)
    (add : addTreated p name label declared.strip value treatment = .ok added) :
    r.addRowFor p name label declared value = .ok (some added.1, added.2) := by
  rw [addRowFor_eq_of_supports (treatment?_of_treatmentOf label treated) ((usable_eq_true label).mp usable), add]
  rfl

theorem addRowFor_lenient (fail : r.unknown = .fail) (p : Progress) (name label : String)
    (usable : r.usable declared value = true) :
    Follows Eq (r.addRowFor p name label declared value) (r.lenient.addRowFor p name label declared value) := by
  intro result h
  rcases addRowFor_cases h with ⟨hkeeps, -⟩ | ⟨-, treatment, added, htreated, hadd, rfl⟩
  · exact absurd ((keeps_of_fail fail declared value).symm.trans hkeeps) Bool.noConfusion
  · refine ⟨_, addRowFor_of_usable ?_ ?_ hadd, rfl⟩
    · rwa [treatmentOf_lenient]
    · rwa [usable_lenient]

theorem addAll_lenient {all : List Candidate} (fail : r.unknown = .fail)
    (usable : ∀ c ∈ all, r.usable c.declared (some c.value) = true) :
    Follows Eq (r.addAll p all) (r.lenient.addAll p all) := by
  induction all generalizing p with
  | nil => exact .rfl
  | cons c rest ih =>
    unfold addAll
    refine (addRowFor_lenient fail p c.name c.label (usable c List.mem_cons_self)).bind ?_
    rintro first _ rfl
    refine (ih fun other hother => usable other (List.mem_cons_of_mem c hother)).bind ?_
    rintro others _ rfl
    exact .rfl

theorem addElements_lenient {items : List (String × Value)} (fail : r.unknown = .fail)
    (usable : ∀ item ∈ items, r.usable declared (some item.2) = true) :
    Follows Eq (r.addElements declared p items) (r.lenient.addElements declared p items) := by
  rw [addElements_eq, addElements_eq]
  exact addAll_lenient fail (List.forall_mem_map.mpr usable)

theorem addFields_lenient {typeName : String} {fields : List Field} (fail : r.unknown = .fail)
    (usable : ∀ field ∈ fields, r.usable field.ty (some field.value) = true) :
    Follows Eq (r.addFields typeName p fields) (r.lenient.addFields typeName p fields) := by
  rw [addFields_eq, addFields_eq]
  exact addAll_lenient fail (List.forall_mem_map.mpr usable)

/-- Entries that are all kept are kept where others are left out. -/
theorem keepEntries_lenient (fail : r.unknown = .fail) (key val : Ty) (entries : List (String × Value × Value)) :
    Follows Eq (r.keepEntries key val entries) (r.lenient.keepEntries key val entries) := by
  have hrefuse : ∀ label ty, r.refuse label ty = .error (.unsupportedType label ty.text) := by
    intro label ty
    rw [refuse, fail]
  induction entries with
  | nil => exact .rfl
  | cons entry entries ih =>
    obtain ⟨label, k, v⟩ := entry
    unfold keepEntries
    rw [supportsValue_lenient, supportsValue_lenient, hrefuse, hrefuse]
    refine .bind_same fun first _ => ?_
    split
    · exact .error _ _
    · refine .bind_same fun second _ => ?_
      split
      · exact .error _ _
      · refine ih.bind ?_
        rintro kept _ rfl
        exact .rfl

/-- A turn that gives rows to usable values only is the same where others are left out. -/
theorem addParts_lenient (fail : r.unknown = .fail) (p : Progress)
    (usable : ∀ part ∈ item.parts r, part.Usable r) :
    Follows Eq (r.addParts p item) (r.lenient.addParts p item) := by
  cases item with
  | object row object =>
    have hfields : ∀ field ∈ r.orderFields object.fields, r.usable field.ty (some field.value) = true :=
      fun field hfield => usable (.field r field)
        (List.mem_map_of_mem ((r.orderFields_inOrder object.fields).mem_iff.mp hfield))
    refine (addFields_lenient fail hfields).bind ?_
    rintro added _ rfl
    exact .rfl
  | sequence row label items element =>
    show Follows Eq (r.addSequence p row label items element) (r.lenient.addSequence p row label items element)
    unfold addSequence
    cases items with
    | nil =>
      cases element with
      | none => exact .error _ _
      | some element =>
        refine (addRowFor_lenient fail p "" label (usable (.element element none) List.mem_cons_self)).bind ?_
        rintro added _ rfl
        exact .rfl
    | cons first rest =>
      have hitems : ∀ item ∈ labelled label (first :: rest),
          r.usable (element.getD .unknown) (some item.2) = true := fun item hitem =>
        usable (.element (element.getD .unknown) (some item.2))
          (List.mem_map_of_mem (map_labelled label (first :: rest) ▸ List.mem_map_of_mem hitem))
      refine (addElements_lenient fail hitems).bind ?_
      rintro added _ rfl
      exact .rfl
  | dictionary row label entries key val =>
    show Follows Eq (r.addEntries p row label entries key val) (r.lenient.addEntries p row label entries key val)
    unfold addEntries
    cases entries with
    | nil =>
      cases key with
      | none => exact .error _ _
      | some key =>
        cases val with
        | none => exact .error _ _
        | some val =>
          have hval : Origin.element val none ∈ Deferred.parts r (.dictionary row label [] (some key) (some val)) :=
            List.mem_cons_of_mem _ List.mem_cons_self
          refine (addRowFor_lenient fail p "" label (usable (.element key none) List.mem_cons_self)).bind ?_
          rintro k _ rfl
          refine (addRowFor_lenient fail k.2 "" label (usable _ hval)).bind ?_
          rintro v _ rfl
          exact .rfl
    | cons first rest =>
      refine ((keepEntries_lenient fail _ _ _).results).bind ?_
      rintro kept _ ⟨rfl, hkept, -⟩
      have hall := keepEntries_of_fail fail hkept
      rw [map_labelled] at hall
      have hhalves : ∀ entry ∈ kept, entry.2 ∈ first :: rest := fun entry hentry =>
        hall ▸ List.mem_map_of_mem hentry
      refine (addElements_lenient fail fun item hitem => ?_).bind ?_
      · obtain ⟨entry, hentry, rfl⟩ := List.mem_map.mp hitem
        exact usable (.element (key.getD .unknown) (some entry.2.1))
          (List.mem_append_left _ (List.mem_map_of_mem (hhalves entry hentry)))
      rintro keys _ rfl
      refine (addElements_lenient fail fun item hitem => ?_).bind ?_
      · obtain ⟨entry, hentry, rfl⟩ := List.mem_map.mp hitem
        exact usable (.element (val.getD .unknown) (some entry.2.2))
          (List.mem_append_right _ (List.mem_map_of_mem (hhalves entry hentry)))
      rintro vals _ rfl
      exact .rfl
  | dataUnit row unit => exact .rfl

theorem foldlM_lenient {items : List Deferred} (fail : r.unknown = .fail) (p : Progress)
    (usable : ∀ item ∈ items, ∀ part ∈ item.parts r, part.Usable r) :
    Follows Eq (items.foldlM r.addParts p) (items.foldlM r.lenient.addParts p) := by
  induction items generalizing p with
  | nil => exact .rfl
  | cons item items ih =>
    rw [List.foldlM_cons, List.foldlM_cons]
    refine (addParts_lenient fail p (usable item List.mem_cons_self)).bind ?_
    rintro p₁ _ rfl
    exact ih p₁ fun other hother => usable other (List.mem_cons_of_mem item hother)

/-! ### Lenient walks -/

/-- When there are more rounds than what waits is deep, everything that waits is usable if a strict walk goes
through, and a lenient one does the same. -/
theorem addRounds_lenient {rounds : Nat} (fail : r.unknown = .fail)
    (light : ∀ item ∈ p.deferred, ∃ depth < rounds, ∀ part ∈ item.parts r, part.weight < depth)
    (h : r.addRounds rounds p = .ok p') :
    (∀ item ∈ p.deferred, ∀ part ∈ item.parts r, part.Usable r) ∧
      r.lenient.addRounds rounds p = .ok p' := by
  induction rounds generalizing p with
  | zero =>
    refine ⟨fun item hitem => ?_, h⟩
    obtain ⟨depth, hdepth, -⟩ := light item hitem
    exact absurd hdepth (Nat.not_lt_zero depth)
  | succ rounds ih =>
    unfold addRounds at h ⊢
    split at h
    · rename_i hdeferred
      rw [hdeferred]
      exact ⟨fun item hitem => absurd hitem List.not_mem_nil, h⟩
    · obtain ⟨p₁, hround, hrest⟩ := bind_eq_ok.mp h
      obtain ⟨later, hputs⟩ := foldlM_putsOff fail hround
      obtain rfl : p₁.deferred = later := hputs.deferred
      have hlight : ∀ item ∈ p₁.deferred, ∃ depth < rounds, ∀ part ∈ item.parts r, part.weight < depth := by
        intro item hitem
        obtain ⟨o, ho, hparts⟩ := hputs.lighter item hitem
        obtain ⟨owner, howner, ho⟩ := List.mem_flatMap.mp ho
        obtain ⟨depth, hdepth, hlt⟩ := light owner howner
        exact ⟨o.weight, Nat.lt_of_lt_of_le (hlt o ho) (Nat.le_of_lt_succ hdepth), hparts⟩
      obtain ⟨hparts, hlenient⟩ := ih hlight hrest
      have husable : ∀ item ∈ p.deferred, ∀ part ∈ item.parts r, part.Usable r := fun item hitem part hpart =>
        hputs.usable hparts part (List.mem_flatMap.mpr ⟨item, hitem, hpart⟩)
      obtain ⟨_, hsame, rfl⟩ := foldlM_lenient fail _ husable p₁ hround
      exact ⟨husable, bind_eq_ok.mpr ⟨p₁, hsame, hlenient⟩⟩

/-- From one model, a lenient walk does all that a strict one does. -/
theorem walk_follows (fail : r.unknown = .fail) (m : Model) (unit : DataUnit) :
    Follows Eq (r.walk m unit) (r.lenient.walk m unit) := by
  intro result h
  unfold walk at h ⊢
  simp only [bind_eq_ok, pure_eq_ok] at h ⊢
  obtain ⟨p, hrounds, rfl⟩ := h
  refine ⟨_, ⟨p, (addRounds_lenient fail ?_ hrounds).2, rfl⟩, rfl⟩
  intro item hitem
  rw [List.mem_singleton.mp hitem]
  refine ⟨(Value.dataUnit unit).depth, Nat.lt_succ_self _, fun part hpart => ?_⟩
  rw [List.mem_singleton.mp hpart]
  exact Origin.root_lighter (o := .unit unit) rfl

/-- **Strict and lenient walks agree**: what is walked where unsupported values are errors is walked where they
are left out, and gives the same model; from a model that has taken other references it gives a model that is the
same but for them. -/
theorem walk_lenient {m n : Model} {unit : DataUnit} {row : Nat} (h : r.strict.walk m unit = .ok (row, n)) :
    r.lenient.walk m unit = .ok (row, n) ∧
      ∀ m', m.Alike m' → ∃ n', r.lenient.walk m' unit = .ok (row, n') ∧ n.Alike n' := by
  obtain ⟨_, hlenient, rfl⟩ := walk_follows (r := r.strict) rfl m unit _ h
  refine ⟨hlenient, ?_⟩
  rintro m' ⟨m₀, s, t, hs, ht⟩
  obtain ⟨⟨row₀, n₀⟩, hwalk₀, hrow, hn⟩ := (walk_shifted hs r.lenient unit).back _ hlenient
  obtain ⟨⟨row', n'⟩, hwalk', hrow', hn'⟩ := (walk_shifted ht r.lenient unit).there _ hwalk₀
  obtain rfl : row = row₀ := hrow
  obtain rfl : row' = row := hrow'
  exact ⟨n', hwalk', n₀, s, t, hn, hn'⟩

/-- A classifier that takes labels for texts. -/
def labelTexts : Classifier := { isString := fun ty => ty = .string ∨ ty = .foreign "Label" }

/-- A data unit with collections inside of each other, some of them empty, and with labels. -/
def nestedParts : DataUnit :=
  ⟨"nested", ⟨"Root", [
    ⟨"m_grid", .list (.list (.scalar .u8)), .sequence [.sequence [.scalar (.u8 1)], .sequence [], .null]⟩,
    ⟨"m_labels", .list (.foreign "Label"), .sequence [.text "a", .null]⟩,
    ⟨"m_table", .nullable (.dictionary .string (.array .bool)),
      .dictionary [(.text "a", .sequence [.bool true]), (.text "b", .sequence [])]⟩,
    ⟨"m_none", .dictionary .string (.list .bool), .null⟩,
    ⟨"m_next", .dataUnit "Root", .dataUnit ⟨"nested", ⟨"Root", []⟩⟩⟩]⟩⟩

/-- The lenient walk looks into all of the collections and takes other references, and adds the same rows. -/
theorem walk_lenient_nestedParts : ∃ n n',
    walk ⟨labelTexts, .fail, .declaration, "m_"⟩ .empty nestedParts = .ok (0, n) ∧ n.size = 24 ∧
    walk ⟨labelTexts, .skip, .declaration, "m_"⟩ .empty nestedParts = .ok (0, n) ∧
    walk ⟨labelTexts, .skip, .declaration, "m_"⟩ (.blank ⟨8⟩) nestedParts = .ok (0, n') ∧
    n.Alike n' ∧ n.texts ≠ n'.texts := by
  have hcheck : (walk ⟨labelTexts, .fail, .declaration, "m_"⟩ .empty nestedParts).toOption.any (fun x =>
      x.1 = 0 && x.2.size = 24 &&
        (walk ⟨labelTexts, .skip, .declaration, "m_"⟩ (.blank ⟨8⟩) nestedParts).toOption.any fun x' =>
          x.2.texts ≠ x'.2.texts) = true := by
    decide +kernel
  simp only [Option.any_eq_true, Bool.and_eq_true, decide_eq_true_eq, toOption_eq_some, Prod.exists] at hcheck
  obtain ⟨row, n, hwalk, ⟨rfl, hsize⟩, row', n', hwalk', htexts⟩ := hcheck
  have hstart : Model.empty.Alike (.blank ⟨8⟩) := ⟨.empty, 0, 7, ⟨rfl, by decide⟩, ⟨rfl, by decide⟩⟩
  obtain ⟨hsame, hother⟩ := @walk_lenient ⟨labelTexts, .fail, .declaration, "m_"⟩ .empty n nestedParts 0 hwalk
  obtain ⟨n'', hwalk'', halike⟩ := hother _ hstart
  obtain ⟨-, rfl⟩ := Prod.mk.inj (Except.ok.inj (hwalk'.symm.trans hwalk''))
  exact ⟨n, n', hwalk, hsize, hsame, hwalk'', halike, htexts⟩

end Rules

end ObjectPack.Walk
