import ObjectPack.Proofs.Model.Shift
import ObjectPack.Proofs.Walk.Usable

/-!
# Walks from another supply

A walk takes references for texts only and looks at rows only, so a walk that begins with a later supply
adds the same rows and puts off the same values; its model is the shifted one
(`Walk.Rules.walk_shifted`).  Neither of the two walks succeeds without the other.
-/

namespace ObjectPack

open Outcome

variable {t : Nat}

/-! ### Rows -/

/-- Whether adding a row gives the same row and shifted models. -/
def Model.AddsAlike (t : Nat) (add : Model → Nat × Model) : Prop :=
  ∀ m m', m.Shifted t m' → (add m').1 = (add m).1 ∧ (add m).2.Shifted t (add m').2

namespace Model

theorem add_alike (kind : Kind) (name : String) (value : Payload) (start : Option Nat) (count : Nat) :
    AddsAlike t (·.add kind name value start count) := by
  rintro m _ ⟨rfl, positive⟩
  exact ⟨rfl, rfl, positive⟩

theorem addTyped_alike (kind : Kind) (name typeName : String) (value : Payload) (count : Nat) :
    AddsAlike t (·.addTyped kind name typeName value count) := by
  rintro m _ ⟨rfl, positive⟩
  exact ⟨rfl, rfl, positive⟩

/-- Adding a text takes the shifted reference. -/
theorem Shifted.addText {m m' : Model} (h : m.Shifted t m') (text : String) :
    (m'.addText text).1 = (m.addText text).1 ∧ (m.addText text).2.Shifted t (m'.addText text).2 := by
  obtain ⟨rfl, positive⟩ := h
  have hadd : (m.shift t).addText text = ((m.addText text).1, (m.addText text).2.shift t) := by
    let added := (m.texts.rename (.shift t)).add ⟨m.supply.next + t⟩ text
    show (added.1, { m with texts := added.2.1, supply := added.2.2 }) = _
    rw [show added = _ from m.texts.add_rename (Reference.shift_mk t positive) text]
    rfl
  rw [hadd]
  exact ⟨rfl, rfl, Nat.lt_of_lt_of_le positive (m.texts.le_add m.supply text)⟩

theorem addString_alike (name : String) (text : Option String) :
    AddsAlike t (·.addString name text) := by
  intro m m' h
  cases text with
  | none => exact add_alike .string name .null none 0 m m' h
  | some text =>
    obtain ⟨hindex, htext⟩ := h.addText text
    have hadd := add_alike .string name .present (some (m.addText text).1) text.utf8ByteSize _ _ htext
    show (Model.add _ _ _ _ (some (m'.addText text).1) _).1 = _ ∧ Shifted t _ (Model.add _ _ _ _
      (some (m'.addText text).1) _).2
    rw [hindex]
    exact hadd

end Model

namespace Walk

/-- Whether two walks have come equally far, with shifted models. -/
structure Progress.Shifted (t : Nat) (p p' : Progress) : Prop where
  model : p.model.Shifted t p'.model
  units : p'.units = p.units
  deferred : p'.deferred = p.deferred

/-- Whether two results agree and leave such walks. -/
def ShiftedWith {α : Type} (t : Nat) (r r' : α × Progress) : Prop := r'.1 = r.1 ∧ r.2.Shifted t r'.2

namespace Progress

variable {p p' : Progress}

theorem Shifted.addRow (h : p.Shifted t p') {add : Model → Nat × Model} (alike : Model.AddsAlike t add) :
    ShiftedWith t (p.addRow add) (p'.addRow add) := by
  obtain ⟨hrow, hmodel⟩ := alike _ _ h.model
  exact ⟨hrow, hmodel, h.units, h.deferred⟩

theorem Shifted.addDeferred (h : p.Shifted t p') {add : Model → Nat × Model}
    (alike : Model.AddsAlike t add) (item : Nat → Deferred) :
    ShiftedWith t (p.addDeferred add item) (p'.addDeferred add item) := by
  obtain ⟨hrow, hadded⟩ := h.addRow alike
  refine ⟨hrow, hadded.model, hadded.units, ?_⟩
  show (p'.addRow add).2.deferred ++ [item (p'.addRow add).1] = _
  rw [hrow, hadded.deferred]
  rfl

theorem Shifted.size (h : p.Shifted t p') : p'.size = p.size := by
  unfold Progress.size
  rw [h.model.eq]
  rfl

theorem Shifted.rowsFrom (h : p.Shifted t p') (start count : Nat) :
    p'.rowsFrom start count = p.rowsFrom start count := by
  unfold Progress.rowsFrom
  rw [h.model.eq]
  rfl

theorem Shifted.setRange (h : p.Shifted t p') (row start count : Nat) :
    (p.setRange row start count).Shifted t (p'.setRange row start count) := by
  refine ⟨⟨?_, h.model.positive⟩, h.units, h.deferred⟩
  unfold Progress.setRange
  rw [h.model.eq]
  rfl

theorem Shifted.setTypeName (h : p.Shifted t p') (row : Nat) (typeName : String) :
    (p.setTypeName row typeName).Shifted t (p'.setTypeName row typeName) := by
  refine ⟨⟨?_, h.model.positive⟩, h.units, h.deferred⟩
  unfold Progress.setTypeName
  rw [h.model.eq]
  rfl

end Progress

open Progress

variable {p p' : Progress}

/-! ### Single values -/

/-- A value of a known treatment is added alike. -/
theorem addTreated_shifted (h : p.Shifted t p') (name label : String) (declared : Ty)
    (value : Option Value) (treatment : Treatment) :
    Matches (ShiftedWith t) (addTreated p name label declared value treatment)
      (addTreated p' name label declared value treatment) := by
  have hrow : ∀ {add}, Model.AddsAlike t add → Matches (ShiftedWith t)
      (.ok (p.addRow add) : Except WalkError _) (.ok (p'.addRow add) : Except WalkError _) :=
    fun alike => .ok (h.addRow alike)
  have hdeferred : ∀ {add} item, Model.AddsAlike t add → Matches (ShiftedWith t)
      (.ok (p.addDeferred add item) : Except WalkError _)
      (.ok (p'.addDeferred add item) : Except WalkError _) :=
    fun item alike => .ok (h.addDeferred alike item)
  unfold addTreated
  cases treatment <;> dsimp only <;> repeat' split
  all_goals first
    | exact .error _ _
    | exact hrow (Model.addString_alike _ _)
    | exact hrow (Model.add_alike _ _ _ _ _)
    | exact hrow (Model.addTyped_alike _ _ _ _ _)
    | exact hdeferred _ (Model.add_alike _ _ _ _ _)
    | exact hdeferred _ (Model.addTyped_alike _ _ _ _ _)

namespace Rules

theorem addRowFor_shifted (h : p.Shifted t p') (r : Rules) (name label : String) (declared : Ty)
    (value : Option Value) :
    Matches (ShiftedWith t) (r.addRowFor p name label declared value)
      (r.addRowFor p' name label declared value) := by
  unfold addRowFor
  refine .bind_same fun treatment? _ => ?_
  cases treatment? with
  | none => exact .bind_same fun _ _ => .ok ⟨rfl, h⟩
  | some treatment =>
    have hadded := addTreated_shifted h name label declared.strip value treatment
    have hrow : ∀ r r' : Nat × Progress, ShiftedWith t r r' → ShiftedWith t (some r.1, r.2) (some r'.1, r'.2) :=
      fun _ _ added => ⟨congrArg some added.1, added.2⟩
    dsimp only
    split
    · refine .bind_same fun usable _ => ?_
      split
      · exact .bind_same fun _ _ => .ok ⟨rfl, h⟩
      · exact hadded.bind fun r r' added => .ok (hrow r r' added)
    · exact hadded.bind fun r r' added => .ok (hrow r r' added)

theorem addAll_shifted (h : p.Shifted t p') (r : Rules) (all : List Candidate) :
    Matches (ShiftedWith t) (r.addAll p all) (r.addAll p' all) := by
  induction all generalizing p p' with
  | nil => exact .ok ⟨rfl, h⟩
  | cons c rest ih =>
    unfold addAll
    refine (addRowFor_shifted h r _ _ _ _).bind ?_
    rintro ⟨row, p⟩ ⟨_, p'⟩ ⟨rfl, h⟩
    refine (ih h).bind ?_
    rintro ⟨count, p⟩ ⟨_, p'⟩ ⟨rfl, h⟩
    exact .ok ⟨rfl, h⟩

theorem addElements_shifted (h : p.Shifted t p') (r : Rules) (declared : Ty)
    (elements : List (String × Value)) :
    Matches (ShiftedWith t) (r.addElements declared p elements) (r.addElements declared p' elements) := by
  rw [addElements_eq, addElements_eq]
  exact addAll_shifted h r _

/-! ### Composite values -/

theorem addObjectFields_shifted (h : p.Shifted t p') (r : Rules) (row : Nat) (object : Object) :
    Matches (Progress.Shifted t) (r.addObjectFields p row object) (r.addObjectFields p' row object) := by
  unfold addObjectFields
  rw [h.size]
  rw [addFields_eq, addFields_eq]
  refine (addAll_shifted h r _).bind ?_
  rintro ⟨count, p⟩ ⟨_, p'⟩ ⟨rfl, h⟩
  exact .ok (h.setRange _ _ _)

theorem addSequence_shifted (h : p.Shifted t p') (r : Rules) (row : Nat) (label : String)
    (items : List Value) (element : Option Ty) :
    Matches (Progress.Shifted t) (r.addSequence p row label items element)
      (r.addSequence p' row label items element) := by
  unfold addSequence
  rw [h.size]
  dsimp only
  split
  · cases element with
    | none => exact .error _ _
    | some element =>
      refine (addRowFor_shifted h r _ _ _ _).bind ?_
      rintro ⟨added, p⟩ ⟨_, p'⟩ ⟨rfl, h⟩
      dsimp only
      split
      · exact .ok (h.setRange _ _ _)
      · exact .ok h
  · refine (addElements_shifted h r _ _).bind ?_
    rintro ⟨count, p⟩ ⟨_, p'⟩ ⟨rfl, h⟩
    dsimp only
    rw [h.rowsFrom]
    refine .bind_same fun base _ => ?_
    cases base with
    | none =>
      dsimp only
      split
      · exact .ok h
      · exact .ok (h.setRange _ _ _)
    | some base =>
      dsimp only
      split
      · exact .ok (h.setTypeName _ _)
      · exact .ok ((h.setTypeName _ _).setRange _ _ _)

theorem addEntries_shifted (h : p.Shifted t p') (r : Rules) (row : Nat) (label : String)
    (entries : List (Value × Value)) (key value : Option Ty) :
    Matches (Progress.Shifted t) (r.addEntries p row label entries key value)
      (r.addEntries p' row label entries key value) := by
  unfold addEntries
  rw [h.size]
  dsimp only
  -- Without entries the dictionary gets one row for each of the types that it declares.
  split
  · cases key with
    | none => exact .error _ _
    | some key =>
      cases value with
      | none => exact .error _ _
      | some value =>
        refine (addRowFor_shifted h r _ _ _ _).bind ?_
        rintro ⟨k, p⟩ ⟨_, p'⟩ ⟨rfl, h⟩
        refine (addRowFor_shifted h r _ _ _ _).bind ?_
        rintro ⟨v, p⟩ ⟨_, p'⟩ ⟨rfl, h⟩
        dsimp only
        split
        · exact .ok (h.setRange _ _ _)
        · exact .ok h
  · refine .bind_same fun kept _ => ?_
    refine (addElements_shifted h r _ _).bind ?_
    rintro ⟨keys, p⟩ ⟨_, p'⟩ ⟨rfl, h⟩
    refine (addElements_shifted h r _ _).bind ?_
    rintro ⟨values, p⟩ ⟨_, p'⟩ ⟨rfl, h⟩
    dsimp only
    rw [h.rowsFrom, h.rowsFrom]
    refine .bind_same fun _ _ => .bind_same fun base _ => ?_
    cases base with
    | none =>
      dsimp only
      split
      · exact .ok h
      · exact .ok (h.setRange _ _ _)
    | some base =>
      dsimp only
      split
      · exact .ok (h.setTypeName _ _)
      · exact .ok ((h.setTypeName _ _).setRange _ _ _)

theorem addRoot_shifted (h : p.Shifted t p') (row : Nat) (unit : DataUnit) :
    (addRoot p row unit).Shifted t (addRoot p' row unit) := by
  unfold addRoot
  rw [h.units]
  dsimp only
  split
  · exact h.setRange _ _ _
  · have hadded : ShiftedWith t
        (p.addDeferred (·.addObject "" (Naming.typeName unit.root.typeName) true) (.object · unit.root))
        (p'.addDeferred (·.addObject "" (Naming.typeName unit.root.typeName) true) (.object · unit.root)) :=
      h.addDeferred (Model.addTyped_alike _ _ _ _ _) _
    revert hadded
    generalize p.addDeferred _ _ = added
    generalize p'.addDeferred _ _ = added'
    obtain ⟨root, p⟩ := added
    obtain ⟨_, p'⟩ := added'
    rintro ⟨rfl, h⟩
    have hmet : ∀ unit, Progress.Shifted t { p with units := unit :: p.units }
        { p' with units := unit :: p'.units } :=
      fun unit => ⟨h.model, congrArg (List.cons unit) h.units, h.deferred⟩
    exact (hmet _).setRange _ _ _

theorem addParts_shifted (h : p.Shifted t p') (r : Rules) (item : Deferred) :
    Matches (Progress.Shifted t) (r.addParts p item) (r.addParts p' item) := by
  cases item with
  | object row object => exact addObjectFields_shifted h r row object
  | sequence row label items element => exact addSequence_shifted h r row label items element
  | dictionary row label entries key value => exact addEntries_shifted h r row label entries key value
  | dataUnit row unit => exact .ok (addRoot_shifted h row unit)

/-! ### Whole graphs -/

theorem addRounds_shifted (h : p.Shifted t p') (r : Rules) (rounds : Nat) :
    Matches (Progress.Shifted t) (r.addRounds rounds p) (r.addRounds rounds p') := by
  induction rounds generalizing p p' with
  | zero => exact .ok h
  | succ rounds ih =>
    unfold addRounds
    rw [h.deferred]
    cases p.deferred with
    | nil => exact .ok h
    | cons item rest =>
      have hstart : Progress.Shifted t { p with deferred := [] } { p' with deferred := [] } :=
        ⟨h.model, h.units, rfl⟩
      refine (Matches.foldlM (fun _ _ item h => addParts_shifted h r item) _ hstart).bind fun _ _ h => ?_
      exact ih h

/-- A walk that begins with a shifted model gives the shifted model. -/
theorem walk_shifted {m m' : Model} (h : m.Shifted t m') (r : Rules) (unit : DataUnit) :
    Matches (fun x x' => x'.1 = x.1 ∧ x.2.Shifted t x'.2) (r.walk m unit) (r.walk m' unit) := by
  have hstart : Progress.Shifted t ⟨m, [], []⟩ ⟨m', [], []⟩ := ⟨h, rfl, rfl⟩
  obtain ⟨hrow, hadded⟩ := hstart.addDeferred (Model.addTyped_alike .dataUnit ""
    (Naming.typeName unit.root.typeName) (.dataUnit (.ofText unit.signature)) 0) (.dataUnit · unit)
  unfold walk
  dsimp only
  refine (addRounds_shifted hadded r _).bind fun p p' h => ?_
  exact .ok ⟨hrow, h.model⟩

end Rules

end Walk

end ObjectPack
