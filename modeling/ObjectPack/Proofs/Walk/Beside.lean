import ObjectPack.Proofs.Follow
import ObjectPack.Proofs.Walk.Advance
import ObjectPack.Proofs.Walk.Confined

/-!
# One turn at two points of walks

What the turn of a value does hardly depends on when it comes.  Wherever it comes, it succeeds or fails alike,
adds rows that differ in the places of their texts at most, and puts off values that differ in their rows only
(`Walk.Progress.Beside`).  A value that is put off at one point is alike to one that is put off at the other
(`Walk.Deferred.Alike`), and a text that is added at the one is added at the other, unless it is there.
-/

namespace ObjectPack.Walk

open Outcome

/-- Whether two values that have been put off differ in their rows only. -/
inductive Deferred.Alike : Deferred → Deferred → Prop
  | object {i j : Nat} {object : Object} : Alike (.object i object) (.object j object)
  | sequence {i j : Nat} {label : String} {items : List Value} {element : Option Ty} :
    Alike (.sequence i label items element) (.sequence j label items element)
  | dictionary {i j : Nat} {label : String} {entries : List (Value × Value)} {key value : Option Ty} :
    Alike (.dictionary i label entries key value) (.dictionary j label entries key value)
  | dataUnit {i j : Nat} {unit : DataUnit} : Alike (.dataUnit i unit) (.dataUnit j unit)

theorem Deferred.Alike.refl (item : Deferred) : item.Alike item := by
  cases item <;> constructor

/-- A row without what tells where something of it stands. -/
def unplaced (r : Row) : Row := { r with start := none }

namespace Progress

/-- Whether two walks have done the same since they have been at two points. -/
structure Beside (p₀ q₀ p q : Progress) : Prop where
  rows : ∃ new new', p.model.rows.toList = p₀.model.rows.toList ++ new ∧
    q.model.rows.toList = q₀.model.rows.toList ++ new' ∧ new'.map unplaced = new.map unplaced
  deferred : ∃ later later', p.deferred = p₀.deferred ++ later ∧ q.deferred = q₀.deferred ++ later' ∧
    List.Forall₂ Deferred.Alike later later'
  units : q.units = q₀.units
  more : ∀ text, p₀.model.Pools text → p.model.Pools text
  texts : ∀ text, q.model.Pools text → q₀.model.Pools text ∨ p.model.Pools text

/-- Whether two results say alike how many rows there are, and leave such walks. -/
def BesideWith {α : Type} (R : α → α → Prop) (p₀ q₀ : Progress) (x y : α × Progress) : Prop :=
  R x.1 y.1 ∧ Beside p₀ q₀ x.2 y.2

variable {p₀ q₀ p q : Progress} {x y : Row} {add : Model → Nat × Model}

theorem Beside.refl (p q : Progress) : Beside p q p q where
  rows := ⟨[], [], (List.append_nil _).symm, (List.append_nil _).symm, rfl⟩
  deferred := ⟨[], [], (List.append_nil _).symm, (List.append_nil _).symm, .nil⟩
  units := rfl
  more _ := id
  texts _ := Or.inl

/-- Both walks add a row. -/
theorem Beside.addRow (h : Beside p₀ q₀ p q) (adds : p.model.Adds (add p.model) x)
    (adds' : q.model.Adds (add q.model) y) (same : unplaced y = unplaced x)
    (more : ∀ text, p.model.Pools text → (p.addRow add).2.model.Pools text)
    (texts : ∀ text, (q.addRow add).2.model.Pools text → q.model.Pools text ∨ (p.addRow add).2.model.Pools text) :
    Beside p₀ q₀ (p.addRow add).2 (q.addRow add).2 where
  rows := by
    obtain ⟨new, new', hp, hq, hrows⟩ := h.rows
    refine ⟨new ++ [x], new' ++ [y], ?_, ?_, ?_⟩
    · rw [← List.append_assoc, ← hp]
      exact adds.rows
    · rw [← List.append_assoc, ← hq]
      exact adds'.rows
    · rw [List.map_append, List.map_append, hrows, List.map_singleton, List.map_singleton, same]
  deferred := h.deferred
  units := h.units
  more text htext := more text (h.more text htext)
  texts text htext := by
    rcases texts text htext with htext | htext
    · exact (h.texts text htext).imp_right (more text)
    · exact Or.inr htext

/-- Both walks put off a value. -/
theorem Beside.putOff (h : Beside p₀ q₀ p q) {item item' : Deferred} (alike : item.Alike item') :
    Beside p₀ q₀ (p.putOff item) (q.putOff item') where
  rows := h.rows
  deferred := by
    obtain ⟨later, later', hp, hq, hlater⟩ := h.deferred
    refine ⟨later ++ [item], later' ++ [item'], ?_, ?_, List.rel_append hlater (.cons alike .nil)⟩
    · rw [← List.append_assoc, ← hp]
      rfl
    · rw [← List.append_assoc, ← hq]
      rfl
  units := h.units
  more := h.more
  texts := h.texts

end Progress

open Progress

variable {r : Rules} {p₀ q₀ p q : Progress} {name label : String} {declared : Ty} {value : Option Value}

/-! ### Single values -/

/-- A value of a known treatment is added alike. -/
theorem addTreated_beside (h : Beside p₀ q₀ p q) (name label : String) (declared : Ty) (value : Option Value)
    (treatment : Treatment) : Follows (BesideWith (fun _ _ => True) p₀ q₀)
      (addTreated p name label declared value treatment) (addTreated q name label declared value treatment) := by
  have hadd : ∀ {add : Model → Nat × Model} {x : Row}, (∀ m : Model, m.Adds (add m) x ∧ (add m).2.texts = m.texts) →
      Beside p₀ q₀ (p.addRow add).2 (q.addRow add).2 := by
    intro add x adds
    refine h.addRow (adds p.model).1 (adds q.model).1 rfl (fun text htext => ?_) fun text htext => Or.inl ?_
    · show ∃ t ∈ (add p.model).2.texts.entries, _
      rw [(adds p.model).2]
      exact htext
    · change ∃ t ∈ (add q.model).2.texts.entries, _ at htext
      rw [(adds q.model).2] at htext
      exact htext
  have hrow : ∀ {add : Model → Nat × Model} {x : Row}, (∀ m : Model, m.Adds (add m) x ∧ (add m).2.texts = m.texts) →
      Follows (BesideWith (fun _ _ => True) p₀ q₀) (.ok (p.addRow add) : Except WalkError _)
        (.ok (q.addRow add) : Except WalkError _) := fun adds => .ok ⟨trivial, hadd adds⟩
  have hdeferred : ∀ {add : Model → Nat × Model} {x : Row} {item : Nat → Deferred},
      (∀ m : Model, m.Adds (add m) x ∧ (add m).2.texts = m.texts) → (∀ i j, (item i).Alike (item j)) →
      Follows (BesideWith (fun _ _ => True) p₀ q₀) (.ok (p.addDeferred add item) : Except WalkError _)
        (.ok (q.addDeferred add item) : Except WalkError _) :=
    fun adds alike => .ok ⟨trivial, (hadd adds).putOff (alike _ _)⟩
  have hstring : ∀ text, Follows (BesideWith (fun _ _ => True) p₀ q₀)
      (.ok (p.addRow (·.addString name (some text))) : Except WalkError _)
      (.ok (q.addRow (·.addString name (some text))) : Except WalkError _) := by
    intro text
    refine .ok ⟨trivial, h.addRow (p.model.addText_adds name text) (q.model.addText_adds name text) rfl
      (fun other hother => Model.pools_addText.mpr (Or.inl hother)) fun other hother => ?_⟩
    rcases Model.pools_addText.mp hother with hother | rfl
    · exact Or.inl hother
    · exact Or.inr (Model.pools_addText.mpr (Or.inr rfl))
  -- What is added depends on the value alone, so each treatment falls under one of these.
  unfold addTreated
  cases treatment <;> dsimp only <;> repeat' split
  all_goals first
    | exact .error _ _
    | exact hstring _
    | exact hrow fun m => ⟨m.add_adds _ _ _ _ _, rfl⟩
    | exact hrow fun m => ⟨m.addTyped_adds _ _ _ _ _, rfl⟩
    | exact hdeferred (fun m => ⟨m.add_adds _ _ _ _ _, rfl⟩) fun _ _ => .sequence
    | exact hdeferred (fun m => ⟨m.add_adds _ _ _ _ _, rfl⟩) fun _ _ => .dictionary
    | exact hdeferred (fun m => ⟨m.addTyped_adds _ _ _ _ _, rfl⟩) fun _ _ => .object
    | exact hdeferred (fun m => ⟨m.addTyped_adds _ _ _ _ _, rfl⟩) fun _ _ => .dataUnit

namespace Rules

theorem addRowFor_beside (h : Beside p₀ q₀ p q) (r : Rules) (name label : String) (declared : Ty)
    (value : Option Value) : Follows (BesideWith (fun x y => y.isSome = x.isSome) p₀ q₀)
      (r.addRowFor p name label declared value) (r.addRowFor q name label declared value) := by
  unfold addRowFor
  refine .bind_same fun treatment? _ => ?_
  cases treatment? with
  | none => exact .bind_same fun _ _ => .ok ⟨rfl, h⟩
  | some treatment =>
    have hadded := addTreated_beside h name label declared.strip value treatment
    dsimp only
    split
    · refine .bind_same fun usable _ => ?_
      split
      · exact .bind_same fun _ _ => .ok ⟨rfl, h⟩
      · exact hadded.bind fun _ _ added => .ok ⟨rfl, added.2⟩
    · exact hadded.bind fun _ _ added => .ok ⟨rfl, added.2⟩

theorem addElements_beside (h : Beside p₀ q₀ p q) (r : Rules) (declared : Ty)
    (elements : List (String × Value)) : Follows (BesideWith Eq p₀ q₀)
      (r.addElements declared p elements) (r.addElements declared q elements) := by
  induction elements generalizing p q with
  | nil => exact .ok ⟨rfl, h⟩
  | cons element rest ih =>
    unfold addElements
    refine (addRowFor_beside h r _ _ _ _).bind ?_
    rintro ⟨row, p⟩ ⟨row', q⟩ ⟨hsome, h⟩
    refine (ih h).bind ?_
    rintro ⟨count, p⟩ ⟨_, q⟩ ⟨rfl, h⟩
    refine .ok ⟨?_, h⟩
    dsimp only at hsome ⊢
    rw [hsome]

end Rules

/-! ### Rows that agree -/

theorem compareElement_unplaced (label : String) (first reference x : Row) (base : Option String) :
    compareElement label (unplaced first) (unplaced reference) base (unplaced x) =
      compareElement label first reference base x := by
  unfold compareElement
  simp only [apply_ite describeRow]
  rfl

/-- Where something of rows stands makes no difference to whether they agree. -/
theorem checkHomogeneous_unplaced (label : String) (rows : List Row) (declared : Option Ty) :
    checkHomogeneous label (rows.map unplaced) declared = checkHomogeneous label rows declared := by
  cases rows with
  | nil => rfl
  | cons first rest =>
    have hreference : ((first :: rest).map unplaced).find? (fun r => ! r.value.isNull) =
        ((first :: rest).find? fun r => ! r.value.isNull).map unplaced := List.find?_map ..
    show (do
      let differ ← (rest.map unplaced).mapM (compareElement label (unplaced first)
        ((((first :: rest).map unplaced).find? fun r => ! r.value.isNull).getD (unplaced first))
        (baseName? first declared))
      return if differ.any id then baseName? first declared else none : Except WalkError _) = _
    rw [hreference, Option.getD_map, List.mapM_map]
    simp only [Function.comp_def, compareElement_unplaced]
    rfl

end ObjectPack.Walk
