import ObjectPack.Proofs.Walk.Occurrence

/-!
# Walks stay inside the graph

Whatever a walk puts off, and whatever text it pools, occurs in the data unit that it begins with
(`Walk.Progress.Confined`): the turn of a value adds parts of the value only.
-/

namespace ObjectPack

open Outcome

/-! ### Pools -/

/-- Whether a text is in the pool of a model. -/
def Model.Pools (m : Model) (text : String) : Prop := ∃ t ∈ m.texts.entries, t.text = text

/-- Adding a text keeps what has been pooled, and pools nothing else. -/
theorem Model.pools_addText {m : Model} {text other : String} :
    (m.addText text).2.Pools other ↔ m.Pools other ∨ other = text := by
  constructor
  · rintro ⟨t, ht, rfl⟩
    unfold addText TextPool.add at ht
    cases hfind : m.texts.find? text with
    | some index =>
      rw [hfind] at ht
      exact Or.inl ⟨t, ht, rfl⟩
    | none =>
      rw [hfind] at ht
      refine (List.mem_append.mp ht).imp (fun ht => ⟨t, ht, rfl⟩) fun ht => ?_
      rw [List.mem_singleton.mp ht]
  · obtain ⟨hbehind, t, hpooled, htext⟩ := Walk.addText_pools m text
    rintro (⟨s, hs, rfl⟩ | rfl)
    · exact ⟨s, hbehind.subset hs, rfl⟩
    · exact ⟨t, List.mem_of_getElem? hpooled, htext⟩

namespace Walk

/-! ### What is put off -/

/-- Whether the parts of a value that has been put off occur in a graph. -/
def Deferred.In (whole : Value) : Deferred → Prop
  | .object _ o => (Value.object o).In whole
  | .sequence _ _ items _ => ∀ item ∈ items, item.In whole
  | .dictionary _ _ entries _ _ => ∀ entry ∈ entries, entry.1.In whole ∧ entry.2.In whole
  | .dataUnit _ u => (Value.dataUnit u).In whole

/-- Whether everything that waits, and every text that has been pooled, occurs in a graph. -/
structure Progress.Confined (whole : Value) (p : Progress) : Prop where
  deferred : ∀ item ∈ p.deferred, item.In whole
  texts : ∀ text, p.model.Pools text → (Value.text text).In whole

variable {whole : Value} {r : Rules} {p p' : Progress} {name label : String} {declared : Ty} {value : Option Value}

namespace Progress

variable {add : Model → Nat × Model} {item : Nat → Deferred}

theorem Confined.of_eq (h : p.Confined whole) (deferred : p'.deferred = p.deferred)
    (texts : p'.model.texts = p.model.texts) : p'.Confined whole := by
  refine ⟨deferred ▸ h.deferred, fun text htext => h.texts text ?_⟩
  rw [Model.Pools, ← texts]
  exact htext

theorem Confined.addDeferred (h : p.Confined whole) (texts : (add p.model).2.texts = p.model.texts)
    (inside : ∀ i, (item i).In whole) : (p.addDeferred add item).2.Confined whole := by
  have hadded : (p.addRow add).2.Confined whole := h.of_eq rfl texts
  refine ⟨fun other hother => ?_, hadded.texts⟩
  rcases List.mem_append.mp hother with hother | hother
  · exact h.deferred other hother
  · rw [List.mem_singleton.mp hother]
    exact inside _

theorem Confined.addText (h : p.Confined whole) {text : String} (inside : (Value.text text).In whole) :
    (p.addRow (·.addString name (some text))).2.Confined whole := by
  refine ⟨h.deferred, fun other hother => ?_⟩
  rcases Model.pools_addText.mp hother with hother | rfl
  · exact h.texts other hother
  · exact inside

end Progress

open Progress

/-! ### Single values -/

theorem addTreated_confined (h : p.Confined whole) (inside : ∀ v, value = some v → v.In whole)
    {treatment : Treatment} {result : Nat × Progress}
    (step : addTreated p name label declared value treatment = .ok result) : result.2.Confined whole := by
  have hrow : ∀ {add : Model → Nat × Model}, (add p.model).2.texts = p.model.texts →
      (p.addRow add).2.Confined whole := fun texts => h.of_eq rfl texts
  have hitem : ∀ {items : List Value}, value = some (.sequence items) → ∀ item ∈ items, item.In whole :=
    fun hvalue _ mem => (Value.In.item mem .self).trans (inside _ hvalue)
  have hentry : ∀ {entries : List (Value × Value)}, value = some (.dictionary entries) →
      ∀ entry ∈ entries, entry.1.In whole ∧ entry.2.In whole := fun hvalue _ mem =>
    ⟨(Value.In.key mem .self).trans (inside _ hvalue), (Value.In.val mem .self).trans (inside _ hvalue)⟩
  unfold addTreated at step
  cases treatment <;> dsimp only at step <;> repeat' split at step
  all_goals cases step
  all_goals first
    | exact h.addText (inside _ rfl)
    | exact hrow rfl
    | exact h.addDeferred rfl fun _ => inside _ rfl
    | exact h.addDeferred rfl fun _ => hitem rfl
    | exact h.addDeferred rfl fun _ => hentry rfl
    | exact h.addDeferred rfl fun _ _ mem => absurd mem List.not_mem_nil

namespace Rules

theorem addRowFor_confined (h : p.Confined whole) (inside : ∀ v, value = some v → v.In whole)
    {result : Option Nat × Progress} (step : r.addRowFor p name label declared value = .ok result) :
    result.2.Confined whole := by
  rcases addRowFor_cases step with ⟨-, rfl⟩ | ⟨-, _, _, -, hadd, rfl⟩
  · exact h
  · exact addTreated_confined h inside hadd

/-! ### Several values -/

theorem addAll_confined {all : List Candidate} (h : p.Confined whole) (inside : ∀ c ∈ all, c.value.In whole)
    {result : Nat × Progress} (step : r.addAll p all = .ok result) : result.2.Confined whole := by
  induction all generalizing p result with
  | nil =>
    cases step
    exact h
  | cons c rest ih =>
    unfold addAll at step
    simp only [bind_eq_ok, pure_eq_ok] at step
    obtain ⟨first, hfirst, others, hothers, rfl⟩ := step
    have hone := addRowFor_confined h (fun v hv => Option.some.inj hv ▸ inside c List.mem_cons_self) hfirst
    have hall := ih hone (fun other hother => inside other (List.mem_cons_of_mem c hother)) hothers
    exact hall

theorem addElements_confined {elements : List (String × Value)} (h : p.Confined whole)
    (inside : ∀ element ∈ elements, element.2.In whole) {result : Nat × Progress}
    (step : r.addElements declared p elements = .ok result) : result.2.Confined whole :=
  addAll_confined h (List.forall_mem_map.mpr inside) (addElements_eq declared elements ▸ step)

theorem addFields_confined {typeName : String} {fields : List Field} (h : p.Confined whole)
    (inside : ∀ field ∈ fields, field.value.In whole) {result : Nat × Progress}
    (step : r.addFields typeName p fields = .ok result) : result.2.Confined whole :=
  addAll_confined h (List.forall_mem_map.mpr inside) (addFields_eq typeName fields ▸ step)

theorem mem_labelled {α : Type} {items : List α} {item : String × α} (h : item ∈ labelled label items) :
    item.2 ∈ items :=
  map_labelled label items ▸ List.mem_map_of_mem h

/-- The entries that are kept are some of the entries. -/
theorem mem_of_keepEntries {key val : Ty} {entries : List (Value × Value)} {kept : List (String × Value × Value)}
    (h : r.keepEntries key val (labelled label entries) = .ok kept) {entry : String × Value × Value}
    (mem : entry ∈ kept) : entry.2 ∈ entries := by
  have hmem := List.mem_map_of_mem (f := (·.2)) mem
  rw [keepEntries_filter h, map_labelled] at hmem
  exact (List.mem_filter.mp hmem).1

/-! ### Turns -/

theorem addSequence_confined {items : List Value} {element : Option Ty} {i : Nat} (h : p.Confined whole)
    (inside : ∀ item ∈ items, item.In whole) (step : r.addSequence p i label items element = .ok p') :
    p'.Confined whole := by
  unfold addSequence at step
  dsimp only at step
  split at step
  · split at step
    · exact absurd step throw_ne_ok
    · simp only [bind_eq_ok, pure_eq_ok] at step
      obtain ⟨⟨added, p₁⟩, hadd, rfl⟩ := step
      have hadded := addRowFor_confined h (fun v hv => by cases hv) hadd
      split
      · exact hadded.of_eq rfl rfl
      · exact hadded
  · simp only [bind_eq_ok, pure_eq_ok] at step
    obtain ⟨⟨count, p₁⟩, hadd, base, -, rfl⟩ := step
    have hadded := addElements_confined h (fun item hitem => inside _ (mem_labelled hitem)) hadd
    split <;> split <;> exact hadded.of_eq rfl rfl

theorem addEntries_confined {entries : List (Value × Value)} {key val : Option Ty} {i : Nat}
    (h : p.Confined whole) (inside : ∀ entry ∈ entries, entry.1.In whole ∧ entry.2.In whole)
    (step : r.addEntries p i label entries key val = .ok p') : p'.Confined whole := by
  unfold addEntries at step
  dsimp only at step
  split at step
  · split at step
    · simp only [bind_eq_ok, pure_eq_ok] at step
      obtain ⟨⟨k, p₁⟩, hkey, ⟨v, p₂⟩, hval, rfl⟩ := step
      have hboth := addRowFor_confined (addRowFor_confined h (fun v hv => by cases hv) hkey)
        (fun v hv => by cases hv) hval
      split
      · exact hboth.of_eq rfl rfl
      · exact hboth
    · exact absurd step throw_ne_ok
  · simp only [bind_eq_ok, pure_eq_ok] at step
    obtain ⟨kept, hkept, ⟨keys, p₁⟩, hkeys, ⟨values, p₂⟩, hvalues, _, -, base, -, rfl⟩ := step
    have hinside : ∀ entry ∈ kept, entry.2.1.In whole ∧ entry.2.2.In whole := fun entry hentry =>
      inside _ (mem_of_keepEntries hkept hentry)
    have hfirst := addElements_confined h (by
      intro element helement
      obtain ⟨entry, hentry, rfl⟩ := List.mem_map.mp helement
      exact (hinside entry hentry).1) hkeys
    have hboth := addElements_confined hfirst (by
      intro element helement
      obtain ⟨entry, hentry, rfl⟩ := List.mem_map.mp helement
      exact (hinside entry hentry).2) hvalues
    split <;> split <;> exact hboth.of_eq rfl rfl

/-- A turn stays inside the graph. -/
theorem addParts_confined {item : Deferred} (h : p.Confined whole) (inside : item.In whole)
    (step : r.addParts p item = .ok p') : p'.Confined whole := by
  cases item with
  | object row object =>
    obtain ⟨added, hadd, h'⟩ := bind_eq_ok.mp step
    obtain rfl := pure_eq_ok.mp h'
    refine (addFields_confined h (fun field hfield => ?_) hadd).of_eq rfl rfl
    have hmem := (r.orderFields_inOrder object.fields).mem_iff.mp hfield
    exact (Value.In.field hmem .self).trans inside
  | sequence row label items element => exact addSequence_confined h inside step
  | dictionary row label entries key value => exact addEntries_confined h inside step
  | dataUnit row unit =>
    cases step
    unfold addRoot
    dsimp only
    split
    · exact h.of_eq rfl rfl
    · have hadded : (p.addDeferred (·.addObject "" (Naming.typeName unit.root.typeName) true)
          (.object · unit.root)).2.Confined whole :=
        h.addDeferred rfl fun _ => (Value.In.root .self).trans inside
      exact hadded.of_eq rfl rfl

end Rules

end Walk

end ObjectPack
