import Mathlib.Data.List.Nodup
import ObjectPack.Proofs.Model.Table
import ObjectPack.Proofs.Walk.Usable

/-!
# What a walk adds

Every value that a walk adds has one row, appended at the end of the table, and may be put off
(`Walk.Progress.Grows`).  Rows own nothing when they are added; what they own is set when their turn
comes.  A value that is only declared adds no object (`Walk.Progress.Bare`).
-/

namespace ObjectPack

open Outcome

/-! ### The data units that have been met -/

section Met

variable {units : List (Digest × Nat)} {d s : Digest} {first root : Nat}

/-- What one more data unit makes of those that have been met. -/
theorem lookup_met_cons (units : List (Digest × Nat)) (d s : Digest) (first : Nat) :
    List.lookup s ((d, first) :: units) = if s = d then some first else units.lookup s := by
  rw [List.lookup_cons]
  by_cases heq : s = d
  · rw [if_pos heq, beq_iff_eq.mpr heq]
  · rw [if_neg heq, beq_false_of_ne heq]

theorem eq_or_lookup_of_met_cons (h : List.lookup s ((d, first) :: units) = some root) :
    s = d ∧ root = first ∨ units.lookup s = some root := by
  rw [lookup_met_cons] at h
  split at h
  · exact Or.inl ⟨‹_›, (Option.some.inj h).symm⟩
  · exact Or.inr h

/-- A data unit that had not been met leaves those that had been as they are. -/
theorem lookup_met_cons_of_unknown (unknown : units.lookup d = none) (h : units.lookup s = some root) :
    List.lookup s ((d, first) :: units) = some root := by
  rw [lookup_met_cons, if_neg, h]
  rintro rfl
  rw [unknown] at h
  cases h

end Met

/-! ### Adding rows -/

namespace Model

variable {m : Model} {r : Row}

/-- The model without rows whose texts take their references from a supply. -/
def blank (s : Supply) : Model := { empty with supply := s }

/-- Whether the texts of a model are distinct, and their references those from a number on, one after
another. -/
structure TextsFrom (first : Nat) (m : Model) : Prop where
  next : m.supply.next = first + m.texts.size
  reference : ∀ (i : Nat) (t : PooledText), m.texts.entries[i]? = some t → t.reference = ⟨first + i⟩
  once : (m.texts.entries.map (·.text)).Nodup

theorem TextsFrom.keep {first : Nat} {m' : Model} (h : m.TextsFrom first) (texts : m'.texts = m.texts)
    (supply : m'.supply = m.supply) : m'.TextsFrom first :=
  ⟨supply ▸ texts ▸ h.next, texts ▸ h.reference, texts ▸ h.once⟩

/-- Whether one row has been added to a model, at the end. -/
structure Adds (m : Model) (result : Nat × Model) (r : Row) : Prop where
  index : result.1 = m.size
  rows : result.2.rows.toList = m.rows.toList ++ [r]
  texts : m.TextsKnown → result.2.TextsKnown
  pool : ∀ first, m.TextsFrom first → result.2.TextsFrom first

theorem add_adds (m : Model) (kind : Kind) (name : String) (value : Payload) (start : Option Nat)
    (count : Nat) : m.Adds (m.add kind name value start count) ⟨kind, name, none, start, count, value⟩ where
  index := rfl
  rows := Array.toList_push
  texts := id
  pool _ h := h.keep rfl rfl

theorem addTyped_adds (m : Model) (kind : Kind) (name typeName : String) (value : Payload)
    (count : Nat) : m.Adds (m.addTyped kind name typeName value count)
      ⟨kind, name, some typeName, none, count, value⟩ where
  index := rfl
  rows := by
    show ((m.rows.push _).modify m.rows.size _).toList = _
    rw [Array.toList_modify, Array.toList_push, ← Array.length_toList, modify_last]
  texts := id
  pool _ h := h.keep rfl rfl

theorem addText_known (h : m.TextsKnown) (text : String) : (m.addText text).2.TextsKnown := by
  unfold addText TextPool.add
  cases m.texts.find? text with
  | some index => exact h
  | none =>
    intro t ht
    rcases List.mem_append.mp ht with ht | ht
    · exact Nat.lt_succ_of_lt (h t ht)
    · rw [List.mem_singleton.mp ht]
      exact Nat.lt_succ_self _

/-- A text that is not in the pool yet takes the next reference. -/
theorem addText_from {first : Nat} (h : m.TextsFrom first) (text : String) :
    (m.addText text).2.TextsFrom first := by
  unfold addText TextPool.add
  cases hfind : m.texts.find? text with
  | some index => exact h
  | none =>
    refine ⟨?_, fun i t ht => ?_, ?_⟩
    · show m.supply.next + 1 = first + (m.texts.entries ++ [_]).length
      rw [h.next, List.length_append]
      rfl
    · change (m.texts.entries ++ [_])[i]? = some t at ht
      rcases Nat.lt_trichotomy i m.texts.entries.length with hlt | heq | hgt
      · rw [List.getElem?_append_left hlt] at ht
        exact h.reference i t ht
      · subst heq
        rw [List.getElem?_concat_length] at ht
        obtain rfl := Option.some.inj ht
        exact congrArg Reference.mk h.next
      · rw [List.getElem?_eq_none (by rw [List.length_append]; exact hgt)] at ht
        cases ht
    · show ((m.texts.entries ++ [(_ : PooledText)]).map (·.text)).Nodup
      rw [List.map_append, List.nodup_append_comm]
      exact List.nodup_cons.mpr ⟨TextPool.not_mem_of_find? hfind, h.once⟩

/-- Texts whose references follow one another have references of their own. -/
theorem TextsFrom.nodup {first : Nat} (h : m.TextsFrom first) :
    (m.texts.entries.map (·.reference)).Nodup := by
  rw [List.nodup_iff_getElem?_ne_getElem?]
  intro i j hij hj heq
  rw [List.length_map] at hj
  have hi := List.getElem?_eq_getElem (Nat.lt_trans hij hj)
  have hj := List.getElem?_eq_getElem hj
  rw [List.getElem?_map, List.getElem?_map, hi, hj, Option.map_some, Option.map_some, h.reference i _ hi,
    h.reference j _ hj] at heq
  have hsame := congrArg Reference.id (Option.some.inj heq)
  exact absurd (Nat.add_left_cancel hsame) (Nat.ne_of_lt hij)

theorem addText_adds (m : Model) (name text : String) : m.Adds (m.addString name (some text))
    ⟨.string, name, none, some (m.addText text).1, text.utf8ByteSize, .present⟩ := by
  have hadds := (m.addText text).2.add_adds .string name .present (some (m.addText text).1)
    text.utf8ByteSize
  refine ⟨?_, hadds.rows, fun known => hadds.texts (addText_known known text),
    fun first pooled => hadds.pool first (addText_from pooled text)⟩
  exact hadds.index

theorem addString_adds (m : Model) (name : String) (text : Option String) : ∃ start count,
    m.Adds (m.addString name text)
      ⟨.string, name, none, start, count, if text.isSome then .present else .null⟩ := by
  cases text with
  | none => exact ⟨none, 0, m.add_adds _ _ _ _ _⟩
  | some text => exact ⟨_, _, m.addText_adds name text⟩

end Model

namespace Walk

/-! ### What is put off -/

namespace Deferred

/-- The row of a value that has been put off. -/
def row : Deferred → Nat
  | .object row _ | .sequence row _ _ _ | .dictionary row _ _ _ _ | .dataUnit row _ => row

/-- The kind of that row. -/
def kind : Deferred → Kind
  | .object _ _ => .object
  | .sequence _ _ _ _ => .array
  | .dictionary _ _ _ _ _ => .dictionary
  | .dataUnit _ _ => .dataUnit

/-- What that row holds. -/
def payload : Deferred → Payload
  | .dataUnit _ unit => .dataUnit (.ofText unit.signature)
  | _ => .present

/-- Whether a row is that of a value that has been put off. -/
structure IsOf (item : Deferred) (r : Row) : Prop where
  start : r.start = none
  kind : r.kind = item.kind
  value : r.value = item.payload

/-- Whether a value has no parts but those that are only declared. -/
def Hollow : Deferred → Prop
  | .sequence _ _ items _ => items = []
  | .dictionary _ _ entries _ _ => entries = []
  | _ => False

theorem exists_unit (item : Deferred) (h : item.kind = .dataUnit) :
    ∃ s, item.payload = .dataUnit s := by
  cases item with
  | dataUnit row unit => exact ⟨_, rfl⟩
  | _ => cases h

theorem payload_of_ne (item : Deferred) (h : item.kind ≠ .dataUnit) : item.payload = .present := by
  cases item with
  | dataUnit row unit => exact absurd rfl h
  | _ => rfl

end Deferred

namespace Progress

variable {p p' p'' : Progress} {rows rows' : List Row} {later later' : List Deferred}

/-- Whether a walk has added some rows and put some values off. -/
structure Grows (p p' : Progress) (rows : List Row) (later : List Deferred) : Prop where
  table : p'.model.rows.toList = p.model.rows.toList ++ rows
  deferred : p'.deferred = p.deferred ++ later
  units : p'.units = p.units
  texts : p.model.TextsKnown → p'.model.TextsKnown
  pool : ∀ first, p.model.TextsFrom first → p'.model.TextsFrom first
  fits : ∀ r ∈ rows, r.Fits ∧ (r.start = none ∨ r.kind = .string)
  items : ∀ item ∈ later, ∃ k r, rows[k]? = some r ∧ item.row = p.size + k ∧ item.IsOf r
  once : (later.map Deferred.row).Nodup

/-- Whether none of the rows is that of an object, nor ever leads to one. -/
def Bare (rows : List Row) (later : List Deferred) : Prop :=
  (∀ r ∈ rows, r.kind = .object → r.value ≠ .present) ∧ ∀ item ∈ later, item.Hollow

theorem Grows.size_eq (h : p.Grows p' rows later) : p'.size = p.size + rows.length := by
  have hlength := congrArg List.length h.table
  rwa [List.length_append, Array.length_toList, Array.length_toList] at hlength

theorem Grows.size_le (h : p.Grows p' rows later) : p.size ≤ p'.size :=
  h.size_eq ▸ Nat.le_add_right _ _

theorem Grows.refl (p : Progress) : p.Grows p [] [] where
  table := (List.append_nil _).symm
  deferred := (List.append_nil _).symm
  units := rfl
  texts := id
  pool _ := id
  fits _ hr := absurd hr List.not_mem_nil
  items _ hitem := absurd hitem List.not_mem_nil
  once := List.nodup_nil

theorem Grows.trans (h : p.Grows p' rows later) (h' : p'.Grows p'' rows' later') :
    p.Grows p'' (rows ++ rows') (later ++ later') where
  table := by rw [h'.table, h.table, List.append_assoc]
  deferred := by rw [h'.deferred, h.deferred, List.append_assoc]
  units := h'.units.trans h.units
  texts := fun known => h'.texts (h.texts known)
  pool := fun first pooled => h'.pool first (h.pool first pooled)
  fits := by
    intro r hr
    rcases List.mem_append.mp hr with hr | hr
    · exact h.fits r hr
    · exact h'.fits r hr
  items := by
    intro item hitem
    rcases List.mem_append.mp hitem with hitem | hitem
    · obtain ⟨k, r, hk, hrow, hof⟩ := h.items item hitem
      refine ⟨k, r, ?_, hrow, hof⟩
      rw [List.getElem?_append_left (List.getElem?_eq_some_iff.mp hk).1]
      exact hk
    · obtain ⟨k, r, hk, hrow, hof⟩ := h'.items item hitem
      refine ⟨rows.length + k, r, ?_, ?_, hof⟩
      · rw [List.getElem?_append_right (Nat.le_add_right _ _), Nat.add_sub_cancel_left]
        exact hk
      · rw [hrow, h.size_eq, Nat.add_assoc]
  once := by
    rw [List.map_append, List.nodup_append]
    refine ⟨h.once, h'.once, ?_⟩
    -- What is put off later has a row that is added later.
    rintro a ha b hb rfl
    obtain ⟨item, hitem, rfl⟩ := List.mem_map.mp ha
    obtain ⟨item', hitem', heq⟩ := List.mem_map.mp hb
    obtain ⟨k, r, hk, hrow, -⟩ := h.items item hitem
    obtain ⟨k', r', -, hrow', -⟩ := h'.items item' hitem'
    have hlt := (List.getElem?_eq_some_iff.mp hk).1
    have hsize := h.size_eq
    omega

theorem Bare.nil : Bare [] [] :=
  ⟨fun _ hr => absurd hr List.not_mem_nil, fun _ hitem => absurd hitem List.not_mem_nil⟩

theorem Bare.append (h : Bare rows later) (h' : Bare rows' later') :
    Bare (rows ++ rows') (later ++ later') :=
  ⟨fun r hr => (List.mem_append.mp hr).elim (h.1 r) (h'.1 r),
    fun item hitem => (List.mem_append.mp hitem).elim (h.2 item) (h'.2 item)⟩

/-- Without rows there is nothing that could be put off. -/
theorem Grows.bare (h : p.Grows p' [] later) : Bare [] later := by
  refine ⟨fun _ hr => absurd hr List.not_mem_nil, fun item hitem => ?_⟩
  obtain ⟨k, r, hk, -⟩ := h.items item hitem
  cases hk

/-- A row is added and its value is put off. -/
theorem addDeferred_grows (p : Progress) (add : Model → Nat × Model) (item : Nat → Deferred) {r : Row}
    (h : p.model.Adds (add p.model) r) (fits : r.Fits) (row : (item p.size).row = p.size)
    (of : (item p.size).IsOf r) :
    (p.addDeferred add item).1 = p.size ∧ p.Grows (p.addDeferred add item).2 [r] [item p.size] := by
  have hindex : (add p.model).1 = p.size := h.index
  refine ⟨hindex, ?_⟩
  exact
    { table := h.rows
      deferred := by
        show p.deferred ++ [item (add p.model).1] = _
        rw [hindex]
      units := rfl
      texts := h.texts
      pool := h.pool
      fits := fun _ hs => List.mem_singleton.mp hs ▸ ⟨fits, Or.inl of.start⟩
      items := by
        intro i hi
        rw [List.mem_singleton.mp hi]
        exact ⟨0, r, rfl, row, of⟩
      once := List.nodup_singleton _ }

end Progress

end Walk

end ObjectPack
