import ObjectPack.Proofs.Model.Tour

/-!
# Other rows in a range

The fields of an object are the rows of its range (`Model.fields`).  Whatever else a table holds, the range cuts it in
three: what stands in front of the fields, the fields, and what stands behind them (`Model.rows_eq_replaced`).
Folding and sorting put other rows in the place of the fields, and folding adds rows at the end
(`Model.replaced`).  Where each row of such a table stands is all that is said here; whether rows form a forest does
not matter.
-/

namespace ObjectPack

open Outcome

/-- The range of an object. -/
theorem Row.members_of_object {r : Row} {start : Nat} (kind : r.kind = .object) (hstart : r.start = some start)
    (small : start + r.count < Model.indexLimit) : r.members = .ok ⟨start, r.count⟩ := by
  rw [Row.members_of_start hstart (by rw [kind]; decide), Row.ownedCount_of_object kind]
  exact Model.spanFrom_of_lt small

namespace Model

variable {m : Model} {i j k : Nat} {owner row : Row} {span : Span} {l added before behind : List Row}

theorem row_of_split (rows : m.rows.toList = before ++ l ++ behind) {x : Nat} {r : Row}
    (hr : l[x]? = some r) : m.row (before.length + x) = .ok r := by
  have hx := (List.getElem?_eq_some_iff.mp hr).1
  rw [row_eq_ok, rows, List.append_assoc, List.getElem?_append_right (Nat.le_add_right _ _),
    Nat.add_sub_cancel_left, List.getElem?_append_left hx]
  exact hr

theorem length_rows (m : Model) : m.rows.toList.length = m.size := Array.length_toList

/-- The model with other rows. -/
def withRows (m : Model) (l : List Row) : Model := { m with rows := l.toArray }

@[simp] theorem toList_withRows (m : Model) (l : List Row) : (m.withRows l).rows.toList = l := rfl

@[simp] theorem withRows_withRows (m : Model) (l l' : List Row) : (m.withRows l).withRows l' = m.withRows l' := rfl

theorem withRows_eq_self (rows : m.rows.toList = l) : m.withRows l = m := by
  rw [withRows, ← rows, Array.toArray_toList]

theorem size_withRows (m : Model) (l : List Row) : (m.withRows l).size = l.length := rfl

/-! ### Fields -/

/-- The rows of the fields of an object. -/
def fields (m : Model) (o : Row) : List Row :=
  o.start.elim [] fun start => (m.rows.toList.drop start).take o.count

theorem getElem?_fields {start x : Nat} (hstart : owner.start = some start) (hx : x < owner.count) :
    (m.fields owner)[x]? = m.rows.toList[start + x]? := by
  rw [fields, hstart, Option.elim_some, List.getElem?_take_of_lt hx, List.getElem?_drop]

theorem length_fields (wellFormed : ∀ j, owner.Owns j → j < m.size) (kind : owner.kind = .object)
    {start : Nat} (hstart : owner.start = some start) : (m.fields owner).length = owner.count := by
  rw [fields, hstart, Option.elim_some, List.length_take, List.length_drop]
  by_cases hzero : owner.count = 0
  · omega
  · have hinside := wellFormed (start + owner.count - 1)
      ⟨start, hstart, by omega, by rw [Row.ownedCount_of_object kind]; omega⟩
    rw [length_rows]
    omega

/-- The fields of an object are the rows of its range. -/
theorem fields_eq {start : Nat} (hstart : owner.start = some start) (hcount : owner.count = l.length)
    (rows : ∀ x r, l[x]? = some r → m.row (start + x) = .ok r) : m.fields owner = l := by
  apply List.ext_getElem?
  intro x
  by_cases hx : x < l.length
  · rw [getElem?_fields hstart (hcount ▸ hx), List.getElem?_eq_getElem hx]
    exact row_eq_ok.mp (rows x _ (List.getElem?_eq_getElem hx))
  · rw [List.getElem?_eq_none (Nat.le_of_not_lt hx), fields, hstart, Option.elim_some]
    apply List.getElem?_eq_none
    have hle := List.length_take_le owner.count (m.rows.toList.drop start)
    omega

theorem fields_of_split (rows : m.rows.toList = before ++ l ++ behind)
    (hstart : owner.start = some before.length) (hcount : owner.count = l.length) :
    m.fields owner = l :=
  fields_eq hstart hcount fun _ _ hr => row_of_split rows hr

theorem exists_of_mem_fields (kind : owner.kind = .object) (mem : row ∈ m.fields owner) :
    ∃ j, owner.Owns j ∧ m.row j = .ok row := by
  obtain ⟨x, hx⟩ := List.getElem?_of_mem mem
  cases hstart : owner.start with
  | none =>
    rw [fields, hstart] at hx
    cases hx
  | some start =>
    have hlt : x < owner.count := by
      have hlength := (List.getElem?_eq_some_iff.mp hx).1
      rw [fields, hstart, Option.elim_some, List.length_take] at hlength
      omega
    rw [getElem?_fields hstart hlt] at hx
    refine ⟨start + x, ⟨start, hstart, by omega, ?_⟩, row_eq_ok.mpr hx⟩
    rw [Row.ownedCount_of_object kind]
    omega

theorem mem_fields {j : Nat} (kind : owner.kind = .object) (owns : owner.Owns j) (hrow : m.row j = .ok row) :
    row ∈ m.fields owner := by
  obtain ⟨start, hstart, hle, hlt⟩ := owns
  obtain ⟨x, rfl⟩ := Nat.exists_eq_add_of_le hle
  rw [Row.ownedCount_of_object kind] at hlt
  refine List.mem_of_getElem? (i := x) ?_
  rw [getElem?_fields hstart (by omega)]
  exact row_eq_ok.mp hrow

/-- The fields of an object are the rows between two indices. -/
theorem fields_eq_take (kind : owner.kind = .object) (members : owner.members = .ok span) :
    m.fields owner = (m.rows.toList.drop span.start).take span.length := by
  obtain ⟨rfl, hnone⟩ | ⟨start, hstart, -, rfl⟩ := Row.members_cases members
  · have hempty : m.fields owner = [] := by
      refine List.eq_nil_iff_forall_not_mem.mpr fun r hr => ?_
      obtain ⟨j, howns, -⟩ := exists_of_mem_fields kind hr
      exact hnone j howns
    rw [hempty]
    exact List.take_zero.symm
  · rw [fields, hstart, Option.elim_some, Row.ownedCount_of_object kind]

/-! ### Other rows -/

/-- The rows of a table with `l` in the place of a range and `added` behind the table. -/
def replaced (m : Model) (span : Span) (l added : List Row) : List Row :=
  m.rows.toList.take span.start ++ l ++ m.rows.toList.drop span.stop ++ added

/-- The range cuts the table in three. -/
theorem rows_eq_replaced (kind : owner.kind = .object) (members : owner.members = .ok span) :
    m.rows.toList = m.replaced span (m.fields owner) [] := by
  have hstop : span.stop = span.start + span.length := rfl
  rw [replaced, List.append_nil, fields_eq_take kind members, List.append_assoc, hstop, ← List.drop_drop,
    List.take_append_drop, List.take_append_drop]

section

variable (kind : owner.kind = .object) (members : owner.members = .ok span)
  (inside : ∀ j, owner.Owns j → j < m.size)

include members inside

theorem stop_le_size (nonempty : span.length ≠ 0) : span.stop ≤ m.size := by
  have hstop : span.stop = span.start + span.length := rfl
  have hlast := inside _ ((Row.owns_iff members _).mpr ⟨span.length - 1, by omega, rfl⟩)
  omega

theorem length_before (nonempty : span.length ≠ 0) : (m.rows.toList.take span.start).length = span.start := by
  have hstop : span.stop = span.start + span.length := rfl
  have hinside := stop_le_size members inside nonempty
  rw [List.length_take, length_rows]
  omega

include kind

theorem length_fields_of_members : (m.fields owner).length = span.length := by
  have hstop : span.stop = span.start + span.length := rfl
  rw [fields_eq_take kind members, List.length_take, List.length_drop, length_rows]
  by_cases hempty : span.length = 0
  · omega
  · have hinside := stop_le_size members inside hempty
    omega

/-- The fields are the rows that have been put into the range. -/
theorem fields_withRows (length : l.length = span.length) :
    (m.withRows (m.replaced span l [])).fields owner = l := by
  by_cases hempty : span.length = 0
  · rw [List.eq_nil_of_length_eq_zero (length.trans hempty), fields_eq_take kind members, hempty, List.take_zero]
  · obtain ⟨hstart, hcount⟩ := range_of_members kind members (Nat.pos_of_ne_zero hempty)
    have hrows : (m.withRows (m.replaced span l [])).rows.toList =
        m.rows.toList.take span.start ++ l ++ m.rows.toList.drop span.stop := List.append_nil _
    refine fields_of_split hrows ?_ (hcount.trans length.symm)
    rw [length_before members inside hempty]
    exact hstart

end

/-! ### Ranges that are apart from their objects -/

/-- Whether row `i` is that of an object whose range lies inside the table and does not hold the object itself. -/
structure HasRange (m : Model) (i : Nat) (owner : Row) (span : Span) : Prop where
  object : m.IsObject i owner
  members : owner.members = .ok span
  inside : span.stop ≤ m.size
  apart : i < span.start ∨ span.stop ≤ i

/-- In a well-formed table the range of an object is apart from it. -/
theorem WellFormed.hasRange {top : Nat} (h : m.WellFormed top) (object : m.IsObject i owner)
    (members : owner.members = .ok span) (nonempty : span.length ≠ 0) : m.HasRange i owner span where
  object := object
  members := members
  inside := stop_le_size members (h.inside i owner object.1) nonempty
  apart := by
    have hstop : span.stop = span.start + span.length := rfl
    have hself := h.notItself i owner object.1 object.kind_ne
    rw [Row.owns_iff members] at hself
    by_contra hinside
    exact hself ⟨i - span.start, by omega, by omega⟩

namespace HasRange

variable (h : m.HasRange i owner span)

include h

theorem members_eq : m.members i = .ok span := (Model.members_eq h.object.1).trans h.members

theorem owns_iff (j : Nat) : owner.Owns j ↔ span.start ≤ j ∧ j < span.stop := by
  have hstop : span.stop = span.start + span.length := rfl
  rw [Row.owns_iff h.members]
  constructor
  · rintro ⟨k, hk, rfl⟩
    omega
  · rintro ⟨hlow, hhigh⟩
    exact ⟨j - span.start, by omega, by omega⟩

theorem lt_size_of_owns (j : Nat) (owns : owner.Owns j) : j < m.size :=
  Nat.lt_of_lt_of_le ((h.owns_iff j).mp owns).2 h.inside

theorem length_before : (m.rows.toList.take span.start).length = span.start := by
  have hstop : span.stop = span.start + span.length := rfl
  have hinside := h.inside
  rw [List.length_take, length_rows]
  omega

theorem length_fields : (m.fields owner).length = span.length :=
  length_fields_of_members h.object.2 h.members h.lt_size_of_owns

theorem rows : m.rows.toList =
    m.rows.toList.take span.start ++ m.fields owner ++ m.rows.toList.drop span.stop :=
  (rows_eq_replaced h.object.2 h.members).trans (List.append_nil _)

theorem replaced_fields : m.replaced span (m.fields owner) [] = m.rows.toList :=
  (rows_eq_replaced h.object.2 h.members).symm

theorem row_field (hrow : (m.fields owner)[k]? = some row) : m.row (span.start + k) = .ok row := by
  have hget := row_of_split h.rows hrow
  rwa [h.length_before] at hget

theorem fields_eq (length : l.length = span.length)
    (rows : ∀ k r, l[k]? = some r → m.row (span.start + k) = .ok r) : m.fields owner = l := by
  refine List.ext_getElem (h.length_fields.trans length.symm) fun k hk hk' => ?_
  have hfield := h.row_field (List.getElem?_eq_getElem hk)
  exact Except.ok.inj (hfield.symm.trans (rows k _ (List.getElem?_eq_getElem hk')))

theorem length_replaced (length : l.length = span.length) (added : List Row) :
    (m.replaced span l added).length = m.size + added.length := by
  have hstop : span.stop = span.start + span.length := rfl
  have hinside := h.inside
  simp only [replaced, List.length_append, h.length_before, List.length_drop, length_rows, length]
  omega

/-- The rows of the range. -/
theorem getElem?_replaced (length : l.length = span.length) (hk : k < span.length) :
    (m.replaced span l added)[span.start + k]? = l[k]? := by
  have hbefore := h.length_before
  rw [replaced, List.append_assoc, List.append_assoc, List.getElem?_append_right (by omega), hbefore,
    Nat.add_sub_cancel_left, List.getElem?_append_left (by omega)]

/-- Rows in front of the range and behind it are those that have been there. -/
theorem getElem?_replaced_outside (length : l.length = span.length)
    (outside : j < span.start ∨ span.stop ≤ j) (hj : j < m.size) :
    (m.replaced span l added)[j]? = m.rows.toList[j]? := by
  have hstop : span.stop = span.start + span.length := rfl
  have hbefore := h.length_before
  have hfields := h.length_fields
  rw [replaced, Rearranges.getElem?_replaced (length.trans hfields.symm) (by omega) (by
    rw [← h.rows, length_rows]
    exact hj), ← h.rows]

/-- Rows that have been added. -/
theorem getElem?_replaced_added (length : l.length = span.length) (k : Nat) :
    (m.replaced span l added)[m.size + k]? = added[k]? := by
  have hlength := h.length_replaced length []
  rw [replaced, List.append_nil, List.length_nil, Nat.add_zero] at hlength
  rw [replaced, List.getElem?_append_right (by omega), hlength, Nat.add_sub_cancel_left]

/-- An object keeps its range where other rows are put into it. -/
theorem withRows (length : l.length = span.length) : (m.withRows (m.replaced span l [])).HasRange i owner span where
  object := by
    refine ⟨row_eq_ok.mpr ?_, h.object.2⟩
    rw [toList_withRows, h.getElem?_replaced_outside length h.apart (lt_size_of_row h.object.1)]
    exact row_eq_ok.mp h.object.1
  members := h.members
  inside := by
    rw [size_withRows, h.length_replaced length, List.length_nil, Nat.add_zero]
    exact h.inside
  apart := h.apart

/-- Its fields are the rows that have been put into its range. -/
theorem fields_withRows (length : l.length = span.length) :
    (m.withRows (m.replaced span l [])).fields owner = l :=
  Model.fields_withRows h.object.2 h.members h.lt_size_of_owns length

end HasRange

end Model

end ObjectPack
