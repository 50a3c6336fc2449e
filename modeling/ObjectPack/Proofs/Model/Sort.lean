import Mathlib.Logic.Function.Iterate
import ObjectPack.Proofs.Model.Range
import ObjectPack.Proofs.Model.Total

/-!
# Sorting as a function of the fields

How the fields of an object are sorted is a matter of their alignments, kinds and names alone.  A pass
over the fields in the table is a function of the list of their rows (`Model.bubblePass`), which treats rows of the
same alignment, kind and name alike.  So a turn puts another list in the place of the fields, and tells whether
its first pass has changed that list (`Model.sortFields_eq`).
-/

namespace ObjectPack

open Outcome

/-- The order of fields: descending alignment, then kind, then name. -/
def Row.order (a b : Row) : Ordering :=
  (compare (b.alignment?.getD 0) (a.alignment?.getD 0)).then
    ((compare a.kind.index b.kind.index).then (compare a.name b.name))

instance : Std.TransCmp Row.order :=
  inferInstanceAs (Std.TransCmp (compareLex (fun a b => compareOn (fun r : Row => r.alignment?.getD 0) b a)
    (compareLex (compareOn fun r : Row => r.kind.index) (compareOn fun r : Row => r.name))))

theorem Row.order_self (a : Row) : a.order a = .eq := Std.ReflCmp.compare_self

namespace Model

variable {m : Model} {i j n x y : Nat} {a b owner row : Row} {before l rest behind : List Row} {span : Span}
  {moved : Bool}

theorem alignment_eq_ok (hrow : m.row i = .ok row) (h : m.alignment i = .ok n) : row.alignment? = some n := by
  unfold alignment at h
  obtain ⟨row', hrow', h⟩ := bind_eq_ok.mp h
  obtain rfl := Except.ok.inj (hrow.symm.trans hrow')
  split at h
  · rename_i n' halignment
    rw [halignment, pure_eq_ok.mp h]
  · exact absurd h throw_ne_ok

/-- Comparing two rows of the table compares what they hold. -/
theorem compareRows_ok (hi : m.row i = .ok a) (hj : m.row j = .ok b) (first : a.alignment? = some x)
    (second : b.alignment? = some y) : m.compareRows i j = .ok (a.order b) := by
  unfold compareRows
  simp only [alignment_eq hi first, alignment_eq hj second, hi, hj, bind_eq_ok, Except.ok.injEq,
    exists_eq_left', pure_eq_ok]
  rw [Row.order, first, second]
  rfl

/-! ### Passes over lists -/

/-- Takes a row through a list up to the first that has to stand behind it, and goes on with that one. -/
def bubble (a : Row) : List Row → List Row
  | [] => [a]
  | b :: rest => if a.order b = .gt then b :: bubble a rest else a :: bubble b rest

/-- One pass over the fields of an object. -/
def bubblePass : List Row → List Row
  | [] => []
  | a :: rest => bubble a rest

/-- The fields of an object after its turn. -/
def sorted (l : List Row) : List Row := bubblePass^[l.length] l

theorem bubble_perm (a : Row) (l : List Row) : (bubble a l).Perm (a :: l) := by
  induction l generalizing a with
  | nil => exact .refl _
  | cons b rest ih =>
    unfold bubble
    split
    · exact ((ih a).cons b).trans (.swap a b rest)
    · exact (ih b).cons a

theorem bubblePass_perm (l : List Row) : (bubblePass l).Perm l := by
  cases l with
  | nil => exact .refl _
  | cons a rest => exact bubble_perm a rest

theorem iterate_perm {f : List Row → List Row} (perm : ∀ l, (f l).Perm l) (n : Nat) (l : List Row) :
    (f^[n] l).Perm l := by
  induction n generalizing l with
  | zero => exact .refl l
  | succ n ih =>
    rw [Function.iterate_succ_apply]
    exact (ih (f l)).trans (perm l)

theorem sorted_perm (l : List Row) : (sorted l).Perm l := iterate_perm bubblePass_perm _ l

theorem length_sorted (l : List Row) : (sorted l).length = l.length := (sorted_perm l).length_eq

theorem length_bubblePass (l : List Row) : (bubblePass l).length = l.length := (bubblePass_perm l).length_eq

theorem bubblePass_of_length_lt_two (short : l.length < 2) : bubblePass l = l := by
  match l with
  | [] => rfl
  | [a] => rfl
  | a :: b :: rest =>
    simp only [List.length_cons] at short
    omega

/-! ### Passes over the table -/

/-- Whether all rows have alignments. -/
def AllAligned (l : List Row) : Prop := ∀ r ∈ l, ∃ n, r.alignment? = some n

/-- Fields have alignments where enumerations have values. -/
theorem aligned_fields (kind : owner.kind = .object)
    (enums : ∀ i r, m.row i = .ok r → r.kind = .enum → ∃ e v, r.value = .enum e v) :
    AllAligned (m.fields owner) := by
  intro r hr
  obtain ⟨j, -, hrow⟩ := exists_of_mem_fields kind hr
  exact Row.exists_alignment (enums j r hrow)

theorem AllAligned.perm (h : AllAligned l) (perm : l.Perm rest) : AllAligned rest := fun r hr =>
  h r (perm.mem_iff.mpr hr)

theorem swap_neighbours (rows : m.rows.toList = before ++ (a :: b :: rest) ++ behind) :
    m.swap before.length (before.length + 1) = .ok (m.withRows (before ++ [b] ++ (a :: rest) ++ behind)) := by
  have ha : m.row before.length = .ok a := row_of_split rows (x := 0) rfl
  have hb : m.row (before.length + 1) = .ok b := row_of_split rows (x := 1) rfl
  have hset : (m.rows.setIfInBounds before.length b).setIfInBounds (before.length + 1) a =
      (before ++ [b] ++ (a :: rest) ++ behind).toArray := by
    apply Array.toList_inj.mp
    rw [Array.toList_setIfInBounds, Array.toList_setIfInBounds, rows]
    simp
  unfold swap
  rw [ha, hb]
  exact congrArg (fun rows => Except.ok { m with rows := rows }) hset

/-- What a pass makes of the table, and whether it tells that rows have moved. -/
theorem sortPass_eq (rows : m.rows.toList = before ++ (a :: rest) ++ behind)
    (aligned : AllAligned (a :: rest)) :
    sortPass rest.length before.length m moved =
      .ok (m.withRows (before ++ bubble a rest ++ behind), moved || bubble a rest ≠ a :: rest) := by
  induction rest generalizing before a m moved with
  | nil =>
    rw [bubble, withRows_eq_self rows]
    simp [sortPass]
  | cons b rest ih =>
    have hi : m.row before.length = .ok a := row_of_split rows (x := 0) rfl
    have hj : m.row (before.length + 1) = .ok b := row_of_split rows (x := 1) rfl
    obtain ⟨x, hx⟩ := aligned a List.mem_cons_self
    obtain ⟨y, hy⟩ := aligned b (List.mem_cons_of_mem _ List.mem_cons_self)
    have hstep : ∀ c : Row, before.length + 1 = (before ++ [c]).length := fun c => by simp
    have hsplit : ∀ (c : Row) (l : List Row), before ++ [c] ++ l ++ behind = before ++ (c :: l) ++ behind :=
      fun c l => by rw [List.append_assoc before, List.singleton_append]
    have hrest : AllAligned (b :: rest) := fun r hr => aligned r (List.mem_cons_of_mem _ hr)
    rw [List.length_cons, sortPass, compareRows_ok hi hj hx hy, bubble]
    by_cases hgreater : a.order b = .gt
    · -- The fields are exchanged, and they are different ones.
      have hdiffer : b ≠ a := by
        rintro rfl
        rw [Row.order_self] at hgreater
        cases hgreater
      have hcarried : AllAligned (a :: rest) := by
        intro r hr
        rcases List.mem_cons.mp hr with rfl | hr
        · exact ⟨x, hx⟩
        · exact hrest r (List.mem_cons_of_mem _ hr)
      rw [hgreater, if_pos rfl, swap_neighbours rows, hsplit]
      have hpass := @ih _ a (before ++ [b]) true (toList_withRows m _) hcarried
      rw [← hstep b, hsplit] at hpass
      refine hpass.trans ?_
      simp [withRows, hdiffer]
    · have hpass := @ih m b (before ++ [a]) moved (rows.trans (hsplit a _).symm) hrest
      rw [← hstep a, hsplit] at hpass
      rw [if_neg hgreater]
      have hflag : (bubble b rest ≠ b :: rest) ↔ a :: bubble b rest ≠ a :: b :: rest := by simp
      rw [decide_eq_decide.mpr hflag] at hpass
      cases horder : a.order b with
      | gt => exact absurd horder hgreater
      | lt | eq => exact hpass

/-- What passes make of the table, and whether they tell that rows have moved. -/
theorem sortPasses_eq (start : span.start = before.length) (length : span.length = l.length)
    (rows : m.rows.toList = before ++ l ++ behind) (aligned : AllAligned l) : sortPasses span n m moved =
      .ok (m.withRows (before ++ bubblePass^[n] l ++ behind), moved || decide (n ≠ 0 ∧ bubblePass l ≠ l)) := by
  induction n generalizing m l moved with
  | zero =>
    rw [Function.iterate_zero, id, withRows_eq_self rows]
    simp [sortPasses]
  | succ n ih =>
    have hpass : sortPass (span.length - 1) span.start m false =
        .ok (m.withRows (before ++ bubblePass l ++ behind), decide (bubblePass l ≠ l)) := by
      rw [length, start]
      cases l with
      | nil =>
        rw [bubblePass, withRows_eq_self rows]
        simp [sortPass]
      | cons a rest => exact sortPass_eq rows aligned
    rw [sortPasses, hpass, Function.iterate_succ_apply]
    by_cases hsame : bubblePass l = l
    · -- A pass that changes nothing is the last one.
      rw [hsame, Function.iterate_fixed hsame]
      simp [pure, Except.pure, bind, Except.bind]
    · have hrest := @ih (m.withRows (before ++ bubblePass l ++ behind)) (bubblePass l) true
        (length.trans (length_bubblePass l).symm) rfl (aligned.perm (bubblePass_perm _).symm)
      rw [decide_eq_true hsame]
      refine hrest.trans ?_
      simp [withRows, hsame]

/-- The turn of an object puts the sorted fields into its range, and tells whether a pass over them has changed
anything. -/
theorem sortFields_eq (object : m.IsObject i owner) (members : owner.members = .ok span)
    (inside : ∀ j, owner.Owns j → j < m.size) (aligned : AllAligned (m.fields owner)) : m.sortFields i =
      .ok (m.withRows (m.replaced span (sorted (m.fields owner)) []),
        decide (bubblePass (m.fields owner) ≠ m.fields owner)) := by
  have hlength := length_fields_of_members object.2 members inside
  have hrows := rows_eq_replaced object.2 members (m := m)
  unfold sortFields
  rw [members_eq object.1, members]
  by_cases hshort : span.length < 2
  · -- There is nothing to compare.
    have hsame := bubblePass_of_length_lt_two (hlength.trans_lt hshort)
    rw [sorted, Function.iterate_fixed hsame, withRows_eq_self hrows]
    simp [hshort, hsame, pure, Except.pure, bind, Except.bind]
  · have hpasses : sortPasses span span.length m false = _ :=
      sortPasses_eq (length_before members inside (by omega)).symm hlength.symm (hrows.trans (List.append_nil _))
        aligned
    rw [replaced, List.append_nil, sorted, hlength]
    simp [hshort, hpasses, bind, Except.bind, show span.length ≠ 0 by omega]

/-- The turn of an object sorts the list of its fields. -/
theorem sortFields_fields {result : Model × Bool} (object : m.IsObject i owner)
    (inside : ∀ j, owner.Owns j → j < m.size) (aligned : AllAligned (m.fields owner))
    (h : m.sortFields i = .ok result) : result.1.fields owner = sorted (m.fields owner) := by
  obtain ⟨span, hspan, -⟩ := bind_eq_ok.mp h
  rw [members_eq object.1] at hspan
  obtain rfl := Except.ok.inj ((sortFields_eq object hspan inside aligned).symm.trans h)
  refine fields_withRows object.2 hspan inside ?_
  rw [length_sorted, length_fields_of_members object.2 hspan inside]

end Model

end ObjectPack
