import ObjectPack.Proofs.Bytes
import ObjectPack.Proofs.Model.Ranked
import ObjectPack.Proofs.Sorting

/-!
# Sorting is stable

The fields of an object are sorted by exchanging neighbours until a pass exchanges none.  That is the stable sort
by descending alignment, kind and name, where names are compared byte by byte (`Model.sortFields_stable`): fields
of one alignment, kind and name stay in their order (`Model.filter_sorted`), and there is only one way to sort
and keep this order.  The passes come to their end by themselves: as many as there are fields always suffice, and
where one exchanges none the fields were in order before it (`Model.sortPasses_sorted`).
-/

namespace ObjectPack

open Outcome

namespace Row

variable {a b c : Row}

/-- Whether a field may stand in front of another one: it is more aligned, or as aligned and of a kind with a
smaller index, or of the same kind with a name whose bytes do not come later. -/
def mayPrecede (a b : Row) : Bool :=
  let first := a.alignment?.getD 0
  let second := b.alignment?.getD 0
  second < first || second = first && (a.kind.index < b.kind.index ||
    a.kind.index = b.kind.index && Bytes.ofText a.name ≤ Bytes.ofText b.name)

theorem mayPrecede_iff : a.mayPrecede b = true ↔ a.Before b := by
  unfold mayPrecede Before order
  simp only [Bool.or_eq_true, Bool.and_eq_true, decide_eq_true_eq, Bytes.ofText_le_iff]
  rcases lt_trichotomy (b.alignment?.getD 0) (a.alignment?.getD 0) with h | h | h
  · rw [compare_lt_iff_lt.mpr h]
    simp [h]
  · rw [compare_eq_iff_eq.mpr h]
    rcases lt_trichotomy a.kind.index b.kind.index with hk | hk | hk
    · rw [compare_lt_iff_lt.mpr hk]
      simp [h, hk]
    · rw [compare_eq_iff_eq.mpr hk]
      simp only [h, hk, lt_irrefl, true_and, false_or]
      exact compare_le_iff_le.symm
    · rw [compare_gt_iff_gt.mpr hk]
      simp [h, hk.not_gt, hk.ne']
  · rw [compare_gt_iff_gt.mpr h]
    simp [h.not_gt, h.ne']

theorem mayPrecede_total (a b : Row) : a.mayPrecede b = true ∨ b.mayPrecede a = true := by
  rw [mayPrecede_iff, mayPrecede_iff]
  cases h : a.order b with
  | gt => exact Or.inr (before_of_gt h)
  | _ =>
    left
    rw [Before, h]
    decide

theorem mayPrecede_trans (a b c : Row) (h : a.mayPrecede b = true) (h' : b.mayPrecede c = true) :
    a.mayPrecede c = true :=
  mayPrecede_iff.mpr ((mayPrecede_iff.mp h).trans (mayPrecede_iff.mp h'))

end Row

namespace Model

variable {m m' : Model} {i : Nat} {a b owner row : Row} {l : List Row} {span : Span}

/-! ### Lists -/

theorem filter_bubble {p : Row → Bool} (alike : ∀ a b, p a = true → p b = true → a.Before b) (a : Row)
    (l : List Row) : (bubble a l).filter p = (a :: l).filter p := by
  induction l generalizing a with
  | nil => rfl
  | cons b rest ih =>
    unfold bubble
    split
    · rename_i hgreater
      -- A field passes another one only if they are not alike.
      have hdiffer : ¬ (p a = true ∧ p b = true) := fun h => alike a b h.1 h.2 hgreater
      rw [List.filter_cons, ih]
      simp only [List.filter_cons]
      split <;> split <;> first | rfl | exact absurd ⟨‹_›, ‹_›⟩ hdiffer
    · rw [List.filter_cons, ih, ← List.filter_cons]

theorem filter_bubblePass {p : Row → Bool} (alike : ∀ a b, p a = true → p b = true → a.Before b)
    (l : List Row) : (bubblePass l).filter p = l.filter p := by
  cases l with
  | nil => rfl
  | cons a rest => exact filter_bubble alike a rest

/-- Sorting keeps the order of fields that are alike. -/
theorem filter_sorted {p : Row → Bool} (alike : ∀ a b, p a = true → p b = true → a.Before b)
    (l : List Row) : (sorted l).filter p = l.filter p := by
  have hpasses : ∀ n l, (bubblePass^[n] l).filter p = l.filter p := by
    intro n
    induction n with
    | zero => exact fun _ => rfl
    | succ n ih =>
      intro l
      rw [Function.iterate_succ_apply, ih, filter_bubblePass alike]
  exact hpasses l.length l

/-- The turn of an object is the stable sort of its fields. -/
theorem sorted_eq_mergeSort (l : List Row) : sorted l = l.mergeSort Row.mayPrecede := by
  refine Sorting.eq_mergeSort Row.mayPrecede_total Row.mayPrecede_trans (sorted_perm l)
    ((sorted_pairwise l).imp Row.mayPrecede_iff.mpr) fun a => filter_sorted (fun b c hb hc => ?_) l
  simp only [Bool.and_eq_true, Row.mayPrecede_iff] at hb hc
  exact hb.2.trans hc.1

theorem bubblePass_of_pairwise (h : l.Pairwise Row.Before) : bubblePass l = l := by
  cases l with
  | nil => rfl
  | cons a rest => exact bubble_of_pairwise h

theorem bubblePass_sorted (l : List Row) : bubblePass (sorted l) = sorted l :=
  bubblePass_of_pairwise (sorted_pairwise l)

/-- A pass changes nothing iff the fields are in order. -/
theorem bubblePass_eq_self_iff : bubblePass l = l ↔ l.Pairwise Row.Before := by
  refine ⟨fun h => ?_, bubblePass_of_pairwise⟩
  have hsorted : sorted l = l := Function.iterate_fixed h l.length
  exact hsorted ▸ sorted_pairwise l

theorem sorted_eq_self_iff : sorted l = l ↔ l.Pairwise Row.Before :=
  ⟨fun h => h ▸ sorted_pairwise l, fun h => Function.iterate_fixed (bubblePass_of_pairwise h) l.length⟩

/-- Where the first pass changes nothing, no pass does. -/
theorem bubblePass_ne_self_iff : bubblePass l ≠ l ↔ sorted l ≠ l :=
  not_congr (bubblePass_eq_self_iff.trans sorted_eq_self_iff.symm)

/-- There are never more passes needed than there are fields. -/
theorem iterate_bubblePass {n : Nat} (enough : l.length ≤ n) : bubblePass^[n] l = sorted l := by
  obtain ⟨k, rfl⟩ := Nat.exists_eq_add_of_le enough
  rw [Nat.add_comm, Function.iterate_add_apply]
  exact Function.iterate_fixed (bubblePass_sorted l) k

/-! ### Tables -/

/-- As many passes as there are fields sort them, and more do nothing else. -/
theorem sortPasses_sorted {n : Nat} (range : m.HasRange i owner span) (aligned : AllAligned (m.fields owner))
    (enough : span.length ≤ n) : sortPasses span n m false =
      .ok (m.withRows (m.replaced span (sorted (m.fields owner)) []),
        decide (sorted (m.fields owner) ≠ m.fields owner)) := by
  have hlength := range.length_fields
  have hflag : n ≠ 0 ∧ bubblePass (m.fields owner) ≠ m.fields owner ↔ sorted (m.fields owner) ≠ m.fields owner := by
    rw [← bubblePass_ne_self_iff, and_iff_right_iff_imp]
    rintro hmoved rfl
    exact hmoved (bubblePass_of_length_lt_two (by omega))
  rw [sortPasses_eq range.length_before.symm hlength.symm range.rows aligned,
    iterate_bubblePass (hlength.trans_le enough), replaced, List.append_nil, decide_eq_decide.mpr hflag,
    Bool.false_or]

/-- Sorting the fields of an object tells whether they have been out of order. -/
theorem HasRange.sortFields_eq (range : m.HasRange i owner span) (aligned : AllAligned (m.fields owner)) :
    m.sortFields i = .ok (m.withRows (m.replaced span (sorted (m.fields owner)) []),
      decide (sorted (m.fields owner) ≠ m.fields owner)) := by
  rw [Model.sortFields_eq range.object range.members range.lt_size_of_owns aligned,
    decide_eq_decide.mpr bubblePass_ne_self_iff]

/-- Sorting the fields of an object always comes to an end, and leaves in its range the stable sort of the fields
by descending alignment, kind and name.  It tells whether any row has moved; another time it moves none. -/
theorem sortFields_stable (range : m.HasRange i owner span)
    (enums : ∀ r ∈ m.fields owner, r.kind = .enum → ∃ e v, r.value = .enum e v) : ∃ m' moved,
      m.sortFields i = .ok (m', moved) ∧
      m' = m.withRows (m.rows.toList.take span.start ++ (m.fields owner).mergeSort Row.mayPrecede ++
        m.rows.toList.drop span.stop) ∧
      (moved = true ↔ ∃ j, m'.row j ≠ m.row j) ∧ m'.sortFields i = .ok (m', false) ∧
      ∀ limit, span.length ≤ limit → sortPasses span limit m false = .ok (m', moved) := by
  have haligned : AllAligned (m.fields owner) := fun r hr => Row.exists_alignment (enums r hr)
  have hlength : (sorted (m.fields owner)).length = span.length :=
    (length_sorted _).trans range.length_fields
  refine ⟨_, _, range.sortFields_eq haligned, ?_, ?_, ?_, fun limit => sortPasses_sorted range haligned⟩
  · rw [replaced, List.append_nil, sorted_eq_mergeSort]
  · rw [decide_eq_true_iff]
    constructor
    · intro hmoved
      by_contra hnone
      have hsame : ∀ j, (m.withRows (m.replaced span (sorted (m.fields owner)) [])).row j = m.row j :=
        fun j => by_contra fun hj => hnone ⟨j, hj⟩
      refine hmoved ((range.fields_withRows hlength).symm.trans ?_)
      exact (range.withRows hlength).fields_eq range.length_fields fun k r hr =>
        (hsame _).trans (range.row_field hr)
    · rintro ⟨j, hj⟩ hsame
      refine hj ?_
      rw [hsame, range.replaced_fields, withRows_eq_self rfl]
  · -- The fields are sorted now.
    have hfields := range.fields_withRows hlength
    have hagain : sorted (sorted (m.fields owner)) = sorted (m.fields owner) :=
      sorted_eq_self_iff.mpr (sorted_pairwise _)
    have hsecond := (range.withRows hlength).sortFields_eq (by
      rw [hfields]
      exact haligned.perm (sorted_perm _).symm)
    rw [hfields, hagain] at hsecond
    have hstays := (range.withRows hlength).replaced_fields
    rw [hfields] at hstays
    rw [hstays, withRows_eq_self rfl] at hsecond
    exact hsecond.trans (by simp)

/-- An object whose fields are out of order, an enumeration of 16 bits and two rows of one kind and one name among
them, and a row behind its range. -/
def unsortedFields : Model :=
  Model.empty.withRows [⟨.object, "owner", some "Owner", some 1, 5, .present⟩,
    ⟨.uint8, "same", none, none, 1, .scalar (.u8 1)⟩,
    ⟨.enum, "mode", some "Mode", none, 1, .enum ⟨"Mode", .u16, [("on", 0)], rfl⟩ 0⟩,
    ⟨.uint8, "same", none, none, 1, .scalar (.u8 2)⟩,
    ⟨.uint8, "first", none, none, 1, .scalar (.u8 3)⟩,
    ⟨.string, "text", none, some 0, 4, .present⟩,
    ⟨.uint64, "behind", none, none, 1, .scalar (.u64 4)⟩]

/-- Rows of one kind and one name stay in their order, and the row behind the range stays where it is. -/
theorem sortFields_stable_unsortedFields : ∃ m', unsortedFields.sortFields 0 = .ok (m', true) ∧
    m'.rows.toList.map (fun r => (r.name, r.value)) =
      [("owner", .present), ("text", .present), ("mode", .enum ⟨"Mode", .u16, [("on", 0)], rfl⟩ 0),
        ("first", .scalar (.u8 3)), ("same", .scalar (.u8 1)), ("same", .scalar (.u8 2)),
        ("behind", .scalar (.u64 4))] ∧
    m'.sortFields 0 = .ok (m', false) ∧ sortPasses ⟨1, 5⟩ 9 unsortedFields false = .ok (m', true) := by
  have hrange : unsortedFields.HasRange 0 ⟨.object, "owner", some "Owner", some 1, 5, .present⟩ ⟨1, 5⟩ :=
    ⟨⟨rfl, rfl⟩, rfl, by decide, by decide⟩
  have henums : ∀ r ∈ unsortedFields.fields ⟨.object, "owner", some "Owner", some 1, 5, .present⟩,
      r.kind = .enum → ∃ e v, r.value = .enum e v := by
    intro r hr hkind
    have hvalue : r.value.enum?.isSome = true := by
      revert r
      decide
    cases h : r.value with
    | enum e v => exact ⟨e, v, rfl⟩
    | _ => rw [h] at hvalue; cases hvalue
  obtain ⟨m', moved, hsort, -, -, hagain, hlimit⟩ := sortFields_stable hrange henums
  have hcheck : (unsortedFields.sortFields 0).toOption.any (fun result => result.2 &&
      result.1.rows.toList.map (fun r => (r.name, r.value)) =
        [("owner", .present), ("text", .present), ("mode", .enum ⟨"Mode", .u16, [("on", 0)], rfl⟩ 0),
          ("first", .scalar (.u8 3)), ("same", .scalar (.u8 1)), ("same", .scalar (.u8 2)),
          ("behind", .scalar (.u64 4))]) = true := by
    decide +kernel
  rw [hsort] at hcheck
  obtain ⟨rfl, hrows⟩ := Bool.and_eq_true_iff.mp hcheck
  exact ⟨m', hsort, of_decide_eq_true hrows, hagain, hlimit 9 (by decide)⟩

end Model

end ObjectPack
