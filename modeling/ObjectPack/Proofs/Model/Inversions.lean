import ObjectPack.Proofs.Model.Stable

/-!
# Inversions

Whether sorting comes to an end does not depend on what objects own.  However ranges overlap, all turns compare rows
by one and the same order, and they exchange nothing but neighbours that are out of order.  So each exchange takes
away one pair of rows of the whole table that is out of order, and brings in none (`Model.swap_inversions`): a turn
that moves rows leaves fewer inversions, whichever rows of other objects it has moved (`Model.Settles`).
-/

namespace ObjectPack

open Outcome

namespace Model

variable {m m₀ m' : Model} {i j n : Nat} {a b : Row} {before behind l rest : List Row} {moved : Bool}
  {span : Span}

/-! ### Lists -/

/-- How many pairs of rows, neighbours or not, are out of order. -/
def inversions : List Row → Nat
  | [] => 0
  | a :: rest => rest.countP (a.order · = .gt) + inversions rest

/-- Neighbours that are out of order are one inversion, and exchanging them makes no other one. -/
theorem inversions_exchange (greater : a.order b = .gt) :
    inversions (before ++ a :: b :: behind) = inversions (before ++ b :: a :: behind) + 1 := by
  induction before with
  | nil =>
    have hless : b.order a = .lt := Std.OrientedCmp.lt_of_gt greater
    simp only [List.nil_append, inversions, List.countP_cons, greater, hless, reduceCtorEq, decide_true,
      decide_false, Bool.false_eq_true, if_true, if_false]
    omega
  | cons c before ih =>
    have hcount : (before ++ a :: b :: behind).countP (c.order · = .gt) =
        (before ++ b :: a :: behind).countP (c.order · = .gt) :=
      ((List.Perm.swap b a behind).append_left before).countP_eq _
    rw [List.cons_append, List.cons_append, inversions, inversions, hcount, ih, Nat.add_assoc]

theorem inversions_le (l : List Row) : inversions l ≤ l.length * l.length := by
  induction l with
  | nil => exact Nat.le_refl 0
  | cons a rest ih =>
    have hcount := List.countP_le_length (l := rest) (p := (a.order · = .gt))
    rw [inversions, List.length_cons, Nat.add_one_mul, Nat.mul_add_one]
    omega

/-! ### Exchanges -/

/-- Whether one table is another one with neighbours exchanged that were out of order. -/
def Exchanges (m m' : Model) (i : Nat) : Prop :=
  ∃ before a b behind, before.length = i ∧ m.rows.toList = before ++ a :: b :: behind ∧
    m' = m.withRows (before ++ b :: a :: behind) ∧ a.order b = .gt

theorem Exchanges.size (h : m.Exchanges m' i) : m'.size = m.size := by
  obtain ⟨before, a, b, behind, -, hrows, rfl, -⟩ := h
  rw [size_withRows, ← length_rows, hrows]
  simp

theorem Exchanges.inversions (h : m.Exchanges m' i) :
    inversions m.rows.toList = inversions m'.rows.toList + 1 := by
  obtain ⟨before, a, b, behind, -, hrows, rfl, hgreater⟩ := h
  rw [hrows, toList_withRows, inversions_exchange hgreater]

/-- Rows can only be compared where they are and have alignments, and comparing them compares what they hold. -/
theorem compareRows_eq_ok {c : Ordering} (h : m.compareRows i j = .ok c) : ∃ a b, m.row i = .ok a ∧
    m.row j = .ok b ∧ (∃ n, a.alignment? = some n) ∧ (∃ n, b.alignment? = some n) ∧ a.order b = c := by
  obtain ⟨y, hy, hrest⟩ := bind_eq_ok.mp h
  obtain ⟨x, hx, hrest⟩ := bind_eq_ok.mp hrest
  obtain ⟨a, ha, hrest⟩ := bind_eq_ok.mp hrest
  obtain ⟨b, hb, -⟩ := bind_eq_ok.mp hrest
  have hfirst := alignment_eq_ok ha hx
  have hsecond := alignment_eq_ok hb hy
  exact ⟨a, b, ha, hb, ⟨x, hfirst⟩, ⟨y, hsecond⟩,
    Except.ok.inj ((compareRows_ok ha hb hfirst hsecond).symm.trans h)⟩

/-- Two rows that stand next to each other. -/
theorem exists_neighbours (first : m.row i = .ok a) (second : m.row (i + 1) = .ok b) :
    ∃ before behind, before.length = i ∧ m.rows.toList = before ++ a :: b :: behind := by
  obtain ⟨hi, ha⟩ := List.getElem?_eq_some_iff.mp (row_eq_ok.mp first)
  obtain ⟨hj, hb⟩ := List.getElem?_eq_some_iff.mp (row_eq_ok.mp second)
  refine ⟨m.rows.toList.take i, m.rows.toList.drop (i + 2), List.length_take_of_le (Nat.le_of_lt hi), ?_⟩
  rw [← ha, ← hb, List.cons_getElem_drop_succ, List.cons_getElem_drop_succ, List.take_append_drop]

/-- What sorting exchanges are neighbours that are out of order. -/
theorem exchanges_of_compareRows (greater : m.compareRows i (i + 1) = .ok .gt) :
    ∃ m', m.swap i (i + 1) = .ok m' ∧ m.Exchanges m' i := by
  obtain ⟨a, b, ha, hb, -, -, horder⟩ := compareRows_eq_ok greater
  obtain ⟨before, behind, rfl, hrows⟩ := exists_neighbours ha hb
  have hswap := @swap_neighbours m a b before behind [] (by rw [hrows, List.append_nil])
  refine ⟨_, hswap, before, a, b, behind, rfl, hrows, ?_, horder⟩
  simp

/-! ### Turns and passes -/

/-- Whether a table has as many rows as another one, no more inversions, and fewer if rows have moved. -/
structure Settles (m m' : Model) (moved : Bool) : Prop where
  size : m'.size = m.size
  inversions : inversions m'.rows.toList + moved.toNat ≤ inversions m.rows.toList

theorem settles_self (m : Model) : m.Settles m false := ⟨rfl, Nat.le_refl _⟩

theorem Settles.exchange (h : m₀.Settles m moved) (exchange : m.Exchanges m' i) : m₀.Settles m' true where
  size := exchange.size.trans h.size
  inversions := by
    have hfall := exchange.inversions
    have hless := h.inversions
    rw [Bool.toNat_true]
    omega

theorem Settles.trans {now : Bool} (h : m₀.Settles m moved) (next : m.Settles m' now) :
    m₀.Settles m' (moved || now) where
  size := next.size.trans h.size
  inversions := by
    have hfirst := h.inversions
    have hsecond := next.inversions
    have hor : (moved || now).toNat ≤ moved.toNat + now.toNat := by
      cases moved <;> cases now <;> decide
    omega

theorem sortPass_settles {pairs : Nat} {result : Model × Bool} (start : m₀.Settles m moved)
    (h : sortPass pairs i m moved = .ok result) : m₀.Settles result.1 result.2 := by
  induction pairs generalizing i m moved with
  | zero =>
    cases h
    exact start
  | succ pairs ih =>
    rw [sortPass] at h
    obtain ⟨order, hcompare, hrest⟩ := bind_eq_ok.mp h
    cases order with
    | gt =>
      obtain ⟨m₁, hswap, hexchange⟩ := exchanges_of_compareRows hcompare
      obtain ⟨m₁', hswap', hrest⟩ := bind_eq_ok.mp hrest
      obtain rfl := Except.ok.inj (hswap.symm.trans hswap')
      exact ih (start.exchange hexchange) hrest
    | lt | eq => exact ih start hrest

theorem sortPasses_settles {passes : Nat} {result : Model × Bool} (start : m₀.Settles m moved)
    (h : sortPasses span passes m moved = .ok result) : m₀.Settles result.1 result.2 := by
  induction passes generalizing m moved with
  | zero =>
    cases h
    exact start
  | succ passes ih =>
    rw [sortPasses] at h
    obtain ⟨⟨m₁, now⟩, hpass, hrest⟩ := bind_eq_ok.mp h
    have hsettles := start.trans (sortPass_settles (settles_self m) hpass)
    cases now with
    | true => exact ih (by rwa [Bool.or_true] at hsettles) hrest
    | false =>
      obtain rfl := pure_eq_ok.mp hrest
      rwa [Bool.or_false] at hsettles

/-- The turn of an object leaves fewer inversions if it moves rows. -/
theorem sortFields_settles {result : Model × Bool} (h : m.sortFields i = .ok result) :
    m.Settles result.1 result.2 := by
  obtain ⟨span, -, hrest⟩ := bind_eq_ok.mp h
  split at hrest
  · obtain rfl := pure_eq_ok.mp hrest
    exact settles_self m
  · exact sortPasses_settles (settles_self m) hrest

/-- A pass over all objects leaves fewer inversions if it moves rows. -/
theorem sortAll_settles {result : Model × Bool} (h : m.sortAll = .ok result) : m.Settles result.1 result.2 := by
  refine foldlM_keeps (P := fun result : Model × Bool => m.Settles result.1 result.2) ?_ (settles_self m) h
  rintro ⟨m₁, moved⟩ t result hsettles hturn
  dsimp only at hturn
  split at hturn
  · obtain ⟨⟨m₂, now⟩, hsort, hresult⟩ := bind_eq_ok.mp hturn
    obtain rfl := pure_eq_ok.mp hresult
    exact hsettles.trans (sortFields_settles hsort)
  · obtain rfl := pure_eq_ok.mp hturn
    exact hsettles

/-! ### Ranges -/

/-- A pass that has compared all neighbours in a range has met rows with alignments only. -/
theorem aligned_of_sortPass {pairs : Nat} {result : Model × Bool} (rows : m.rows.toList = before ++ a :: rest)
    (h : sortPass pairs before.length m moved = .ok result) (first : ∃ n, a.alignment? = some n) :
    pairs ≤ rest.length ∧ AllAligned (a :: rest.take pairs) := by
  induction pairs generalizing before a rest m moved with
  | zero =>
    refine ⟨Nat.zero_le _, fun r hr => ?_⟩
    rw [List.take_zero, List.mem_singleton] at hr
    exact hr ▸ first
  | succ pairs ih =>
    rw [sortPass] at h
    obtain ⟨order, hcompare, hrest⟩ := bind_eq_ok.mp h
    obtain ⟨a', b, ha', hb, -, hsecond, -⟩ := compareRows_eq_ok hcompare
    rw [row_eq_ok, rows, List.getElem?_append_right (Nat.le_add_right _ _), Nat.add_sub_cancel_left,
      List.getElem?_cons_succ] at hb
    obtain ⟨rest, rfl⟩ : ∃ tail, rest = b :: tail := by
      cases rest with
      | nil => cases hb
      | cons c tail => exact ⟨tail, by rw [Option.some.inj hb]⟩
    -- The greater of the two is the first row of what is left of the range.
    have hnext : ∀ {m₁ : Model} {c d : Row} {now : Bool}, m₁.rows.toList = before ++ d :: c :: rest →
        (∃ n, c.alignment? = some n) → sortPass pairs (before.length + 1) m₁ now = .ok result →
        pairs ≤ rest.length ∧ AllAligned (rest.take pairs) := by
      intro m₁ c d now hrows hc hpass
      obtain ⟨hlength, haligned⟩ := @ih m₁ c (before ++ [d]) rest now (by rw [hrows]; simp)
        (by rwa [List.length_append, List.length_singleton]) hc
      exact ⟨hlength, fun r hr => haligned r (List.mem_cons_of_mem c hr)⟩
    obtain ⟨hlength, haligned⟩ : pairs ≤ rest.length ∧ AllAligned (rest.take pairs) := by
      cases order with
      | gt =>
        obtain ⟨m₁, hswap, hpass⟩ := bind_eq_ok.mp hrest
        have hswap' := @swap_neighbours m a b before rest [] (by rw [rows, List.append_nil])
        obtain rfl := Except.ok.inj (hswap'.symm.trans hswap)
        exact @hnext _ a b true (by simp) first hpass
      | lt | eq => exact hnext rows hsecond hrest
    refine ⟨Nat.succ_le_succ hlength, fun r hr => ?_⟩
    rw [List.take_succ_cons] at hr
    rcases List.mem_cons.mp hr with rfl | hr
    · exact first
    rcases List.mem_cons.mp hr with rfl | hr
    · exact hsecond
    · exact haligned r hr

theorem sortPass_range (start : span.start = before.length) (length : span.length = l.length)
    (rows : m.rows.toList = before ++ l ++ behind) (aligned : AllAligned l) :
    sortPass (span.length - 1) span.start m false =
      .ok (m.withRows (before ++ bubblePass l ++ behind), decide (bubblePass l ≠ l)) := by
  rw [start, length]
  cases l with
  | nil =>
    rw [bubblePass, withRows_eq_self rows]
    rfl
  | cons a rest => exact sortPass_eq rows aligned

/-- A pass over a range that meets no fault has met as many rows as the range is long, and they have alignments. -/
theorem exists_range_of_sortPass {result : Model × Bool} (two : 2 ≤ span.length)
    (h : sortPass (span.length - 1) span.start m moved = .ok result) : ∃ before l behind,
      span.start = before.length ∧ span.length = l.length ∧ m.rows.toList = before ++ l ++ behind ∧ AllAligned l := by
  obtain ⟨pairs, hpairs⟩ := Nat.exists_eq_add_of_le two
  have hfirst : ∃ a b, m.row span.start = .ok a ∧ m.row (span.start + 1) = .ok b ∧ ∃ n, a.alignment? = some n := by
    rw [show span.length - 1 = pairs + 1 by omega, sortPass] at h
    obtain ⟨order, hcompare, -⟩ := bind_eq_ok.mp h
    obtain ⟨a, b, ha, hb, haligned, -⟩ := compareRows_eq_ok hcompare
    exact ⟨a, b, ha, hb, haligned⟩
  obtain ⟨a, b, ha, hb, haligned⟩ := hfirst
  obtain ⟨before, rest, hbefore, hrows⟩ := exists_neighbours ha hb
  rw [← hbefore] at h
  obtain ⟨hlength, hall⟩ := aligned_of_sortPass hrows h haligned
  refine ⟨before, a :: (b :: rest).take (span.length - 1), (b :: rest).drop (span.length - 1), hbefore.symm, ?_, ?_, hall⟩
  · rw [List.length_cons, List.length_take_of_le hlength]
    omega
  · rw [List.append_assoc, List.cons_append, List.take_append_drop]
    exact hrows

end Model

end ObjectPack
