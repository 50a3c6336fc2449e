import ObjectPack.Proofs.Model.Fold
import ObjectPack.Proofs.Model.Inversions
import ObjectPack.Proofs.Model.Words

/-!
# Solving comes to an end

Solving the layout is three loops within each other that go on until nothing changes, behind a scan of a table that
grows under it.  Nothing bounds these loops but what they do.  Here they are taken step by step, without a bound
(`Solving.next`), and whatever table they start from, they end, with the result of `Model.solve` or with its fault
(`Model.solve_halts`):

* folding adds no objects, and moves none towards the end of the table, so the scan is over when it has passed the rows
  that have been added;
* no range takes more passes than it has rows;
* a pass over all objects that moves rows leaves fewer inversions, of which there are at most as many as pairs of rows.
-/

namespace ObjectPack

open Outcome

/-! ### Steps -/

/-- What solving is about. -/
inductive Task where
  /-- The scan for objects with booleans has come to row `i`. -/
  | folding (i : Nat)
  /-- The pass over all objects of this number has come to row `i`. -/
  | scanning (passes i : Nat) (changed : Bool)
  /-- The pass has come to an object, and the rows in its range are sorted: row `j` is to be compared with the next. -/
  | sorting (passes i : Nat) (changed : Bool) (span : Span) (j : Nat) (swapped moved : Bool)
  | solved (passes : Nat)

/-- The state of solving a layout. -/
structure Solving where
  task : Task
  model : Model

namespace Solving

/-- Where solving begins. -/
def start (m : Model) : Solving := ⟨.folding 0, m⟩

/-- Where solving has come to its end. -/
def done (result : Model × Nat) : Solving := ⟨.solved result.2, result.1⟩

/-- The step of the scan for booleans. -/
def foldStep (m : Model) (i : Nat) : Except Fault Solving :=
  if i < m.size then (m.foldTurn i).map (⟨.folding (i + 1), ·⟩) else .ok ⟨.scanning 1 0 false, m⟩

/-- The step of a pass over all objects: the rows in the range of an object have to be sorted if there are at least
two. -/
def scanStep (m : Model) (passes i : Nat) (changed : Bool) : Except Fault Solving :=
  if i < m.size then
    if m.isObject i then do
      let span ← m.members i
      if span.length < 2 then .ok ⟨.scanning passes (i + 1) changed, m⟩
      else .ok ⟨.sorting passes i changed span span.start false false, m⟩
    else .ok ⟨.scanning passes (i + 1) changed, m⟩
  else if changed then .ok ⟨.scanning (passes + 1) 0 false, m⟩
  else .ok ⟨.solved passes, m⟩

/-- The step of a pass over the rows in a range: two neighbours are compared, and exchanged where they are out of
order.  The pass over the range is repeated where it has exchanged any. -/
def sortStep (m : Model) (passes i : Nat) (changed : Bool) (span : Span) (j : Nat) (swapped moved : Bool) :
    Except Fault Solving :=
  if j + 1 < span.stop then do
    match ← m.compareRows j (j + 1) with
    | .gt => (m.swap j (j + 1)).map (⟨.sorting passes i changed span (j + 1) true moved, ·⟩)
    | _ => .ok ⟨.sorting passes i changed span (j + 1) swapped moved, m⟩
  else if swapped then .ok ⟨.sorting passes i changed span span.start false true, m⟩
  else .ok ⟨.scanning passes (i + 1) (changed || moved), m⟩

/-- One step of solving. -/
def next (s : Solving) : Except Fault Solving :=
  match s.task with
  | .folding i => foldStep s.model i
  | .scanning passes i changed => scanStep s.model passes i changed
  | .sorting passes i changed span j swapped moved => sortStep s.model passes i changed span j swapped moved
  | .solved _ => .ok s

/-- As many steps as are asked for, up to the first fault. -/
def run : Nat → Solving → Except Fault Solving
  | 0, s => .ok s
  | n + 1, s => s.next >>= run n

/-- Whether some number of steps gives this state, or this fault. -/
def Leads (s : Solving) (x : Except Fault Solving) : Prop := ∃ n, run n s = x

variable {s s' : Solving} {x : Except Fault Solving} {m m' : Model} {i j k n passes : Nat} {changed swapped moved : Bool}
  {span : Span}

theorem run_add (n k : Nat) (s : Solving) : run (n + k) s = run n s >>= run k := by
  induction n generalizing s with
  | zero => rw [Nat.zero_add]; rfl
  | succ n ih =>
    rw [Nat.add_right_comm, run, run]
    cases s.next with
    | error e => rfl
    | ok s' => exact ih s'

theorem run_succ_of_next (h : s.next = .ok s') (n : Nat) : run (n + 1) s = run n s' := by
  rw [run, h]
  rfl

theorem Leads.trans (h : s.Leads (.ok s')) (rest : s'.Leads x) : s.Leads x := by
  obtain ⟨n, hn⟩ := h
  obtain ⟨k, hk⟩ := rest
  refine ⟨n + k, ?_⟩
  rw [run_add, hn]
  exact hk

theorem Leads.step (h : s.next = .ok s') (rest : s'.Leads x) : s.Leads x := by
  obtain ⟨n, hn⟩ := rest
  exact ⟨n + 1, (run_succ_of_next h n).trans hn⟩

theorem leads_of_error {e : Fault} (h : s.next = .error e) : s.Leads (.error e) := by
  refine ⟨1, ?_⟩
  rw [run, h]
  rfl

end Solving

namespace Model

variable {m m' : Model} {i j : Nat} {r : Row} {l : List Row}

/-! ### The scan for booleans -/

theorem isObject_setCount (m : Model) (i count j : Nat) : (m.setCount i count).isObject j = m.isObject j := by
  unfold isObject setCount modify
  rw [Array.getElem?_modify]
  split <;> cases m.rows[j]? <;> rfl

/-- What folding the booleans of an object makes of a table, whatever the range of the object. -/
theorem foldBooleans_eq_ok (h : m.foldBooleans i = .ok m') : m' = m ∨ ∃ span l count, l.length = span.length ∧
    span.stop ≤ m.size ∧ (∀ x r, l[x]? = some r → m.row (span.start + x) = .ok r) ∧
    m' = (m.withRows (m.replaced span (foldedRange m.size l) (l.filter (·.kind = .bool)))).setCount i count := by
  unfold foldBooleans at h
  simp only [bind_eq_ok] at h
  obtain ⟨span, -, l, hl, h⟩ := h
  obtain ⟨hlength, hget⟩ := Span.mapM_eq_ok hl
  by_cases hnone : (l.filter (·.kind = .bool)).isEmpty
  · rw [if_pos hnone] at h
    exact Or.inl (pure_eq_ok.mp h).symm
  · rw [if_neg hnone] at h
    have hstop : span.stop = span.start + span.length := rfl
    have hpos : 0 < l.length := List.length_pos_iff.mpr (by rintro rfl; exact hnone rfl)
    have hlast := lt_size_of_row (hget (l.length - 1) _ (List.getElem?_eq_getElem (by omega)))
    refine Or.inr ⟨span, l, (foldedFields m.size l).length, hlength, by omega, hget, ?_⟩
    rw [← pure_eq_ok.mp h, toArray_replaced, length_foldedFields]
    rfl

/-- Objects move towards the start of a range, if at all. -/
theorem object_of_foldedRange {start x : Nat} (h : (foldedRange start l)[x]? = some r) (kind : r.kind = .object) :
    ∃ y, x ≤ y ∧ l[y]? = some r := by
  rw [foldedRange, foldedFields, List.append_assoc] at h
  by_cases hother : x < (l.filter (·.kind ≠ .bool)).length
  · rw [List.getElem?_append_left hother] at h
    obtain ⟨y, hy, -, hrank⟩ := exists_rank h
    refine ⟨y, ?_, hy⟩
    rw [← hrank]
    exact List.countP_le_length.trans (List.length_take_le y l)
  · rw [List.getElem?_append_right (Nat.le_of_not_lt hother)] at h
    rcases List.mem_append.mp (List.mem_of_getElem? h) with hword | hrest
    · cases kind.symm.trans (bitSetRows_spec hword).1
    · cases kind.symm.trans (of_decide_eq_true (List.mem_filter.mp (List.mem_of_mem_drop hrest)).2)

/-- Folding takes no rows away and makes no objects, and moves none towards the end of the table. -/
theorem foldBooleans_objects (h : m.foldBooleans i = .ok m') : m.size ≤ m'.size ∧
    ∀ j, m'.isObject j = true → ∃ k, j ≤ k ∧ m.isObject k = true := by
  rcases foldBooleans_eq_ok h with rfl | ⟨span, l, count, hlength, hinside, hrows, rfl⟩
  · exact ⟨Nat.le_refl _, fun j hj => ⟨j, Nat.le_refl j, hj⟩⟩
  have hstop : span.stop = span.start + span.length := rfl
  have hrange := length_foldedRange m.size l
  have hsize := length_rows m
  have hfront : (m.rows.toList.take span.start).length = span.start := List.length_take_of_le (by omega)
  constructor
  · refine Nat.le_trans ?_ (Nat.le_of_eq Array.size_modify.symm)
    show _ ≤ (m.replaced span _ _).length
    simp only [replaced, List.length_append, hfront, hrange, List.length_drop]
    omega
  · intro j hj
    rw [isObject_setCount, isObject_eq_true] at hj
    obtain ⟨r, hr, hkind⟩ := hj
    rw [row_eq_ok, toList_withRows, replaced, List.append_assoc, List.append_assoc] at hr
    by_cases hlow : j < span.start
    · -- In front of the range.
      rw [List.getElem?_append_left (by omega), List.getElem?_take_of_lt hlow] at hr
      exact ⟨j, Nat.le_refl j, isObject_eq_true.mpr ⟨r, row_eq_ok.mpr hr, hkind⟩⟩
    rw [List.getElem?_append_right (by omega), hfront] at hr
    by_cases hin : j - span.start < l.length
    · rw [List.getElem?_append_left (by omega)] at hr
      obtain ⟨y, hle, hy⟩ := object_of_foldedRange hr hkind
      exact ⟨span.start + y, by omega, isObject_eq_true.mpr ⟨r, hrows y r hy, hkind⟩⟩
    rw [List.getElem?_append_right (by omega), hrange] at hr
    by_cases hold : j < m.size
    · -- Behind the range.
      rw [List.getElem?_append_left (by rw [List.length_drop]; omega), List.getElem?_drop,
        show span.stop + (j - span.start - l.length) = j by omega] at hr
      exact ⟨j, Nat.le_refl j, isObject_eq_true.mpr ⟨r, row_eq_ok.mpr hr, hkind⟩⟩
    · rw [List.getElem?_append_right (by rw [List.length_drop]; omega)] at hr
      cases hkind.symm.trans (of_decide_eq_true (List.mem_filter.mp (List.mem_of_getElem? hr)).2)

theorem foldTurn_objects (h : m.foldTurn i = .ok m') : m.size ≤ m'.size ∧
    ∀ j, m'.isObject j = true → ∃ k, j ≤ k ∧ m.isObject k = true := by
  unfold foldTurn at h
  split at h
  · exact foldBooleans_objects h
  · obtain rfl := pure_eq_ok.mp h
    exact ⟨Nat.le_refl _, fun j hj => ⟨j, Nat.le_refl j, hj⟩⟩

end Model

namespace Solving

variable {s s' : Solving} {m m' : Model} {i j k n limit passes : Nat} {l before behind : List Row}
  {changed swapped moved : Bool} {span : Span}

theorem next_folding (h : i < m.size) : next ⟨.folding i, m⟩ = (m.foldTurn i).map (⟨.folding (i + 1), ·⟩) :=
  if_pos h

theorem next_folding_done (m : Model) : next ⟨.folding m.size, m⟩ = .ok ⟨.scanning 1 0 false, m⟩ :=
  if_neg (Nat.lt_irrefl _)

/-- The scan takes one step for each row. -/
theorem run_folding (h : i + k ≤ m.size) : run k ⟨.folding i, m⟩ =
    ((List.range' i k).foldlM Model.foldTurn m).map (⟨.folding (i + k), ·⟩) := by
  induction k generalizing i m with
  | zero => rfl
  | succ k ih =>
    rw [run, next_folding (by omega), List.range'_succ, List.foldlM_cons]
    cases hturn : m.foldTurn i with
    | error e => rfl
    | ok m₁ =>
      have hsize := (Model.foldTurn_objects hturn).1
      refine (ih (by omega)).trans ?_
      rw [Nat.add_right_comm, Nat.add_assoc]
      rfl

theorem foldlM_foldTurn_of_none (none : ∀ j, i ≤ j → m.isObject j = false) :
    (List.range' i k).foldlM Model.foldTurn m = .ok m := by
  induction k generalizing i with
  | zero => rfl
  | succ k ih =>
    have hturn : m.foldTurn i = .ok m := by
      rw [Model.foldTurn, none i (Nat.le_refl i)]
      rfl
    rw [List.range'_succ, List.foldlM_cons, hturn]
    exact ih fun j hj => none j (Nat.le_of_succ_le hj)

theorem run_size (m : Model) : run m.size (start m) = m.foldAll.map (⟨.folding m.size, ·⟩) := by
  have hrun := run_folding (i := 0) (k := m.size) (m := m) (by omega)
  rwa [← List.range_eq_range', Nat.zero_add] at hrun

/-- The scan has no more objects to fold behind the rows that there have been at the start, and passes all the rows
that have been added. -/
theorem run_foldAll (h : m.foldAll = .ok m') :
    m.size ≤ m'.size ∧ run m'.size (start m) = .ok ⟨.folding m'.size, m'⟩ := by
  obtain ⟨hsize, hnone⟩ : m.size ≤ m'.size ∧ ∀ j, m'.isObject j = true → j < m.size := by
    refine foldlM_keeps (P := fun m₁ : Model => m.size ≤ m₁.size ∧ ∀ j, m₁.isObject j = true → j < m.size) ?_
      ⟨Nat.le_refl _, fun j hj => ?_⟩ (show (List.range m.size).foldlM Model.foldTurn m = .ok m' from h)
    · rintro m₁ t m₂ ⟨hsize, hnone⟩ hturn
      obtain ⟨hgrows, hobjects⟩ := Model.foldTurn_objects hturn
      refine ⟨hsize.trans hgrows, fun j hj => ?_⟩
      obtain ⟨k, hjk, hk⟩ := hobjects j hj
      exact Nat.lt_of_le_of_lt hjk (hnone k hk)
    · obtain ⟨o, hobject⟩ := Model.isObject_eq_true.mp hj
      exact Model.lt_size_of_row hobject.1
  refine ⟨hsize, ?_⟩
  obtain ⟨k, hk⟩ := Nat.exists_eq_add_of_le hsize
  have hrest : run k ⟨.folding m.size, m'⟩ = .ok ⟨.folding (m.size + k), m'⟩ := by
    rw [run_folding (Nat.le_of_eq hk.symm), foldlM_foldTurn_of_none fun j hj => ?_]
    · rfl
    · exact Bool.eq_false_iff.mpr fun hobject => Nat.not_lt.mpr hj (hnone j hobject)
  rw [hk, run_add, run_size, h]
  exact hrest

theorem leads_foldAll (m : Model) : (start m).Leads (m.foldAll.map (⟨.scanning 1 0 false, ·⟩)) := by
  cases h : m.foldAll with
  | error e => exact ⟨m.size, by rw [run_size, h]; rfl⟩
  | ok m' =>
    refine Leads.trans ⟨_, (run_foldAll h).2⟩ (Leads.step (next_folding_done m') ⟨0, rfl⟩)

/-! ### Sorting -/

/-- A pass over a range. -/
theorem leads_sortPass {pairs : Nat} (stop : j + pairs + 1 = span.stop) :
    Leads ⟨.sorting passes i changed span j swapped moved, m⟩ ((Model.sortPass pairs j m swapped).map fun result =>
      ⟨.sorting passes i changed span (j + pairs) result.2 moved, result.1⟩) := by
  induction pairs generalizing j m swapped with
  | zero => exact ⟨0, rfl⟩
  | succ pairs ih =>
    have hnext : next ⟨.sorting passes i changed span j swapped moved, m⟩ = _ :=
      if_pos (show j + 1 < span.stop by omega)
    rw [Model.sortPass, show j + (pairs + 1) = j + 1 + pairs by omega]
    cases hcompare : m.compareRows j (j + 1) with
    | error e =>
      rw [hcompare] at hnext
      exact leads_of_error hnext
    | ok order =>
      rw [hcompare] at hnext
      cases order with
      | gt =>
        obtain ⟨m₁, hswap, -⟩ := Model.exchanges_of_compareRows hcompare
        rw [hswap] at hnext ⊢
        exact Leads.step hnext (ih (by omega))
      | lt | eq => exact Leads.step hnext (ih (by omega))

/-- A pass over a range is the last one if it exchanges nothing. -/
theorem leads_rangePass (passes i : Nat) (changed moved : Bool) (m : Model) (two : 2 ≤ span.length) :
    Leads ⟨.sorting passes i changed span span.start false moved, m⟩
      ((Model.sortPass (span.length - 1) span.start m false).map fun result =>
        if result.2 then ⟨.sorting passes i changed span span.start false true, result.1⟩
        else ⟨.scanning passes (i + 1) (changed || moved), result.1⟩) := by
  have hstop : span.start + (span.length - 1) + 1 = span.stop := by
    show _ = span.start + span.length
    omega
  have hpass : Leads ⟨.sorting passes i changed span span.start false moved, m⟩ _ := leads_sortPass hstop
  cases hresult : Model.sortPass (span.length - 1) span.start m false with
  | error e => rwa [hresult] at hpass
  | ok result =>
    obtain ⟨m₁, swapped⟩ := result
    rw [hresult] at hpass
    have hlast : next ⟨.sorting passes i changed span (span.start + (span.length - 1)) swapped moved, m₁⟩ = _ :=
      if_neg (Nat.not_lt.mpr (Nat.le_of_eq hstop.symm))
    cases swapped <;> exact hpass.trans (Leads.step hlast ⟨0, rfl⟩)

/-- Passes over a range are repeated until one exchanges nothing, which they do in time where as many as these put
the rows in order. -/
theorem leads_sortPasses (start : span.start = before.length) (length : span.length = l.length) (two : 2 ≤ span.length)
    (rows : m.rows.toList = before ++ l ++ behind) (aligned : Model.AllAligned l)
    (enough : Model.bubblePass (Model.bubblePass^[n] l) = Model.bubblePass^[n] l) :
    Leads ⟨.sorting passes i changed span span.start false moved, m⟩ ((Model.sortPasses span n m moved).map
      fun result => ⟨.scanning passes (i + 1) (changed || result.2), result.1⟩) := by
  induction n generalizing m l moved with
  | zero =>
    have hpass := leads_rangePass passes i changed moved m two
    rw [Model.sortPass_range start length rows aligned, show Model.bubblePass l = l from enough,
      Model.withRows_eq_self rows, decide_eq_false (not_not.mpr rfl)] at hpass
    exact hpass
  | succ n ih =>
    have hpass := leads_rangePass passes i changed moved m two
    rw [Model.sortPasses]
    rw [Model.sortPass_range start length rows aligned] at hpass ⊢
    by_cases hsame : Model.bubblePass l = l
    · rw [decide_eq_false (not_not.mpr hsame)] at hpass ⊢
      exact hpass
    · rw [decide_eq_true hsame] at hpass ⊢
      exact hpass.trans (ih (length.trans (Model.length_bubblePass l).symm) (Model.toList_withRows m _)
        (aligned.perm (Model.bubblePass_perm l).symm) (by rwa [Function.iterate_succ_apply] at enough))

/-- The turn of an object in a pass over all objects. -/
theorem leads_sortFields (passes : Nat) (changed : Bool) (inside : i < m.size) (object : m.isObject i = true) :
    Leads ⟨.scanning passes i changed, m⟩ ((m.sortFields i).map fun result =>
      ⟨.scanning passes (i + 1) (changed || result.2), result.1⟩) := by
  have hnext : next ⟨.scanning passes i changed, m⟩ = _ := (if_pos inside).trans (if_pos object)
  unfold Model.sortFields
  cases hmembers : m.members i with
  | error e =>
    rw [hmembers] at hnext
    exact leads_of_error hnext
  | ok span =>
    rw [hmembers] at hnext
    by_cases hshort : span.length < 2
    · refine Leads.step (hnext.trans (if_pos hshort)) ⟨0, ?_⟩
      simp [hshort, run, Except.map, bind, Except.bind, pure, Except.pure]
    · refine Leads.step (hnext.trans (if_neg hshort)) ?_
      have hturn : (Except.ok span >>= fun members : Span => if members.length < 2 then pure (m, false)
          else Model.sortPasses members members.length m false) = Model.sortPasses span span.length m false :=
        if_neg hshort
      rw [hturn]
      cases hpass : Model.sortPass (span.length - 1) span.start m false with
      | error e =>
        have hfault : Model.sortPasses span span.length m false = .error e := by
          obtain ⟨n, hn⟩ := Nat.exists_eq_succ_of_ne_zero (show span.length ≠ 0 by omega)
          rw [hn, Model.sortPasses, hpass]
          rfl
        have hleads := leads_rangePass passes i changed false m (Nat.le_of_not_lt hshort)
        rw [hfault]
        rwa [hpass] at hleads
      | ok result =>
        obtain ⟨before, l, behind, hstart, hlength, hrows, haligned⟩ :=
          Model.exists_range_of_sortPass (Nat.le_of_not_lt hshort) hpass
        refine leads_sortPasses hstart hlength (Nat.le_of_not_lt hshort) hrows haligned ?_
        rw [hlength]
        exact Model.bubblePass_sorted l

/-! ### Passes over all objects -/

/-- The turn of a row in a pass over all objects. -/
def turn (state : Model × Bool) (i : Nat) : Except Fault (Model × Bool) :=
  if state.1.isObject i then (state.1.sortFields i).map fun result => (result.1, state.2 || result.2) else .ok state

theorem foldlM_turn (m : Model) : (List.range' 0 m.size).foldlM turn (m, false) = m.sortAll := by
  rw [← List.range_eq_range', Model.sortAll]
  rfl

theorem leads_turn (passes : Nat) (changed : Bool) (inside : i < m.size) : Leads ⟨.scanning passes i changed, m⟩
    ((turn (m, changed) i).map fun state => ⟨.scanning passes (i + 1) state.2, state.1⟩) := by
  unfold turn
  by_cases hobject : m.isObject i = true
  · have hleads := leads_sortFields passes changed inside hobject
    rw [if_pos hobject]
    cases hsort : m.sortFields i <;> rwa [hsort] at hleads
  · rw [if_neg hobject]
    exact Leads.step ((if_pos inside).trans (if_neg hobject)) ⟨0, rfl⟩

theorem size_turn {state : Model × Bool} (h : turn (m, changed) i = .ok state) : state.1.size = m.size := by
  unfold turn at h
  split at h
  · obtain ⟨result, hsort, rfl⟩ := map_eq_ok.mp h
    exact (Model.sortFields_settles hsort).size
  · cases h
    rfl

theorem leads_turns (all : i + k = m.size) : Leads ⟨.scanning passes i changed, m⟩
    (((List.range' i k).foldlM turn (m, changed)).map fun state => ⟨.scanning passes state.1.size state.2, state.1⟩) := by
  induction k generalizing i m changed with
  | zero =>
    obtain rfl : i = m.size := all
    exact ⟨0, rfl⟩
  | succ k ih =>
    have hturn := leads_turn passes changed (show i < m.size by omega)
    rw [List.range'_succ, List.foldlM_cons]
    cases hstate : turn (m, changed) i with
    | error e => rwa [hstate] at hturn
    | ok state =>
      rw [hstate] at hturn
      have hsize := size_turn hstate
      exact hturn.trans (ih (by omega))

/-- One pass over all objects. -/
theorem leads_sortAll (m : Model) (passes : Nat) : Leads ⟨.scanning passes 0 false, m⟩
    (m.sortAll.map fun state => ⟨.scanning passes state.1.size state.2, state.1⟩) := by
  rw [← foldlM_turn]
  exact leads_turns (Nat.zero_add m.size)

/-- Passes over all objects are repeated until one moves nothing, and there are no more of them that move rows than
there are inversions. -/
theorem leads_sortUntilStable (enough : Model.inversions m.rows.toList < limit) :
    Leads ⟨.scanning (passes + 1) 0 false, m⟩ ((Model.sortUntilStable limit m passes).map done) := by
  induction limit generalizing m passes with
  | zero => exact absurd enough (Nat.not_lt_zero _)
  | succ limit ih =>
    have hpass := leads_sortAll m (passes + 1)
    rw [Model.sortUntilStable]
    cases hsort : m.sortAll with
    | error e => rwa [hsort] at hpass
    | ok state =>
      obtain ⟨m₁, changed⟩ := state
      rw [hsort] at hpass
      refine hpass.trans ?_
      cases changed with
      | true =>
        have hless := (Model.sortAll_settles hsort).inversions
        rw [Bool.toNat_true] at hless
        exact Leads.step (if_neg (Nat.lt_irrefl _)) (ih (Nat.lt_of_lt_of_le hless (Nat.le_of_lt_succ enough)))
      | false => exact Leads.step (if_neg (Nat.lt_irrefl _)) ⟨0, rfl⟩

/-- Solving ends as it is meant to, with the same result or the same fault. -/
theorem leads_solve (m : Model) : (start m).Leads (m.solve.map done) := by
  unfold Model.solve
  have hfold := leads_foldAll m
  cases h : m.foldAll with
  | error e => rwa [h] at hfold
  | ok m' =>
    rw [h] at hfold
    refine hfold.trans (leads_sortUntilStable ?_)
    exact Nat.lt_succ_of_le (Model.inversions_le _)

/-! ### What a step does -/

/-- Behind the scan for booleans a step does nothing to the table but exchange neighbours that are out of order. -/
theorem next_eq_ok (h : s.next = .ok s') (later : ∀ i, s.task ≠ .folding i) : (∀ i, s'.task ≠ .folding i) ∧
    (s'.model = s.model ∨ ∃ passes i changed span j swapped moved,
      s.task = .sorting passes i changed span j swapped moved ∧ s.model.Exchanges s'.model j) := by
  obtain ⟨task, m⟩ := s
  cases task with
  | folding i => exact absurd rfl (later i)
  | solved passes =>
    cases h
    exact ⟨later, Or.inl rfl⟩
  | scanning passes i changed =>
    simp only [next, scanStep] at h
    split at h
    · split at h
      · obtain ⟨span, -, h⟩ := bind_eq_ok.mp h
        split at h <;> cases h <;> exact ⟨(fun _ htask => nomatch htask), Or.inl rfl⟩
      · cases h
        exact ⟨(fun _ htask => nomatch htask), Or.inl rfl⟩
    · split at h <;> cases h <;> exact ⟨(fun _ htask => nomatch htask), Or.inl rfl⟩
  | sorting passes i changed span j swapped moved =>
    simp only [next, sortStep] at h
    split at h
    · obtain ⟨order, hcompare, h⟩ := bind_eq_ok.mp h
      cases order with
      | gt =>
        obtain ⟨m₁, hswap, rfl⟩ := map_eq_ok.mp h
        obtain ⟨m₁', hswap', hexchange⟩ := Model.exchanges_of_compareRows hcompare
        obtain rfl := Except.ok.inj (hswap.symm.trans hswap')
        exact ⟨(fun _ htask => nomatch htask), Or.inr ⟨_, _, _, _, _, _, _, rfl, hexchange⟩⟩
      | lt | eq =>
        cases h
        exact ⟨(fun _ htask => nomatch htask), Or.inl rfl⟩
    · split at h <;> cases h <;> exact ⟨(fun _ htask => nomatch htask), Or.inl rfl⟩

theorem not_folding_of_run (h : run k s = .ok s') (later : ∀ i, s.task ≠ .folding i) : ∀ i, s'.task ≠ .folding i := by
  induction k generalizing s with
  | zero =>
    cases h
    exact later
  | succ k ih =>
    obtain ⟨s₁, hnext, hrest⟩ := bind_eq_ok.mp h
    exact ih hrest (next_eq_ok hnext later).1

/-- The scan for booleans comes to a row once, with the step that has the number of the row. -/
theorem eq_of_run_folding (h : run k ⟨.folding i, m⟩ = .ok ⟨.folding j, m'⟩) : j = i + k := by
  induction k generalizing i m with
  | zero =>
    cases h
    rfl
  | succ k ih =>
    obtain ⟨s₁, hnext, hrest⟩ := bind_eq_ok.mp h
    simp only [next, foldStep] at hnext
    split at hnext
    · obtain ⟨m₁, -, rfl⟩ := map_eq_ok.mp hnext
      have hj := ih hrest
      omega
    · cases hnext
      exact absurd rfl (not_folding_of_run hrest (fun _ htask => nomatch htask) j)

/-- A scan that has come to a row has come to all the rows before. -/
theorem exists_run_folding (h : run k (start m) = .ok ⟨.folding k, m'⟩) (le : i ≤ k) :
    ∃ m₁, run i (start m) = .ok ⟨.folding i, m₁⟩ := by
  obtain ⟨n, rfl⟩ := Nat.exists_eq_add_of_le le
  rw [run_add] at h
  obtain ⟨⟨task, m₁⟩, hfirst, hrest⟩ := bind_eq_ok.mp h
  cases task with
  | folding j =>
    obtain rfl := (eq_of_run_folding hfirst).trans (Nat.zero_add i)
    exact ⟨m₁, hfirst⟩
  | scanning | sorting | solved => exact absurd rfl (not_folding_of_run hrest (fun _ htask => nomatch htask) _)

end Solving

/-- Solving the layout comes to an end on every table whatsoever: taken step by step, without a bound, it ends with
the result of `Model.solve`, or with its fault.  Rows are compared by one order that is the same for all tables, in
which any two rows have a place.  Behind the scan for booleans a step leaves the table as it is, or it exchanges the two
neighbours that it has compared, which were out of order, and takes away one of the pairs of rows of the whole table
that are.  And the scan takes one step for each row of the table that it leaves, in their order, the rows that it has
added among them, and goes on to the passes. -/
theorem Model.solve_halts (m : Model) :
    (∃ n, Solving.run n (Solving.start m) = m.solve.map Solving.done) ∧
    (∀ a b c : Row, a.Before b → b.Before c → a.Before c) ∧ (∀ a b : Row, a.Before b ∨ b.Before a) ∧
    (∀ s s' : Solving, s.next = .ok s' → (∀ i, s.task ≠ .folding i) → s'.model = s.model ∨
      ∃ passes i changed span swapped moved before a b behind,
        s.task = .sorting passes i changed span before.length swapped moved ∧
        s.model.rows.toList = before ++ a :: b :: behind ∧ s'.model = s.model.withRows (before ++ b :: a :: behind) ∧
        ¬ a.Before b ∧ inversions s.model.rows.toList = inversions s'.model.rows.toList + 1) ∧
    (∀ k i m', Solving.run k (Solving.start m) = .ok ⟨.folding i, m'⟩ → i = k) ∧
    ∀ m', m.foldAll = .ok m' → m.size ≤ m'.size ∧
      (∀ i ≤ m'.size, ∃ m₁, Solving.run i (Solving.start m) = .ok ⟨.folding i, m₁⟩) ∧
      Solving.run (m'.size + 1) (Solving.start m) = .ok ⟨.scanning 1 0 false, m'⟩ := by
  refine ⟨Solving.leads_solve m, fun _ _ _ => Row.Before.trans, fun a b => ?_, fun s s' h later => ?_,
    fun k i m' h => (Solving.eq_of_run_folding h).trans (Nat.zero_add k), fun m' h => ?_⟩
  · rw [← Row.mayPrecede_iff, ← Row.mayPrecede_iff]
    exact Row.mayPrecede_total a b
  · rcases (Solving.next_eq_ok h later).2 with hsame | ⟨passes, i, changed, span, j, swapped, moved, htask, hexchange⟩
    · exact Or.inl hsame
    · have hfall := hexchange.inversions
      obtain ⟨before, a, b, behind, rfl, hrows, hrows', hgreater⟩ := hexchange
      exact Or.inr ⟨passes, i, changed, span, swapped, moved, before, a, b, behind, htask, hrows, hrows',
        fun hbefore => hbefore hgreater, hfall⟩
  · obtain ⟨hsize, hrun⟩ := Solving.run_foldAll h
    refine ⟨hsize, fun i hi => Solving.exists_run_folding hrun hi, ?_⟩
    rw [Solving.run_add, hrun]
    exact Solving.run_succ_of_next (Solving.next_folding_done m') 0

end ObjectPack
