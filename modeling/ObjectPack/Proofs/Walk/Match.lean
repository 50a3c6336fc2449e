import ObjectPack.Proofs.Walk.Homogeneous
import ObjectPack.Proofs.Walk.Sturdy

/-!
# Elements that match

The elements of an array are one series of rows, the keys of a dictionary are one, and its values are another
one (`Row.Series`).  Two rows of one series match (`Row.Matches`): they have one kind, and those that are there
have one type name, unless they are collections themselves or objects of a series that bears the name of a
class.

This is checked when a collection gets its rows.  What a row matches is a matter of its kind, its value and, for
rows that are no collections, its type name; no later turn of a walk changes these, so it holds in the end
(`Walk.Rules.walk_matched`).  Collections among the elements are not looked into: their own rows come later.
-/

namespace ObjectPack

open Outcome

namespace Row

/-- Whether some elements of a collection are a series that begins with row `first`; `base` is the name of a
class that the series bears. -/
inductive Series (c : Row) : Nat → Option String → Prop
  | elements {first : Nat} (kind : c.kind = .array) (start : c.start = some first) : Series c first c.typeName
  | keys {first : Nat} (kind : c.kind = .dictionary) (start : c.start = some first) : Series c first none
  | values {first : Nat} (kind : c.kind = .dictionary) (start : c.start = some first) :
    Series c (first + c.count) c.typeName

/-- The series of a collection. -/
def series (c : Row) : List (Nat × Option String) :=
  match c.kind, c.start with
  | .array, some first => [(first, c.typeName)]
  | .dictionary, some first => [(first, none), (first + c.count, c.typeName)]
  | _, _ => []

/-- Whether two rows may stand in one series. -/
structure Matches (base : Option String) (x y : Row) : Prop where
  kind : x.kind = y.kind
  typeName : x.value.isNull = false → y.value.isNull = false → x.kind ≠ .array → x.kind ≠ .dictionary →
    x.typeName = y.typeName ∨ (x.kind = .object ∧ base.isSome = true)

/-- Whether a row has kept all that decides on what it matches. -/
structure Keeps (x x' : Row) : Prop where
  kind : x'.kind = x.kind
  value : x'.value = x.value
  typeName : x.kind ≠ .array → x.kind ≠ .dictionary → x'.typeName = x.typeName

variable {c x x' y y' : Row} {base base' : Option String} {first j : Nat}

theorem Series.collection (h : c.Series first base) : c.kind = .array ∨ c.kind = .dictionary := by
  cases h with
  | elements kind _ => exact Or.inl kind
  | keys kind _ | values kind _ => exact Or.inr kind

theorem mem_series : (first, base) ∈ c.series ↔ c.Series first base := by
  unfold series
  constructor
  · intro h
    split at h
    · obtain ⟨rfl, rfl⟩ := Prod.mk.inj (List.mem_singleton.mp h)
      exact .elements ‹_› ‹_›
    · rcases List.mem_cons.mp h with heq | h
      · obtain ⟨rfl, rfl⟩ := Prod.mk.inj heq
        exact .keys ‹_› ‹_›
      · obtain ⟨rfl, rfl⟩ := Prod.mk.inj (List.mem_singleton.mp h)
        exact .values ‹_› ‹_›
    · cases h
  · intro h
    cases h with
    | elements kind start => simp [kind, start]
    | keys kind start | values kind start => simp [kind, start]

theorem Series.start_ne (h : c.Series first base) : c.start ≠ none := by
  intro hnone
  cases h with
  | elements _ start | keys _ start | values _ start => cases hnone.symm.trans start

/-- A collection owns the rows of its series. -/
theorem Series.owns (h : c.Series first base) (low : first ≤ j) (high : j < first + c.count) : c.Owns j := by
  have hcount : c.kind = .dictionary → c.ownedCount = 2 * c.count := fun kind => by rw [ownedCount, kind]
  cases h with
  | elements kind start => exact ⟨_, start, low, by rw [ownedCount, kind]; exact high⟩
  | keys kind start => exact ⟨_, start, low, by rw [hcount kind]; omega⟩
  | values kind start => exact ⟨_, start, by omega, by rw [hcount kind]; omega⟩

theorem Matches.mono (h : Matches base x y) (more : base.isSome = true → base'.isSome = true) :
    Matches base' x y :=
  ⟨h.kind, fun hx hy harray hdictionary => (h.typeName hx hy harray hdictionary).imp_right (And.imp_right more)⟩

theorem Keeps.refl (x : Row) : x.Keeps x := ⟨rfl, rfl, fun _ _ => rfl⟩

theorem Matches.keep (h : Matches base x y) (hx : x.Keeps x') (hy : y.Keeps y') : Matches base x' y' where
  kind := by rw [hx.kind, hy.kind, h.kind]
  typeName hpresent hpresent' harray hdictionary := by
    rw [hx.value] at hpresent
    rw [hy.value] at hpresent'
    rw [hx.kind] at harray hdictionary ⊢
    rw [hx.typeName harray hdictionary, hy.typeName (h.kind ▸ harray) (h.kind ▸ hdictionary)]
    exact h.typeName hpresent hpresent' harray hdictionary

end Row

namespace Model

variable {m m' : Model} {i first count : Nat} {base base' : Option String} {r r' : Row}

/-- Whether `count` rows from `first` on are there and match. -/
structure RowsMatch (m : Model) (first count : Nat) (base : Option String) : Prop where
  inside : first + count ≤ m.size
  pair : ∀ j k x y, first ≤ j → j < first + count → first ≤ k → k < first + count →
    m.row j = .ok x → m.row k = .ok y → x.Matches base y

/-- Whether the rows of every series match. -/
def Matched (m : Model) : Prop :=
  ∀ i c first base, m.row i = .ok c → c.Series first base → m.RowsMatch first c.count base

theorem RowsMatch.mono (h : m.RowsMatch first count base) (more : base.isSome = true → base'.isSome = true) :
    m.RowsMatch first count base' :=
  ⟨h.inside, fun j k x y hj hj' hk hk' hx hy => (h.pair j k x y hj hj' hk hk' hx hy).mono more⟩

/-- Rows that match still do if they have kept what decides on it. -/
theorem RowsMatch.keep (h : m.RowsMatch first count base) (grows : m.size ≤ m'.size)
    (keeps : ∀ j x', first ≤ j → j < first + count → m'.row j = .ok x' → ∃ x, m.row j = .ok x ∧ x.Keeps x') :
    m'.RowsMatch first count base where
  inside := Nat.le_trans h.inside grows
  pair j k x' y' hj hj' hk hk' hx' hy' := by
    obtain ⟨x, hx, hxkeeps⟩ := keeps j x' hj hj' hx'
    obtain ⟨y, hy, hykeeps⟩ := keeps k y' hk hk' hy'
    exact (h.pair j k x y hj hj' hk hk' hx hy).keep hxkeeps hykeeps

theorem RowsMatch.change (h : m.RowsMatch first count base) (changes : m.Changes m' i r')
    (hrow : m.row i = .ok r) (keeps : r.Keeps r') : m'.RowsMatch first count base := by
  refine h.keep changes.size_eq.ge fun j x' _ _ hx' => ?_
  by_cases hself : j = i
  · subst hself
    rw [changes.row_self (lt_size_of_row hrow)] at hx'
    cases hx'
    exact ⟨r, hrow, keeps⟩
  · exact ⟨x', (changes.row_of_ne hself).mp hx', .refl x'⟩

/-- When one row changes and the rows of its own series match, those of every series do. -/
theorem Matched.change (h : m.Matched) (changes : m.Changes m' i r') (hrow : m.row i = .ok r)
    (keeps : r.Keeps r') (own : ∀ first base, r'.Series first base → m.RowsMatch first r'.count base) :
    m'.Matched := by
  intro j c first base hc hseries
  by_cases hself : j = i
  · subst hself
    rw [changes.row_self (lt_size_of_row hrow)] at hc
    cases hc
    exact (own first base hseries).change changes hrow keeps
  · exact (h j c first base ((changes.row_of_ne hself).mp hc) hseries).change changes hrow keeps

end Model

namespace Walk

variable {label : String} {x y : Row} {rows : List Row} {declared : Option Ty} {base : Option String}

/-- Elements that have been compared with each other match. -/
theorem matches_of_check (h : checkHomogeneous label rows declared = .ok base) (hx : x ∈ rows) (hy : y ∈ rows) :
    x.Matches base y := by
  cases rows with
  | nil => cases hx
  | cons first rest =>
    unfold checkHomogeneous at h
    simp only [bind_eq_ok, pure_eq_ok] at h
    obtain ⟨differ, hdiffer, rfl⟩ := h
    have hcompare := mapM_eq_ok hdiffer
    have hkind : ∀ z ∈ first :: rest, z.kind = first.kind := by
      intro z hz
      rcases List.mem_cons.mp hz with rfl | hz
      · rfl
      · obtain ⟨b, -, hok⟩ := exists_of_forall₂ hcompare hz
        exact (compareElement_cases hok).1
    set reference := ((first :: rest).find? fun r => ! r.value.isNull).getD first with href
    set base := baseName? first declared with hbase
    -- Every element that is there has the type of the reference, or the collection gets the name of a class.
    have htype : ∀ z ∈ first :: rest, z.value.isNull = false → z.typeName = reference.typeName ∨
        (first.kind = .object ∧ (if differ.any id then base else none).isSome = true) := by
      intro z hz hpresent
      obtain ⟨reference', -, hreference, -, hfirst⟩ := reference_present hz hpresent
      rw [← href] at hreference
      subst hreference
      rcases List.mem_cons.mp hz with rfl | hz
      · exact Or.inl (congrArg Row.typeName (hfirst hpresent)).symm
      · obtain ⟨b, hb, hok⟩ := exists_of_forall₂ hcompare hz
        rcases compareElement_cases hok with ⟨-, ⟨rfl, -, -, hsome⟩ | ⟨-, hnull | hsame⟩⟩
        · refine Or.inr ⟨(exists_of_baseName? hsome).1, ?_⟩
          rwa [if_pos (List.any_eq_true.mpr ⟨true, hb, rfl⟩)]
        · exact absurd (hpresent.symm.trans hnull) Bool.false_ne_true
        · exact Or.inl hsame
    refine ⟨(hkind x hx).trans (hkind y hy).symm, fun hpresent hpresent' _ _ => ?_⟩
    rw [hkind x hx]
    rcases htype x hx hpresent with hx' | hbears
    · rcases htype y hy hpresent' with hy' | hbears
      · exact Or.inl (hx'.trans hy'.symm)
      · exact Or.inr hbears
    · exact Or.inr hbears

namespace Progress

variable {p p₁ p' : Progress} {item : Deferred} {later : List Deferred} {i first start count : Nat} {r : Row}

theorem mem_rowsFrom {j : Nat} (low : first ≤ j) (high : j < first + count) (hrow : p.model.row j = .ok x) :
    x ∈ p.rowsFrom first count := by
  obtain ⟨k, rfl⟩ := Nat.exists_eq_add_of_le low
  rw [p.rowsFrom_eq]
  refine List.mem_of_getElem? (i := k) ?_
  rw [List.getElem?_take_of_lt (by omega), List.getElem?_drop]
  exact Model.row_eq_ok.mp hrow

/-- Rows that have been compared match. -/
theorem rowsMatch_of_check (inside : first + count ≤ p.size)
    (h : checkHomogeneous label (p.rowsFrom first count) declared = .ok base) :
    p.model.RowsMatch first count base :=
  ⟨inside, fun _ _ _ _ hj hj' hk hk' hx hy =>
    matches_of_check h (mem_rowsFrom hj hj' hx) (mem_rowsFrom hk hk' hy)⟩

/-- Rows that are added have no series yet. -/
theorem Grows.matched (grows : p.Grows p' rows later) (h : p.model.Matched) : p'.model.Matched := by
  have hsize := grows.size_eq
  intro j c first base hc hseries
  rcases grows.row_cases hc with hold | ⟨k, hk, -⟩
  · have hrows := h j c first base hold hseries
    refine hrows.keep (show p.size ≤ p'.size by omega) fun l x' _ hl hx' => ?_
    obtain ⟨s, hs⟩ := Model.exists_row_of_lt (Nat.lt_of_lt_of_le hl hrows.inside)
    obtain rfl := Except.ok.inj (hx'.symm.trans (grows.row_old hs))
    exact ⟨_, hs, .refl _⟩
  · refine absurd (grows.start_eq_none (List.mem_of_getElem? hk) ?_) hseries.start_ne
    rcases hseries.collection with hkind | hkind <;> rw [hkind] <;> decide

/-- A row gets a range. -/
theorem setRange_matched (h : p.model.Matched) (hrow : p.model.row i = .ok r)
    (own : ∀ first base, Row.Series { r with start := some start, count := count } first base →
      p.model.RowsMatch first count base) : (p.setRange i start count).model.Matched :=
  h.change (Model.modify_changes hrow ({ · with start := some start, count := count })) hrow
    ⟨rfl, rfl, fun _ _ => rfl⟩ own

/-- A collection that has no range yet gets the name of a class, if there is one. -/
theorem named_matched (base : Option String) (h : p.model.Matched) (hrow : p.model.row i = .ok r)
    (kind : r.kind = .array ∨ r.kind = .dictionary) (start : r.start = none) :
    (p.named i base).model.Matched ∧
      (∃ r', (p.named i base).model.row i = .ok r' ∧ r'.kind = r.kind ∧
        (base.isSome = true → r'.typeName.isSome = true)) ∧
      ∀ first count b, p.model.RowsMatch first count b → (p.named i base).model.RowsMatch first count b := by
  cases base with
  | none => exact ⟨h, ⟨r, hrow, rfl, fun hsome => by cases hsome⟩, fun _ _ _ => id⟩
  | some name =>
    have hchanges := Model.setTypeName_changes hrow name
    have hkeeps : r.Keeps { r with typeName := some name } :=
      ⟨rfl, rfl, fun harray hdictionary => absurd kind (not_or.mpr ⟨harray, hdictionary⟩)⟩
    exact ⟨h.change hchanges hrow hkeeps fun _ _ hseries => absurd start hseries.start_ne,
      ⟨_, hchanges.row_self (Model.lt_size_of_row hrow), rfl, fun _ => rfl⟩,
      fun _ _ _ hrows => hrows.change hchanges hrow hkeeps⟩

end Progress

/-! ### Turns -/

namespace Rules

open Progress

variable {r : Rules} {p p' : Progress} {top : Nat} {item : Deferred} {waiting : List Deferred}

/-- Every turn keeps the series of a walk: the elements of a collection have been compared with each other,
and so have the keys and the values of a dictionary. -/
theorem advance_matched (h : p.Sound top (item :: waiting)) (matched : p.model.Matched)
    (step : p.Advance item p') : p'.model.Matched := by
  obtain ⟨s, hs, hof⟩ := h.waits _ List.mem_cons_self
  cases step with
  | fields grows =>
    refine setRange_matched (grows.matched matched) (grows.row_old hs) fun first base hseries => ?_
    rcases hseries.collection with hkind | hkind <;> cases hof.kind.symm.trans hkind
  | declared grows _ _ =>
    -- What is only declared is no element, so the series of the collection have no rows.
    have hle := grows.size_le
    refine setRange_matched (grows.matched matched) (grows.row_old hs) fun first base hseries => ?_
    have hfirst : first = p.size := by
      cases hseries with
      | elements _ start | keys _ start | values _ start => exact (Option.some.inj start).symm
    exact ⟨hfirst ▸ hle, fun _ _ _ _ hj hj' => absurd hj' (Nat.not_lt_of_le hj)⟩
  | unowned base grows _ collection =>
    exact (named_matched base (grows.matched matched) (grows.row_old hs) (hof.kind.symm ▸ collection) hof.start).1
  | @elements p₁ rows _ row _ _ _ base grows _ _ compared =>
    have hkind : s.kind = .array := hof.kind
    have hrows := rowsMatch_of_check grows.size_eq.ge compared
    obtain ⟨hmatched, ⟨s', hs', hkind', hnamed⟩, hkeep⟩ :=
      named_matched base (grows.matched matched) (grows.row_old hs) (Or.inl hkind) hof.start
    refine setRange_matched hmatched hs' fun first base' hseries => ?_
    cases hseries with
    | elements _ start =>
      cases start
      exact (hkeep _ _ _ hrows).mono hnamed
    | keys kind _ | values kind _ => cases (hkind'.trans hkind).symm.trans kind
  | @entries p₁ rows _ row count _ _ _ _ base grows _ _ width keys values =>
    have hkind : s.kind = .dictionary := hof.kind
    have hsize := grows.size_eq
    have hkeyRows := rowsMatch_of_check (by omega) keys
    have hvalueRows := rowsMatch_of_check (by omega) values
    obtain ⟨hmatched, ⟨s', hs', hkind', hnamed⟩, hkeep⟩ :=
      named_matched base (grows.matched matched) (grows.row_old hs) (Or.inr hkind) hof.start
    refine setRange_matched hmatched hs' fun first base' hseries => ?_
    cases hseries with
    | elements kind _ => cases (hkind'.trans hkind).symm.trans kind
    | keys _ start =>
      cases start
      exact hkeep _ _ _ hkeyRows
    | values _ start =>
      cases start
      exact (hkeep _ _ _ hvalueRows).mono hnamed
  | met _ =>
    refine setRange_matched matched hs fun first base hseries => ?_
    rcases hseries.collection with hkind | hkind <;> cases hof.kind.symm.trans hkind
  | root _ grows _ _ =>
    refine setRange_matched (grows.matched matched) (grows.row_old hs) fun first base hseries => ?_
    rcases hseries.collection with hkind | hkind <;> cases hof.kind.symm.trans hkind

/-- The elements of every collection in a walked model match. -/
theorem walk_matched {unit : DataUnit} {result : Nat × Model} (h : r.walk .empty unit = .ok result) :
    result.2.Matched := by
  obtain ⟨first, rounds, p, p', hof, hgrows, hrounds, rfl⟩ := walk_rounds h
  have hempty : Model.empty.Matched := fun i c _ _ hc _ => absurd (Model.lt_size_of_row hc) (Nat.not_lt_zero i)
  refine (addRounds_keeps (P := fun waiting p => p.Sound 0 waiting ∧ p.model.Matched) ?_ ?_
    ⟨sound_start hof hgrows, hgrows.matched hempty⟩ hrounds).2
  · intro item waiting p p' h step
    obtain ⟨later, hdeferred, hsound⟩ := advance_continues h.1 step
    exact ⟨later, hdeferred, hsound, advance_matched h.1 h.2 step⟩
  · exact fun p h => ⟨sound_round h.1, h.2⟩

end Rules

end Walk

end ObjectPack
