import ObjectPack.Proofs.Walk.Sturdy
import ObjectPack.Proofs.Walk.Whole

/-!
# Spans of rows

Every row of a walk but the first one is in the span of some owner, and the spans of different owners have
no row in common (`Walk.Rules.walk_tiled`).  Rows are appended while owners still wait for their turn, so
between two turns some rows may be in no span: those of a collection that has had its turn and got none
(`Walk.Progress.Abandons`).  Whether there are any only the end of the walk tells, when all rows show what
they stand for, and collections show it with a start.

Data units of one signature share the row of their class, which stands behind the first of them only: a
data unit that is met later may stand behind the row that it shares (`Walk.Rules.not_before_sharedClass`).
-/

namespace ObjectPack

open Outcome

namespace Row

variable {r : Row} {s : Span} {j : Nat}

/-- The rows that a row stands for: a collection without elements has one row of each sort, which
represents what it might hold. -/
def span? (r : Row) : Option Span :=
  match r.kind with
  | .object | .bitSet | .dataUnit => r.start.map (⟨·, r.count⟩)
  | .array => r.start.map (⟨·, max r.count 1⟩)
  | .dictionary => r.start.map (⟨·, 2 * max r.count 1⟩)
  | _ => none

/-- Whether a row is in the span of another one. -/
def Covers (r : Row) (j : Nat) : Prop := ∃ s, r.span? = some s ∧ s.start ≤ j ∧ j < s.stop

theorem start_of_span? (h : r.span? = some s) : r.start = some s.start := by
  unfold span? at h
  split at h
  case h_6 => cases h
  all_goals
    obtain ⟨start, hstart, rfl⟩ := Option.map_eq_some_iff.mp h
    exact hstart

theorem span?_of_start (h : r.start = none) : r.span? = none := by
  unfold span?
  rw [h]
  split <;> rfl

theorem span?_of_dataUnit (h : r.kind = .dataUnit) : r.span? = r.start.map (⟨·, r.count⟩) := by
  rw [span?, h]

theorem not_covers_of_span? (h : r.span? = none) (j : Nat) : ¬ r.Covers j := by
  rintro ⟨s, hs, -⟩
  rw [h] at hs
  cases hs

theorem covers_iff_of_span? (h : r.span? = some s) : r.Covers j ↔ s.start ≤ j ∧ j < s.stop := by
  constructor
  · rintro ⟨s', hs', hj⟩
    rw [h] at hs'
    exact Option.some.inj hs' ▸ hj
  · exact fun hj => ⟨s, h, hj⟩

end Row

/-- Whether spans tile the table of a model: every row but the top one is in the span of one owner. -/
structure Model.Tiled (m : Model) (top : Nat) : Prop where
  covered : ∀ j < m.size, j ≠ top → ∃ i row, m.row i = .ok row ∧ row.Covers j
  free : ∀ i row, m.row i = .ok row → ¬ row.Covers top
  /-- Only data units of one signature have a span together. -/
  apart : ∀ i row i' row' j, m.row i = .ok row → m.row i' = .ok row' → row.Covers j → row'.Covers j →
    i = i' ∨ ∃ s, row.value = .dataUnit s ∧ row'.value = .dataUnit s
  inside : ∀ i row s, m.row i = .ok row → row.span? = some s → s.stop ≤ m.size
  before : ∀ i row s, m.row i = .ok row → row.kind ≠ .dataUnit → row.span? = some s → i < s.start
  /-- The first data unit of a signature stands before the row of the class, the others have the same
  row. -/
  units : ∀ i row s, m.row i = .ok row → row.value = .dataUnit s → ∃ root first row',
    row.span? = some ⟨root, 1⟩ ∧ m.HasObject root ∧ m.row first = .ok row' ∧ row'.value = .dataUnit s ∧
    row'.span? = some ⟨root, 1⟩ ∧ first < root ∧
    ∀ k row'', m.row k = .ok row'' → row''.value = .dataUnit s → first ≤ k ∧ row''.span? = some ⟨root, 1⟩
  collections : ∀ i row, m.row i = .ok row → row.kind = .array ∨ row.kind = .dictionary →
    ∃ start, row.start = some start ∧ start < m.size

namespace Walk

theorem Deferred.kind_of_unit {item : Deferred} {s : Digest} (h : item.payload = .dataUnit s) :
    item.kind = .dataUnit := by
  by_contra hkind
  rw [item.payload_of_ne hkind] at h
  cases h

namespace Progress

variable {p p₁ p₂ p' : Progress} {top i j : Nat} {item : Deferred} {waiting later : List Deferred}
  {rows : List Row} {r : Row}

/-! ### Turns -/

/-- What the turn of a value leaves in its row: the span of the rows that have been added for its parts,
the span of the class of a data unit, or no span where a collection has got no elements. -/
inductive Settles (p p' : Progress) (item : Deferred) (r : Row) (rows : List Row) : Prop
  | parts (span : r.span? = some ⟨p.size, rows.length⟩) (kind : item.kind ≠ .dataUnit)
    (units : p'.units = p.units)
  | left (start : r.start = none) (collection : item.kind = .array ∨ item.kind = .dictionary)
    (units : p'.units = p.units)
  | met {s : Digest} {root : Nat} (span : r.span? = some ⟨root, 1⟩) (unit : item.payload = .dataUnit s)
    (known : p.units.lookup s = some root) (nothing : rows = []) (units : p'.units = p.units)
  | root {s : Digest} (span : r.span? = some ⟨p.size, 1⟩) (unit : item.payload = .dataUnit s)
    (one : rows.length = 1) (units : p'.units = (s, p.size) :: p.units)

theorem Grows.span? (h : p.Grows p' rows later) (hr : r ∈ rows) : r.span? = none := by
  rcases (h.fits r hr).2 with hstart | hkind
  · exact Row.span?_of_start hstart
  · rw [Row.span?, hkind]

/-- A row that gets a range, and maybe a type name, is that of the same value. -/
theorem Grows.takes_range {start count : Nat} {s : Row} (grows : p.Grows p₁ rows later)
    (hrow : p.model.row item.row = .ok s) (of : item.IsOf s) (named : Named p₁ p₂ item.row) :
    ∃ r, Takes p p₁ (p₂.setRange item.row start count) item r rows later ∧ r.start = some start ∧
      r.count = count := by
  obtain ⟨s', hchanges, hof, hs'⟩ := named.changes (grows.row_old hrow) of
  have hchanges' := hchanges.trans
    (Model.modify_changes hs' ({ · with start := some start, count := count }))
  exact ⟨_, ⟨grows, hchanges', hof.kind, hof.value⟩, rfl, rfl⟩

/-- All that the turn of a value does to its row. -/
theorem Advance.settles {s : Row} (step : p.Advance item p') (hrow : p.model.row item.row = .ok s)
    (of : item.IsOf s) : ∃ p₁ r rows later, Takes p p₁ p' item r rows later ∧
      p'.deferred = p.deferred ++ later ∧ p.Settles p' item r rows := by
  -- Each kind of turn gives the row another range; only an unowned collection keeps none.
  cases step with
  | fields grows =>
    obtain ⟨r, htakes, hstart, hcount⟩ := grows.takes_range hrow of (Or.inl rfl)
    refine ⟨_, r, _, _, htakes, grows.deferred, .parts ?_ Kind.noConfusion grows.units⟩
    rw [Row.span?, htakes.kind, hstart, hcount]
    rfl
  | declared grows bare width =>
    obtain ⟨r, htakes, hstart, hcount⟩ := grows.takes_range hrow of (Or.inl rfl)
    refine ⟨_, r, _, _, htakes, grows.deferred, ?_⟩
    rcases width with ⟨hkind, hlength⟩ | ⟨hkind, hlength⟩
    all_goals
      refine .parts ?_ (by rw [hkind]; decide) grows.units
      rw [Row.span?, htakes.kind, hkind, hstart, hcount, hlength]
      rfl
  | @unowned p₁ _ _ _ base grows _ collection =>
    have hnamed := Rules.named_named p₁ item.row base
    obtain ⟨r, hchanges, hof, -⟩ := hnamed.changes (grows.row_old hrow) of
    obtain ⟨hdeferred, hunits⟩ := hnamed.others
    exact ⟨_, r, _, _, ⟨grows, hchanges, hof.kind, hof.value⟩, hdeferred.trans grows.deferred,
      .left hof.start collection (hunits.trans grows.units)⟩
  | elements grows nonempty nonzero _ =>
    obtain ⟨hdeferred, hunits⟩ := named_others _
    obtain ⟨r, htakes, hstart, hcount⟩ := grows.takes_range hrow of (Rules.named_named _ _ _)
    refine ⟨_, r, _, _, htakes, hdeferred.trans grows.deferred,
      .parts ?_ Kind.noConfusion (hunits.trans grows.units)⟩
    rw [Row.span?, htakes.kind, hstart, hcount]
    show some (Span.mk _ (max _ 1)) = _
    rw [Nat.max_eq_left (Nat.one_le_iff_ne_zero.mpr nonzero)]
  | entries grows nonempty nonzero width _ _ =>
    obtain ⟨hdeferred, hunits⟩ := named_others _
    obtain ⟨r, htakes, hstart, hcount⟩ := grows.takes_range hrow of (Rules.named_named _ _ _)
    refine ⟨_, r, _, _, htakes, hdeferred.trans grows.deferred,
      .parts ?_ Kind.noConfusion (hunits.trans grows.units)⟩
    rw [Row.span?, htakes.kind, hstart, hcount, width]
    show some (Span.mk _ (2 * max _ 1)) = _
    rw [Nat.max_eq_left (Nat.one_le_iff_ne_zero.mpr nonzero)]
  | met known =>
    obtain ⟨r, htakes, hstart, hcount⟩ := (Grows.refl p).takes_range hrow of (Or.inl rfl)
    refine ⟨_, r, _, _, htakes, (List.append_nil _).symm, .met ?_ rfl known rfl rfl⟩
    rw [Row.span?_of_dataUnit htakes.kind, hstart, hcount]
    rfl
  | root unknown grows kind value =>
    have hchanges := Model.modify_changes (grows.row_old hrow) ({ · with start := some p.size, count := 1 })
    refine ⟨_, _, _, _, ⟨grows, hchanges, of.kind, of.value⟩, grows.deferred,
      .root (Row.span?_of_dataUnit ?_) rfl rfl rfl⟩
    exact of.kind

/-! ### What a walk keeps -/

/-- Whether there is a collection that has had its turn and has got no span. -/
def Abandons (p : Progress) (waiting : List Deferred) : Prop :=
  ∃ i row, p.model.row i = .ok row ∧ (row.kind = .array ∨ row.kind = .dictionary) ∧ row.start = none ∧
    ∀ item ∈ waiting, item.row ≠ i

/-- Whether the spans of a walk are apart from each other and hold all rows that have an owner. -/
structure Tiles (p : Progress) (top : Nat) (waiting : List Deferred) : Prop where
  inside : ∀ i row s, p.model.row i = .ok row → row.span? = some s → s.stop ≤ p.size
  before : ∀ i row s, p.model.row i = .ok row → row.kind ≠ .dataUnit → row.span? = some s → i < s.start
  apart : ∀ i row i' row' j, p.model.row i = .ok row → p.model.row i' = .ok row' → row.Covers j →
    row'.Covers j → i = i' ∨ row.kind = .dataUnit ∧ row'.kind = .dataUnit
  covered : ∀ j < p.size, j ≠ top →
    (∃ i row, p.model.row i = .ok row ∧ row.Covers j) ∨ p.Abandons waiting
  /-- Rows of classes are left to data units, the first of which stands before them. -/
  met : ∀ s root, p.units.lookup s = some root →
    (∀ i row, p.model.row i = .ok row → row.kind ≠ .dataUnit → ¬ row.Covers root) ∧
    ∃ i row, p.model.row i = .ok row ∧ row.value = .dataUnit s ∧ row.start = some root ∧ i < root

namespace Tiles

/-- What is in a span is in the table. -/
theorem lt_size (h : p.Tiles top waiting) (hrow : p.model.row i = .ok r) (covers : r.Covers j) :
    j < p.size := by
  obtain ⟨s, hs, -, hlt⟩ := covers
  exact Nat.lt_of_lt_of_le hlt (h.inside i r s hrow hs)

theorem inside_of_takes (sound : p.Sound top (item :: waiting)) (h : p.Tiles top (item :: waiting))
    (takes : Takes p p₁ p' item r rows later) (settles : p.Settles p' item r rows) {row : Row} {s : Span}
    (hrow : p'.model.row i = .ok row) (hs : row.span? = some s) : s.stop ≤ p'.size := by
  obtain ⟨r₀, hr₀, -⟩ := sound.waits item List.mem_cons_self
  have hsize := takes.size_eq
  rcases takes.row_cases (Model.lt_size_of_row hr₀) hrow with ⟨hold, -⟩ | ⟨-, rfl⟩ | ⟨k, hk, -⟩
  · have hle := h.inside i row s hold hs
    omega
  · cases settles with
    | parts span _ _ =>
      cases span.symm.trans hs
      exact Nat.le_of_eq hsize.symm
    | left start _ _ =>
      rw [Row.span?_of_start start] at hs
      cases hs
    | met span _ known _ _ =>
      cases span.symm.trans hs
      obtain ⟨object, hobject, -⟩ := (sound.met _ _ known).1
      have hlt : _ < p.size := Model.lt_size_of_row hobject
      refine Nat.le_trans (Nat.succ_le_of_lt hlt) ?_
      omega
    | root span _ one _ =>
      cases span.symm.trans hs
      show p.size + 1 ≤ p'.size
      omega
  · rw [takes.grows.span? (List.mem_of_getElem? hk)] at hs
    cases hs

theorem before_of_takes (sound : p.Sound top (item :: waiting)) (h : p.Tiles top (item :: waiting))
    (takes : Takes p p₁ p' item r rows later) (settles : p.Settles p' item r rows) {row : Row} {s : Span}
    (hrow : p'.model.row i = .ok row) (kind : row.kind ≠ .dataUnit) (hs : row.span? = some s) :
    i < s.start := by
  obtain ⟨r₀, hr₀, -⟩ := sound.waits item List.mem_cons_self
  have hinside := Model.lt_size_of_row hr₀
  rcases takes.row_cases hinside hrow with ⟨hold, -⟩ | ⟨rfl, rfl⟩ | ⟨k, hk, -⟩
  · exact h.before i row s hold kind hs
  · rw [takes.kind] at kind
    cases settles with
    | parts span _ _ =>
      cases span.symm.trans hs
      exact hinside
    | left start _ _ =>
      rw [Row.span?_of_start start] at hs
      cases hs
    | met _ unit _ _ _ | root _ unit _ _ => exact absurd (Deferred.kind_of_unit unit) kind
  · rw [takes.grows.span? (List.mem_of_getElem? hk)] at hs
    cases hs

/-- What the row of a value covers after its turn nothing else has covered, unless both are data units. -/
theorem apart_of_settles (h : p.Tiles top (item :: waiting))
    (takes : Takes p p₁ p' item r rows later) (settles : p.Settles p' item r rows) {row : Row}
    (hrow : p.model.row i = .ok row) (covers : row.Covers j) (covers' : r.Covers j) :
    row.kind = .dataUnit ∧ r.kind = .dataUnit := by
  have hlt := h.lt_size hrow covers
  cases settles with
  | parts span _ _ | root span _ _ _ =>
    have hle := ((Row.covers_iff_of_span? span).mp covers').1
    exact absurd hlt (Nat.not_lt_of_le hle)
  | left start _ _ => exact absurd covers' (Row.not_covers_of_span? (Row.span?_of_start start) j)
  | met span unit known _ _ =>
    obtain ⟨hle, hlt⟩ := (Row.covers_iff_of_span? span).mp covers'
    obtain rfl : j = _ := Nat.le_antisymm (Nat.le_of_lt_succ hlt) hle
    refine ⟨?_, takes.kind.trans (Deferred.kind_of_unit unit)⟩
    by_contra hkind
    exact (h.met _ _ known).1 i row hrow hkind covers

theorem apart_of_takes (sound : p.Sound top (item :: waiting)) (h : p.Tiles top (item :: waiting))
    (takes : Takes p p₁ p' item r rows later) (settles : p.Settles p' item r rows) {i' : Nat}
    {row row' : Row} (hrow : p'.model.row i = .ok row) (hrow' : p'.model.row i' = .ok row')
    (covers : row.Covers j) (covers' : row'.Covers j) :
    i = i' ∨ row.kind = .dataUnit ∧ row'.kind = .dataUnit := by
  obtain ⟨r₀, hr₀, -⟩ := sound.waits item List.mem_cons_self
  have hinside := Model.lt_size_of_row hr₀
  have hnew : ∀ {k : Nat} {s : Row}, rows[k]? = some s → ¬ s.Covers j := fun hk =>
    Row.not_covers_of_span? (takes.grows.span? (List.mem_of_getElem? hk)) j
  rcases takes.row_cases hinside hrow with ⟨hold, -⟩ | ⟨hi, rfl⟩ | ⟨k, hk, -⟩
  · rcases takes.row_cases hinside hrow' with ⟨hold', -⟩ | ⟨-, rfl⟩ | ⟨k, hk, -⟩
    · exact h.apart i row i' row' j hold hold' covers covers'
    · exact Or.inr (h.apart_of_settles takes settles hold covers covers')
    · exact absurd covers' (hnew hk)
  · rcases takes.row_cases hinside hrow' with ⟨hold', -⟩ | ⟨hi', -⟩ | ⟨k, hk, -⟩
    · exact Or.inr (h.apart_of_settles takes settles hold' covers' covers).symm
    · exact Or.inl (hi.trans hi'.symm)
    · exact absurd covers' (hnew hk)
  · exact absurd covers (hnew hk)

/-- A row with a span is none of a value that has waited. -/
theorem row_kept (sound : p.Sound top (item :: waiting)) (takes : Takes p p₁ p' item r rows later)
    {row : Row} (hrow : p.model.row i = .ok row) (start : row.start ≠ none) :
    p'.model.row i = .ok row := by
  obtain ⟨r₀, hr₀, hof⟩ := sound.waits item List.mem_cons_self
  refine takes.row_old hrow ?_
  rintro rfl
  cases hr₀.symm.trans hrow
  exact start hof.start

/-- A collection that has been left without a span stays so. -/
theorem abandons_of_takes (takes : Takes p p₁ p' item r rows later)
    (abandons : p.Abandons (item :: waiting)) : p'.Abandons (waiting ++ later) := by
  obtain ⟨i, row, hrow, hkind, hstart, hothers⟩ := abandons
  have hne := hothers item List.mem_cons_self
  refine ⟨i, row, takes.row_old hrow hne.symm, hkind, hstart, fun other hother => ?_⟩
  rcases List.mem_append.mp hother with hother | hother
  · exact hothers other (List.mem_cons_of_mem _ hother)
  · have hlt : i < p.size := Model.lt_size_of_row hrow
    have hle := (takes.grows.later_lt hother).1
    omega

theorem covered_of_takes (sound : p.Sound top (item :: waiting)) (h : p.Tiles top (item :: waiting))
    (takes : Takes p p₁ p' item r rows later) (settles : p.Settles p' item r rows) (hj : j < p'.size)
    (htop : j ≠ top) :
    (∃ i row, p'.model.row i = .ok row ∧ row.Covers j) ∨ p'.Abandons (waiting ++ later) := by
  obtain ⟨r₀, hr₀, hof⟩ := sound.waits item List.mem_cons_self
  have hinside := Model.lt_size_of_row hr₀
  have hself := takes.row_self hinside
  have hsize := takes.size_eq
  -- What was covered before still is, since only the row of the value has changed.
  by_cases hlt : j < p.size
  · refine (h.covered j hlt htop).imp ?_ (abandons_of_takes takes)
    rintro ⟨i, row, hrow, s, hs, hj⟩
    refine ⟨i, row, row_kept sound takes hrow ?_, s, hs, hj⟩
    rw [Row.start_of_span? hs]
    exact Option.some_ne_none _
  · -- A new row is in the span that has been given, if any has.
    have hspan : ∀ n, r.span? = some ⟨p.size, n⟩ → rows.length = n → ∃ i row,
        p'.model.row i = .ok row ∧ row.Covers j := by
      rintro n hs rfl
      refine ⟨item.row, r, hself, (Row.covers_iff_of_span? hs).mpr ⟨Nat.le_of_not_lt hlt, ?_⟩⟩
      show j < p.size + rows.length
      omega
    cases settles with
    | parts span _ _ => exact Or.inl (hspan _ span rfl)
    | root span _ one _ => exact Or.inl (hspan _ span one)
    | met _ _ _ nothing _ =>
      rw [nothing] at hsize
      exact absurd (Nat.lt_of_lt_of_le hj (Nat.le_of_eq hsize)) hlt
    | left start collection _ =>
      refine Or.inr ⟨item.row, r, hself, takes.kind.symm ▸ collection, start, fun other hother => ?_⟩
      rcases List.mem_append.mp hother with hother | hother
      · have honce := sound.once
        rw [List.map_cons, List.nodup_cons] at honce
        exact fun heq => honce.1 (heq ▸ List.mem_map_of_mem hother)
      · have hle := (takes.grows.later_lt hother).1
        have hlt : item.row < p.size := hinside
        omega

theorem met_of_takes (sound : p.Sound top (item :: waiting)) (h : p.Tiles top (item :: waiting))
    (takes : Takes p p₁ p' item r rows later) (settles : p.Settles p' item r rows) {s : Digest}
    {root : Nat} (hs : p'.units.lookup s = some root) :
    (∀ i row, p'.model.row i = .ok row → row.kind ≠ .dataUnit → ¬ row.Covers root) ∧
      ∃ i row, p'.model.row i = .ok row ∧ row.value = .dataUnit s ∧ row.start = some root ∧ i < root := by
  obtain ⟨r₀, hr₀, -⟩ := sound.waits item List.mem_cons_self
  have hinside := Model.lt_size_of_row hr₀
  -- The root of a data unit that had been met, and that of one that is met now.
  have hold : p.units.lookup s = some root →
      (∀ i row, p'.model.row i = .ok row → row.kind ≠ .dataUnit → ¬ row.Covers root) ∧
      ∃ i row, p'.model.row i = .ok row ∧ row.value = .dataUnit s ∧ row.start = some root ∧ i < root := by
    intro hs
    obtain ⟨hnone, i, row, hrow, hvalue, hstart, hlt⟩ := h.met s root hs
    obtain ⟨object, hobject, -⟩ := (sound.met s root hs).1
    refine ⟨fun k row' hrow' hkind hcovers => ?_, i, row, ?_, hvalue, hstart, hlt⟩
    · rcases takes.row_cases hinside hrow' with ⟨hrow', -⟩ | ⟨-, rfl⟩ | ⟨n, hn, -⟩
      · exact hnone k row' hrow' hkind hcovers
      · have hlt : root < p.size := Model.lt_size_of_row hobject
        cases settles with
        | parts span _ _ =>
          exact absurd hlt (Nat.not_lt_of_le ((Row.covers_iff_of_span? span).mp hcovers).1)
        | left start _ _ => exact Row.not_covers_of_span? (Row.span?_of_start start) _ hcovers
        | met _ unit _ _ _ | root _ unit _ _ =>
          exact hkind (takes.kind.trans (Deferred.kind_of_unit unit))
      · exact Row.not_covers_of_span? (takes.grows.span? (List.mem_of_getElem? hn)) _ hcovers
    · exact row_kept sound takes hrow (hstart ▸ Option.some_ne_none _)
  cases settles with
  | parts _ _ units | left _ _ units | met _ _ _ _ units => exact hold (units ▸ hs)
  | root span unit one units =>
    rw [units] at hs
    rcases eq_or_lookup_of_met_cons hs with ⟨rfl, rfl⟩ | hs
    · refine ⟨fun k row' hrow' hkind hcovers => ?_, item.row, r, takes.row_self hinside,
        takes.value.trans unit, Row.start_of_span? span, hinside⟩
      rcases takes.row_cases hinside hrow' with ⟨hrow', -⟩ | ⟨-, rfl⟩ | ⟨n, hn, -⟩
      · exact Nat.lt_irrefl _ (h.lt_size hrow' hcovers)
      · exact hkind (takes.kind.trans (Deferred.kind_of_unit unit))
      · exact Row.not_covers_of_span? (takes.grows.span? (List.mem_of_getElem? hn)) _ hcovers
    · exact hold hs

/-- After the turn of a value the spans are still apart and hold all rows that have an owner. -/
theorem take (sound : p.Sound top (item :: waiting)) (h : p.Tiles top (item :: waiting))
    (takes : Takes p p₁ p' item r rows later) (settles : p.Settles p' item r rows) :
    p'.Tiles top (waiting ++ later) where
  inside _ _ _ hrow hs := h.inside_of_takes sound takes settles hrow hs
  before _ _ _ hrow kind hs := h.before_of_takes sound takes settles hrow kind hs
  apart _ _ _ _ _ hrow hrow' covers covers' := h.apart_of_takes sound takes settles hrow hrow' covers covers'
  covered _ hj htop := h.covered_of_takes sound takes settles hj htop
  met _ _ hs := h.met_of_takes sound takes settles hs

end Tiles

end Progress

/-! ### Whole graphs -/

variable {r : Rules} {p : Progress} {use : Ty → Option Value → Bool} {texts : TextPool}
  {origins : List Origin} {o : Origin} {row : Row}

/-- The row of a data unit that has a start is that of its signature, and starts at the root object of one
of this signature. -/
theorem Shows.unit_of_start {root : Nat} (h : Shows r use texts origins o row)
    (kind : row.kind = .dataUnit) (start : row.start = some root) :
    ∃ first : DataUnit, origins[root]? = some (.root first) ∧
      row.value = .dataUnit (.ofText first.signature) := by
  cases h with
  | plain hplain =>
    cases hplain with
    | scalar _ | noScalar _ _ => exact absurd kind.symm (Row.ofFormat_ne rfl)
    | noUnit _ _ => cases start
    | _ => cases kind
  | dataUnit _ _ same shared =>
    cases start
    exact ⟨_, shared, congrArg Payload.dataUnit same.symm⟩
  | _ => cases kind

namespace Rules

open Progress

/-- A walk begins with a row that has no owner. -/
theorem tiles_start {s : Supply} {first : Row} {unit : DataUnit}
    (grows : Grows ⟨.blank s, [], []⟩ p [first] [.dataUnit 0 unit]) : p.Tiles 0 p.deferred := by
  have hsize : p.size = 0 + 1 := grows.size_eq
  have hnone : ∀ {i row}, p.model.row i = .ok row → row.span? = none := by
    intro i row hi
    rcases grows.row_cases hi with hold | ⟨k, hk, -⟩
    · exact absurd (Model.lt_size_of_row hold) (Nat.not_lt_zero i)
    · exact grows.span? (List.mem_of_getElem? hk)
  refine
    { inside := fun i row s hrow hs => ?_
      before := fun i row s hrow _ hs => ?_
      apart := fun i row _ _ j hrow _ hcovers _ => ?_
      covered := fun j hj htop => absurd hj (by omega)
      met := fun s root hs => ?_ }
  · rw [hnone hrow] at hs
    cases hs
  · rw [hnone hrow] at hs
    cases hs
  · exact absurd hcovers (Row.not_covers_of_span? (hnone hrow) j)
  · rw [grows.units] at hs
    cases hs

/-- Every turn keeps spans apart, and whatever has an owner in the span of it. -/
theorem advance_tiles {top : Nat} {item : Deferred} {waiting : List Deferred} {p' : Progress}
    (h : p.Sound top (item :: waiting) ∧ p.Tiles top (item :: waiting)) (step : p.Advance item p') :
    ∃ later, p'.deferred = p.deferred ++ later ∧ p'.Sound top (waiting ++ later) ∧
      p'.Tiles top (waiting ++ later) := by
  obtain ⟨later, hdeferred, hsound⟩ := advance_continues h.1 step
  obtain ⟨r₀, hr₀, hof⟩ := h.1.waits item List.mem_cons_self
  obtain ⟨p₁, r, rows, later', htakes, hdeferred', hsettles⟩ := step.settles hr₀ hof
  obtain rfl : later = later' := List.append_cancel_left (hdeferred.symm.trans hdeferred')
  exact ⟨later, hdeferred, hsound, h.2.take h.1 htakes hsettles⟩

theorem walk_tiles {s : Supply} {unit : DataUnit} {result : Nat × Model}
    (h : r.walk (.blank s) unit = .ok result) : ∃ p : Progress, p.model = result.2 ∧
      result.1 = 0 ∧ p.Sound 0 p.deferred ∧ p.Tiles 0 p.deferred := by
  obtain ⟨first, rounds, p, p', hof, hgrows, hrounds, rfl⟩ := walk_rounds h
  refine ⟨p', rfl, rfl, ?_⟩
  refine addRounds_keeps (P := fun waiting p => p.Sound 0 waiting ∧ p.Tiles 0 waiting)
    (fun _ _ _ _ => advance_tiles) (fun p hp => ⟨sound_round hp.1, ?_⟩)
    ⟨sound_start hof hgrows, tiles_start hgrows⟩ hrounds
  exact ⟨hp.2.inside, hp.2.before, hp.2.apart, hp.2.covered, hp.2.met⟩

/-- Every row of a walk but the first one is in the span of another row. -/
theorem walk_covered {unit : DataUnit} {top j : Nat} {m : Model} (h : r.walk .empty unit = .ok (top, m))
    (hj : j < m.size) (htop : j ≠ top) : ∃ i row, m.row i = .ok row ∧ row.Covers j := by
  obtain ⟨origins, hpictures⟩ := exists_pictures h
  obtain ⟨p, rfl, rfl, -, htiles⟩ := walk_tiles (s := .full) h
  refine (htiles.covered j hj htop).resolve_right ?_
  rintro ⟨i, row, hrow, hkind, hstart, -⟩
  obtain ⟨o, -, hshows⟩ := hpictures.shown hrow
  obtain ⟨start, hs⟩ := hshows.start_of_collection hkind
  rw [hstart] at hs
  cases hs

/-- Data units of one signature have the row of one class, which stands behind the first of them. -/
theorem walk_units {unit : DataUnit} {top i : Nat} {m : Model} {row : Row} {s : Digest}
    (h : r.walk .empty unit = .ok (top, m)) (hrow : m.row i = .ok row) (value : row.value = .dataUnit s) :
    ∃ root first row', row.span? = some ⟨root, 1⟩ ∧ m.HasObject root ∧ m.row first = .ok row' ∧
      row'.value = .dataUnit s ∧ row'.span? = some ⟨root, 1⟩ ∧ first < root ∧
      ∀ k row'', m.row k = .ok row'' → row''.value = .dataUnit s →
        first ≤ k ∧ row''.span? = some ⟨root, 1⟩ := by
  have hwhole := (walk_whole (s := .full) h).toWellFormed
  obtain ⟨origins, hpictures⟩ := exists_pictures h
  obtain ⟨o, -, hshows⟩ := hpictures.shown hrow
  obtain ⟨root, hroot⟩ := hshows.start_of_dataUnit value
  -- Whatever data unit has a signature, its row has one class for its span.
  have hspan : ∀ k row'', m.row k = .ok row'' → row''.value = .dataUnit s →
      row''.span? = some ⟨root, 1⟩ := by
    intro k row'' hrow'' hvalue''
    obtain ⟨o, -, hshows''⟩ := hpictures.shown hrow''
    obtain ⟨root'', hroot''⟩ := hshows''.start_of_dataUnit hvalue''
    have hkind := (hwhole.fits k row'' hrow'').kind_of_dataUnit hvalue''
    obtain rfl := hwhole.shared s root'' root ⟨k, row'', hrow'', hvalue'', hroot''⟩
      ⟨i, row, hrow, value, hroot⟩
    rw [Row.span?_of_dataUnit hkind, hroot'', (hwhole.roots k row'' root'' hrow'' hkind hroot'').1]
    rfl
  obtain ⟨first, hfirst⟩ := hpictures.introduced i row s root hrow value hroot
  obtain ⟨row', hrow', hvalue', -⟩ := hfirst.row
  have hkind := (hwhole.fits i row hrow).kind_of_dataUnit value
  refine ⟨root, first, row', hspan i row hrow value, (hwhole.roots i row root hrow hkind hroot).2, hrow',
    hvalue', hspan first row' hrow' hvalue', ?_, fun k row'' hrow'' hvalue'' =>
      ⟨hfirst.first k row'' hrow'' hvalue'', hspan k row'' hrow'' hvalue''⟩⟩
  -- Some data unit of the signature stands before the class, so the first one does.
  obtain ⟨p, rfl, -, hsound, htiles⟩ := walk_tiles (s := .full) h
  obtain ⟨k, row'', hrow'', hvalue'', -, hlt⟩ :=
    (htiles.met s root (hsound.known i row s root hrow value hroot)).2
  exact Nat.lt_of_le_of_lt (hfirst.first k row'' hrow'' hvalue'') hlt

/-- Two rows that have a row of a class in their spans are data units of one signature. -/
theorem walk_sharedUnits {unit : DataUnit} {top i i' j : Nat} {m : Model} {row row' : Row}
    (h : r.walk .empty unit = .ok (top, m)) (hrow : m.row i = .ok row) (hrow' : m.row i' = .ok row')
    (kind : row.kind = .dataUnit) (kind' : row'.kind = .dataUnit) (covers : row.Covers j)
    (covers' : row'.Covers j) : ∃ s, row.value = .dataUnit s ∧ row'.value = .dataUnit s := by
  obtain ⟨origins, hpictures⟩ := exists_pictures h
  have hunit : ∀ {i row}, m.row i = .ok row → row.kind = .dataUnit → row.Covers j →
      ∃ first : DataUnit, origins[j]? = some (.root first) ∧
        row.value = .dataUnit (.ofText first.signature) := by
    intro i row hrow hkind hcovers
    obtain ⟨o, -, hshows⟩ := hpictures.shown hrow
    obtain ⟨⟨start, length⟩, hs, hle, hlt⟩ := hcovers
    have hstart := Row.start_of_span? hs
    have hcount := ((walk_whole (s := .full) h).toWellFormed.roots i row start hrow hkind hstart).1
    rw [Row.span?_of_dataUnit hkind, hstart, hcount] at hs
    obtain ⟨-, rfl⟩ := Span.mk.inj (Option.some.inj hs)
    obtain rfl : j = start := Nat.le_antisymm (Nat.le_of_lt_succ hlt) hle
    exact hshows.unit_of_start hkind hstart
  obtain ⟨first, hfirst, hvalue⟩ := hunit hrow kind covers
  obtain ⟨first', hfirst', hvalue'⟩ := hunit hrow' kind' covers'
  cases hfirst.symm.trans hfirst'
  exact ⟨_, hvalue, hvalue'⟩

/-- A walk gives a table in which every row but the first one is in the span of one owner: an object, a
collection, or the data units of one signature.  All rows stand before their spans, but for data units
whose signature has been met before. -/
theorem walk_tiled {unit : DataUnit} {top : Nat} {m : Model} (h : r.walk .empty unit = .ok (top, m)) :
    m.Tiled top := by
  obtain ⟨p, hp, htop, hsound, htiles⟩ := walk_tiles (s := .full) h
  dsimp only at hp htop
  subst hp htop
  refine
    { covered := fun j hj hne => walk_covered h hj hne
      free := fun i row hrow hcovers => ?_
      apart := fun i row i' row' j hrow hrow' hj hj' => ?_
      inside := htiles.inside
      before := htiles.before
      units := fun i row s hrow hvalue => walk_units h hrow hvalue
      collections := fun i row hrow hkind => ?_ }
  · -- The first row stands behind none that has a span.
    have hcovers' := hcovers
    obtain ⟨s, hs, hle, hlt⟩ := hcovers
    by_cases hkind : row.kind = .dataUnit
    · obtain ⟨s', hvalue, -⟩ := walk_sharedUnits h hrow hrow hkind hkind hcovers' hcovers'
      obtain ⟨root, first, -, hspan, -, -, -, -, hfirst, -⟩ := walk_units h hrow hvalue
      cases hspan.symm.trans hs
      exact Nat.not_lt_zero first (Nat.lt_of_lt_of_le hfirst hle)
    · exact Nat.not_lt_zero i (Nat.lt_of_lt_of_le (htiles.before i row s hrow hkind hs) hle)
  · refine (htiles.apart i row i' row' j hrow hrow' hj hj').imp id ?_
    rintro ⟨hkind, hkind'⟩
    exact walk_sharedUnits h hrow hrow' hkind hkind' hj hj'
  · obtain ⟨origins, hpictures⟩ := exists_pictures h
    obtain ⟨o, -, hshows⟩ := hpictures.shown hrow
    obtain ⟨start, hstart⟩ := hshows.start_of_collection hkind
    have hspan : ∃ n, row.span? = some ⟨start, n⟩ ∧ 0 < n := by
      rcases hkind with hkind | hkind <;> rw [Row.span?, hkind, hstart]
      · exact ⟨max row.count 1, rfl, by omega⟩
      · exact ⟨2 * max row.count 1, rfl, by omega⟩
    obtain ⟨n, hs, hpos⟩ := hspan
    have hle : start + n ≤ p.size := htiles.inside i row _ hrow hs
    exact ⟨start, hstart, Nat.lt_of_lt_of_le (Nat.lt_add_of_pos_right hpos) hle⟩

/-- A data unit that is met twice, the second time inside an object, with an empty list, an empty
dictionary and a part that is not usable. -/
def sharedClass : DataUnit :=
  let part : DataUnit := ⟨"part", ⟨"Part", []⟩⟩
  ⟨"shared", ⟨"Root", [⟨"m_first", .dataUnit "Part", .dataUnit part⟩,
    ⟨"m_inner", .object "Inner", .object ⟨"Inner", [⟨"m_second", .dataUnit "Part", .dataUnit part⟩]⟩⟩,
    ⟨"m_none", .list (.scalar .u8), .sequence []⟩,
    ⟨"m_handle", .foreign "Handle", .null⟩,
    ⟨"m_table", .dictionary .string .bool, .dictionary []⟩]⟩⟩

/-- All rows of the table have their owners; those behind the rows of the empty collections represent
their elements. -/
theorem walk_tiled_sharedClass : ∃ m,
    walk ⟨.standard, .skip, .declaration, "m_"⟩ .empty sharedClass = .ok (0, m) ∧
    m.rows.toList.map (fun r => (r.kind, r.name, r.start, r.count)) =
      [(.dataUnit, "", some 1, 1), (.object, "", some 2, 4), (.dataUnit, "first", some 6, 1),
        (.object, "inner", some 7, 1), (.array, "none", some 8, 0), (.dictionary, "table", some 9, 0),
        (.object, "", some 11, 0), (.dataUnit, "second", some 6, 1), (.uint8, "", none, 1),
        (.string, "", none, 0), (.bool, "", none, 1)] ∧
    m.Tiled 0 := by
  have hcheck : (walk ⟨.standard, .skip, .declaration, "m_"⟩ .empty sharedClass).toOption.any
      (fun x => x.1 = 0 && x.2.rows.toList.map (fun r => (r.kind, r.name, r.start, r.count)) =
        [(.dataUnit, "", some 1, 1), (.object, "", some 2, 4), (.dataUnit, "first", some 6, 1),
          (.object, "inner", some 7, 1), (.array, "none", some 8, 0), (.dictionary, "table", some 9, 0),
          (.object, "", some 11, 0), (.dataUnit, "second", some 6, 1), (.uint8, "", none, 1),
          (.string, "", none, 0), (.bool, "", none, 1)]) = true := by
    decide +kernel
  simp only [Option.any_eq_true, Bool.and_eq_true, decide_eq_true_eq, toOption_eq_some,
    Prod.exists] at hcheck
  obtain ⟨row, m, hwalk, rfl, hrows⟩ := hcheck
  exact ⟨m, hwalk, hrows, walk_tiled hwalk⟩

/-- Not every row stands before its span: the second data unit of a signature stands behind the row of the
class, which the first one has brought. -/
theorem not_before_sharedClass : ¬ ∀ (r : Rules) (unit : DataUnit) (top : Nat) (m : Model),
    r.walk .empty unit = .ok (top, m) → ∀ i row s, m.row i = .ok row → row.span? = some s →
      i < s.start := by
  intro hbefore
  have hcheck : (walk ⟨.standard, .skip, .declaration, "m_"⟩ .empty sharedClass).toOption.any
      (fun x => (x.2.row 7).toOption.any fun row => row.span? = some ⟨6, 1⟩) = true := by
    decide +kernel
  simp only [Option.any_eq_true, decide_eq_true_eq, toOption_eq_some, Prod.exists] at hcheck
  obtain ⟨top, m, hwalk, row, hrow, hspan⟩ := hcheck
  exact absurd (hbefore _ _ top m hwalk 7 row _ hrow hspan) (by decide)

end Rules

end Walk

end ObjectPack
