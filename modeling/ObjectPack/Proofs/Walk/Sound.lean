import ObjectPack.Proofs.Walk.Grow

/-!
# What a walk keeps

While an object graph is walked, the rows that exist form a forest, and all objects belong to the
data unit that the walk began with (`Walk.Progress.Sound`).  When the turn of a value comes, its row
gets the rows that are added for its parts, which nothing else owns, so this stays true
(`Progress.Sound.take`).
-/

namespace ObjectPack

open Outcome

/-! ### Changing rows -/

namespace Row

/-- Whether a value is one of the kind of its row is a matter of value and kind. -/
theorem Fits.of_eq {r r' : Row} (h : r.Fits) (kind : r'.kind = r.kind) (value : r'.value = r.value) :
    r'.Fits := by
  unfold Fits at h ⊢
  rw [kind, value]
  exact h

end Row

namespace Model

variable {m m' m'' : Model} {i j : Nat} {r r' : Row}

/-- Whether one row of a model has become another one. -/
structure Changes (m m' : Model) (i : Nat) (r : Row) : Prop where
  rows : m'.rows.toList = m.rows.toList.set i r
  texts : m'.texts = m.texts
  supply : m'.supply = m.supply

theorem modify_changes (h : m.row i = .ok r) (f : Row → Row) : m.Changes (m.modify i f) i (f r) where
  rows := by
    show (m.rows.modify i f).toList = _
    rw [Array.toList_modify]
    refine List.ext_getElem? fun j => ?_
    by_cases hj : i = j
    · subst hj
      have hget := row_eq_ok.mp h
      rw [List.getElem?_modify_eq, hget,
        List.getElem?_set_self (List.getElem?_eq_some_iff.mp hget).1]
      rfl
    · rw [List.getElem?_modify_ne _ _ hj, List.getElem?_set_ne hj]
  texts := rfl
  supply := rfl

theorem setTypeName_changes (h : m.row i = .ok r) (typeName : String) :
    m.Changes (m.setTypeName i typeName) i { r with typeName := some typeName } := by
  have hchanges : (m.intern typeName).Changes (m.setTypeName i typeName) i _ :=
    modify_changes (show (m.intern typeName).row i = .ok r from h) _
  exact ⟨hchanges.rows, hchanges.texts, hchanges.supply⟩

theorem changes_self (h : m.row i = .ok r) : m.Changes m i r where
  rows := by
    obtain ⟨hlt, hget⟩ := List.getElem?_eq_some_iff.mp (row_eq_ok.mp h)
    rw [← hget, List.set_getElem_self]
  texts := rfl
  supply := rfl

theorem Changes.trans (h : m.Changes m' i r) (h' : m'.Changes m'' i r') : m.Changes m'' i r' where
  rows := by rw [h'.rows, h.rows, List.set_set]
  texts := h'.texts.trans h.texts
  supply := h'.supply.trans h.supply

theorem Changes.size_eq (h : m.Changes m' i r) : m'.size = m.size := by
  have hlength := congrArg List.length h.rows
  rwa [List.length_set, Array.length_toList, Array.length_toList] at hlength

theorem Changes.row_self (h : m.Changes m' i r) (inside : i < m.size) : m'.row i = .ok r := by
  rw [row_eq_ok, h.rows, List.getElem?_set_self]
  rw [Array.length_toList]
  exact inside

theorem Changes.row_of_ne (h : m.Changes m' i r) (hne : j ≠ i) :
    m'.row j = .ok r' ↔ m.row j = .ok r' := by
  rw [row_eq_ok, h.rows, List.getElem?_set_ne hne.symm, row_eq_ok]

/-- Different rows own different rows if any two do. -/
theorem pairwise_apart (h : ∀ i j r r', m.row i = .ok r → m.row j = .ok r' → i ≠ j → r.Apart r') :
    m.rows.toList.Pairwise Row.Apart := by
  refine List.pairwise_iff_getElem.mpr fun i j hi hj hlt => ?_
  exact h i j _ _ (row_eq_ok.mpr (List.getElem?_eq_getElem hi))
    (row_eq_ok.mpr (List.getElem?_eq_getElem hj)) (Nat.ne_of_lt hlt)

end Model

namespace Walk

namespace Progress

variable {p p₁ p' : Progress} {top i j k : Nat} {item : Deferred} {waiting later : List Deferred}
  {rows : List Row} {r s : Row}

/-! ### Added rows -/

theorem Grows.row_old (h : p.Grows p' rows later) (hrow : p.model.row j = .ok s) :
    p'.model.row j = .ok s := by
  have hget := Model.row_eq_ok.mp hrow
  rw [Model.row_eq_ok, h.table, List.getElem?_append_left (List.getElem?_eq_some_iff.mp hget).1, hget]

theorem Grows.row_new (h : p.Grows p' rows later) (hk : rows[k]? = some s) :
    p'.model.row (p.size + k) = .ok s := by
  have hsize : p.size = p.model.rows.toList.length := Array.length_toList.symm
  rw [Model.row_eq_ok, h.table, hsize, List.getElem?_append_right (Nat.le_add_right _ _),
    Nat.add_sub_cancel_left, hk]

theorem Grows.row_cases (h : p.Grows p' rows later) (hrow : p'.model.row j = .ok s) :
    p.model.row j = .ok s ∨ ∃ k, rows[k]? = some s ∧ j = p.size + k := by
  have hget := Model.row_eq_ok.mp hrow
  have hsize : p.size = p.model.rows.toList.length := Array.length_toList.symm
  rw [h.table] at hget
  by_cases hlt : j < p.model.rows.toList.length
  · rw [List.getElem?_append_left hlt] at hget
    exact Or.inl (Model.row_eq_ok.mpr hget)
  · rw [List.getElem?_append_right (Nat.le_of_not_lt hlt)] at hget
    exact Or.inr ⟨_, hget, by omega⟩

/-- Rows that are added own nothing yet. -/
theorem Grows.not_owns (h : p.Grows p' rows later) (hs : s ∈ rows) (j : Nat) : ¬ s.Owns j := by
  rcases (h.fits s hs).2 with hstart | hkind
  · exact Row.not_owns_of_start hstart j
  · exact Row.not_owns_of_ownedCount (by rw [Row.ownedCount, hkind]) j

theorem Grows.start_eq_none (h : p.Grows p' rows later) (hs : s ∈ rows) (kind : s.kind ≠ .string) :
    s.start = none :=
  (h.fits s hs).2.resolve_right kind

theorem Grows.later_lt (h : p.Grows p' rows later) (hitem : item ∈ later) :
    p.size ≤ item.row ∧ item.row < p'.size := by
  obtain ⟨k, r, hk, hrow, -⟩ := h.items item hitem
  have hlt := (List.getElem?_eq_some_iff.mp hk).1
  have hsize := h.size_eq
  omega

/-! ### Turns -/

/-- Whether the turn of a value has come: rows have been added, and the row of the value has become
another one of the same value. -/
structure Takes (p p₁ p' : Progress) (item : Deferred) (r : Row) (rows : List Row)
    (later : List Deferred) : Prop where
  grows : p.Grows p₁ rows later
  changes : p₁.model.Changes p'.model item.row r
  kind : r.kind = item.kind
  value : r.value = item.payload

/-- Whether the rows of a walk form a forest, in which all objects belong to the data unit of the top
row, while some values wait for their turn. -/
structure Sound (p : Progress) (top : Nat) (waiting : List Deferred) : Prop where
  wellFormed : p.model.WellFormed top
  ordered : p.model.Ordered
  reserved : p.model.Reserved
  complete : p.model.Complete top
  waits : ∀ item ∈ waiting, ∃ r, p.model.row item.row = .ok r ∧ item.IsOf r
  once : (waiting.map Deferred.row).Nodup
  reached : ∀ item ∈ waiting, ¬ item.Hollow → p.model.Reaches top item.row
  met : ∀ s root, p.units.lookup s = some root → p.model.HasObject root ∧
    p.model.Reaches top root ∧
    ∀ i row, p.model.row i = .ok row → row.kind ≠ .dataUnit → ¬ row.Owns root
  known : ∀ i row s root, p.model.row i = .ok row → row.value = .dataUnit s →
    row.start = some root → p.units.lookup s = some root

namespace Takes

theorem size_eq (h : Takes p p₁ p' item r rows later) : p'.size = p.size + rows.length :=
  h.changes.size_eq.trans h.grows.size_eq

theorem row_old (h : Takes p p₁ p' item r rows later) (hrow : p.model.row j = .ok s)
    (hne : j ≠ item.row) : p'.model.row j = .ok s :=
  (h.changes.row_of_ne hne).mpr (h.grows.row_old hrow)

theorem row_self (h : Takes p p₁ p' item r rows later) (inside : item.row < p.size) :
    p'.model.row item.row = .ok r := by
  refine h.changes.row_self ?_
  show item.row < p₁.size
  rw [h.grows.size_eq]
  omega

theorem row_new (h : Takes p p₁ p' item r rows later) (inside : item.row < p.size)
    (hk : rows[k]? = some s) : p'.model.row (p.size + k) = .ok s :=
  (h.changes.row_of_ne (by omega)).mpr (h.grows.row_new hk)

/-- The row of a data unit holds no elements. -/
theorem not_holds (h : Takes p p₁ p' item r rows later) (kind : item.kind = .dataUnit) (j : Nat) :
    ¬ r.Holds j :=
  Row.not_holds_of_heldCount (by rw [Row.heldCount, h.kind, kind]) j

/-- A row that has been added owns nothing. -/
theorem not_owns (h : Takes p p₁ p' item r rows later) (hk : rows[k]? = some s) (j : Nat) : ¬ s.Owns j :=
  h.grows.not_owns (List.mem_of_getElem? hk) j

/-- A row has been there, or it is the one that has changed, or it has been added. -/
theorem row_cases (h : Takes p p₁ p' item r rows later) (inside : item.row < p.size)
    (hrow : p'.model.row j = .ok s) : (p.model.row j = .ok s ∧ j ≠ item.row) ∨
      (j = item.row ∧ s = r) ∨ ∃ k, rows[k]? = some s ∧ j = p.size + k := by
  by_cases hself : j = item.row
  · subst hself
    rw [h.row_self inside] at hrow
    exact Or.inr (Or.inl ⟨rfl, (Except.ok.inj hrow).symm⟩)
  · rcases h.grows.row_cases ((h.changes.row_of_ne hself).mp hrow) with hold | hnew
    · exact Or.inl ⟨hold, hself⟩
    · exact Or.inr (Or.inr hnew)

/-- Whatever belonged to the data unit still does: the row that has changed owned nothing. -/
theorem reaches (h : Takes p p₁ p' item r rows later) (sound : p.Sound top (item :: waiting))
    (reached : p.model.Reaches top j) : p'.model.Reaches top j := by
  obtain ⟨r₀, hr₀, hof⟩ := sound.waits item List.mem_cons_self
  have hkeeps : ∀ {k : Nat} {row : Row}, p.model.row k = .ok row → row.start ≠ none →
      p'.model.row k = .ok row := by
    intro k row hrow hstart
    refine h.row_old hrow ?_
    rintro rfl
    rw [hr₀] at hrow
    cases hrow
    exact hstart hof.start
  induction reached with
  | top => exact .top
  | owned _ hrow present owns ih =>
    have hstart : _ ≠ none := fun hnone => Row.not_owns_of_start hnone _ owns
    exact .owned ih (hkeeps hrow hstart) present owns
  | root _ hrow value start ih =>
    exact .root ih (hkeeps hrow (by rw [start]; exact Option.some_ne_none _)) value start

/-- Objects stay where they are. -/
theorem hasObject (h : Takes p p₁ p' item r rows later) (sound : p.Sound top (item :: waiting))
    (object : p.model.HasObject j) : p'.model.HasObject j := by
  obtain ⟨r₀, hr₀, hof⟩ := sound.waits item List.mem_cons_self
  obtain ⟨row, hrow, hkind, hvalue⟩ := object
  by_cases hself : j = item.row
  · subst hself
    rw [hr₀] at hrow
    cases hrow
    exact ⟨r, h.row_self (Model.lt_size_of_row hr₀), h.kind.trans (hof.kind.symm.trans hkind),
      h.value.trans (hof.value.symm.trans hvalue)⟩
  · exact ⟨row, h.row_old hrow hself, hkind, hvalue⟩

end Takes

/-- What the row of a value may own after its turn: rows that have been added, or the root of a data
unit that has been met. -/
def MayOwn (p p' : Progress) (item : Deferred) (r : Row) : Prop :=
  ∀ j, r.Owns j → j < p'.size ∧
    (p.size ≤ j ∨ item.kind = .dataUnit ∧ ∃ s, p.units.lookup s = some j)

/-- What a row owns after its turn has been added later, unless the row is that of a data unit. -/
theorem MayOwn.size_le (owns : MayOwn p p' item r) (takes : Takes p p₁ p' item r rows later)
    (kind : r.kind ≠ .dataUnit) (hj : r.Owns j) : p.size ≤ j := by
  refine (owns j hj).2.resolve_right ?_
  rintro ⟨hunit, -⟩
  exact kind (takes.kind.trans hunit)

/-- Whether the data units that have been met are those of before, and perhaps one more whose root has
been added. -/
structure Meets (p p' : Progress) (top : Nat) (item : Deferred) (r : Row) : Prop where
  keeps : ∀ s root, p.units.lookup s = some root → p'.units.lookup s = some root
  adds : ∀ s root, p'.units.lookup s = some root → p.units.lookup s = some root ∨
    (item.kind = .dataUnit ∧ root = p.size ∧ p'.model.HasObject root ∧ p'.model.Reaches top root)
  known : ∀ s root, r.value = .dataUnit s → r.start = some root →
    r.count = 1 ∧ p'.units.lookup s = some root

namespace Sound

theorem met_of_takes (h : p.Sound top (item :: waiting)) (takes : Takes p p₁ p' item r rows later)
    (owns : MayOwn p p' item r) (meets : Meets p p' top item r) {s : Digest} {root : Nat}
    (hs : p'.units.lookup s = some root) : p'.model.HasObject root ∧ p'.model.Reaches top root ∧
      ∀ i row, p'.model.row i = .ok row → row.kind ≠ .dataUnit → ¬ row.Owns root := by
  obtain ⟨r₀, hr₀, -⟩ := h.waits item List.mem_cons_self
  have hinside := Model.lt_size_of_row hr₀
  rcases meets.adds s root hs with hold | ⟨hkind, rfl, hobject, hreaches⟩
  · obtain ⟨hobject, hreaches, hnone⟩ := h.met s root hold
    have hlt : root < p.size := by
      obtain ⟨row, hrow, -⟩ := hobject
      exact Model.lt_size_of_row hrow
    refine ⟨takes.hasObject h hobject, takes.reaches h hreaches, fun i row hrow hkind howns => ?_⟩
    rcases takes.row_cases hinside hrow with ⟨hrow, -⟩ | ⟨-, rfl⟩ | ⟨k, hk, -⟩
    · exact hnone i row hrow hkind howns
    · exact absurd hlt (Nat.not_lt_of_le (owns.size_le takes hkind howns))
    · exact takes.not_owns hk root howns
  · refine ⟨hobject, hreaches, fun i row hrow hne howns => ?_⟩
    rcases takes.row_cases hinside hrow with ⟨hrow, -⟩ | ⟨-, rfl⟩ | ⟨k, hk, -⟩
    · exact absurd (h.wellFormed.inside i row hrow _ howns) (Nat.lt_irrefl _)
    · exact hne (takes.kind.trans hkind)
    · exact takes.not_owns hk _ howns

theorem known_of_takes (h : p.Sound top (item :: waiting)) (takes : Takes p p₁ p' item r rows later)
    (meets : Meets p p' top item r) {row : Row} {s : Digest} {root : Nat}
    (hrow : p'.model.row i = .ok row) (value : row.value = .dataUnit s)
    (start : row.start = some root) : p'.units.lookup s = some root := by
  obtain ⟨r₀, hr₀, -⟩ := h.waits item List.mem_cons_self
  rcases takes.row_cases (Model.lt_size_of_row hr₀) hrow with ⟨hrow, -⟩ | ⟨-, rfl⟩ | ⟨k, hk, -⟩
  · exact meets.keeps s root (h.known i row s root hrow value start)
  · exact (meets.known s root value start).2
  · have hmem := List.mem_of_getElem? hk
    have hkind := (takes.grows.fits row hmem).1.kind_of_dataUnit value
    have hnone := takes.grows.start_eq_none hmem (by rw [hkind]; decide)
    rw [start] at hnone
    cases hnone

theorem fits_of_takes (h : p.Sound top (item :: waiting)) (takes : Takes p p₁ p' item r rows later)
    {row : Row} (hrow : p'.model.row i = .ok row) : row.Fits := by
  obtain ⟨r₀, hr₀, hof⟩ := h.waits item List.mem_cons_self
  rcases takes.row_cases (Model.lt_size_of_row hr₀) hrow with ⟨hrow, -⟩ | ⟨-, rfl⟩ | ⟨k, hk, -⟩
  · exact h.wellFormed.fits i row hrow
  · exact (h.wellFormed.fits _ r₀ hr₀).of_eq (takes.kind.trans hof.kind.symm)
      (takes.value.trans hof.value.symm)
  · exact (takes.grows.fits row (List.mem_of_getElem? hk)).1

/-- Nothing that has been there owns what the row of a value owns after its turn. -/
theorem apart_of_takes (h : p.Sound top (item :: waiting)) (takes : Takes p p₁ p' item r rows later)
    (owns : MayOwn p p' item r) {row : Row} (hrow : p.model.row i = .ok row) : row.Apart r := by
  by_cases hunits : row.kind = .dataUnit ∧ r.kind = .dataUnit
  · exact Or.inl hunits
  refine Or.inr fun j howns howns' => ?_
  rcases (owns j howns').2 with hnew | ⟨hunit, s, hs⟩
  · exact absurd (h.wellFormed.inside i row hrow j howns) (Nat.not_lt_of_le hnew)
  · have hkind : row.kind ≠ .dataUnit := fun hkind => hunits ⟨hkind, takes.kind.trans hunit⟩
    exact (h.met s j hs).2.2 i row hrow hkind howns

theorem wellFormed_of_takes (h : p.Sound top (item :: waiting))
    (takes : Takes p p₁ p' item r rows later) (owns : MayOwn p p' item r)
    (meets : Meets p p' top item r) : p'.model.WellFormed top := by
  obtain ⟨r₀, hr₀, -⟩ := h.waits item List.mem_cons_self
  have hinside : item.row < p.size := Model.lt_size_of_row hr₀
  have hsize := takes.size_eq
  exact
    { bounded := by
        have hbounded : top < p.size := h.wellFormed.bounded
        show top < p'.size
        omega
      fits := fun i row hrow => h.fits_of_takes takes hrow
      texts := by
        rw [Model.TextsKnown, takes.changes.texts, takes.changes.supply]
        exact takes.grows.texts h.wellFormed.texts
      inside := by
        intro i row hrow j howns
        rcases takes.row_cases hinside hrow with ⟨hrow, -⟩ | ⟨-, rfl⟩ | ⟨k, hk, -⟩
        · have hlt : j < p.size := h.wellFormed.inside i row hrow j howns
          show j < p'.size
          omega
        · exact (owns j howns).1
        · exact absurd howns (takes.not_owns hk j)
      apart := by
        refine Model.pairwise_apart fun i j row row' hrow hrow' hne => ?_
        rcases takes.row_cases hinside hrow with ⟨hrow, -⟩ | ⟨hi, rfl⟩ | ⟨k, hk, -⟩
        · rcases takes.row_cases hinside hrow' with ⟨hrow', -⟩ | ⟨-, rfl⟩ | ⟨k, hk, -⟩
          · exact h.wellFormed.apart_of_ne hrow hrow' hne
          · exact h.apart_of_takes takes owns hrow
          · exact Row.apart_of_not_owns (takes.not_owns hk)
        · rcases takes.row_cases hinside hrow' with ⟨hrow', -⟩ | ⟨hj, -⟩ | ⟨k, hk, -⟩
          · exact (h.apart_of_takes takes owns hrow').symm
          · exact absurd (hi.trans hj.symm) hne
          · exact Row.apart_of_not_owns (takes.not_owns hk)
        · exact (Row.apart_of_not_owns (takes.not_owns hk)).symm
      notItself := by
        intro i row hrow hkind howns
        rcases takes.row_cases hinside hrow with ⟨hrow, -⟩ | ⟨rfl, rfl⟩ | ⟨k, hk, -⟩
        · exact h.wellFormed.notItself i row hrow hkind howns
        · exact absurd (owns.size_le takes hkind howns) (Nat.not_le_of_lt hinside)
        · exact takes.not_owns hk i howns
      notTop := by
        intro i row hrow hkind howns
        rcases takes.row_cases hinside hrow with ⟨hrow, -⟩ | ⟨-, rfl⟩ | ⟨k, hk, -⟩
        · exact h.wellFormed.notTop i row hrow hkind howns
        · exact absurd (owns.size_le takes hkind howns) (Nat.not_le_of_lt h.wellFormed.bounded)
        · exact takes.not_owns hk top howns
      roots := by
        intro i row root hrow hkind hstart
        rcases takes.row_cases hinside hrow with ⟨hrow, -⟩ | ⟨-, rfl⟩ | ⟨k, hk, -⟩
        · obtain ⟨hcount, hroot⟩ := h.wellFormed.roots i row root hrow hkind hstart
          exact ⟨hcount, takes.hasObject h hroot⟩
        · obtain ⟨s, hs⟩ := item.exists_unit (takes.kind.symm.trans hkind)
          obtain ⟨hcount, hlookup⟩ := meets.known s root (takes.value.trans hs) hstart
          exact ⟨hcount, (h.met_of_takes takes owns meets hlookup).1⟩
        · have hnone := takes.grows.start_eq_none (List.mem_of_getElem? hk) (by rw [hkind]; decide)
          rw [hstart] at hnone
          cases hnone
      shared := by
        rintro s root root' ⟨i, row, hrow, hvalue, hstart⟩ ⟨j, row', hrow', hvalue', hstart'⟩
        have hroot := h.known_of_takes takes meets hrow hvalue hstart
        rw [h.known_of_takes takes meets hrow' hvalue' hstart'] at hroot
        exact (Option.some.inj hroot).symm }

/-- What a row gets has been added behind all other rows, and owns nothing yet. -/
theorem ordered_of_takes (h : p.Sound top (item :: waiting)) (takes : Takes p p₁ p' item r rows later)
    (owns : MayOwn p p' item r) : p'.model.Ordered := by
  obtain ⟨r₀, hr₀, -⟩ := h.waits item List.mem_cons_self
  have hinside : item.row < p.size := Model.lt_size_of_row hr₀
  have hsize := takes.size_eq
  refine ⟨?_, ?_, ?_⟩
  · intro i row j hrow hkind howns
    rcases takes.row_cases hinside hrow with ⟨hrow, -⟩ | ⟨-, rfl⟩ | ⟨k, hk, -⟩
    · have hlt : j < p.size := h.ordered.inside i row j hrow hkind howns
      show j < p'.size
      omega
    · exact (owns j howns).1
    · exact absurd howns (takes.not_owns hk j)
  · intro i row j hrow hkind howns
    rcases takes.row_cases hinside hrow with ⟨hrow, -⟩ | ⟨rfl, rfl⟩ | ⟨k, hk, -⟩
    · exact h.ordered.below i row j hrow hkind howns
    · exact Nat.lt_of_lt_of_le hinside (owns.size_le takes hkind howns)
    · exact absurd howns (takes.not_owns hk j)
  · intro i owner j row k l howner hkind hj hk hrow hkind' howns
    rcases takes.row_cases hinside howner with ⟨howner, -⟩ | ⟨-, rfl⟩ | ⟨n, hn, -⟩
    · have hk' : k < p.size := h.ordered.inside i owner k howner hkind hk
      rcases takes.row_cases hinside hrow with ⟨hrow, -⟩ | ⟨-, rfl⟩ | ⟨n, hn, -⟩
      · exact h.ordered.nested i owner j row k l howner hkind hj hk hrow hkind' howns
      · exact Nat.lt_of_lt_of_le hk' (owns.size_le takes hkind' howns)
      · exact absurd howns (takes.not_owns hn l)
    · -- The owner is the row whose turn it is, so its rows are new.
      have hj' := owns.size_le takes hkind hj
      rcases takes.row_cases hinside hrow with ⟨hrow, -⟩ | ⟨rfl, -⟩ | ⟨n, hn, -⟩
      · have hlt : j < p.size := Model.lt_size_of_row hrow
        omega
      · omega
      · exact absurd howns (takes.not_owns hn l)
    · exact absurd hj (takes.not_owns hn j)

/-- What a collection holds has been added behind all other rows, and no object owns it. -/
theorem reserved_of_takes (h : p.Sound top (item :: waiting)) (takes : Takes p p₁ p' item r rows later)
    (owns : MayOwn p p' item r) (holds : ∀ j, r.Holds j → p.size ≤ j ∧ j < p'.size) :
    p'.model.Reserved := by
  obtain ⟨r₀, hr₀, -⟩ := h.waits item List.mem_cons_self
  have hinside : item.row < p.size := Model.lt_size_of_row hr₀
  have hsize := takes.size_eq
  intro i row j hrow hholds
  rcases takes.row_cases hinside hrow with ⟨hrow, -⟩ | ⟨rfl, rfl⟩ | ⟨k, hk, -⟩
  · obtain ⟨hlow, hhigh, hnone⟩ := h.reserved i row j hrow hholds
    have hhigh' : j < p.size := hhigh
    refine ⟨hlow, show j < p'.size by omega, fun k o ho hkind howns => ?_⟩
    rcases takes.row_cases hinside ho with ⟨ho, -⟩ | ⟨-, rfl⟩ | ⟨n, hn, -⟩
    · exact hnone k o ho hkind howns
    · have hle := owns.size_le takes (by rw [hkind]; decide) howns
      omega
    · exact takes.not_owns hn j howns
  · obtain ⟨hlow, hhigh⟩ := holds j hholds
    refine ⟨Nat.lt_of_lt_of_le hinside hlow, hhigh, fun k o ho hkind howns => ?_⟩
    rcases takes.row_cases hinside ho with ⟨ho, -⟩ | ⟨-, rfl⟩ | ⟨n, hn, -⟩
    · exact absurd (h.wellFormed.inside k o ho j howns) (Nat.not_lt_of_le hlow)
    · -- An object holds nothing.
      exact Row.not_holds_of_heldCount (by rw [Row.heldCount, hkind]) j hholds
    · exact takes.not_owns hn j howns
  · refine absurd hholds ?_
    rcases (takes.grows.fits row (List.mem_of_getElem? hk)).2 with hstart | hkind
    · exact Row.not_holds_of_start hstart j
    · exact Row.not_holds_of_heldCount (by rw [Row.heldCount, hkind]) j

/-- After the turn of a value everything is still in order, given that what it owns belongs to the data
unit where it matters. -/
theorem take (h : p.Sound top (item :: waiting)) (takes : Takes p p₁ p' item r rows later)
    (owns : MayOwn p p' item r) (holds : ∀ j, r.Holds j → p.size ≤ j ∧ j < p'.size)
    (meets : Meets p p' top item r)
    (reaches : Bare rows later ∨ ∀ j, p.size ≤ j → j < p'.size → p'.model.Reaches top j) :
    p'.Sound top (waiting ++ later) := by
  obtain ⟨r₀, hr₀, hof⟩ := h.waits item List.mem_cons_self
  have hinside : item.row < p.size := Model.lt_size_of_row hr₀
  have hsize := takes.size_eq
  have honce := h.once
  rw [List.map_cons, List.nodup_cons] at honce
  have hold : ∀ other ∈ waiting, other.row ≠ item.row := fun other hother heq =>
    honce.1 (heq ▸ List.mem_map_of_mem hother)
  exact
    { wellFormed := h.wellFormed_of_takes takes owns meets
      ordered := h.ordered_of_takes takes owns
      reserved := h.reserved_of_takes takes owns holds
      complete := by
        rintro i ⟨row, hrow, hkind, hvalue⟩
        rcases takes.row_cases hinside hrow with ⟨hrow, -⟩ | ⟨rfl, rfl⟩ | ⟨k, hk, rfl⟩
        · exact takes.reaches h (h.complete i ⟨row, hrow, hkind, hvalue⟩)
        · exact takes.reaches h (h.complete _ ⟨r₀, hr₀, hof.kind.trans (takes.kind.symm.trans hkind),
            hof.value.trans (takes.value.symm.trans hvalue)⟩)
        · rcases reaches with hbare | hreaches
          · exact absurd hvalue (hbare.1 row (List.mem_of_getElem? hk) hkind)
          · have hlt := (List.getElem?_eq_some_iff.mp hk).1
            exact hreaches _ (Nat.le_add_right _ _) (by omega)
      waits := by
        intro other hother
        rcases List.mem_append.mp hother with hother | hother
        · obtain ⟨row, hrow, hof⟩ := h.waits other (List.mem_cons_of_mem _ hother)
          exact ⟨row, takes.row_old hrow (hold other hother), hof⟩
        · obtain ⟨k, row, hk, hrow, hof⟩ := takes.grows.items other hother
          exact ⟨row, hrow ▸ takes.row_new hinside hk, hof⟩
      once := by
        rw [List.map_append, List.nodup_append]
        refine ⟨honce.2, takes.grows.once, ?_⟩
        rintro a ha b hb rfl
        obtain ⟨other, hother, rfl⟩ := List.mem_map.mp ha
        obtain ⟨other', hother', heq⟩ := List.mem_map.mp hb
        obtain ⟨row, hrow, -⟩ := h.waits other (List.mem_cons_of_mem _ hother)
        have hlt : other.row < p.size := Model.lt_size_of_row hrow
        have hle := (takes.grows.later_lt hother').1
        omega
      reached := by
        intro other hother hparts
        rcases List.mem_append.mp hother with hother | hother
        · exact takes.reaches h (h.reached other (List.mem_cons_of_mem _ hother) hparts)
        · rcases reaches with hbare | hreaches
          · exact absurd (hbare.2 other hother) hparts
          · obtain ⟨hle, hlt⟩ := takes.grows.later_lt hother
            have hsize₁ := takes.grows.size_eq
            exact hreaches _ hle (by omega)
      met := fun s root hs => h.met_of_takes takes owns meets hs
      known := fun i row s root => h.known_of_takes takes meets }

end Sound

/-! ### The parts of values -/

/-- Whether a walk has gone on and is sound still, with more values that wait. -/
def Continues (p p' : Progress) (top : Nat) (waiting : List Deferred) : Prop :=
  ∃ later, p'.deferred = p.deferred ++ later ∧ p'.Sound top (waiting ++ later)

/-- Whether a row has got a type name at most. -/
def Named (p p' : Progress) (row : Nat) : Prop :=
  p' = p ∨ ∃ typeName, p' = p.setTypeName row typeName

theorem Named.changes {p₂ : Progress} (h : Named p₁ p₂ item.row)
    (hrow : p₁.model.row item.row = .ok r) (of : item.IsOf r) :
    ∃ s, p₁.model.Changes p₂.model item.row s ∧ item.IsOf s ∧ p₂.model.row item.row = .ok s := by
  have hinside := Model.lt_size_of_row hrow
  rcases h with rfl | ⟨typeName, rfl⟩
  · exact ⟨r, Model.changes_self hrow, of, hrow⟩
  · have hchanges := Model.setTypeName_changes hrow typeName
    exact ⟨_, hchanges, ⟨of.start, of.kind, of.value⟩, hchanges.row_self hinside⟩

theorem Named.others {p₂ : Progress} {row : Nat} (h : Named p₁ p₂ row) :
    p₂.deferred = p₁.deferred ∧ p₂.units = p₁.units := by
  rcases h with rfl | ⟨typeName, rfl⟩ <;> exact ⟨rfl, rfl⟩

namespace Sound

variable {p₂ : Progress} {start count : Nat}

/-- The turn of a value other than a data unit. -/
theorem take_plain (h : p.Sound top (item :: waiting)) (takes : Takes p p₁ p' item r rows later)
    (kind : item.kind ≠ .dataUnit) (units : p'.units = p.units)
    (owns : (¬ item.Hollow ∧ ∀ j, r.Owns j ↔ p.size ≤ j ∧ j < p'.size) ∨
      (Bare rows later ∧ ∀ j, ¬ r.Owns j))
    (holds : ∀ j, r.Holds j → p.size ≤ j ∧ j < p'.size) : p'.Sound top (waiting ++ later) := by
  obtain ⟨r₀, hr₀, -⟩ := h.waits item List.mem_cons_self
  have hpresent : r.value = .present := takes.value.trans (item.payload_of_ne kind)
  refine h.take takes ?_ holds ⟨?_, ?_, ?_⟩ ?_
  · intro j howns
    rcases owns with ⟨-, hrange⟩ | ⟨-, hnone⟩
    · obtain ⟨hle, hlt⟩ := (hrange j).mp howns
      exact ⟨hlt, Or.inl hle⟩
    · exact absurd howns (hnone j)
  · intro s root hs
    rw [units]
    exact hs
  · intro s root hs
    rw [units] at hs
    exact Or.inl hs
  · intro s root hvalue
    rw [hpresent] at hvalue
    cases hvalue
  · rcases owns with ⟨hparts, hrange⟩ | ⟨hbare, -⟩
    · refine Or.inr fun j hle hlt => ?_
      have howner := takes.reaches h (h.reached item List.mem_cons_self hparts)
      exact .owned howner (takes.row_self (Model.lt_size_of_row hr₀)) hpresent
        ((hrange j).mpr ⟨hle, hlt⟩)
    · exact Or.inl hbare

/-- The parts of a value are only declared, or there are none. -/
theorem take_bare (h : p.Sound top (item :: waiting)) (kind : item.kind ≠ .dataUnit)
    (grows : p.Grows p₁ rows later) (named : Named p₁ p₂ item.row) (bare : Bare rows later) :
    Continues p p₂ top waiting := by
  obtain ⟨r₀, hr₀, hof₀⟩ := h.waits item List.mem_cons_self
  obtain ⟨r, hchanges, hof, -⟩ := named.changes (grows.row_old hr₀) hof₀
  obtain ⟨hdeferred, hunits⟩ := named.others
  refine ⟨later, hdeferred.trans grows.deferred, ?_⟩
  exact h.take_plain ⟨grows, hchanges, hof.kind, hof.value⟩ kind (hunits.trans grows.units)
    (Or.inr ⟨bare, Row.not_owns_of_start hof.start⟩)
    fun j hholds => absurd hholds (Row.not_holds_of_start hof.start j)

/-- The row of a value gets a range. -/
theorem take_range (h : p.Sound top (item :: waiting)) (kind : item.kind ≠ .dataUnit)
    (grows : p.Grows p₁ rows later) (named : Named p₁ p₂ item.row)
    (owns : ∀ r : Row, r.kind = item.kind → r.start = some start → r.count = count →
      (¬ item.Hollow ∧ start = p.size ∧ r.ownedCount = rows.length) ∨
        (Bare rows later ∧ r.ownedCount = 0))
    (holds : ∀ r : Row, r.kind = item.kind → r.count = count →
      r.heldCount = 0 ∨ start = p.size ∧ r.heldCount ≤ rows.length) :
    Continues p (p₂.setRange item.row start count) top waiting := by
  obtain ⟨r₀, hr₀, hof₀⟩ := h.waits item List.mem_cons_self
  obtain ⟨r, hchanges, hof, hrow⟩ := named.changes (grows.row_old hr₀) hof₀
  obtain ⟨hdeferred, hunits⟩ := named.others
  -- Naming the element type does not change what the row owns, so the range is set at last.
  set r' : Row := { r with start := some start, count := count } with hr'
  have hchanges' := hchanges.trans
    (Model.modify_changes hrow ({ · with start := some start, count := count }))
  have htakes : Takes p p₁ (p₂.setRange item.row start count) item r' rows later :=
    ⟨grows, hchanges', hof.kind, hof.value⟩
  refine ⟨later, hdeferred.trans grows.deferred, ?_⟩
  have hsize := htakes.size_eq
  refine h.take_plain htakes kind (hunits.trans grows.units) ?_ ?_
  · rcases owns r' hof.kind rfl rfl with ⟨hparts, hstart, hcount⟩ | ⟨hbare, hcount⟩
    · refine Or.inl ⟨hparts, fun j => ?_⟩
      constructor
      · rintro ⟨start', hstart', hle, hlt⟩
        cases hstart'
        omega
      · rintro ⟨hle, hlt⟩
        exact ⟨start, rfl, by omega, by omega⟩
    · exact Or.inr ⟨hbare, Row.not_owns_of_ownedCount hcount⟩
  · intro j hholds
    rcases holds r' hof.kind rfl with hzero | ⟨hstart, hcount⟩
    · exact absurd hholds (Row.not_holds_of_heldCount hzero j)
    · obtain ⟨start', hstart', hle, hlt⟩ := hholds
      cases hstart'
      omega

end Sound

end Progress

end Walk

end ObjectPack
