import Mathlib.Logic.Equiv.Basic
import ObjectPack.Proofs.Model.Order
import ObjectPack.Proofs.Model.Solve

/-!
# Where rows go

While the layout of a model is solved, its rows move, and booleans become bits of words.  A placement
tells for every row of the model at the start where it stands now (`Model.Tracks`): rows keep what they
hold, rows that no object owns keep their index, fields stay with their object, and a boolean of an object
that has been folded is one bit of one of its words.  Placements follow each other: folding the booleans
of one more object (`Tracks.next`) and exchanging rows of an object (`Tracks.permute`) lead to another one.
-/

namespace ObjectPack

/-- Whether a row is a word of booleans one of whose bits stands for row `j`. -/
def Row.HoldsBit (w : Row) (j : Nat) (b : Bool) : Prop :=
  w.kind = .bitSet ∧ ∃ start word, w.start = some start ∧ start ≤ j ∧ j < start + w.count ∧
    w.value = .bitSet word ∧ word.toNat.testBit (j - start) = b

theorem Row.HoldsBit.owns {w : Row} {j : Nat} {b : Bool} (h : w.HoldsBit j b) : w.Owns j := by
  obtain ⟨hkind, start, -, hstart, hle, hlt, -⟩ := h
  refine ⟨start, hstart, hle, ?_⟩
  rw [Row.ownedCount, hkind]
  exact hlt

namespace Model

/-- Whether row `j` is that of a boolean. -/
def isBool (m : Model) (j : Nat) : Bool := m.rows[j]?.any (·.kind = .bool)

/-- How many booleans an object owns. -/
def boolCount (m : Model) (o : Row) : Nat :=
  o.start.elim 0 fun start => (List.range' start o.count).countP m.isBool

/-- How many rows an object owns when its booleans have been folded. -/
def foldedCount (m : Model) (o : Row) : Nat := o.count - m.boolCount o + bitSetCount (m.boolCount o)

/-- What becomes of a row when booleans are folded: an object owns fewer rows, other rows stay the same. -/
def foldedRow (m : Model) (r : Row) : Row :=
  if r.kind = .object then { r with count := m.foldedCount r } else r

/-- Whether row `i` is the row `o` of an object. -/
def IsObject (m : Model) (i : Nat) (o : Row) : Prop := m.row i = .ok o ∧ o.kind = .object

/-- Whether `place` tells where the rows of a model stand in another one, in which the booleans of some
objects, those that are done, have been folded. -/
structure Tracks (m m' : Model) (done : Nat → Prop) (place : Nat → Nat) : Prop where
  injective : ∀ i j, i < m.size → j < m.size → place i = place j → i = j
  /-- Rows keep all that they hold, but objects that are done have their folded count. -/
  folded : ∀ i r, m.row i = .ok r → done i → m'.row (place i) = .ok (m.foldedRow r)
  waiting : ∀ i r, m.row i = .ok r → ¬ done i → m'.row (place i) = .ok r
  /-- Rows move inside of objects that are done only. -/
  still : ∀ i, (∀ k o, m.IsObject k o → done k → ¬ o.Owns i) → place i = i
  field : ∀ k o i r, m.IsObject k o → done k → o.Owns i → m.row i = .ok r → r.kind ≠ .bool →
    (m.foldedRow o).Owns (place i)
  bool : ∀ k o i r, m.IsObject k o → done k → o.Owns i → m.row i = .ok r → r.kind = .bool →
    ∃ j w, (m.foldedRow o).Owns j ∧ m'.row j = .ok w ∧
      w.HoldsBit (place i) (decide (r.value = .bool true))
  /-- An object that is done owns nothing but its former fields and words of its booleans. -/
  owned : ∀ k o j, m.IsObject k o → done k → (m.foldedRow o).Owns j →
    (∃ i r, o.Owns i ∧ m.row i = .ok r ∧ r.kind ≠ .bool ∧ place i = j) ∨
      ∃ w, m'.row j = .ok w ∧ w.kind = .bitSet ∧ ∀ l, w.Owns l →
        ∃ i r, o.Owns i ∧ m.row i = .ok r ∧ r.kind = .bool ∧ place i = l
  objects : ∀ j r, m'.IsObject j r → ∃ i o, m.IsObject i o ∧ place i = j

variable {m m' m₁ m₂ : Model} {top i j k : Nat} {o r owner : Row} {done done' : Nat → Prop}
  {p q : Nat → Nat} {before fields behind : List Row}

@[simp] theorem foldedRow_kind (m : Model) (r : Row) : (m.foldedRow r).kind = r.kind := by
  unfold foldedRow
  split <;> rfl

theorem foldedRow_value (m : Model) (r : Row) : (m.foldedRow r).value = r.value := by
  unfold foldedRow
  split <;> rfl

theorem foldedRow_start (m : Model) (r : Row) : (m.foldedRow r).start = r.start := by
  unfold foldedRow
  split <;> rfl

theorem foldedRow_name (m : Model) (r : Row) : (m.foldedRow r).name = r.name := by
  unfold foldedRow
  split <;> rfl

theorem foldedRow_typeName (m : Model) (r : Row) : (m.foldedRow r).typeName = r.typeName := by
  unfold foldedRow
  split <;> rfl

theorem foldedRow_of_ne (m : Model) (h : r.kind ≠ .object) : m.foldedRow r = r := if_neg h

theorem foldedCount_le (m : Model) (o : Row) : m.foldedCount o ≤ o.count := by
  have hbools : m.boolCount o ≤ o.count := by
    unfold boolCount
    cases o.start with
    | none => exact Nat.zero_le _
    | some start =>
      have hle := List.countP_le_length (p := m.isBool) (l := List.range' start o.count)
      rwa [List.length_range'] at hle
  have hwords := bitSetCount_le (m.boolCount o)
  unfold foldedCount
  omega

/-- An object without fields stays as it is. -/
theorem foldedRow_of_count (m : Model) (h : r.count = 0) : m.foldedRow r = r := by
  unfold foldedRow
  split
  · have hcount : m.foldedCount r = r.count := by
      have hle := m.foldedCount_le r
      omega
    rw [hcount]
  · rfl

/-- An object owns no other rows when its booleans have been folded. -/
theorem owns_of_foldedRow (h : (m.foldedRow o).Owns j) : o.Owns j := by
  by_cases hkind : o.kind = .object
  · have hle := m.foldedCount_le o
    rw [foldedRow, if_pos hkind] at h
    obtain ⟨start, hstart, hlow, hhigh⟩ := h
    have hcount : Row.ownedCount { o with count := m.foldedCount o } = m.foldedCount o :=
      Row.ownedCount_of_object hkind
    refine ⟨start, hstart, hlow, ?_⟩
    rw [Row.ownedCount_of_object hkind]
    omega
  · rwa [foldedRow_of_ne m hkind] at h

/-- The folded count of an object depends on the kinds of its rows only. -/
theorem foldedRow_congr (kind : o.kind = .object) (h : ∀ j, o.Owns j → m.isBool j = m'.isBool j) :
    m.foldedRow o = m'.foldedRow o := by
  have hbools : m.boolCount o = m'.boolCount o := by
    unfold boolCount
    cases hstart : o.start with
    | none => rfl
    | some start =>
      apply List.countP_congr
      intro j hj
      have hrange := List.mem_range'_1.mp hj
      rw [h j ⟨start, hstart, hrange.1, (Row.ownedCount_of_object kind).symm ▸ hrange.2⟩]
  rw [foldedRow, foldedRow, foldedCount, foldedCount, hbools]

theorem isBool_eq (h : m.row j = .ok r) : m.isBool j = decide (r.kind = .bool) := by
  have hrow : m.rows[j]? = some r := by
    rw [← Array.getElem?_toList]
    exact row_eq_ok.mp h
  rw [isBool, hrow]
  rfl

theorem IsObject.kind_ne (h : m.IsObject i o) : o.kind ≠ .dataUnit := by
  rw [h.2]
  decide

theorem exists_row_of_lt (h : j < m.size) : ∃ r, m.row j = .ok r := by
  obtain ⟨r, hr⟩ : ∃ r, m.rows.toList[j]? = some r := ⟨_, List.getElem?_eq_getElem h⟩
  exact ⟨r, row_eq_ok.mpr hr⟩

/-- An object without booleans stays as it is. -/
theorem WellFormed.foldedRow_eq_self (h : m.WellFormed top) (object : m.IsObject k o)
    (none : ∀ i r, o.Owns i → m.row i = .ok r → r.kind ≠ .bool) : m.foldedRow o = o := by
  have hbools : m.boolCount o = 0 := by
    unfold boolCount
    cases hstart : o.start with
    | none => rfl
    | some start =>
      refine List.countP_eq_zero.mpr fun j hj => ?_
      have hrange := List.mem_range'_1.mp hj
      have howns : o.Owns j :=
        ⟨start, hstart, hrange.1, (Row.ownedCount_of_object object.2).symm ▸ hrange.2⟩
      obtain ⟨r, hrow⟩ := exists_row_of_lt (h.inside k o object.1 j howns)
      rw [isBool_eq hrow, decide_eq_true_eq]
      exact none j r howns hrow
  have hcount : m.foldedCount o = o.count := by
    rw [foldedCount, hbools]
    rfl
  rw [foldedRow, if_pos object.2, hcount]

/-- What an object that is done owns, an object that is not done does not own. -/
theorem WellFormed.not_owns_of_fresh (h : m.WellFormed top) (object : m.IsObject k o)
    (fresh : ¬ done k) (other : m.IsObject i r) (hdone : done i) (owns : (m.foldedRow r).Owns j) :
    ¬ o.Owns j := by
  intro howns
  obtain rfl := h.eq_of_owns object.1 other.1 howns (owns_of_foldedRow owns) object.kind_ne
  exact fresh hdone

/-- What a word owns, no object owns. -/
theorem WellFormed.not_owns_of_word {w : Row} {l : Nat} (h : m.WellFormed top) (object : m.IsObject k o)
    (hrow : m.row j = .ok w) (kind : w.kind = .bitSet) (owns : w.Owns l) : ¬ o.Owns l := by
  intro howns
  obtain rfl := h.eq_of_owns object.1 hrow howns owns object.kind_ne
  obtain rfl := Except.ok.inj (object.1.symm.trans hrow)
  have hkind := object.2
  rw [kind] at hkind
  cases hkind

namespace Tracks

theorem row (h : Tracks m m' done p) (hrow : m.row i = .ok r) :
    m'.row (p i) = .ok r ∨ m'.row (p i) = .ok (m.foldedRow r) := by
  by_cases hdone : done i
  · exact Or.inr (h.folded i r hrow hdone)
  · exact Or.inl (h.waiting i r hrow hdone)

theorem row_of_ne (h : Tracks m m' done p) (hrow : m.row i = .ok r) (kind : r.kind ≠ .object) :
    m'.row (p i) = .ok r := by
  rcases h.row hrow with hsame | hsame
  · exact hsame
  · rwa [foldedRow_of_ne m kind] at hsame

/-- Rows keep their kind. -/
theorem exists_row (h : Tracks m m' done p) (hrow : m.row i = .ok r) :
    ∃ r', m'.row (p i) = .ok r' ∧ r'.kind = r.kind := by
  rcases h.row hrow with hsame | hsame
  · exact ⟨_, hsame, rfl⟩
  · exact ⟨_, hsame, foldedRow_kind m r⟩

theorem lt_size (h : Tracks m m' done p) (hi : i < m.size) : p i < m'.size := by
  have hrow : m.row i = .ok m.rows[i] := row_eq_ok.mpr (List.getElem?_eq_getElem hi)
  obtain ⟨r', hrow', -⟩ := h.exists_row hrow
  exact lt_size_of_row hrow'

/-- Which objects are done is all that matters. -/
theorem congr (h : Tracks m m' done p) (same : ∀ i o, m.IsObject i o → (done i ↔ done' i)) :
    Tracks m m' done' p where
  injective := h.injective
  folded i r hrow hdone := by
    by_cases hkind : r.kind = .object
    · exact h.folded i r hrow ((same i r ⟨hrow, hkind⟩).mpr hdone)
    · rw [foldedRow_of_ne m hkind]
      exact h.row_of_ne hrow hkind
  waiting i r hrow hdone := by
    by_cases hkind : r.kind = .object
    · exact h.waiting i r hrow (hdone ∘ (same i r ⟨hrow, hkind⟩).mp)
    · exact h.row_of_ne hrow hkind
  still i hnone := h.still i fun k o ho hdone => hnone k o ho ((same k o ho).mp hdone)
  field k o i r ho hdone := h.field k o i r ho ((same k o ho).mpr hdone)
  bool k o i r ho hdone := h.bool k o i r ho ((same k o ho).mpr hdone)
  owned k o j ho hdone := h.owned k o j ho ((same k o ho).mpr hdone)
  objects := h.objects

/-- Nothing moves where the objects that are done have no booleans. -/
theorem refl (wellFormed : m.WellFormed top) (none : ∀ k o i r, m.IsObject k o → done k → o.Owns i →
    m.row i = .ok r → r.kind ≠ .bool) : Tracks m m done id := by
  have hsame : ∀ k o, m.IsObject k o → done k → m.foldedRow o = o := fun k o ho hdone =>
    wellFormed.foldedRow_eq_self ho fun i r => none k o i r ho hdone
  exact
    { injective := fun _ _ _ _ => id
      folded := by
        intro i r hrow hdone
        by_cases hkind : r.kind = .object
        · rw [hsame i r ⟨hrow, hkind⟩ hdone]
          exact hrow
        · rw [foldedRow_of_ne m hkind]
          exact hrow
      waiting := fun _ _ hrow _ => hrow
      still := fun _ _ => rfl
      field := by
        intro k o i r ho hdone howns _ _
        rw [hsame k o ho hdone]
        exact howns
      bool := fun k o i r ho hdone howns hrow hkind => absurd hkind (none k o i r ho hdone howns hrow)
      owned := by
        intro k o j ho hdone howns
        rw [hsame k o ho hdone] at howns
        obtain ⟨r, hrow⟩ := exists_row_of_lt (wellFormed.inside k o ho.1 j howns)
        exact Or.inl ⟨j, r, howns, hrow, none k o j r ho hdone howns hrow, rfl⟩
      objects := fun j r hr => ⟨j, r, hr, rfl⟩ }

/-! ### One object after another -/

/-- The rows of an object that is not done have not moved. -/
theorem still_of_owns (h : Tracks m m₁ done p) (wellFormed : m.WellFormed top) (object : m.IsObject k o)
    (fresh : ¬ done k) (owns : o.Owns i) : p i = i := by
  apply h.still
  intro j o' hobject hdone howns
  obtain rfl := wellFormed.eq_of_owns object.1 hobject.1 owns howns object.kind_ne
  exact fresh hdone

/-- The rows of an object that is not done are of the kinds that they have been of. -/
theorem exists_row_of_owns (h : Tracks m m₁ done p) (wellFormed : m.WellFormed top)
    (object : m.IsObject k o) (fresh : ¬ done k) (owns : o.Owns i) :
    ∃ r r', m.row i = .ok r ∧ m₁.row i = .ok r' ∧ r'.kind = r.kind := by
  obtain ⟨r, hrow⟩ := exists_row_of_lt (wellFormed.inside k o object.1 i owns)
  obtain ⟨r', hrow', hkind⟩ := h.exists_row hrow
  rw [h.still_of_owns wellFormed object fresh owns] at hrow'
  exact ⟨r, r', hrow, hrow', hkind⟩

/-- An object that is not done gets the same count in both models. -/
theorem foldedRow_waiting (h : Tracks m m₁ done p) (wellFormed : m.WellFormed top)
    (object : m.IsObject k o) (fresh : ¬ done k) : m₁.foldedRow o = m.foldedRow o := by
  apply foldedRow_congr object.2
  intro j hj
  obtain ⟨r, r', hrow, hrow', hkind⟩ := h.exists_row_of_owns wellFormed object fresh hj
  rw [isBool_eq hrow, isBool_eq hrow', hkind]

/-- What the next object owns once it is folded comes from what it has owned before anything was. -/
theorem owned_next (first : Tracks m m₁ done p) (second : Tracks m₁ m₂ (· = p k) q)
    (wellFormed : m.WellFormed top) (object : m.IsObject k o) (fresh : ¬ done k)
    (owns : (m.foldedRow o).Owns j) :
    (∃ i r, o.Owns i ∧ m.row i = .ok r ∧ r.kind ≠ .bool ∧ q (p i) = j) ∨
      ∃ w, m₂.row j = .ok w ∧ w.kind = .bitSet ∧ ∀ l, w.Owns l →
        ∃ i r, o.Owns i ∧ m.row i = .ok r ∧ r.kind = .bool ∧ q (p i) = l := by
  have hobject : m₁.IsObject (p k) o := ⟨first.waiting k o object.1 fresh, object.2⟩
  -- The rows of the object stand where they have stood.
  have hformer : ∀ i r', o.Owns i → m₁.row i = .ok r' →
      p i = i ∧ ∃ r, m.row i = .ok r ∧ r'.kind = r.kind := by
    intro i r' hi hrow'
    obtain ⟨r, r'', hrow, hrow'', hkind⟩ := first.exists_row_of_owns wellFormed object fresh hi
    obtain rfl := Except.ok.inj (hrow'.symm.trans hrow'')
    exact ⟨first.still_of_owns wellFormed object fresh hi, r, hrow, hkind⟩
  rw [← first.foldedRow_waiting wellFormed object fresh] at owns
  rcases second.owned _ _ j hobject rfl owns with ⟨i, r', hi, hrow', hkind, hqi⟩ | ⟨w, hw, hkind, hbits⟩
  · obtain ⟨hpi, r, hrow, hsame⟩ := hformer i r' hi hrow'
    exact Or.inl ⟨i, r, hi, hrow, hsame ▸ hkind, by rw [hpi, hqi]⟩
  · refine Or.inr ⟨w, hw, hkind, fun l hl => ?_⟩
    obtain ⟨i, r', hi, hrow', hbool, hqi⟩ := hbits l hl
    obtain ⟨hpi, r, hrow, hsame⟩ := hformer i r' hi hrow'
    exact ⟨i, r, hi, hrow, hsame ▸ hbool, by rw [hpi, hqi]⟩

/-- The booleans of one more object are folded. -/
theorem next (first : Tracks m m₁ done p) (second : Tracks m₁ m₂ (· = p k) q)
    (wellFormed : m.WellFormed top) (wellFormed' : m₁.WellFormed top) (object : m.IsObject k o)
    (fresh : ¬ done k) : Tracks m m₂ (fun i => done i ∨ i = k) (fun i => q (p i)) := by
  have hobject : m₁.IsObject (p k) o := ⟨first.waiting k o object.1 fresh, object.2⟩
  have hsame := first.foldedRow_waiting wellFormed object fresh
  have hk := lt_size_of_row object.1
  -- What the object does not own stays where it is.
  have hstill : ∀ j, ¬ o.Owns j → q j = j := by
    intro j hj
    apply second.still
    rintro l o' ho' rfl
    obtain rfl := Except.ok.inj (ho'.1.symm.trans hobject.1)
    exact hj
  have hother : ∀ l o' j, m.IsObject l o' → done l → (m.foldedRow o').Owns j → q j = j :=
    fun l o' j ho' hdone hj => hstill j (wellFormed.not_owns_of_fresh object fresh ho' hdone hj)
  have hword : ∀ j w, m₁.row j = .ok w → w.kind = .bitSet → q j = j → m₂.row j = .ok w := by
    intro j w hw hkind hqj
    have hrow := second.row_of_ne hw (by rw [hkind]; decide)
    rwa [hqj] at hrow
  exact
    { injective := fun i j hi hj heq =>
        first.injective i j hi hj (second.injective _ _ (first.lt_size hi) (first.lt_size hj) heq)
      folded := by
        rintro i r hrow (hdone | rfl)
        · refine second.waiting _ _ (first.folded i r hrow hdone) fun heq => fresh ?_
          exact first.injective i k (lt_size_of_row hrow) hk heq ▸ hdone
        · obtain rfl := Except.ok.inj (hrow.symm.trans object.1)
          rw [← hsame]
          exact second.folded _ _ hobject.1 rfl
      waiting := by
        intro i r hrow hnot
        obtain ⟨hdone, hne⟩ := not_or.mp hnot
        refine second.waiting _ _ (first.waiting i r hrow hdone) fun heq => hne ?_
        exact first.injective i k (lt_size_of_row hrow) hk heq
      still := by
        intro i hnone
        show q (p i) = i
        rw [first.still i fun l o' ho' hdone => hnone l o' ho' (Or.inl hdone)]
        exact hstill i (hnone k o object (Or.inr rfl))
      field := by
        rintro l o' i r ho' (hdone | rfl) howns hrow hkind
        · have hfield := first.field l o' i r ho' hdone howns hrow hkind
          show (m.foldedRow o').Owns (q (p i))
          rwa [hother l o' _ ho' hdone hfield]
        · obtain rfl := Except.ok.inj (ho'.1.symm.trans object.1)
          obtain ⟨r', hrow', hkind'⟩ := first.exists_row hrow
          have hpi := first.still_of_owns wellFormed object fresh howns
          rw [← hsame]
          exact second.field _ _ _ _ hobject rfl (by rwa [hpi]) hrow' (hkind' ▸ hkind)
      bool := by
        rintro l o' i r ho' (hdone | rfl) howns hrow hkind
        · obtain ⟨j, w, hj, hw, hbit⟩ := first.bool l o' i r ho' hdone howns hrow hkind
          have hnot := wellFormed'.not_owns_of_word hobject hw hbit.1 hbit.owns
          refine ⟨j, w, hj, hword j w hw hbit.1 (hother l o' j ho' hdone hj), ?_⟩
          show w.HoldsBit (q (p i)) _
          rwa [hstill _ hnot]
        · obtain rfl := Except.ok.inj (ho'.1.symm.trans object.1)
          have hrow' := first.row_of_ne hrow (by rw [hkind]; decide)
          have hpi := first.still_of_owns wellFormed object fresh howns
          rw [← hsame]
          exact second.bool _ _ _ _ hobject rfl (by rwa [hpi]) hrow' hkind
      owned := by
        rintro l o' j ho' (hdone | rfl) howns
        · have hqj := hother l o' j ho' hdone howns
          rcases first.owned l o' j ho' hdone howns with
            ⟨i, r, hi, hrow, hkind, rfl⟩ | ⟨w, hw, hkind, hbits⟩
          · exact Or.inl ⟨i, r, hi, hrow, hkind, hqj⟩
          · refine Or.inr ⟨w, hword j w hw hkind hqj, hkind, fun l hl => ?_⟩
            obtain ⟨i, r, hi, hrow, hbool, rfl⟩ := hbits l hl
            exact ⟨i, r, hi, hrow, hbool,
              hstill _ (wellFormed'.not_owns_of_word hobject hw hkind hl)⟩
        · obtain rfl := Except.ok.inj (ho'.1.symm.trans object.1)
          exact first.owned_next second wellFormed object fresh howns
      objects := by
        intro j r hr
        obtain ⟨i', o', ho', rfl⟩ := second.objects j r hr
        obtain ⟨i, o'', ho'', rfl⟩ := first.objects i' o' ho'
        exact ⟨i, o'', ho'', rfl⟩ }

/-! ### Exchanging rows -/

/-- The rows of an object are exchanged. -/
theorem permute {σ : Equiv.Perm Nat} (h : Tracks m m₁ done p) (all : ∀ i o, m.IsObject i o → done i)
    (wellFormed : m.WellFormed top) (wellFormed' : m₁.WellFormed top) (object : m₁.IsObject k owner)
    (rows : ∀ j, m₂.row (σ j) = m₁.row j) (outside : ∀ j, ¬ owner.Owns j → σ j = j) :
    Tracks m m₂ done (fun i => σ (p i)) := by
  obtain ⟨x, o, ho, rfl⟩ := h.objects k owner object
  obtain rfl := Except.ok.inj ((h.folded x o ho.1 (all x o ho)).symm.trans object.1)
  have hinside : ∀ j, (m.foldedRow o).Owns j → (m.foldedRow o).Owns (σ j) := by
    intro j hj
    by_contra hnot
    exact hnot ((σ.injective (outside _ hnot)).symm ▸ hj)
  -- Every object owns the same places as before.
  have howned : ∀ l o' j, m.IsObject l o' →
      ((m.foldedRow o').Owns (σ j) ↔ (m.foldedRow o').Owns j) := by
    intro l o' j ho'
    by_cases hj : (m.foldedRow o).Owns j
    · have hsame : ∀ j', (m.foldedRow o).Owns j' → (m.foldedRow o').Owns j' → o' = o := by
        intro j' hin hin'
        obtain rfl := wellFormed.eq_of_owns ho.1 ho'.1 (owns_of_foldedRow hin) (owns_of_foldedRow hin')
          ho.kind_ne
        exact Except.ok.inj (ho'.1.symm.trans ho.1)
      constructor
      · intro hin
        rw [hsame _ (hinside j hj) hin]
        exact hj
      · intro hin
        rw [hsame j hj hin]
        exact hinside j hj
    · rw [outside j hj]
  have hword : ∀ j w l, m₁.row j = .ok w → w.kind = .bitSet → w.Owns l → σ l = l :=
    fun j w l hw hkind hl => outside l (wellFormed'.not_owns_of_word object hw hkind hl)
  exact
    { injective := fun i j hi hj heq => h.injective i j hi hj (σ.injective heq)
      folded := fun i r hrow hdone => (rows _).trans (h.folded i r hrow hdone)
      waiting := fun i r hrow hdone => (rows _).trans (h.waiting i r hrow hdone)
      still := by
        intro i hnone
        show σ (p i) = i
        rw [h.still i hnone]
        exact outside i fun howns => hnone x o ho (all x o ho) (owns_of_foldedRow howns)
      field := fun l o' i r ho' hdone howns hrow hkind =>
        (howned l o' _ ho').mpr (h.field l o' i r ho' hdone howns hrow hkind)
      bool := by
        intro l o' i r ho' hdone howns hrow hkind
        obtain ⟨j, w, hj, hw, hbit⟩ := h.bool l o' i r ho' hdone howns hrow hkind
        refine ⟨σ j, w, (howned l o' j ho').mpr hj, (rows j).trans hw, ?_⟩
        show w.HoldsBit (σ (p i)) _
        rwa [hword j w _ hw hbit.1 hbit.owns]
      owned := by
        intro l o' j ho' hdone howns
        obtain ⟨j, rfl⟩ := σ.surjective j
        rcases h.owned l o' j ho' hdone ((howned l o' j ho').mp howns) with
          ⟨i, r, hi, hrow, hkind, rfl⟩ | ⟨w, hw, hkind, hbits⟩
        · exact Or.inl ⟨i, r, hi, hrow, hkind, rfl⟩
        · refine Or.inr ⟨w, (rows j).trans hw, hkind, fun l hl => ?_⟩
          obtain ⟨i, r, hi, hrow, hbool, hpi⟩ := hbits l hl
          exact ⟨i, r, hi, hrow, hbool, by rw [hpi, hword j w l hw hkind hl]⟩
      objects := by
        intro j r hr
        obtain ⟨j, rfl⟩ := σ.surjective j
        obtain ⟨i, o', ho', rfl⟩ := h.objects j r ⟨(rows j).symm.trans hr.1, hr.2⟩
        exact ⟨i, o', ho', rfl⟩ }

end Tracks

end Model

end ObjectPack
