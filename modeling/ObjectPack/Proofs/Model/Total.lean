import ObjectPack.Proofs.Align
import ObjectPack.Proofs.Model.Layout
import ObjectPack.Proofs.Model.Table

/-!
# Layouts that exist

The layout of a block can be computed if its rows are there, have sizes, and end below the limit of offsets
(`Model.exists_rowsPlaced`, `Model.exists_blockSize`).  How far rows reach is a number that does not depend on
the limit (`Model.reach`), so whether a layout exists can be told from the rows alone.
-/

namespace ObjectPack

open Outcome

/-! ### Rows with sizes -/

namespace Row

/-- Whether a row has a size, and an alignment that is a power of two and a word. -/
structure Sized (r : Row) : Prop where
  alignment : ∃ alignment, r.alignment? = some alignment ∧ isPowerOfTwo alignment = true ∧
    alignment < wordLimit
  size : ∃ size, r.size? = some size

/-- The kind of a number is not that of an enumeration. -/
theorem ofFormat_ne {format : Scalar.Format} {kind : Kind} (h : kind.format? = none) :
    kind ≠ .ofFormat format := by
  rintro rfl
  rw [Kind.format?_ofFormat] at h
  cases h

/-- The row of an enumeration carries a value. -/
theorem Fits.exists_enum {r : Row} (h : r.Fits) (kind : r.kind = .enum) :
    ∃ e v, r.value = .enum e v := by
  unfold Fits at h
  rw [kind] at h
  cases hvalue : r.value with
  | enum e v => exact ⟨e, v, rfl⟩
  | scalar s =>
    rw [hvalue] at h
    exact absurd h (ofFormat_ne rfl)
  | _ =>
    rw [hvalue] at h
    simp [Kind.isReferenced] at h

/-- An object that is not null is there. -/
theorem Fits.present_of_object {r : Row} (h : r.Fits) (kind : r.kind = .object) (there : r.value.isNull = false) :
    r.value = .present := by
  unfold Fits at h
  rw [kind] at h
  cases hvalue : r.value with
  | present => rfl
  | null =>
    rw [hvalue] at there
    cases there
  | scalar s =>
    rw [hvalue] at h
    exact absurd h.symm (ofFormat_ne rfl).symm
  | _ =>
    rw [hvalue] at h
    cases h

/-- Alignments of kinds are powers of two, unless values align themselves. -/
theorem isPowerOfTwo_alignment {kind : Kind} (enum : kind ≠ .enum) (struct : kind ≠ .struct) :
    isPowerOfTwo kind.alignment = true ∧ kind.alignment < wordLimit := by
  cases kind <;> first | exact absurd rfl enum | exact absurd rfl struct | decide

/-- Most rows are as aligned as their kind. -/
theorem alignment?_of_ne {r : Row} (struct : r.kind ≠ .struct) (enum : r.kind ≠ .enum) :
    r.alignment? = some r.kind.alignment := by
  unfold alignment?
  split <;> trivial

/-- Most rows are as long as their kind. -/
theorem size?_of_ne {r : Row} (struct : r.kind ≠ .struct) (enum : r.kind ≠ .enum) :
    r.size? = some r.kind.byteSize := by
  unfold size?
  split <;> trivial

/-- The rows of a walk have sizes where custom structs align themselves as they may. -/
theorem Fits.sized {r : Row} (h : r.Fits) (structs : ∀ c, r.value = .struct c →
    isPowerOfTwo c.alignment = true ∧ c.alignment < wordLimit) : r.Sized := by
  by_cases henum : r.kind = .enum
  · obtain ⟨e, v, hvalue⟩ := h.exists_enum henum
    refine ⟨⟨e.underlying.alignment, ?_, ?_⟩, ⟨e.underlying.byteSize, ?_⟩⟩
    · rw [alignment?, henum, hvalue]
      rfl
    · exact isPowerOfTwo_alignment (ofFormat_ne rfl).symm (ofFormat_ne rfl).symm
    · rw [size?, henum, hvalue]
      rfl
  by_cases hstruct : r.kind = .struct
  · refine ⟨⟨r.value.struct?.elim 1 (·.alignment), ?_, ?_⟩, ⟨r.value.struct?.elim 0 (·.size), ?_⟩⟩
    · rw [alignment?, hstruct]
    · have hone : isPowerOfTwo 1 = true ∧ 1 < wordLimit := by decide
      cases hvalue : r.value with
      | struct c => exact structs c hvalue
      | _ => exact hone
    · rw [size?, hstruct]
  · exact ⟨⟨_, alignment?_of_ne hstruct henum, isPowerOfTwo_alignment henum hstruct⟩, ⟨_, size?_of_ne hstruct henum⟩⟩

/-- A row has an alignment, an enumeration where it has a value. -/
theorem exists_alignment {r : Row} (enum : r.kind = .enum → ∃ e v, r.value = .enum e v) :
    ∃ alignment, r.alignment? = some alignment := by
  by_cases henum : r.kind = .enum
  · obtain ⟨e, v, hvalue⟩ := enum henum
    rw [alignment?, henum, hvalue]
    exact ⟨_, rfl⟩
  · unfold alignment?
    split
    · exact ⟨_, rfl⟩
    · exact absurd ‹_› henum
    · exact ⟨_, rfl⟩

/-- The rows of a walk have alignments. -/
theorem Fits.exists_alignment {r : Row} (h : r.Fits) : ∃ alignment, r.alignment? = some alignment :=
  Row.exists_alignment h.exists_enum

/-- Where a row ends that is placed behind a position, were offsets not limited. -/
def endFrom (r : Row) (position : Nat) : Nat :=
  roundUp position (r.alignment?.getD 1) + r.size?.getD 0

theorem le_endFrom (r : Row) (position : Nat) : position ≤ r.endFrom position :=
  Nat.le_trans (le_roundUp _ _) (Nat.le_add_right _ _)

end Row

namespace Model

/-- How far rows from row `i` on reach that are placed one after another behind a position, were offsets not
limited. -/
def reachFrom (m : Model) : Nat → Nat → Nat → Nat
  | 0, _, position => position
  | n + 1, i, position => reachFrom m n (i + 1) (m.rows[i]?.elim position (·.endFrom position))

/-- How far the rows that row `i` owns reach in their block, were offsets not limited. -/
def reach (m : Model) (i : Nat) : Nat :=
  match m.members i with
  | .ok span => m.reachFrom span.length span.start 0
  | .error _ => 0

variable {m : Model} {i n position : Nat} {row : Row}

/-- What is no row has no block. -/
theorem reach_of_size_le (h : m.size ≤ i) : m.reach i = 0 := by
  unfold reach
  split
  · rename_i span hspan
    obtain ⟨row, hrow, -⟩ := bind_eq_ok.mp hspan
    exact absurd (lt_size_of_row hrow) (Nat.not_lt.mpr h)
  · rfl

theorem alignment_eq (hrow : m.row i = .ok row) {alignment : Nat}
    (h : row.alignment? = some alignment) : m.alignment i = .ok alignment := by
  unfold Model.alignment
  simp only [hrow, bind_eq_ok]
  exact ⟨row, rfl, by rw [h]; rfl⟩

theorem byteSize_eq (hrow : m.row i = .ok row) {size : Nat} (h : row.size? = some size) :
    m.byteSize i = .ok size := by
  unfold Model.byteSize
  simp only [hrow, bind_eq_ok]
  exact ⟨row, rfl, by rw [h]; rfl⟩

theorem getElem?_of_row (hrow : m.row i = .ok row) : m.rows[i]? = some row := indexed_eq_ok.mp hrow

/-! ### Rows of a range -/

/-- Whether the `n` rows from row `i` on are there and have sizes. -/
def RowsSized (m : Model) (n i : Nat) : Prop :=
  ∀ k < n, ∃ row, m.row (i + k) = .ok row ∧ row.Sized

theorem RowsSized.head (h : m.RowsSized (n + 1) i) : ∃ row, m.row i = .ok row ∧ row.Sized :=
  h 0 (Nat.zero_lt_succ n)

theorem RowsSized.tail (h : m.RowsSized (n + 1) i) : m.RowsSized n (i + 1) := by
  intro k hk
  rw [Nat.add_right_comm]
  exact h (k + 1) (Nat.succ_lt_succ hk)

theorem le_reachFrom (m : Model) (n i position : Nat) : position ≤ m.reachFrom n i position := by
  induction n generalizing i position with
  | zero => exact Nat.le_refl _
  | succ n ih =>
    refine Nat.le_trans ?_ (ih (i + 1) _)
    cases m.rows[i]? with
    | none => exact Nat.le_refl _
    | some row => exact row.le_endFrom position

/-- A row is placed at the next multiple of its alignment if this and its end stay in their word. -/
theorem placeRow_eq_ok_iff {start next : Nat} : m.placeRow position i = .ok (start, next) ↔ ∃ alignment size,
    m.alignment i = .ok alignment ∧ m.byteSize i = .ok size ∧ start = roundUp position alignment ∧
      next = start + size ∧ (alignment ≤ 1 ∨ position + alignment < wordLimit) ∧ next < wordLimit := by
  unfold placeRow addWord
  simp only [bind_eq_ok, pure_eq_ok, alignUp_eq_ok_iff, Prod.mk.injEq]
  constructor
  · rintro ⟨alignment, halignment, _, ⟨rfl, hfits⟩, size, hsize, _, hstop, rfl, rfl⟩
    split at hstop
    · rename_i hlt
      cases hstop
      exact ⟨alignment, size, halignment, hsize, rfl, rfl, hfits, hlt⟩
    · cases hstop
  · rintro ⟨alignment, size, halignment, hsize, rfl, rfl, hfits, hlt⟩
    exact ⟨alignment, halignment, _, ⟨rfl, hfits⟩, size, hsize, _, if_pos hlt, rfl, rfl⟩

/-- A row of known size and alignment is placed at the next multiple of the alignment. -/
theorem placeRow_sized_iff {start next alignment size : Nat} (halignment : m.alignment i = .ok alignment)
    (hsize : m.byteSize i = .ok size) : m.placeRow position i = .ok (start, next) ↔
      start = roundUp position alignment ∧ next = roundUp position alignment + size ∧
        (alignment ≤ 1 ∨ position + alignment < wordLimit) ∧ roundUp position alignment + size < wordLimit := by
  rw [placeRow_eq_ok_iff]
  constructor
  · rintro ⟨_, _, halignment', hsize', rfl, rfl, hfits, hlt⟩
    obtain rfl := Except.ok.inj (halignment.symm.trans halignment')
    obtain rfl := Except.ok.inj (hsize.symm.trans hsize')
    exact ⟨rfl, rfl, hfits, hlt⟩
  · rintro ⟨rfl, rfl, hfits, hlt⟩
    exact ⟨_, _, halignment, hsize, rfl, rfl, hfits, hlt⟩

/-- A row that ends below the limit of offsets can be placed. -/
theorem exists_placeRow (hrow : m.row i = .ok row) (sized : row.Sized)
    (small : row.endFrom position < dataLimit) : ∃ start,
      m.placeRow position i = .ok (start, row.endFrom position) := by
  obtain ⟨⟨alignment, halignment, hpower, hword⟩, size, hsize⟩ := sized
  have hend : row.endFrom position = roundUp position alignment + size := by
    rw [Row.endFrom, halignment, hsize]
    rfl
  have halign := le_dataLimit_of_isPowerOfTwo hpower hword
  have hlimits : dataLimit + dataLimit = wordLimit := rfl
  have hle := row.le_endFrom position
  exact ⟨_, placeRow_eq_ok_iff.mpr ⟨_, _, alignment_eq hrow halignment, byteSize_eq hrow hsize, rfl, hend,
    Or.inr (by omega), by omega⟩⟩

/-- Rows that end below the limit of offsets can be placed. -/
theorem exists_rowsPlaced (rows : m.RowsSized n i) (small : m.reachFrom n i position < dataLimit) :
    ∃ starts, starts.length = n ∧ m.RowsPlaced i position starts (m.reachFrom n i position) := by
  induction n generalizing i position with
  | zero => exact ⟨[], rfl, .nil i position⟩
  | succ n ih =>
    obtain ⟨row, hrow, hsized⟩ := rows.head
    have hreach : m.reachFrom (n + 1) i position = m.reachFrom n (i + 1) (row.endFrom position) := by
      rw [reachFrom, getElem?_of_row hrow]
      rfl
    rw [hreach] at small ⊢
    obtain ⟨start, hplaced⟩ := exists_placeRow hrow hsized
      (Nat.lt_of_le_of_lt (le_reachFrom m n (i + 1) _) small)
    obtain ⟨starts, hlength, hrest⟩ := ih rows.tail small
    exact ⟨start :: starts, congrArg (· + 1) hlength, .cons hplaced hrest⟩

/-- The greatest of some alignments is one of them. -/
theorem exists_greatestAlignment (rows : m.RowsSized n i) {greatest : Nat}
    (start : greatest = 0 ∨ (isPowerOfTwo greatest = true ∧ greatest < wordLimit)) : ∃ alignment,
      Span.foldFrom (fun greatest i => (m.alignment i).map (max greatest)) n i greatest
        = .ok alignment ∧
      (n ≠ 0 ∨ greatest ≠ 0 → isPowerOfTwo alignment = true ∧ alignment < wordLimit) := by
  induction n generalizing i greatest with
  | zero =>
    refine ⟨greatest, rfl, fun hsome => ?_⟩
    rcases hsome with hsome | hsome
    · exact absurd rfl hsome
    · exact start.resolve_left hsome
  | succ n ih =>
    obtain ⟨row, hrow, ⟨alignment, halignment, hpower, hword⟩, -⟩ := rows.head
    have hmax : isPowerOfTwo (max greatest alignment) = true ∧ max greatest alignment < wordLimit := by
      rcases start with rfl | hgreatest
      · rw [Nat.zero_max]
        exact ⟨hpower, hword⟩
      · rcases Nat.le_total greatest alignment with hle | hle
        · rw [Nat.max_eq_right hle]
          exact ⟨hpower, hword⟩
        · rw [Nat.max_eq_left hle]
          exact hgreatest
    obtain ⟨last, hfold, hlast⟩ := ih rows.tail (Or.inr hmax)
    refine ⟨last, Span.foldFrom_succ_eq_ok.mpr ⟨_, ?_, hfold⟩, fun _ => hlast (Or.inr ?_)⟩
    · exact map_eq_ok.mpr ⟨alignment, alignment_eq hrow halignment, rfl⟩
    · exact Nat.ne_of_gt (pos_of_isPowerOfTwo hmax.1)

/-! ### Blocks -/

/-- Whether the rows that a row owns are there and have sizes, and those that a collection is known by as
well. -/
structure BlockSized (m : Model) (row : Row) : Prop where
  members : ∃ span, row.members = .ok span ∧ m.RowsSized span.length span.start
  elements : ∃ elements, row.firstElements = .ok elements ∧ ∀ j, elements.1 = some j ∨
    elements.2 = some j → ∃ r, m.row j = .ok r ∧ r.Sized

/-- The alignment of a block of rows is that of one of the rows. -/
theorem exists_blockAlignment (hrow : m.row i = .ok row)
    (owns : row.kind = .object ∨ row.kind = .array ∨ row.kind = .dictionary)
    (block : m.BlockSized row) : ∃ alignment, m.blockAlignment i = .ok alignment ∧
      isPowerOfTwo alignment = true ∧ alignment < wordLimit := by
  have hone : isPowerOfTwo 1 = true ∧ 1 < wordLimit := by decide
  obtain ⟨span, hspan, hrows⟩ := block.members
  obtain ⟨⟨first, second⟩, helements, hsized⟩ := block.elements
  have helement : ∀ j, first = some j ∨ second = some j → ∃ alignment, m.alignment j = .ok alignment ∧
      isPowerOfTwo alignment = true ∧ alignment < wordLimit := by
    intro j hj
    obtain ⟨r, hr, ⟨alignment, halignment, hpower⟩, -⟩ := hsized j hj
    exact ⟨alignment, alignment_eq hr halignment, hpower⟩
  unfold blockAlignment
  simp only [hrow, bind_eq_ok, Except.ok.injEq, exists_eq_left']
  rcases owns with hkind | hkind
  · rw [hkind]
    by_cases hempty : span.length = 0
    · refine ⟨1, ?_, hone⟩
      simp only [hspan, bind_eq_ok, Except.ok.injEq, exists_eq_left', if_pos hempty]
      rfl
    · obtain ⟨alignment, hfold, hpower⟩ := exists_greatestAlignment hrows (Or.inl rfl)
      refine ⟨alignment, ?_, hpower (Or.inl hempty)⟩
      simp only [hspan, bind_eq_ok, Except.ok.injEq, exists_eq_left', if_neg hempty]
      exact hfold
  · -- Arrays and dictionaries are as aligned as their first elements.
    rcases hkind with hkind | hkind
    all_goals
      rw [hkind]
      simp only [helements, bind_eq_ok, Except.ok.injEq, exists_eq_left']
      cases first with
      | none => exact ⟨1, rfl, hone⟩
      | some first =>
        obtain ⟨a, ha, hpower⟩ := helement first (Or.inl rfl)
        cases second with
        | none => exact ⟨a, ha, hpower⟩
        | some second =>
          obtain ⟨b, hb, hpower'⟩ := helement second (Or.inr rfl)
          refine ⟨max a b, bind_eq_ok.mpr ⟨a, ha, bind_eq_ok.mpr ⟨b, hb, rfl⟩⟩, ?_⟩
          rcases Nat.le_total a b with hle | hle
          · rw [Nat.max_eq_right hle]
            exact hpower'
          · rw [Nat.max_eq_left hle]
            exact hpower

/-- A block of rows that end below the limit of offsets has a size. -/
theorem exists_blockSize (hrow : m.row i = .ok row)
    (owns : row.kind = .object ∨ row.kind = .array ∨ row.kind = .dictionary)
    (block : m.BlockSized row) (small : m.reach i < dataLimit) :
    ∃ size, m.blockSize i = .ok size := by
  obtain ⟨alignment, halignment, hpower, hword⟩ := exists_blockAlignment hrow owns block
  obtain ⟨span, hspan, hrows⟩ := block.members
  have hmembers : m.members i = .ok span := (members_eq hrow).trans hspan
  have hreach : m.reach i = m.reachFrom span.length span.start 0 := by
    rw [reach, hmembers]
  rw [hreach] at small
  obtain ⟨starts, hlength, hplaced⟩ := exists_rowsPlaced hrows small
  have hextent : m.extent span = .ok (m.reachFrom span.length span.start 0) := by
    have hfold := hplaced.extent
    rwa [hlength] at hfold
  refine ⟨roundUp (m.reachFrom span.length span.start 0) alignment, ?_⟩
  unfold blockSize
  simp only [hrow, bind_eq_ok, Except.ok.injEq, exists_eq_left']
  rcases owns with hkind | hkind | hkind <;> rw [hkind] <;>
    simp only [hspan, hextent, halignment, bind_eq_ok, Except.ok.injEq, exists_eq_left'] <;>
    exact alignUp_eq hpower hword small

end Model

end ObjectPack
