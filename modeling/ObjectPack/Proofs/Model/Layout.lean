import ObjectPack.Model.Layout
import ObjectPack.Proofs.Outcome

/-!
# Placing rows

The rows that a block holds are placed one after another; where each of them starts is one list
(`Model.RowsPlaced`).  The size of the block and the offsets of its rows are two readings of that list, so
where there is a size there are offsets (`RowsPlaced.memberOffsets`), and whoever writes rows one after
another only has to go along the list.
-/

namespace ObjectPack

open Outcome

namespace Span

variable {α ε : Type} {f : α → Nat → Except ε α} {n start : Nat} {a b : α}

theorem foldFrom_succ_eq_ok : foldFrom f (n + 1) start a = .ok b ↔
    ∃ c, f a start = .ok c ∧ foldFrom f n (start + 1) c = .ok b := by
  rw [foldFrom]
  cases f a start with
  | error e =>
    constructor
    · intro h
      cases h
    · rintro ⟨c, hc, -⟩
      cases hc
  | ok c =>
    constructor
    · intro h
      exact ⟨c, rfl, h⟩
    · rintro ⟨c', hc', h⟩
      cases hc'
      exact h

/-- What every step keeps, a fold over a range keeps. -/
theorem foldFrom_keeps {P : α → Prop} (step : ∀ a i b, P a → f a i = .ok b → P b) (first : P a)
    (h : foldFrom f n start a = .ok b) : P b := by
  induction n generalizing start a with
  | zero =>
    cases h
    exact first
  | succ n ih =>
    obtain ⟨c, hc, hrest⟩ := foldFrom_succ_eq_ok.mp h
    exact ih (step a start c first hc) hrest

end Span

namespace Model

variable {m : Model}

/-- Where rows start that are placed one after another from a position on, and where the last of them
ends. -/
inductive RowsPlaced (m : Model) : Nat → Nat → List Nat → Nat → Prop
  | nil (i p : Nat) : RowsPlaced m i p [] p
  | cons {i position start next stop : Nat} {starts : List Nat}
      (placed : m.placeRow position i = .ok (start, next))
      (rest : RowsPlaced m (i + 1) next starts stop) : RowsPlaced m i position (start :: starts) stop

theorem rowsPlaced_of_extent {n i position stop : Nat}
    (h : Span.foldFrom (fun offset j => (m.placeRow offset j).map (·.2)) n i position = .ok stop) :
    ∃ starts, starts.length = n ∧ RowsPlaced m i position starts stop := by
  induction n generalizing i position with
  | zero =>
    cases h
    exact ⟨[], rfl, .nil i _⟩
  | succ n ih =>
    obtain ⟨next, hnext, hrest⟩ := Span.foldFrom_succ_eq_ok.mp h
    obtain ⟨⟨start, next⟩, hplaced, rfl⟩ := map_eq_ok.mp hnext
    obtain ⟨starts, hlength, hstarts⟩ := ih hrest
    exact ⟨start :: starts, congrArg (· + 1) hlength, .cons hplaced hstarts⟩

theorem RowsPlaced.offsets {i position stop : Nat} {starts : List Nat}
    (h : RowsPlaced m i position starts stop) (before : List Nat) :
    Span.foldFrom (fun (offsets, offset) j =>
        (m.placeRow offset j).map fun (start, stop) => (start :: offsets, stop))
      starts.length i (before, position) = .ok (starts.reverse ++ before, stop) := by
  induction h generalizing before with
  | nil => rfl
  | cons placed _ ih =>
    rw [List.length_cons]
    refine Span.foldFrom_succ_eq_ok.mpr ⟨_, map_eq_ok.mpr ⟨_, placed, rfl⟩, ?_⟩
    rw [ih, List.reverse_cons, List.append_assoc]
    rfl

/-- Offsets are collected where rows are placed. -/
theorem rowsPlaced_of_offsets {n i position : Nat} {before : List Nat} {last : List Nat × Nat}
    (h : Span.foldFrom (fun (offsets, offset) j =>
        (m.placeRow offset j).map fun (start, stop) => (start :: offsets, stop)) n i (before, position) = .ok last) :
    ∃ starts, starts.length = n ∧ RowsPlaced m i position starts last.2 ∧ last.1 = starts.reverse ++ before := by
  induction n generalizing i position before with
  | zero =>
    cases h
    exact ⟨[], rfl, .nil i position, rfl⟩
  | succ n ih =>
    obtain ⟨_, hnext, hrest⟩ := Span.foldFrom_succ_eq_ok.mp h
    obtain ⟨⟨start, next⟩, hplaced, rfl⟩ := map_eq_ok.mp hnext
    obtain ⟨starts, hlength, hstarts, hlast⟩ := ih hrest
    refine ⟨start :: starts, congrArg (· + 1) hlength, .cons hplaced hstarts, hlast.trans ?_⟩
    rw [List.reverse_cons, List.append_assoc]
    rfl

/-- Rows of two ranges that follow each other are placed one range after the other. -/
theorem rowsPlaced_append {i position stop : Nat} {starts starts' : List Nat} :
    RowsPlaced m i position (starts ++ starts') stop ↔
      ∃ middle, RowsPlaced m i position starts middle ∧ RowsPlaced m (i + starts.length) middle starts' stop := by
  constructor
  · intro h
    induction starts generalizing i position with
    | nil => exact ⟨position, .nil i position, h⟩
    | cons start starts ih =>
      cases h with
      | cons placed rest =>
        obtain ⟨middle, hfirst, hrest⟩ := ih rest
        refine ⟨middle, .cons placed hfirst, ?_⟩
        rwa [List.length_cons, ← Nat.add_assoc, Nat.add_right_comm]
  · rintro ⟨middle, hfirst, hrest⟩
    induction hfirst with
    | nil => exact hrest
    | cons placed _ ih =>
      rw [List.length_cons, ← Nat.add_assoc, Nat.add_right_comm] at hrest
      exact .cons placed (ih hrest)

/-- The rows of a range reach as far as the last of them. -/
theorem RowsPlaced.extent {i position stop : Nat} {starts : List Nat}
    (h : RowsPlaced m i position starts stop) :
    Span.foldFrom (fun offset j => (m.placeRow offset j).map (·.2)) starts.length i position
      = .ok stop := by
  induction h with
  | nil => rfl
  | cons placed _ ih => exact Span.foldFrom_succ_eq_ok.mpr ⟨_, map_eq_ok.mpr ⟨_, placed, rfl⟩, ih⟩

/-- A row that is placed takes the bytes from its start up to the next row's position. -/
theorem placeRow_byteSize {i position start next : Nat}
    (h : m.placeRow position i = .ok (start, next)) :
    position ≤ start ∧ ∃ size, m.byteSize i = .ok size ∧ next = start + size := by
  unfold placeRow addWord at h
  simp only [bind_eq_ok, pure_eq_ok, Prod.mk.injEq] at h
  obtain ⟨alignment, -, start', hstart, size, hsize, stop, hstop, rfl, rfl⟩ := h
  refine ⟨le_of_alignUp hstart, size, hsize, ?_⟩
  split at hstop
  · exact (Except.ok.inj hstop).symm
  · cases hstop

/-- Rows that are placed take their bytes one after another. -/
theorem RowsPlaced.byteSize {i position stop : Nat} {starts : List Nat}
    (h : RowsPlaced m i position starts stop) : position ≤ stop ∧ ∀ k start, starts[k]? = some start →
      ∃ size, m.byteSize (i + k) = .ok size ∧ position ≤ start ∧ start + size ≤ stop ∧
        (k + 1 = starts.length → stop = start + size) := by
  induction h with
  | nil => exact ⟨Nat.le_refl _, fun k start hk => by cases hk⟩
  | @cons i position first next stop starts placed rest ih =>
    obtain ⟨hle, size, hsize, rfl⟩ := placeRow_byteSize placed
    obtain ⟨hnext, ih⟩ := ih
    refine ⟨by omega, fun k start hk => ?_⟩
    cases k with
    | zero =>
      cases hk
      refine ⟨size, hsize, hle, hnext, fun hlast => ?_⟩
      obtain rfl : starts = [] := List.eq_nil_of_length_eq_zero (by
        rw [List.length_cons] at hlast
        omega)
      cases rest
      rfl
    | succ k =>
      obtain ⟨size', hsize', hposition, hstop, hlast⟩ := ih k start hk
      rw [Nat.add_right_comm] at hsize'
      refine ⟨size', hsize', by omega, hstop, fun h => hlast ?_⟩
      rw [List.length_cons] at h
      omega

/-- Whether the rows that row `i` owns are placed in its block at some offsets. -/
def OffsetsOf (m : Model) (i : Nat) (span : Span) (starts : List Nat) : Prop :=
  m.members i = .ok span ∧ starts.length = span.length ∧
    ∃ stop, RowsPlaced m span.start 0 starts stop

theorem OffsetsOf.memberOffsets {i : Nat} {span : Span} {starts : List Nat}
    (h : m.OffsetsOf i span starts) : m.memberOffsets i = .ok starts := by
  obtain ⟨hmembers, hlength, stop, hplaced⟩ := h
  have hfold := hplaced.offsets []
  rw [hlength, List.append_nil] at hfold
  unfold Model.memberOffsets
  simp only [hmembers, bind_eq_ok, pure_eq_ok, Prod.exists]
  exact ⟨span, rfl, starts.reverse, stop, hfold, List.reverse_reverse starts⟩

/-- The offsets of what a row owns are those where it is placed. -/
theorem memberOffsets_eq_ok {i : Nat} {starts : List Nat} :
    m.memberOffsets i = .ok starts ↔ ∃ span, m.OffsetsOf i span starts := by
  constructor
  · intro h
    unfold Model.memberOffsets at h
    simp only [bind_eq_ok, pure_eq_ok, Prod.exists] at h
    obtain ⟨span, hmembers, found, stop, hfold, rfl⟩ := h
    obtain ⟨starts, hlength, hplaced, hfound⟩ := rowsPlaced_of_offsets hfold
    obtain rfl : found = starts.reverse := hfound.trans (List.append_nil _)
    rw [List.reverse_reverse]
    exact ⟨span, hmembers, hlength, stop, hplaced⟩
  · rintro ⟨span, h⟩
    exact h.memberOffsets

/-- Whether row `i` owns a block of rows. -/
def OwnsBlock (m : Model) (i : Nat) : Prop :=
  ∃ row, m.row i = .ok row ∧ (row.kind = .object ∨ row.kind = .array ∨ row.kind = .dictionary)

/-- The size of a block of rows is where its rows end, rounded up to its alignment. -/
theorem blockSize_eq_ok {i size : Nat} (owns : m.OwnsBlock i) (h : m.blockSize i = .ok size) :
    ∃ span extent alignment, m.members i = .ok span ∧ m.extent span = .ok extent ∧
      m.blockAlignment i = .ok alignment ∧ alignUp extent alignment = .ok size := by
  obtain ⟨row, hrow, hkind⟩ := owns
  unfold blockSize at h
  unfold members
  simp only [hrow, bind_eq_ok, Except.ok.injEq, exists_eq_left'] at h ⊢
  rcases hkind with hkind | hkind | hkind <;> rw [hkind] at h <;>
    simp only [bind_eq_ok] at h <;>
    obtain ⟨span, hspan, extent, hextent, alignment, halignment, hsize⟩ := h <;>
    exact ⟨span, extent, alignment, hspan, hextent, halignment, hsize⟩

/-- Where a block of rows has a size, its rows have offsets, and its alignment is a word. -/
theorem offsets_of_blockSize {i size : Nat} (owns : m.OwnsBlock i)
    (h : m.blockSize i = .ok size) : (∃ span starts, m.OffsetsOf i span starts) ∧
      ∀ alignment, m.blockAlignment i = .ok alignment → alignment < wordLimit := by
  obtain ⟨span, extent, alignment, hspan, hextent, halignment, hsize⟩ := blockSize_eq_ok owns h
  constructor
  · obtain ⟨starts, hlength, hplaced⟩ := rowsPlaced_of_extent hextent
    exact ⟨span, starts, hspan, hlength, extent, hplaced⟩
  · intro alignment' halignment'
    rw [halignment] at halignment'
    cases halignment'
    have hword : 1 < wordLimit := by decide
    unfold alignUp at hsize
    split at hsize
    · omega
    · split at hsize
      · omega
      · cases hsize

end Model

end ObjectPack
