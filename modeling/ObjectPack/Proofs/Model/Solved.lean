import ObjectPack.Proofs.Model.Tour

/-!
# Solving keeps the meaning

A model whose layout has been solved means what it has meant (`Model.Solved`, `Model.solve_solved`):
objects have the same fields in another order, with their booleans as bits of words, elements have not
moved, data units still have their roots, and every object has been folded once and sorted once by every
pass.
-/

namespace ObjectPack

open Outcome

namespace Model

/-- Which rows stand below a row: the row itself, what it owns, what that owns, and so on.  What a data
unit owns is shared with others and does not count. -/
inductive Below (m : Model) (i : Nat) : Nat → Prop
  | self : Below m i i
  | owned {j k : Nat} {r : Row} (below : Below m i j) (hrow : m.row j = .ok r)
      (kind : r.kind ≠ .dataUnit) (owns : r.Owns k) : Below m i k

/-- Whether one model comes from another one by a number of passes, each of which has sorted the fields of
every object of model `m` once. -/
inductive SortedInPasses (m : Model) : Nat → Model → (Nat → Nat) → Model → (Nat → Nat) → Prop
  | none {m₁ : Model} {p : Nat → Nat} : SortedInPasses m 0 m₁ p m₁ p
  | pass {n : Nat} {m₁ m₂ m₃ : Model} {moved : Bool} {p q s : Nat → Nat}
      (sorts : m₁.sortAll = .ok (m₂, moved)) (once : m.SortedOnce m₁ m₂ p q)
      (rest : SortedInPasses m n m₂ q m₃ s) : SortedInPasses m (n + 1) m₁ p m₃ s

/-- Whether a model whose layout has been solved in a number of passes means what it has meant; `place`
tells where its rows stand now. -/
structure Solved (m m' : Model) (passes : Nat) (place : Nat → Nat) : Prop where
  injective : ∀ i j, i < m.size → j < m.size → place i = place j → i = j
  /-- Rows keep all their columns, but for the count of objects. -/
  row : ∀ i r, m.row i = .ok r → m'.row (place i) = .ok (m.foldedRow r)
  /-- Objects keep their fields that are no booleans, with all that stands below them. -/
  field : ∀ k o i r, m.IsObject k o → o.Owns i → m.row i = .ok r → r.kind ≠ .bool →
    (m.foldedRow o).Owns (place i)
  below : ∀ i j, m.Below i j → m'.Below (place i) (place j)
  belowOnly : ∀ i j, i < m.size → m'.Below (place i) j → (∃ k, m.Below i k ∧ place k = j) ∨
    ∃ w, m'.row j = .ok w ∧ w.kind = .bitSet ∧ ∀ l, w.Owns l → ∃ k, m.Below i k ∧ place k = l
  /-- A boolean is one bit of one word of its object. -/
  bool : ∀ k o i r, m.IsObject k o → o.Owns i → m.row i = .ok r → r.kind = .bool →
    ∃! j, (m.foldedRow o).Owns j ∧ ∃ w, m'.row j = .ok w ∧
      w.HoldsBit (place i) (decide (r.value = .bool true))
  /-- Objects own nothing else. -/
  owned : ∀ k o j, m.IsObject k o → (m.foldedRow o).Owns j →
    (∃ i r, o.Owns i ∧ m.row i = .ok r ∧ r.kind ≠ .bool ∧ place i = j) ∨
      ∃ w, m'.row j = .ok w ∧ w.kind = .bitSet ∧ ∀ l, w.Owns l →
        ∃ i r, o.Owns i ∧ m.row i = .ok r ∧ r.kind = .bool ∧ place i = l
  objects : ∀ j r, m'.IsObject j r → ∃ i o, m.IsObject i o ∧ place i = j
  /-- Rows that no object owns keep their index, the elements of collections among them. -/
  still : ∀ i, (∀ k o, m.IsObject k o → ¬ o.Owns i) → place i = i
  element : ∀ c r i, m.row c = .ok r → r.kind = .array ∨ r.kind = .dictionary → r.Owns i → place i = i
  /-- Data units keep their roots. -/
  root : ∀ i r root, m.row i = .ok r → r.kind = .dataUnit → r.start = some root →
    m'.row (place i) = .ok r ∧ place root = root ∧
      ∃ o, m.IsObject root o ∧ o.value = .present ∧ m'.row root = .ok (m.foldedRow o)
  visits : ∃ m₁ p, m.foldAll = .ok m₁ ∧ m.FoldedOnce m₁ p ∧ m.SortedInPasses passes m₁ p m' place

variable {m m' m₁ : Model} {top i j k : Nat} {o r : Row} {p place : Nat → Nat}

/-- What an object owns, no other row owns. -/
theorem WellFormed.not_owns_of_object (h : m.WellFormed top) (hrow : m.row i = .ok r)
    (kind : r.kind ≠ .object) (owns : r.Owns j) (object : m.IsObject k o) : ¬ o.Owns j := by
  intro howns
  obtain rfl := h.eq_of_owns object.1 hrow howns owns object.kind_ne
  obtain rfl := Except.ok.inj (object.1.symm.trans hrow)
  exact kind object.2

/-- Sorting until nothing moves is a number of passes. -/
theorem sortUntilStable_passes {limit passes : Nat} {result : Model × Nat} (whole : m.Whole top)
    (whole' : m₁.Whole top) (ordered : m₁.Ordered) (tracks : Tracks m m₁ (fun _ => True) p)
    (h : sortUntilStable limit m₁ passes = .ok result) : ∃ n q, result.2 = passes + n ∧
      result.1.Whole top ∧ Tracks m result.1 (fun _ => True) q ∧
      m.SortedInPasses n m₁ p result.1 q := by
  induction limit generalizing m₁ passes p with
  | zero =>
    cases h
    exact ⟨0, p, rfl, whole', tracks, .none⟩
  | succ limit ih =>
    unfold sortUntilStable at h
    obtain ⟨⟨m₂, moved⟩, hsort, h⟩ := bind_eq_ok.mp h
    obtain ⟨q, hwhole, hordered, htracks, honce⟩ := sortAll_sortedOnce whole whole' ordered tracks hsort
    cases moved with
    | true =>
      obtain ⟨n, s, hpasses, hwhole', htracks', hrest⟩ := ih hwhole hordered htracks h
      exact ⟨n + 1, s, by omega, hwhole', htracks', .pass hsort honce hrest⟩
    | false =>
      obtain rfl := pure_eq_ok.mp h
      exact ⟨1, q, rfl, hwhole, htracks, .pass hsort honce .none⟩

theorem WellFormed.lt_size_of_below (h : m.WellFormed top) (hi : i < m.size) (below : m.Below i j) :
    j < m.size := by
  induction below with
  | self => exact hi
  | owned _ hrow _ howns _ => exact h.inside _ _ hrow _ howns

namespace Tracks

/-- What is owned, but not by an object, has not moved. -/
theorem still_of_row (h : Tracks m m' (fun _ => True) place) (wellFormed : m.WellFormed top)
    (hrow : m.row i = .ok r) (kind : r.kind ≠ .object) (owns : r.Owns j) : place j = j :=
  h.still j fun _ _ ho _ => wellFormed.not_owns_of_object hrow kind owns ho

/-- What stands below a row stands below it at its new place. -/
theorem below (h : Tracks m m' (fun _ => True) place) (wellFormed : m.WellFormed top)
    (below : m.Below i j) : m'.Below (place i) (place j) := by
  induction below with
  | self => exact .self
  | @owned j k r _ hrow hkind howns ih =>
    by_cases hobject : r.kind = .object
    · have hrow' := h.folded j r hrow trivial
      have hkind' : (m.foldedRow r).kind ≠ .dataUnit := by rwa [foldedRow_kind]
      obtain ⟨s, hs⟩ := exists_row_of_lt (wellFormed.inside j r hrow k howns)
      by_cases hbool : s.kind = .bool
      · -- The boolean stands below a word.
        obtain ⟨l, w, hl, hw, hbit⟩ := h.bool j r k s ⟨hrow, hobject⟩ trivial howns hs hbool
        exact (ih.owned hrow' hkind' hl).owned hw (by rw [hbit.1]; decide) hbit.owns
      · exact ih.owned hrow' hkind' (h.field j r k s ⟨hrow, hobject⟩ trivial howns hs hbool)
    · rw [h.still_of_row wellFormed hrow hobject howns]
      exact ih.owned (h.row_of_ne hrow hobject) hkind howns

/-- Nothing else stands below a row at its new place, but for words of booleans that stood below it. -/
theorem below_only (h : Tracks m m' (fun _ => True) place) (wellFormed : m.WellFormed top)
    (hi : i < m.size) (below : m'.Below (place i) j) : (∃ k, m.Below i k ∧ place k = j) ∨
      ∃ w, m'.row j = .ok w ∧ w.kind = .bitSet ∧ ∀ l, w.Owns l → ∃ k, m.Below i k ∧ place k = l := by
  induction below with
  | self => exact Or.inl ⟨i, .self, rfl⟩
  | @owned j l r' _ hrow' hkind howns ih =>
    rcases ih with ⟨k, hk, rfl⟩ | ⟨w, hw, -, hbits⟩
    · obtain ⟨r, hrow⟩ := exists_row_of_lt (wellFormed.lt_size_of_below hi hk)
      obtain rfl := Except.ok.inj ((h.folded k r hrow trivial).symm.trans hrow')
      rw [foldedRow_kind] at hkind
      by_cases hobject : r.kind = .object
      · rcases h.owned k r l ⟨hrow, hobject⟩ trivial howns with
          ⟨f, s, hf, -, -, rfl⟩ | ⟨w, hw, hword, hbits⟩
        · exact Or.inl ⟨f, hk.owned hrow hkind hf, rfl⟩
        · refine Or.inr ⟨w, hw, hword, fun x hx => ?_⟩
          obtain ⟨b, s, hb, -, -, rfl⟩ := hbits x hx
          exact ⟨b, hk.owned hrow hkind hb, rfl⟩
      · rw [foldedRow_of_ne m hobject] at howns
        exact Or.inl ⟨l, hk.owned hrow hkind howns, h.still_of_row wellFormed hrow hobject howns⟩
    · obtain rfl := Except.ok.inj (hw.symm.trans hrow')
      exact Or.inl (hbits l howns)

end Tracks

theorem Solved.size_le {passes : Nat} (h : m.Solved m' passes place) : m.size ≤ m'.size := by
  refine size_le_of_injective h.injective fun i hi => ?_
  obtain ⟨r, hr⟩ := exists_row_of_lt hi
  exact lt_size_of_row (h.row i r hr)

/-- Solving the layout of a model keeps what it means. -/
theorem solve_solved {result : Model × Nat} (whole : m.Whole top) (ordered : m.Ordered)
    (h : m.solve = .ok result) : ∃ place, m.Solved result.1 result.2 place := by
  have wellFormed := whole.toWellFormed
  unfold solve at h
  obtain ⟨m₁, hfold, hsort⟩ := bind_eq_ok.mp h
  -- Folding and sorting each tell where rows have gone; the places of sorting start from those of folding.
  obtain ⟨p, hwhole, hordered, htracks, honce⟩ := foldAll_foldedOnce whole ordered hfold
  obtain ⟨n, place, hpasses, hwhole', hplace, hsorted⟩ :=
    sortUntilStable_passes whole hwhole hordered htracks hsort
  obtain rfl : n = result.2 := by omega
  refine ⟨place, ?_⟩
  exact
    { injective := hplace.injective
      row := fun i r hrow => hplace.folded i r hrow trivial
      field := fun k o i r ho => hplace.field k o i r ho trivial
      below := fun _ _ hbelow => hplace.below wellFormed hbelow
      belowOnly := fun _ _ hi hbelow => hplace.below_only wellFormed hi hbelow
      bool := by
        intro k o i r ho howns hrow hkind
        obtain ⟨j, w, hj, hw, hbit⟩ := hplace.bool k o i r ho trivial howns hrow hkind
        refine ⟨j, ⟨hj, w, hw, hbit⟩, ?_⟩
        rintro j' ⟨-, w', hw', hbit'⟩
        exact hwhole'.eq_of_owns hw' hw hbit'.owns hbit.owns (by rw [hbit'.1]; decide)
      owned := fun k o j ho => hplace.owned k o j ho trivial
      objects := hplace.objects
      still := fun i hnone => hplace.still i fun k o ho _ => hnone k o ho
      element := by
        intro c r i hrow hkind howns
        refine hplace.still_of_row wellFormed hrow ?_ howns
        rcases hkind with hkind | hkind <;> rw [hkind] <;> decide
      root := by
        intro i r root hrow hkind hstart
        have hother : r.kind ≠ .object := by
          rw [hkind]
          decide
        obtain ⟨hcount, o, ho, hobject, hpresent⟩ := wellFormed.roots i r root hrow hkind hstart
        have howns : r.Owns root := by
          refine ⟨root, hstart, Nat.le_refl _, ?_⟩
          rw [Row.ownedCount, hkind, hcount]
          exact Nat.lt_succ_self _
        have hstill := hplace.still_of_row wellFormed hrow hother howns
        refine ⟨hplace.row_of_ne hrow hother, hstill, o, ⟨ho, hobject⟩, hpresent, ?_⟩
        have hroot := hplace.folded root o ho trivial
        rwa [hstill] at hroot
      visits := ⟨m₁, p, hfold, honce, hsorted⟩ }

end Model

end ObjectPack
