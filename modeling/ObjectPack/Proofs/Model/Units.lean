import ObjectPack.Proofs.Model.Solve

/-!
# Data units of solved models

All data units of a model have roots and belong to the one of the top row.  Rearranging the rows of an object keeps
this (`Model.Rearranges.unitsReached`), so solving the layout keeps it (`Model.solve_unitsReached`).
-/

namespace ObjectPack.Model

open Outcome

variable {m m' : Model} {top i j : Nat} {owner row : Row}

/-! ### Data units -/

/-- Whether all data units of a model have root objects and belong to the data unit of a top row. -/
structure UnitsReached (m : Model) (top : Nat) : Prop where
  reached : ∀ i row s, m.row i = .ok row → row.value = .dataUnit s → m.Reaches top i
  rooted : ∀ i row s, m.row i = .ok row → row.value = .dataUnit s → ∃ root, row.start = some root

/-- A data unit that moves with the rows of an object still belongs to the object. -/
theorem Rearranges.unitsReached {before fields behind kept words rest copies : List Row}
    (h : m.Rearranges m' i owner before fields behind kept words rest copies)
    (wellFormed : m.WellFormed top) (before' : m.UnitsReached top) : m'.UnitsReached top where
  reached := by
    intro j row s hrow hvalue
    have hkind := (h.fits_row wellFormed hrow).kind_of_dataUnit hvalue
    cases h.origin wellFormed hrow with
    | same outside _ hrow =>
      exact (h.reaches wellFormed (before'.reached j row s hrow hvalue)).1 outside
    | owner _ hrow =>
      rw [hrow, show (shrunk owner kept words).kind = owner.kind from rfl, h.kind] at hkind
      cases hkind
    | kept k inside hrow former =>
      obtain ⟨hreached, hpresent⟩ :=
        (h.reaches wellFormed (before'.reached k row s hrow hvalue)).2 former
      exact .owned hreached (h.row_owner wellFormed) hpresent inside
    | word _ hmem =>
      rw [(h.fits row hmem).1] at hkind
      cases hkind
    | spare hbool _ =>
      rw [hbool] at hkind
      cases hkind
  rooted := by
    intro j row s hrow hvalue
    have hkind := (h.fits_row wellFormed hrow).kind_of_dataUnit hvalue
    obtain ⟨k, hk⟩ := h.exists_unit wellFormed hrow hkind
    exact before'.rooted k row s hk hvalue

/-- Solving the layout keeps all data units below the one of the top row. -/
theorem solve_unitsReached {result : Model × Nat} (whole : m.Whole top) (units : m.UnitsReached top)
    (h : m.solve = .ok result) : result.1.UnitsReached top :=
  (solve_rearranges (P := fun m => m.UnitsReached top)
    (fun _ _ _ _ _ _ _ _ _ _ _ hwhole hunits hrearranges =>
      hrearranges.unitsReached hwhole.toWellFormed hunits) whole units h).2

end ObjectPack.Model
